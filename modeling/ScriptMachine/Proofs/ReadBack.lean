import ScriptMachine.Ast.Build
import ScriptMachine.Ast.Decode
import ScriptMachine.Json.Printer

/-!
# Programs read back from their documents

A program that was written as a document is read back as the same program, whatever nodes it is made of and
whichever optional parts are absent.

1. **What a text carries** (`Json.carried`): a document without the floats that have no text. It has the same text as
   the document itself.
2. **Parts of a node**: the parts of an object whose members have different names are its members, and an optional part
   that is not written as `null` is there.
3. **Trees that fit** (`Program.Fits`): floats are finite, and lines are words of 32 bits. All other numbers of a tree
   are integers that a document can hold.
4. **Nodes**: one case for each kind of node, by recursion on the tree. Reading consumes fuel at each node, and there
   is enough of it because a document is deeper than the documents inside it.
5. **Programs**: `Program.reads_back`.
-/

namespace ScriptMachine

/-! ## What a text carries -/

namespace Json

mutual

/-- The document that the text of a document stands for: infinities and NaN have no text and are written as `null`. -/
def carried : Json → Json
  | .arr items => .arr (carriedItems items)
  | .obj fields => .obj (carriedFields fields)
  | .float x => if x.isFinite then .float x else .null
  | .null => .null
  | .bool b => .bool b
  | .int n => .int n
  | .str s => .str s
termination_by structural j => j

def carriedItems : List Json → List Json
  | [] => []
  | j :: js => carried j :: carriedItems js
termination_by structural js => js

def carriedFields : List (String × Json) → List (String × Json)
  | [] => []
  | (k, j) :: js => (k, carried j) :: carriedFields js
termination_by structural js => js

end

/-- Every float is a NaN, infinite or finite. -/
theorem isNaN_or_isInf (x : Float) : (x.isNaN || x.isInf) = !x.isFinite := by
  unfold Float.isNaN Float.isInf Float.isFinite Float.Model.isNaN Float.Model.isInf Float.Model.isFinite
  cases x.toModel.unpack <;> rfl

mutual

/-- The text of a document is that of what it carries. -/
theorem layout_carried (level : Nat) : (j : Json) → layout level j.carried = layout level j
  | .float x => by
    cases hx : x.isFinite with
    | true => rw [carried, if_pos hx]
    | false =>
      have htoken : floatToken x = "null" := by
        rw [floatToken, isNaN_or_isInf, hx]
        rfl
      rw [carried, if_neg (Bool.eq_false_iff.mp hx), layout, layout, htoken]
  | .arr [] | .obj [] => rfl
  | .arr (j :: js) => by
    rw [carried, carriedItems, layout, layout, layout_carried _ j, layoutItems_carried _ js]
  | .obj ((k, j) :: js) => by
    rw [carried, carriedFields, layout, layout, layout_carried _ j, layoutFields_carried _ js]
  | .null | .bool _ | .int _ | .str _ => rfl
termination_by structural j => j

theorem layoutItems_carried (level : Nat) : (js : List Json) →
    layoutItems level (carriedItems js) = layoutItems level js
  | [] => rfl
  | j :: js => by rw [carriedItems, layoutItems, layoutItems, layout_carried _ j, layoutItems_carried _ js]
termination_by structural js => js

theorem layoutFields_carried (level : Nat) : (js : List (String × Json)) →
    layoutFields level (carriedFields js) = layoutFields level js
  | [] => rfl
  | (k, j) :: js => by rw [carriedFields, layoutFields, layoutFields, layout_carried _ j, layoutFields_carried _ js]
termination_by structural js => js

end

theorem pretty_carried (j : Json) : j.carried.pretty = j.pretty := layout_carried 0 j

/-! ## Parts of a node -/

/-- Items that are read one by one. -/
theorem mapM_map {α β γ : Type} {f : β → Option γ} {g : α → β} {h : α → γ} {as : List α}
    (hread : ∀ a ∈ as, f (g a) = some (h a)) : (as.map g).mapM f = some (as.map h) := by
  induction as with
  | nil => rfl
  | cons a as ih =>
    have hhead := hread a List.mem_cons_self
    have htail := ih fun b hb => hread b (List.mem_cons_of_mem _ hb)
    simp [List.mapM_cons, hhead, htail]

/-- Among members with distinct names, one is alone with its name. -/
theorem filter_name_eq {fields : List (String × Json)} (hdistinct : (fields.map Prod.fst).Nodup)
    {f : String × Json} (hf : f ∈ fields) : (fields.filter fun g => g.1 == f.1) = [f] := by
  induction fields with
  | nil => cases hf
  | cons g fields ih =>
    rw [List.map_cons, List.nodup_cons] at hdistinct
    rcases hdistinct with ⟨hnew, hrest⟩
    rcases List.mem_cons.mp hf with rfl | hf
    · have hnone : (fields.filter fun g => g.1 == f.1) = [] := by
        rw [List.filter_eq_nil_iff]
        intro g hg heq
        exact hnew (List.mem_map.mpr ⟨g, hg, beq_iff_eq.mp heq⟩)
      simp [hnone]
    · have hne : g.1 ≠ f.1 := fun heq => hnew (List.mem_map.mpr ⟨f, hf, heq.symm⟩)
      simpa [List.filter_cons, hne] using ih hrest hf

/-- The parts of an object whose members have the wanted names, each once. -/
theorem parts?_obj {names : List String} {fields : List (String × Json)} (hnames : fields.map Prod.fst = names)
    (hdistinct : names.Nodup) : parts? names (.obj fields) = some (fields.map fun f => some f.2) := by
  subst hnames
  refine mapM_map fun f hf => ?_
  simp only [filter_name_eq hdistinct hf]

/-- A part that is read is present, unless `null` is read as well. -/
theorem optional?_some {α : Type} {f : Json → Option α} {j : Json} {a : α} (hnull : f .null = none)
    (h : f j = some a) : optional? f (some j) = some (some a) := by
  cases j with
  | null => rw [hnull] at h; cases h
  | _ => simp [optional?, h]

theorem optional?_ofOption {α : Type} {f : Json → Option α} {g : α → Json} {o : Option α} (hnull : f .null = none)
    (h : ∀ a ∈ o, f (g a).carried = some a) : optional? f (some (ofOption g o).carried) = some o := by
  cases o with
  | none => rfl
  | some a => exact optional?_some hnull (h a rfl)

end Json

/-! ## Trees whose documents carry them -/

/-- The line is a word of 32 bits. -/
def Span.Fits (s : Span) : Prop := s.line < Word.limit32

def Ident.Fits (id : Ident) : Prop := id.span.Fits

/-- A float is finite. -/
def Literal.Fits : Literal → Prop
  | .float x => x.isFinite = true
  | _ => True

mutual

/-- All floats of the tree are finite, and all lines are words of 32 bits. -/
def Expr.Fits : Expr → Prop
  | .literal l s => l.Fits ∧ s.Fits
  | .ident id => id.Fits
  | .unary _ e s => e.Fits ∧ s.Fits
  | .binary _ l r s => l.Fits ∧ r.Fits ∧ s.Fits
  | .ternary c y n s => c.Fits ∧ y.Fits ∧ n.Fits ∧ s.Fits
  | .cond c y n s => c.Fits ∧ y.Fits ∧ optBlockFits n ∧ s.Fits
  | .function f => f.Fits
  | .call f args s => f.Fits ∧ exprsFit args ∧ s.Fits
  | .array es _ s => elementsFit es ∧ s.Fits
  | .index t i s => t.Fits ∧ i.Fits ∧ s.Fits
  | .hash ps s => pairsFit ps ∧ s.Fits
  | .assign t v s => t.Fits ∧ v.Fits ∧ s.Fits
  | .indexAssign t i v s => t.Fits ∧ i.Fits ∧ v.Fits ∧ s.Fits
  | .member t m s => t.Fits ∧ m.Fits ∧ s.Fits
  | .memberAssign t m v s => t.Fits ∧ m.Fits ∧ v.Fits ∧ s.Fits
  | .spawn f args s => f.Fits ∧ exprsFit args ∧ s.Fits
  | .channel c s => optExprFits c ∧ s.Fits
  | .send c v s => c.Fits ∧ v.Fits ∧ s.Fits
  | .receive c s => c.Fits ∧ s.Fits
  | .this s => s.Fits
  | .super m s => m.Fits ∧ s.Fits
termination_by structural e => e

def exprsFit : List Expr → Prop
  | [] => True
  | e :: es => e.Fits ∧ exprsFit es
termination_by structural es => es

def elementsFit : List Element → Prop
  | [] => True
  | e :: es => e.Fits ∧ elementsFit es
termination_by structural es => es

def Element.Fits : Element → Prop
  | ⟨k, v⟩ => optExprFits k ∧ v.Fits
termination_by structural e => e

def pairsFit : List (Expr × Expr) → Prop
  | [] => True
  | (k, v) :: ps => (k.Fits ∧ v.Fits) ∧ pairsFit ps
termination_by structural ps => ps

def Block.Fits : Block → Prop
  | ⟨ss, s⟩ => stmtsFit ss ∧ s.Fits
termination_by structural b => b

def FunctionLiteral.Fits : FunctionLiteral → Prop
  | ⟨_, params, body, s⟩ => (∀ p ∈ params, p.Fits) ∧ body.Fits ∧ s.Fits
termination_by structural f => f

def CatchClause.Fits : CatchClause → Prop
  | ⟨param, body⟩ => (∀ p ∈ param, p.Fits) ∧ body.Fits
termination_by structural c => c

def Stmt.Fits : Stmt → Prop
  | .bind name v _ s => name.Fits ∧ v.Fits ∧ s.Fits
  | .expr e s => e.Fits ∧ s.Fits
  | .block b => b.Fits
  | .ret v s => optExprFits v ∧ s.Fits
  | .forLoop init condition update body s =>
    optStmtFits init ∧ optExprFits condition ∧ optExprFits update ∧ body.Fits ∧ s.Fits
  | .whileLoop c body s => c.Fits ∧ body.Fits ∧ s.Fits
  | .breakLoop s | .continueLoop s => s.Fits
  | .classDecl name parent body s => name.Fits ∧ (∀ p ∈ parent, p.Fits) ∧ stmtsFit body ∧ s.Fits
  | .tryCatch body handler cleanup s => body.Fits ∧ optCatchFits handler ∧ optBlockFits cleanup ∧ s.Fits
  | .throw v s => v.Fits ∧ s.Fits
termination_by structural s => s

def stmtsFit : List Stmt → Prop
  | [] => True
  | s :: ss => s.Fits ∧ stmtsFit ss
termination_by structural ss => ss

def optStmtFits : Option Stmt → Prop
  | none => True
  | some s => s.Fits
termination_by structural s => s

def optExprFits : Option Expr → Prop
  | none => True
  | some e => e.Fits
termination_by structural e => e

def optBlockFits : Option Block → Prop
  | none => True
  | some b => b.Fits
termination_by structural b => b

def optCatchFits : Option CatchClause → Prop
  | none => True
  | some c => c.Fits
termination_by structural c => c

end

/-! ## Names, spans and literals -/

theorem Span.ofJson?_carried {s : Span} (h : s.Fits) : Span.ofJson? s.toJson.carried = some s := by
  unfold Span.Fits at h
  simp [Span.ofJson?, Span.toJson, Json.carried, Json.carriedFields, Json.parts?_obj, Json.nat?, h]

theorem Ident.ofJson?_carried {id : Ident} (h : id.Fits) : Ident.ofJson? id.toJson.carried = some id := by
  have hspan := Span.ofJson?_carried h
  simp [Ident.ofJson?, Ident.toJson, Json.carried, Json.carriedFields, Json.parts?_obj, Json.str?, hspan]

theorem Ident.optional?_carried {o : Option Ident} (h : ∀ id ∈ o, id.Fits) :
    Json.optional? Ident.ofJson? (some (Json.ofOption Ident.toJson o).carried) = some o :=
  Json.optional?_ofOption rfl fun id hid => Ident.ofJson?_carried (h id hid)

theorem Ident.mapM_carried {ids : List Ident} (h : ∀ id ∈ ids, id.Fits) :
    (Json.carriedItems (ids.map Ident.toJson)).mapM Ident.ofJson? = some ids := by
  induction ids with
  | nil => rfl
  | cons id ids ih =>
    have hhead := Ident.ofJson?_carried (h id List.mem_cons_self)
    have htail := ih fun other hother => h other (List.mem_cons_of_mem _ hother)
    simp [Json.carriedItems, List.mapM_cons, hhead, htail]

/-- Every word of 64 bits is in range. -/
theorem Word.signed64?_toInt (n : Int64) : Word.signed64? n.toInt = some n := by
  have hlow := n.le_toInt
  have hhigh := n.toInt_lt
  have hfits : Word.isSigned64 n.toInt = true := by
    have hlimit : (Word.limit63 : Int) = 9223372036854775808 := rfl
    simp only [Word.isSigned64, hlimit, Bool.and_eq_true, decide_eq_true_eq]
    omega
  rw [Word.signed64?, if_pos hfits, Int64.ofInt_toInt]

theorem Literal.ofJson?_carried {lenient : Leniency} {l : Literal} (h : l.Fits) :
    Literal.ofJson? lenient l.toJson.carried = some l := by
  cases l with
  | int n => exact congrArg (Option.map Literal.int) (Word.signed64?_toInt n)
  | float x =>
    have hx : x.isFinite = true := h
    simp [Literal.toJson, Json.carried, Json.carriedFields, hx, Literal.ofJson?, Json.variant?]
  | _ => rfl

/-! ## Nodes -/

section

variable {lenient : Leniency}

/-- There is fuel wherever there is a document. -/
theorem Json.exists_fuel {j : Json} {n : Nat} (h : j.depth ≤ n) : ∃ m, n = m + 1 := by
  have hpos : 0 < j.depth := by cases j <;> simp [Json.depth]
  exact ⟨n - 1, by omega⟩

/-- The kind of a node selects what reads its content, before that is looked at. -/
theorem Json.variant?_bind {α : Type} (kind : String) (c : Json) (f : String × Option Json → Option α) :
    (Json.variant? (.obj [(kind, c)])).bind f = f (kind, some c) := rfl

/-! Optional parts are written in one way, wherever they stand. -/

theorem Expr.toJson_cond (c : Expr) (y : Block) (n : Option Block) (s : Span) :
    (Expr.cond c y n s).toJson = .node "If" [("condition", c.toJson), ("consequence", y.toJson),
      ("alternative", optBlockToJson n), ("span", s.toJson)] := by
  cases n <;> rfl

theorem Expr.toJson_channel (c : Option Expr) (s : Span) :
    (Expr.channel c s).toJson = .node "Channel" [("capacity", optExprToJson c), ("span", s.toJson)] := by
  cases c <;> rfl

theorem Stmt.toJson_ret (v : Option Expr) (s : Span) :
    (Stmt.ret v s).toJson = .node "Return" [("value", optExprToJson v), ("span", s.toJson)] := by
  cases v <;> rfl

theorem Element.toJson_mk (k : Option Expr) (v : Expr) :
    (Element.mk k v).toJson = .obj [("key", optExprToJson k), ("value", v.toJson)] := by
  cases k <;> rfl

/-! Nothing is read from `null`, so that it stands for nothing else than an absent part. -/

theorem Expr.read?_null (n : Nat) : Expr.read? lenient n .null = none := by
  cases n <;> rfl

theorem Block.read?_null (n : Nat) : Block.read? lenient n .null = none := by
  cases n <;> rfl

theorem CatchClause.read?_null (n : Nat) : CatchClause.read? lenient n .null = none := by
  cases n <;> rfl

theorem Stmt.read?_null (n : Nat) : Stmt.read? lenient n .null = none := by
  cases n <;> rfl

mutual

/-- An expression is read back with as much fuel as its document is deep. -/
theorem Expr.read?_carried : (e : Expr) → e.Fits → (n : Nat) → e.toJson.carried.depth ≤ n →
    Expr.read? lenient n e.toJson.carried = some e
  | .literal l s, ⟨hl, hs⟩, n, hd => by
    rcases Json.exists_fuel hd with ⟨n, rfl⟩
    simp only [Expr.toJson, Json.carried, Json.carriedFields]
    -- from the outside in: the kind selects the branch before simp enters any of them
    simp only [Expr.read?, ↓Json.variant?_bind, ↓Option.bind_eq_bind, ↓Option.bind_some]
    simp [Json.carriedItems, Literal.ofJson?_carried hl, Span.ofJson?_carried hs]
  | .ident id, hid, n, hd => by
    rcases Json.exists_fuel hd with ⟨n, rfl⟩
    simp only [Expr.toJson, Json.carried, Json.carriedFields]
    simp only [Expr.read?, ↓Json.variant?_bind, ↓Option.bind_eq_bind, ↓Option.bind_some]
    simp [Ident.ofJson?_carried hid]
  | .unary op e s, ⟨he, hs⟩, n, hd => by
    rcases Json.exists_fuel hd with ⟨n, rfl⟩
    simp only [Expr.toJson, Json.node, Json.carried, Json.carriedFields, Json.depth, Json.depthFields] at hd ⊢
    have he := Expr.read?_carried e he n (by omega)
    simp only [Expr.read?, ↓Json.variant?_bind, ↓Option.bind_eq_bind, ↓Option.bind_some]
    simp [Json.parts?_obj, Json.str?, he, Span.ofJson?_carried hs]
  | .binary op l r s, ⟨hl, hr, hs⟩, n, hd => by
    rcases Json.exists_fuel hd with ⟨n, rfl⟩
    simp only [Expr.toJson, Json.node, Json.carried, Json.carriedFields, Json.depth, Json.depthFields] at hd ⊢
    have hl := Expr.read?_carried l hl n (by omega)
    have hr := Expr.read?_carried r hr n (by omega)
    simp only [Expr.read?, ↓Json.variant?_bind, ↓Option.bind_eq_bind, ↓Option.bind_some]
    simp [Json.parts?_obj, Json.str?, hl, hr, Span.ofJson?_carried hs]
  | .ternary c y z s, ⟨hc, hy, hz, hs⟩, n, hd => by
    rcases Json.exists_fuel hd with ⟨n, rfl⟩
    simp only [Expr.toJson, Json.node, Json.carried, Json.carriedFields, Json.depth, Json.depthFields] at hd ⊢
    have hc := Expr.read?_carried c hc n (by omega)
    have hy := Expr.read?_carried y hy n (by omega)
    have hz := Expr.read?_carried z hz n (by omega)
    simp only [Expr.read?, ↓Json.variant?_bind, ↓Option.bind_eq_bind, ↓Option.bind_some]
    simp [Json.parts?_obj, hc, hy, hz, Span.ofJson?_carried hs]
  | .cond c y z s, ⟨hc, hy, hz, hs⟩, n, hd => by
    rcases Json.exists_fuel hd with ⟨n, rfl⟩
    simp only [Expr.toJson_cond, Json.node, Json.carried, Json.carriedFields, Json.depth, Json.depthFields] at hd ⊢
    have hc := Expr.read?_carried c hc n (by omega)
    have hy := Block.read?_carried y hy n (by omega)
    have hz := Block.optional?_carried z hz n (by omega)
    simp only [Expr.read?, ↓Json.variant?_bind, ↓Option.bind_eq_bind, ↓Option.bind_some]
    simp [Json.parts?_obj, hc, hy, hz, Span.ofJson?_carried hs]
  | .function f, hf, n, hd => by
    rcases Json.exists_fuel hd with ⟨n, rfl⟩
    simp only [Expr.toJson, Json.carried, Json.carriedFields, Json.depth, Json.depthFields] at hd ⊢
    have hf := FunctionLiteral.read?_carried f hf n (by omega)
    simp only [Expr.read?, ↓Json.variant?_bind, ↓Option.bind_eq_bind, ↓Option.bind_some]
    simp [hf]
  | .call f args s, ⟨hf, hargs, hs⟩, n, hd => by
    rcases Json.exists_fuel hd with ⟨n, rfl⟩
    simp only [Expr.toJson, Json.node, Json.carried, Json.carriedFields, Json.depth, Json.depthFields] at hd ⊢
    have hf := Expr.read?_carried f hf n (by omega)
    have hargs := Expr.mapM_carried args hargs n (by omega)
    simp only [Expr.read?, ↓Json.variant?_bind, ↓Option.bind_eq_bind, ↓Option.bind_some]
    simp [Json.parts?_obj, Json.items?, hf, hargs, Span.ofJson?_carried hs]
  | .array es ordered s, ⟨hes, hs⟩, n, hd => by
    rcases Json.exists_fuel hd with ⟨n, rfl⟩
    simp only [Expr.toJson, Json.node, Json.carried, Json.carriedFields, Json.depth, Json.depthFields] at hd ⊢
    have hes := Element.mapM_carried es hes n (by omega)
    simp only [Expr.read?, ↓Json.variant?_bind, ↓Option.bind_eq_bind, ↓Option.bind_some]
    simp [Json.parts?_obj, Json.items?, Json.bool?, hes, Span.ofJson?_carried hs]
  | .index t i s, ⟨ht, hi, hs⟩, n, hd => by
    rcases Json.exists_fuel hd with ⟨n, rfl⟩
    simp only [Expr.toJson, Json.node, Json.carried, Json.carriedFields, Json.depth, Json.depthFields] at hd ⊢
    have ht := Expr.read?_carried t ht n (by omega)
    have hi := Expr.read?_carried i hi n (by omega)
    simp only [Expr.read?, ↓Json.variant?_bind, ↓Option.bind_eq_bind, ↓Option.bind_some]
    simp [Json.parts?_obj, ht, hi, Span.ofJson?_carried hs]
  | .hash ps s, ⟨hps, hs⟩, n, hd => by
    rcases Json.exists_fuel hd with ⟨n, rfl⟩
    simp only [Expr.toJson, Json.node, Json.carried, Json.carriedFields, Json.depth, Json.depthFields] at hd ⊢
    have hps := Expr.mapM_pairs_carried ps hps n (by omega)
    simp only [Expr.read?, ↓Json.variant?_bind, ↓Option.bind_eq_bind, ↓Option.bind_some]
    simp [Json.parts?_obj, Json.items?, Span.ofJson?_carried hs]
    -- what is left is the reader of a pair, the same function in both places
    exact congrArg (Option.bind · _) hps
  | .assign t v s, ⟨ht, hv, hs⟩, n, hd => by
    rcases Json.exists_fuel hd with ⟨n, rfl⟩
    simp only [Expr.toJson, Json.node, Json.carried, Json.carriedFields, Json.depth, Json.depthFields] at hd ⊢
    have hv := Expr.read?_carried v hv n (by omega)
    simp only [Expr.read?, ↓Json.variant?_bind, ↓Option.bind_eq_bind, ↓Option.bind_some]
    simp [Json.parts?_obj, hv, Ident.ofJson?_carried ht, Span.ofJson?_carried hs]
  | .indexAssign t i v s, ⟨ht, hi, hv, hs⟩, n, hd => by
    rcases Json.exists_fuel hd with ⟨n, rfl⟩
    simp only [Expr.toJson, Json.node, Json.carried, Json.carriedFields, Json.depth, Json.depthFields] at hd ⊢
    have ht := Expr.read?_carried t ht n (by omega)
    have hi := Expr.read?_carried i hi n (by omega)
    have hv := Expr.read?_carried v hv n (by omega)
    simp only [Expr.read?, ↓Json.variant?_bind, ↓Option.bind_eq_bind, ↓Option.bind_some]
    simp [Json.parts?_obj, ht, hi, hv, Span.ofJson?_carried hs]
  | .member t m s, ⟨ht, hm, hs⟩, n, hd => by
    rcases Json.exists_fuel hd with ⟨n, rfl⟩
    simp only [Expr.toJson, Json.node, Json.carried, Json.carriedFields, Json.depth, Json.depthFields] at hd ⊢
    have ht := Expr.read?_carried t ht n (by omega)
    simp only [Expr.read?, ↓Json.variant?_bind, ↓Option.bind_eq_bind, ↓Option.bind_some]
    simp [Json.parts?_obj, ht, Ident.ofJson?_carried hm, Span.ofJson?_carried hs]
  | .memberAssign t m v s, ⟨ht, hm, hv, hs⟩, n, hd => by
    rcases Json.exists_fuel hd with ⟨n, rfl⟩
    simp only [Expr.toJson, Json.node, Json.carried, Json.carriedFields, Json.depth, Json.depthFields] at hd ⊢
    have ht := Expr.read?_carried t ht n (by omega)
    have hv := Expr.read?_carried v hv n (by omega)
    simp only [Expr.read?, ↓Json.variant?_bind, ↓Option.bind_eq_bind, ↓Option.bind_some]
    simp [Json.parts?_obj, ht, hv, Ident.ofJson?_carried hm, Span.ofJson?_carried hs]
  | .spawn f args s, ⟨hf, hargs, hs⟩, n, hd => by
    rcases Json.exists_fuel hd with ⟨n, rfl⟩
    simp only [Expr.toJson, Json.node, Json.carried, Json.carriedFields, Json.depth, Json.depthFields] at hd ⊢
    have hf := Expr.read?_carried f hf n (by omega)
    have hargs := Expr.mapM_carried args hargs n (by omega)
    simp only [Expr.read?, ↓Json.variant?_bind, ↓Option.bind_eq_bind, ↓Option.bind_some]
    simp [Json.parts?_obj, Json.items?, hf, hargs, Span.ofJson?_carried hs]
  | .channel c s, ⟨hc, hs⟩, n, hd => by
    rcases Json.exists_fuel hd with ⟨n, rfl⟩
    simp only [Expr.toJson_channel, Json.node, Json.carried, Json.carriedFields, Json.depth, Json.depthFields] at hd ⊢
    have hc := Expr.optional?_carried c hc n (by omega)
    simp only [Expr.read?, ↓Json.variant?_bind, ↓Option.bind_eq_bind, ↓Option.bind_some]
    simp [Json.parts?_obj, hc, Span.ofJson?_carried hs]
  | .send c v s, ⟨hc, hv, hs⟩, n, hd => by
    rcases Json.exists_fuel hd with ⟨n, rfl⟩
    simp only [Expr.toJson, Json.node, Json.carried, Json.carriedFields, Json.depth, Json.depthFields] at hd ⊢
    have hc := Expr.read?_carried c hc n (by omega)
    have hv := Expr.read?_carried v hv n (by omega)
    simp only [Expr.read?, ↓Json.variant?_bind, ↓Option.bind_eq_bind, ↓Option.bind_some]
    simp [Json.parts?_obj, hc, hv, Span.ofJson?_carried hs]
  | .receive c s, ⟨hc, hs⟩, n, hd => by
    rcases Json.exists_fuel hd with ⟨n, rfl⟩
    simp only [Expr.toJson, Json.node, Json.carried, Json.carriedFields, Json.depth, Json.depthFields] at hd ⊢
    have hc := Expr.read?_carried c hc n (by omega)
    simp only [Expr.read?, ↓Json.variant?_bind, ↓Option.bind_eq_bind, ↓Option.bind_some]
    simp [Json.parts?_obj, hc, Span.ofJson?_carried hs]
  | .this s, hs, n, hd => by
    rcases Json.exists_fuel hd with ⟨n, rfl⟩
    simp only [Expr.toJson, Json.carried, Json.carriedFields]
    simp only [Expr.read?, ↓Json.variant?_bind, ↓Option.bind_eq_bind, ↓Option.bind_some]
    simp [Span.ofJson?_carried hs]
  | .super m s, ⟨hm, hs⟩, n, hd => by
    rcases Json.exists_fuel hd with ⟨n, rfl⟩
    simp only [Expr.toJson, Json.node, Json.carried, Json.carriedFields]
    simp only [Expr.read?, ↓Json.variant?_bind, ↓Option.bind_eq_bind, ↓Option.bind_some]
    simp [Json.parts?_obj, Ident.ofJson?_carried hm, Span.ofJson?_carried hs]
termination_by structural e => e

theorem Expr.mapM_carried : (es : List Expr) → exprsFit es → (n : Nat) →
    Json.depthItems (Json.carriedItems (exprsToJson es)) ≤ n →
    (Json.carriedItems (exprsToJson es)).mapM (Expr.read? lenient n) = some es
  | [], _, _, _ => rfl
  | e :: es, ⟨he, hes⟩, n, hd => by
    simp only [exprsToJson, Json.carriedItems, Json.depthItems] at hd
    have he := Expr.read?_carried e he n (by omega)
    have hes := Expr.mapM_carried es hes n (by omega)
    simp [exprsToJson, Json.carriedItems, List.mapM_cons, he, hes]
termination_by structural es => es

theorem Element.mapM_carried : (es : List Element) → elementsFit es → (n : Nat) →
    Json.depthItems (Json.carriedItems (elementsToJson es)) ≤ n →
    (Json.carriedItems (elementsToJson es)).mapM (Element.read? lenient n) = some es
  | [], _, _, _ => rfl
  | e :: es, ⟨he, hes⟩, n, hd => by
    simp only [elementsToJson, Json.carriedItems, Json.depthItems] at hd
    have he := Element.read?_carried e he n (by omega)
    have hes := Element.mapM_carried es hes n (by omega)
    simp [elementsToJson, Json.carriedItems, List.mapM_cons, he, hes]
termination_by structural es => es

theorem Element.read?_carried : (e : Element) → e.Fits → (n : Nat) → e.toJson.carried.depth ≤ n →
    Element.read? lenient n e.toJson.carried = some e
  | ⟨k, v⟩, ⟨hk, hv⟩, n, hd => by
    rcases Json.exists_fuel hd with ⟨n, rfl⟩
    simp only [Element.toJson_mk, Json.carried, Json.carriedFields, Json.depth, Json.depthFields] at hd ⊢
    have hk := Expr.optional?_carried k hk n (by omega)
    have hv := Expr.read?_carried v hv n (by omega)
    rw [Element.read?]
    simp [Json.parts?_obj, hk, hv]
termination_by structural e => e

/-- Pairs are read by any reader of an item that reads its two parts. -/
theorem Expr.mapM_pairs_carried : (ps : List (Expr × Expr)) → pairsFit ps → (n : Nat) →
    Json.depthItems (Json.carriedItems (pairsToJson ps)) ≤ n →
    (Json.carriedItems (pairsToJson ps)).mapM (fun p =>
      match p with
      | .arr [k, v] => (Expr.read? lenient n k).bind fun k => (Expr.read? lenient n v).bind fun v => some (k, v)
      | _ => none) = some ps
  | [], _, _, _ => rfl
  | (k, v) :: ps, ⟨⟨hk, hv⟩, hps⟩, n, hd => by
    simp only [pairsToJson, Json.carriedItems, Json.carried, Json.depthItems, Json.depth] at hd
    have hk := Expr.read?_carried k hk n (by omega)
    have hv := Expr.read?_carried v hv n (by omega)
    have hps := Expr.mapM_pairs_carried ps hps n (by omega)
    simp [pairsToJson, Json.carriedItems, Json.carried, List.mapM_cons, hk, hv, hps]
termination_by structural ps => ps

theorem Block.read?_carried : (b : Block) → b.Fits → (n : Nat) → b.toJson.carried.depth ≤ n →
    Block.read? lenient n b.toJson.carried = some b
  | ⟨ss, s⟩, ⟨hss, hs⟩, n, hd => by
    rcases Json.exists_fuel hd with ⟨n, rfl⟩
    simp only [Block.toJson, Json.carried, Json.carriedFields, Json.depth, Json.depthFields] at hd ⊢
    have hss := Stmt.mapM_carried ss hss n (by omega)
    rw [Block.read?]
    simp [Json.parts?_obj, Json.items?, hss, Span.ofJson?_carried hs]
termination_by structural b => b

theorem FunctionLiteral.read?_carried : (f : FunctionLiteral) → f.Fits → (n : Nat) → f.toJson.carried.depth ≤ n →
    FunctionLiteral.read? lenient n f.toJson.carried = some f
  | ⟨name, params, body, s⟩, ⟨hparams, hbody, hs⟩, n, hd => by
    rcases Json.exists_fuel hd with ⟨n, rfl⟩
    simp only [FunctionLiteral.toJson, Json.carried, Json.carriedFields, Json.depth, Json.depthFields] at hd ⊢
    have hname : Json.optional? Json.str? (some (Json.ofOption .str name).carried) = some name :=
      Json.optional?_ofOption rfl fun _ _ => rfl
    have hparams := Ident.mapM_carried hparams
    have hbody := Block.read?_carried body hbody n (by omega)
    rw [FunctionLiteral.read?]
    simp [Json.parts?_obj, Json.items?, hname, hparams, hbody, Span.ofJson?_carried hs]
termination_by structural f => f

theorem CatchClause.read?_carried : (c : CatchClause) → c.Fits → (n : Nat) → c.toJson.carried.depth ≤ n →
    CatchClause.read? lenient n c.toJson.carried = some c
  | ⟨param, body⟩, ⟨hparam, hbody⟩, n, hd => by
    rcases Json.exists_fuel hd with ⟨n, rfl⟩
    simp only [CatchClause.toJson, Json.carried, Json.carriedFields, Json.depth, Json.depthFields] at hd ⊢
    have hparam := Ident.optional?_carried hparam
    have hbody := Block.read?_carried body hbody n (by omega)
    rw [CatchClause.read?]
    simp [Json.parts?_obj, hparam, hbody]
termination_by structural c => c

/-- A statement is read back with as much fuel as its document is deep. -/
theorem Stmt.read?_carried : (s : Stmt) → s.Fits → (n : Nat) → s.toJson.carried.depth ≤ n →
    Stmt.read? lenient n s.toJson.carried = some s
  | .bind name v constant s, ⟨hname, hv, hs⟩, n, hd => by
    rcases Json.exists_fuel hd with ⟨n, rfl⟩
    simp only [Stmt.toJson, Json.node, Json.carried, Json.carriedFields, Json.depth, Json.depthFields] at hd ⊢
    have hv := Expr.read?_carried v hv n (by omega)
    simp only [Stmt.read?, ↓Json.variant?_bind, ↓Option.bind_eq_bind, ↓Option.bind_some]
    simp [Json.parts?_obj, Json.bool?, hv, Ident.ofJson?_carried hname, Span.ofJson?_carried hs]
  | .expr e s, ⟨he, hs⟩, n, hd => by
    rcases Json.exists_fuel hd with ⟨n, rfl⟩
    simp only [Stmt.toJson, Json.node, Json.carried, Json.carriedFields, Json.depth, Json.depthFields] at hd ⊢
    have he := Expr.read?_carried e he n (by omega)
    simp only [Stmt.read?, ↓Json.variant?_bind, ↓Option.bind_eq_bind, ↓Option.bind_some]
    simp [Json.parts?_obj, he, Span.ofJson?_carried hs]
  | .block b, hb, n, hd => by
    rcases Json.exists_fuel hd with ⟨n, rfl⟩
    simp only [Stmt.toJson, Json.carried, Json.carriedFields, Json.depth, Json.depthFields] at hd ⊢
    have hb := Block.read?_carried b hb n (by omega)
    simp only [Stmt.read?, ↓Json.variant?_bind, ↓Option.bind_eq_bind, ↓Option.bind_some]
    simp [hb]
  | .ret v s, ⟨hv, hs⟩, n, hd => by
    rcases Json.exists_fuel hd with ⟨n, rfl⟩
    simp only [Stmt.toJson_ret, Json.node, Json.carried, Json.carriedFields, Json.depth, Json.depthFields] at hd ⊢
    have hv := Expr.optional?_carried v hv n (by omega)
    simp only [Stmt.read?, ↓Json.variant?_bind, ↓Option.bind_eq_bind, ↓Option.bind_some]
    simp [Json.parts?_obj, hv, Span.ofJson?_carried hs]
  | .forLoop init condition update body s, ⟨hinit, hcondition, hupdate, hbody, hs⟩, n, hd => by
    rcases Json.exists_fuel hd with ⟨n, rfl⟩
    simp only [Stmt.toJson, Json.node, Json.carried, Json.carriedFields, Json.depth, Json.depthFields] at hd ⊢
    have hinit := Stmt.optional?_carried init hinit n (by omega)
    have hcondition := Expr.optional?_carried condition hcondition n (by omega)
    have hupdate := Expr.optional?_carried update hupdate n (by omega)
    have hbody := Block.read?_carried body hbody n (by omega)
    simp only [Stmt.read?, ↓Json.variant?_bind, ↓Option.bind_eq_bind, ↓Option.bind_some]
    simp [Json.parts?_obj, hinit, hcondition, hupdate, hbody, Span.ofJson?_carried hs]
  | .whileLoop c body s, ⟨hc, hbody, hs⟩, n, hd => by
    rcases Json.exists_fuel hd with ⟨n, rfl⟩
    simp only [Stmt.toJson, Json.node, Json.carried, Json.carriedFields, Json.depth, Json.depthFields] at hd ⊢
    have hc := Expr.read?_carried c hc n (by omega)
    have hbody := Block.read?_carried body hbody n (by omega)
    simp only [Stmt.read?, ↓Json.variant?_bind, ↓Option.bind_eq_bind, ↓Option.bind_some]
    simp [Json.parts?_obj, hc, hbody, Span.ofJson?_carried hs]
  | .breakLoop s, hs, n, hd => by
    rcases Json.exists_fuel hd with ⟨n, rfl⟩
    simp only [Stmt.toJson, Json.carried, Json.carriedFields]
    simp only [Stmt.read?, ↓Json.variant?_bind, ↓Option.bind_eq_bind, ↓Option.bind_some]
    simp [Span.ofJson?_carried hs]
  | .continueLoop s, hs, n, hd => by
    rcases Json.exists_fuel hd with ⟨n, rfl⟩
    simp only [Stmt.toJson, Json.carried, Json.carriedFields]
    simp only [Stmt.read?, ↓Json.variant?_bind, ↓Option.bind_eq_bind, ↓Option.bind_some]
    simp [Span.ofJson?_carried hs]
  | .classDecl name parent body s, ⟨hname, hparent, hbody, hs⟩, n, hd => by
    rcases Json.exists_fuel hd with ⟨n, rfl⟩
    simp only [Stmt.toJson, Json.node, Json.carried, Json.carriedFields, Json.depth, Json.depthFields] at hd ⊢
    have hparent := Ident.optional?_carried hparent
    have hbody := Stmt.mapM_carried body hbody n (by omega)
    simp only [Stmt.read?, ↓Json.variant?_bind, ↓Option.bind_eq_bind, ↓Option.bind_some]
    simp [Json.parts?_obj, Json.items?, hparent, hbody, Ident.ofJson?_carried hname, Span.ofJson?_carried hs]
  | .tryCatch body handler cleanup s, ⟨hbody, hhandler, hcleanup, hs⟩, n, hd => by
    rcases Json.exists_fuel hd with ⟨n, rfl⟩
    simp only [Stmt.toJson, Json.node, Json.carried, Json.carriedFields, Json.depth, Json.depthFields] at hd ⊢
    have hbody := Block.read?_carried body hbody n (by omega)
    have hhandler := CatchClause.optional?_carried handler hhandler n (by omega)
    have hcleanup := Block.optional?_carried cleanup hcleanup n (by omega)
    simp only [Stmt.read?, ↓Json.variant?_bind, ↓Option.bind_eq_bind, ↓Option.bind_some]
    simp [Json.parts?_obj, hbody, hhandler, hcleanup, Span.ofJson?_carried hs]
  | .throw v s, ⟨hv, hs⟩, n, hd => by
    rcases Json.exists_fuel hd with ⟨n, rfl⟩
    simp only [Stmt.toJson, Json.node, Json.carried, Json.carriedFields, Json.depth, Json.depthFields] at hd ⊢
    have hv := Expr.read?_carried v hv n (by omega)
    simp only [Stmt.read?, ↓Json.variant?_bind, ↓Option.bind_eq_bind, ↓Option.bind_some]
    simp [Json.parts?_obj, hv, Span.ofJson?_carried hs]
termination_by structural s => s

theorem Stmt.mapM_carried : (ss : List Stmt) → stmtsFit ss → (n : Nat) →
    Json.depthItems (Json.carriedItems (stmtsToJson ss)) ≤ n →
    (Json.carriedItems (stmtsToJson ss)).mapM (Stmt.read? lenient n) = some ss
  | [], _, _, _ => rfl
  | s :: ss, ⟨hs, hss⟩, n, hd => by
    simp only [stmtsToJson, Json.carriedItems, Json.depthItems] at hd
    have hs := Stmt.read?_carried s hs n (by omega)
    have hss := Stmt.mapM_carried ss hss n (by omega)
    simp [stmtsToJson, Json.carriedItems, List.mapM_cons, hs, hss]
termination_by structural ss => ss

theorem Stmt.optional?_carried : (s : Option Stmt) → optStmtFits s → (n : Nat) → (optStmtToJson s).carried.depth ≤ n →
    Json.optional? (Stmt.read? lenient n) (some (optStmtToJson s).carried) = some s
  | none, _, _, _ => rfl
  | some s, hs, n, hd => Json.optional?_some (Stmt.read?_null n) (Stmt.read?_carried s hs n hd)
termination_by structural s => s

theorem Expr.optional?_carried : (e : Option Expr) → optExprFits e → (n : Nat) → (optExprToJson e).carried.depth ≤ n →
    Json.optional? (Expr.read? lenient n) (some (optExprToJson e).carried) = some e
  | none, _, _, _ => rfl
  | some e, he, n, hd => Json.optional?_some (Expr.read?_null n) (Expr.read?_carried e he n hd)
termination_by structural e => e

theorem Block.optional?_carried : (b : Option Block) → optBlockFits b → (n : Nat) →
    (optBlockToJson b).carried.depth ≤ n →
    Json.optional? (Block.read? lenient n) (some (optBlockToJson b).carried) = some b
  | none, _, _, _ => rfl
  | some b, hb, n, hd => Json.optional?_some (Block.read?_null n) (Block.read?_carried b hb n hd)
termination_by structural b => b

theorem CatchClause.optional?_carried : (c : Option CatchClause) → optCatchFits c → (n : Nat) →
    (optCatchToJson c).carried.depth ≤ n →
    Json.optional? (CatchClause.read? lenient n) (some (optCatchToJson c).carried) = some c
  | none, _, _, _ => rfl
  | some c, hc, n, hd => Json.optional?_some (CatchClause.read?_null n) (CatchClause.read?_carried c hc n hd)
termination_by structural c => c

end

end

/-! ## Programs -/

namespace Program

/-- All floats of the program are finite, and all lines are words of 32 bits. -/
def Fits (p : Program) : Prop := stmtsFit p.statements

/-- The statements nest less deep than the array that they stand in, whose depth is the fuel of the reader. -/
theorem readStatements?_carried {p : Program} (h : p.Fits) (lenient : Leniency) :
    readStatements? lenient (Json.arr (stmtsToJson p.statements)).carried = some p := by
  have hdepth : Json.depthItems (Json.carriedItems (stmtsToJson p.statements)) ≤
      (Json.arr (stmtsToJson p.statements)).carried.depth := Nat.le_succ _
  have hread : (Json.carriedItems (stmtsToJson p.statements)).mapM (Stmt.read? lenient _) = some p.statements :=
    Stmt.mapM_carried p.statements h _ hdepth
  unfold readStatements?
  simp only [Json.carried, Json.items?, Option.bind_eq_bind, Option.bind_some] at hread ⊢
  rw [hread]
  rfl

theorem ofJson?_carried {p : Program} (h : p.Fits) : ofJson? p.toJson.carried = some p := by
  have hread := readStatements?_carried h false
  simp only [Json.carried] at hread
  simp [ofJson?, toJson, Json.carried, Json.carriedFields, Json.parts?_obj, hread]

theorem ofVersionedJson?_carried {p : Program} (h : p.Fits) {version : Nat} (hversion : version < Word.limit32) :
    ofVersionedJson? (p.toVersionedJson version).carried = some (version, p) := by
  have hread := readStatements?_carried h true
  simp only [Json.carried] at hread
  simp [ofVersionedJson?, toVersionedJson, Json.carried, Json.carriedFields, Json.parts?_obj, Json.nat?, hversion,
    hread]

/-- What the text of a program carries is read back as that program, and with a version as the two of them, be it
from the document or from a text that stands for it. -/
theorem reads_back {p : Program} (h : p.Fits) :
    (p.toJson.carried.pretty = p.toJson.pretty ∧ ofJson? p.toJson.carried = some p) ∧
      ∀ version < Word.limit32,
        (p.toVersionedJson version).carried.pretty = (p.toVersionedJson version).pretty ∧
        ofVersionedJson? (p.toVersionedJson version).carried = some (version, p) ∧
        ∀ text : String, Json.parse? (some textDepth) text = some (p.toVersionedJson version).carried →
          ofText? text = some (version, p) := by
  refine ⟨⟨Json.pretty_carried _, ofJson?_carried h⟩, ?_⟩
  intro version hversion
  have hread := ofVersionedJson?_carried h hversion
  refine ⟨Json.pretty_carried _, hread, ?_⟩
  intro text htext
  rw [ofText?, htext, Option.bind_some, hread]

/-- Sends until the send succeeds: a loop with one of its three optional parts, a handler and a cleanup. -/
def resend : Program :=
  ⟨[.forLoop none none (some (Build.id "n"))
    (Build.block [Build.tryCatch [Build.expr (Build.send (Build.id "c") (Build.float 2.5))]
      (some (some "e", [Build.continueLoop]))
      (some [Build.expr (Build.hash [(Build.string "k", Build.int (-1))])])]) ⟨3, 40, 2⟩]⟩

/-- A lone `break`. -/
def leave : Program := ⟨[.breakLoop ⟨0, 5, 1⟩]⟩

def leaveText : String :=
  "\x7b\"ast_version\":1,\"statements\":[\x7b\"Break\":\x7b\"start\":0,\"end\":5,\"line\":1\x7d\x7d]\x7d"

theorem resend_reads_back :
    (resend.Fits ∧ 1 < Word.limit32 ∧ ofJson? resend.toJson.carried = some resend ∧
      ofVersionedJson? (resend.toVersionedJson 1).carried = some (1, resend)) ∧
      Json.parse? (some textDepth) leaveText = some (leave.toVersionedJson 1).carried ∧
      ofText? leaveText = some (1, leave) := by
  have hfloat : (2.5 : Float).isFinite = true := rfl
  have hresend : resend.Fits := by
    simp [resend, Build.id, Build.ident, Build.block, Build.tryCatch, Build.expr, Build.send, Build.float, Build.hash,
      Build.string, Build.int, Build.continueLoop, Fits, stmtsFit, Stmt.Fits, optStmtFits, optExprFits, optBlockFits,
      optCatchFits, CatchClause.Fits, Block.Fits, Expr.Fits, pairsFit, Literal.Fits, Ident.Fits, Span.Fits, Span.dummy,
      Word.limit32, hfloat]
  have hleave : leave.Fits := by
    simp [leave, Fits, stmtsFit, Stmt.Fits, Span.Fits, Word.limit32]
  have hversion : 1 < Word.limit32 := by decide
  have htext : Json.parse? (some textDepth) leaveText = some (leave.toVersionedJson 1).carried := rfl
  have hread := reads_back hresend
  exact ⟨⟨hresend, hversion, hread.1.2, (hread.2 1 hversion).2.1⟩, htext,
    ((reads_back hleave).2 1 hversion).2.2 leaveText htext⟩

end Program

end ScriptMachine
