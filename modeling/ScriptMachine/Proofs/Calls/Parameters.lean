import ScriptMachine.Proofs.Capture
import ScriptMachine.Proofs.Session.Sound

/-!
# What parameters stand for

A function literal declares its parameters one after the other, and a method declares `this` before them. A name that
is declared again keeps its slot, so the slot of a name is its place among the distinct names, and the function has as
many slots for them as there are distinct names.

1. **Places**: the place of a name among the distinct names of a list.
2. **Tables**: the local variables of the current scope (`SymbolTable.Lists`), with one lemma for each step.
3. **Literals**: what a literal has become when it is compiled (`FunctionLiteral.Becomes`).
-/

namespace ScriptMachine

/-! ## Places -/

/-- The place of a name among the distinct names of a list. -/
def placeOf (names : List String) (name : String) : Nat := names.eraseDups.idxOf name

section

variable {names : List String} {name : String}

theorem placeOf_lt (h : name ∈ names) : placeOf names name < names.eraseDups.length :=
  List.idxOf_lt_length_iff.mpr (List.mem_eraseDups.mpr h)

theorem eraseDups_concat_of_mem (h : name ∈ names) : (names ++ [name]).eraseDups = names.eraseDups := by
  have hremoved : [name].removeAll names = [] := by simp [List.removeAll, h]
  rw [List.eraseDups_append, hremoved, List.eraseDups_nil, List.append_nil]

theorem eraseDups_concat_of_notMem (h : name ∉ names) : (names ++ [name]).eraseDups = names.eraseDups ++ [name] := by
  have hkept : [name].removeAll names = [name] := by simp [List.removeAll, h]
  rw [List.eraseDups_append, hkept]
  rfl

/-- A new name at the end has the next place. -/
theorem placeOf_concat_self (h : name ∉ names) : placeOf (names ++ [name]) name = names.eraseDups.length := by
  have hnot : name ∉ names.eraseDups := mt List.mem_eraseDups.mp h
  rw [placeOf, eraseDups_concat_of_notMem h, List.idxOf_append_of_notMem hnot, List.idxOf_cons_self]
  rfl

/-- Names that are added later leave the places as they are. -/
theorem placeOf_append_of_mem (h : name ∈ names) (others : List String) :
    placeOf (names ++ others) name = placeOf names name := by
  rw [placeOf, List.eraseDups_append, List.idxOf_append_of_mem (List.mem_eraseDups.mpr h)]
  rfl

theorem eraseDups_eq_self (h : names.Nodup) : names.eraseDups = names := by
  induction names with
  | nil => rfl
  | cons first rest ih =>
    rcases List.nodup_cons.mp h with ⟨hfirst, hrest⟩
    have hkept : rest.filter (fun other => !other == first) = rest := by
      rw [List.filter_eq_self]
      intro other hother
      have hne : other ≠ first := fun heq => hfirst (heq ▸ hother)
      simpa using hne
    rw [List.eraseDups_cons, hkept, ih hrest]

/-- If no name comes twice, the place of a name is its position. -/
theorem placeOf_of_nodup (h : names.Nodup) {i : Nat} (hi : names[i]? = some name) : placeOf names name = i := by
  rcases List.getElem?_eq_some_iff.mp hi with ⟨hlt, rfl⟩
  rw [placeOf, eraseDups_eq_self h]
  exact h.idxOf_getElem i hlt

end

/-! ## Tables -/

namespace SymbolTable

/-- The local variables of the current scope, which belongs to a function, are the given ones. They have been declared
in this order. -/
structure Lists (t : SymbolTable) (names : List String) : Prop where
  inner : t.isGlobal = false
  definitions : t.current.definitions = names.eraseDups.length
  found : ∀ name ∈ names, ∃ constant, t.lookup? name = some ⟨name, .local, placeOf names name, constant⟩
  only : ∀ name x, t.lookup? name = some x → x.storage = .local → name ∈ names

variable {t : SymbolTable} {names : List String} {name : String}

theorem lists_enclose (t : SymbolTable) : t.enclose.Lists [] := by
  constructor
  · rfl
  · rfl
  · intro name hname
    cases hname
  · intro name x hx
    simp [lookup?, enclose, Scope.empty] at hx

theorem lookup?_insert (t : SymbolTable) (scope : Scope) (x : Symbol) :
    lookup? { t with current := scope.insert x } name = if x.name == name then some x else scope.store[name]? := by
  rw [lookup?, Scope.insert, Std.HashMap.getElem?_insert]

/-- The name of the function is no variable. -/
theorem Lists.defineFunctionName (h : t.Lists []) (name : String) : (t.defineFunctionName name).2.Lists [] := by
  constructor
  · exact h.inner
  · exact h.definitions
  · intro other hother
    cases hother
  · intro other x hx hst
    rw [SymbolTable.defineFunctionName, bind, lookup?_insert] at hx
    split at hx
    · cases hx
      cases hst
    · exact h.only other x hx hst

/-- A variable gets the slot that belongs to its name. -/
theorem Lists.insert (h : t.Lists names) (name : String) (constant : Bool) :
    Lists { t with
      current := { t.current with definitions := (names ++ [name]).eraseDups.length }.insert
        ⟨name, .local, placeOf (names ++ [name]) name, constant⟩ } (names ++ [name]) := by
  constructor
  · exact h.inner
  · rfl
  · intro other hother
    rw [lookup?_insert]
    by_cases heq : name = other
    · rw [heq, if_pos (beq_self_eq_true other)]
      exact ⟨constant, rfl⟩
    · -- the others are where they were
      have hold : other ∈ names := by simpa [Ne.symm heq] using hother
      rw [if_neg (by simpa using heq), placeOf_append_of_mem hold]
      exact h.found other hold
  · intro other x hx hst
    rw [lookup?_insert] at hx
    split at hx
    · next heq =>
      rw [← beq_iff_eq.mp heq]
      exact List.mem_concat_self
    · exact List.mem_append_left _ (h.only other x hx hst)

/-- One more variable: if its name has been declared before, it keeps its slot, and otherwise it gets the next one. -/
theorem Lists.define (h : t.Lists names) (name : String) (constant : Bool) :
    (t.define name constant).2.Lists (names ++ [name]) ∧
      (t.define name constant).1 = ⟨name, .local, placeOf (names ++ [name]) name, constant⟩ := by
  have hinsert := h.insert name constant
  unfold SymbolTable.define
  rw [h.inner]
  by_cases hname : name ∈ names
  · rcases h.found name hname with ⟨c, hold⟩
    have hold : t.current.store[name]? = some ⟨name, .local, placeOf names name, c⟩ := hold
    rw [eraseDups_concat_of_mem hname, placeOf_append_of_mem hname, ← h.definitions] at hinsert
    rw [placeOf_append_of_mem hname]
    unfold Scope.define
    simp only [hold]
    exact ⟨hinsert, rfl⟩
  · rw [eraseDups_concat_of_notMem hname, placeOf_concat_self hname, List.length_append, List.length_singleton,
      ← h.definitions] at hinsert
    rw [placeOf_concat_self hname, ← h.definitions]
    rcases t.current.define_cases .local name constant with ⟨old, hold, hst, -⟩ | hdefine
    · exact absurd (h.only name old hold hst) hname
    · simp only [Bool.false_eq_true, if_false, hdefine]
      exact ⟨hinsert, trivial⟩

/-- A variable is resolved to the slot that belongs to its name. -/
theorem Lists.resolve (h : t.Lists names) (hname : name ∈ names) :
    ∃ constant, (t.resolve name).1 = some ⟨name, .local, placeOf names name, constant⟩ := by
  rcases h.found name hname with ⟨constant, hfound⟩
  refine ⟨constant, ?_⟩
  unfold SymbolTable.resolve
  rw [resolveFrom_of_bound hfound]

end SymbolTable

/-! ## Literals -/

namespace CompileM

/-- The name of a function stands for the function itself. -/
def nameFunction : Option String → CompileM Unit
  | some name => modify fun s => { s with symbols := (s.symbols.defineFunctionName name).2 }
  | none => pure ()

/-- What a function literal declares before its body is compiled. -/
def openLiteral (f : FunctionLiteral) (binding : Option String) : CompileM Unit := do
  nameFunction (f.name <|> binding)
  defineParams f.params

/-- What a method declares before its body is compiled. -/
def openMethod (f : FunctionLiteral) : CompileM Unit := do
  discard <| define "this" true f.span
  defineParams f.params

theorem functionLiteral_eq (f : FunctionLiteral) (binding : Option String) :
    functionLiteral f binding = (do
      let compiled ← inFunction do
        openLiteral f binding
        functionBody f.body
      makeClosure f (f.name <|> binding) compiled) := by
  obtain ⟨own, params, body, span⟩ := f
  rw [functionLiteral]
  unfold openLiteral
  cases (own <|> binding) <;> rfl

theorem method_eq (cls : String) (f : FunctionLiteral) (name : String) :
    method cls f name = (do
      let compiled ← inFunction do
        openMethod f
        functionBody f.body
      makeMethod cls f name compiled) := by
  obtain ⟨own, params, body, span⟩ := f
  rw [method]
  unfold openMethod
  simp only [bind_assoc]

variable {Src : Source} {σ σ' : CompileState} {names : List String} {name : String} {constant : Bool} {span : Span}

/-- Declaring a variable does what the table does, and refuses a slot that operands cannot address. -/
theorem define_ok {x : Symbol} (h : define name constant span σ = .ok x σ') :
    x = (σ.symbols.define name constant).1 ∧
      σ' = { σ with symbols := (σ.symbols.define name constant).2 } ∧
      (x.storage = .local → x.index < maxLocals) ∧ (x.storage = .global → x.index < maxGlobals) := by
  obtain ⟨found, σ₁, hmod, hcheck⟩ := bind_ok h
  obtain ⟨hfound, rfl⟩ := modifyGet_ok hmod
  cases hst : found.storage with
  | «local» =>
    simp only [hst] at hcheck
    split at hcheck
    · exact (fail_ok hcheck).elim
    · next hroom =>
      obtain ⟨rfl, rfl⟩ := pure_ok hcheck
      exact ⟨hfound, rfl, fun _ => Nat.lt_of_not_le hroom, by simp [hst]⟩
  | global =>
    simp only [hst] at hcheck
    split at hcheck
    · exact (fail_ok hcheck).elim
    · next hroom =>
      obtain ⟨rfl, rfl⟩ := pure_ok hcheck
      exact ⟨hfound, rfl, by simp [hst], fun _ => Nat.lt_of_not_le hroom⟩
  | _ =>
    simp only [hst] at hcheck
    obtain ⟨rfl, rfl⟩ := pure_ok hcheck
    exact ⟨hfound, rfl, by simp [hst]⟩

end CompileM

/-- The local variables of the function at hand are the given ones, and operands can address them. -/
structure CompileState.Declared (σ : CompileState) (names : List String) : Prop where
  lists : σ.symbols.Lists names
  few : names.eraseDups.length ≤ CompileM.maxLocals

namespace CompileM

variable {Src : Source} {σ σ' : CompileState} {names : List String} {name : String} {constant : Bool} {span : Span}
  {f : FunctionLiteral} {binding : Option String}

theorem define_declared (hσ : σ.Declared names) {x : Symbol} (h : define name constant span σ = .ok x σ') :
    σ'.Declared (names ++ [name]) := by
  obtain ⟨hx, rfl, hroom, -⟩ := define_ok h
  obtain ⟨hlists, hslot⟩ := hσ.lists.define name constant
  constructor
  · exact hlists
  · by_cases hname : name ∈ names
    · rw [eraseDups_concat_of_mem hname]
      exact hσ.few
    · -- the slot is the next one, and it is in range
      rw [hx, hslot] at hroom
      have hlt := hroom rfl
      rw [placeOf_concat_self hname] at hlt
      rw [eraseDups_concat_of_notMem hname, List.length_append]
      exact hlt

theorem defineParams_declared {params : List Ident} (hσ : σ.Declared names)
    (h : defineParams params σ = .ok () σ') : σ'.Declared (names ++ params.map Ident.name) := by
  induction params generalizing σ names with
  | nil =>
    obtain ⟨-, rfl⟩ := pure_ok h
    rwa [List.map_nil, List.append_nil]
  | cons p ps ih =>
    obtain ⟨_, σ₁, hone, hrest⟩ := bind_ok h
    obtain ⟨x, hdefine⟩ := discard_ok hone
    rw [List.map_cons, List.append_cons]
    exact ih (define_declared hσ hdefine) hrest

theorem bind_eq {α β : Type} {m : CompileM α} {f : α → CompileM β} {a : α} (h : m σ = .ok a σ') :
    (m >>= f) σ = f a σ' := by
  simp only [bind, EStateM.bind, h]

theorem discard_eq {α : Type} {m : CompileM α} {a : α} (h : m σ = .ok a σ') : discard m σ = .ok () σ' := by
  show EStateM.map (fun _ => ()) m σ = _
  rw [EStateM.map, h]

/-- A variable is declared if operands can address its slot. -/
theorem define_eq (hσ : σ.symbols.Lists names) (constant : Bool) (hroom : placeOf (names ++ [name]) name < maxLocals) :
    define name constant span σ = .ok ⟨name, .local, placeOf (names ++ [name]) name, constant⟩
      { σ with symbols := (σ.symbols.define name constant).2 } := by
  let f : CompileState → Symbol × CompileState := fun s =>
    ((s.symbols.define name constant).1, { s with symbols := (s.symbols.define name constant).2 })
  have hfirst : (modifyGet f : CompileM Symbol) σ =
      .ok ⟨name, .local, placeOf (names ++ [name]) name, constant⟩ (f σ).2 := by
    show EStateM.Result.ok (σ.symbols.define name constant).1 _ = _
    rw [(hσ.define name constant).2]
  unfold define
  simp only [bind, EStateM.bind]
  rw [show (modifyGet _ : CompileM Symbol) σ = _ from hfirst]
  dsimp only
  rw [if_neg (Nat.not_le.mpr hroom)]
  rfl

/-- Parameters are declared if operands can address the slots of their names. -/
theorem defineParams_eq {params : List Ident} (hσ : σ.symbols.Lists names)
    (hfew : (names ++ params.map Ident.name).eraseDups.length ≤ maxLocals) :
    ∃ symbols : SymbolTable, defineParams params σ = .ok () { σ with symbols } ∧
      symbols.Lists (names ++ params.map Ident.name) ∧ symbols.outer = σ.symbols.outer ∧
      symbols.current.free = σ.symbols.current.free := by
  induction params generalizing σ names with
  | nil =>
    rw [List.map_nil, List.append_nil]
    exact ⟨σ.symbols, rfl, hσ, rfl, rfl⟩
  | cons p ps ih =>
    rw [List.map_cons, List.append_cons] at hfew ⊢
    have hmem : p.name ∈ names ++ [p.name] := List.mem_concat_self
    have hroom : placeOf (names ++ [p.name]) p.name < maxLocals := by
      rw [← placeOf_append_of_mem hmem (ps.map Ident.name)]
      exact Nat.lt_of_lt_of_le (placeOf_lt (List.mem_append_left _ hmem)) hfew
    have hone := @define_eq σ names p.name p.span hσ false hroom
    obtain ⟨symbols, hrest, hlists, houter, hfree⟩ :=
      ih (σ := { σ with symbols := (σ.symbols.define p.name false).2 }) (hσ.define p.name false).1 hfew
    refine ⟨symbols, ?_, hlists, houter, hfree.trans (Scope.free_define _ _ _ _)⟩
    rw [defineParams]
    exact (bind_eq (discard_eq hone)).trans hrest

theorem nameFunction_declared {own : Option String} (hσ : σ.Declared []) (h : nameFunction own σ = .ok () σ') :
    σ'.Declared [] := by
  cases own with
  | none =>
    obtain ⟨-, rfl⟩ := pure_ok h
    exact hσ
  | some name =>
    obtain rfl := modify_ok h
    exact ⟨hσ.lists.defineFunctionName name, hσ.few⟩

theorem openLiteral_declared (hσ : σ.Declared []) (h : openLiteral f binding σ = .ok () σ') :
    σ'.Declared (f.params.map Ident.name) := by
  obtain ⟨_, σ₁, hname, hparams⟩ := bind_ok h
  exact defineParams_declared (nameFunction_declared hσ hname) hparams

theorem openMethod_declared (hσ : σ.Declared []) (h : openMethod f σ = .ok () σ') :
    σ'.Declared ("this" :: f.params.map Ident.name) := by
  obtain ⟨_, σ₁, hthis, hparams⟩ := bind_ok h
  obtain ⟨x, hdefine⟩ := discard_ok hthis
  exact defineParams_declared (define_declared hσ hdefine) hparams

theorem nameFunction_emits {own : Option String} (hσ : σ.Ok Src) (h : nameFunction own σ = .ok () σ') :
    CompileState.Emits Src σ σ' [] := by
  cases own with
  | none =>
    obtain ⟨-, rfl⟩ := pure_ok h
    exact .refl hσ
  | some name =>
    obtain rfl := modify_ok h
    obtain ⟨hok, hgrow⟩ := @SymbolTable.bind_ok _ _ hσ.symbols ⟨name, .functionSelf, 0, true⟩ trivial nofun
    exact .bind hσ hok hgrow

theorem openLiteral_emits (hσ : σ.Ok Src) (h : openLiteral f binding σ = .ok () σ') :
    CompileState.Emits Src σ σ' [] := by
  obtain ⟨_, σ₁, hname, hparams⟩ := bind_ok h
  have hemits := nameFunction_emits hσ hname
  exact hemits.after (defineParams_emits hemits.ok hparams)

theorem openMethod_emits (hσ : σ.Ok Src) (h : openMethod f σ = .ok () σ') : CompileState.Emits Src σ σ' [] := by
  obtain ⟨_, σ₁, hthis, hparams⟩ := bind_ok h
  obtain ⟨x, hdefine⟩ := discard_ok hthis
  have hemits := (define_emits hσ hdefine).1
  exact hemits.after (defineParams_emits hemits.ok hparams)

/-- The state in which the scope of a function body is entered. -/
def inside (σ : CompileState) : CompileState := { σ with function := .body, symbols := σ.symbols.enclose }

theorem inside_declared (σ : CompileState) : (inside σ).Declared [] :=
  ⟨σ.symbols.lists_enclose, Nat.zero_le _⟩

/-- What is declared before the body has slots in the compiled function, and the body may add more. -/
theorem inFunction_declared {pre : CompileM Unit} {b : Block} {body : Body} (hσ : σ.Ok Src)
    (hbody : Src.body b) (hcovers : Covers Src .top (.body b))
    (hemits : ∀ ⦃τ τ'⦄, τ.Ok Src → pre τ = .ok () τ' → CompileState.Emits Src τ τ' [])
    (hdeclared : ∀ ⦃τ τ'⦄, τ.Declared [] → pre τ = .ok () τ' → τ'.Declared names)
    (h : inFunction (pre >>= fun _ => functionBody b) σ = .ok body σ') :
    ∃ τ, pre (inside σ) = .ok () τ ∧ τ.Declared names ∧ names.eraseDups.length ≤ body.locals := by
  obtain ⟨σ₁, hrun, -, hlocals, -⟩ := inFunction_ok h
  obtain ⟨_, τ, hpre, hrest⟩ := bind_ok hrun
  have hτ := hdeclared (inside_declared σ) hpre
  have hstart := hemits (inside_ok hσ) hpre
  refine ⟨τ, hpre, hτ, ?_⟩
  obtain ⟨ss, span⟩ := b
  have hready : Ready Src .top [] τ := Ready.emits ⟨rfl, .nil, inside_ok hσ⟩ hstart
  obtain ⟨code, notes, -, hext⟩ := laid_body (lowers_stmts [] ss) hrest hready (hstart.nil []).items hcovers
  have hgrows := hext.symbols.slots
  rw [SymbolTable.slots, hτ.lists.inner] at hgrows
  rw [hlocals, ← hτ.lists.definitions]
  exact Nat.le_trans hgrows (SymbolTable.slots_le _)

end CompileM

/-- Somewhere in a compilation the literal becomes the function `F`. Where its body begins the table is `T`, and
`names` are what has been declared there. -/
inductive FunctionLiteral.Becomes (f : FunctionLiteral) : List String → SymbolTable → Function → Prop
  | literal {n : Nat} {binding : Option String} {F : Function} {σ σ' τ : CompileState} : σ.Ok (.upTo n) →
    CompileM.functionLiteral f binding σ = .ok () σ' → σ'.pool.back? = some (.function F) →
    CompileM.openLiteral f binding (CompileM.inside σ) = .ok () τ → Becomes f (f.params.map Ident.name) τ.symbols F
  | method {n : Nat} {cls name : String} {F : Function} {σ σ' τ : CompileState} : σ.Ok (.upTo n) →
    CompileM.method cls f name σ = .ok F σ' → CompileM.openMethod f (CompileM.inside σ) = .ok () τ →
    Becomes f ("this" :: f.params.map Ident.name) τ.symbols F

open CompileM in
/-- The function has a slot for each name, and as many parameters as the literal. -/
theorem FunctionLiteral.Becomes.declared {f : FunctionLiteral} {names : List String} {T : SymbolTable} {F : Function}
    (h : f.Becomes names T F) : T.Lists names ∧ names.eraseDups.length ≤ maxLocals ∧
      names.eraseDups.length ≤ F.locals ∧ F.params = f.params.length := by
  cases h with
  | @literal n binding F σ σ' τ hσ hrun hback hopen =>
    rw [functionLiteral_eq] at hrun
    obtain ⟨body, σ₁, hbody, hclosure⟩ := bind_ok hrun
    obtain ⟨τ', hopen', hdeclared, hlocals⟩ := inFunction_declared hσ trivial (covers_upTo n _ _)
      (fun _ _ => openLiteral_emits) (fun _ _ => openLiteral_declared) hbody
    rw [hopen] at hopen'
    cases hopen'
    -- the function is the constant that was added last
    obtain ⟨_, σ₂, -, hadds⟩ := bind_ok hclosure
    obtain ⟨place, σ₃, hadd, hput⟩ := bind_ok hadds
    obtain ⟨rfl, -⟩ := addConstant_ok hadd
    obtain rfl := put_ok hput
    have hpushed : (σ₂.pool.push _).back? = some (Constant.function F) := hback
    rw [Array.back?_push] at hpushed
    cases hpushed
    exact ⟨hdeclared.lists, hdeclared.few, hlocals, rfl⟩
  | @method n cls name F σ σ' τ hσ hrun hopen =>
    rw [method_eq] at hrun
    obtain ⟨body, σ₁, hbody, hmethod⟩ := bind_ok hrun
    obtain ⟨τ', hopen', hdeclared, hlocals⟩ := inFunction_declared hσ trivial (covers_upTo n _ _)
      (fun _ _ => openMethod_emits) (fun _ _ => openMethod_declared) hbody
    rw [hopen] at hopen'
    cases hopen'
    unfold makeMethod at hmethod
    cases hfree : body.free with
    | cons captured rest =>
      simp only [hfree] at hmethod
      exact (fail_ok hmethod).elim
    | nil =>
      simp only [hfree] at hmethod
      obtain ⟨rfl, -⟩ := pure_ok hmethod
      exact ⟨hdeclared.lists, hdeclared.few, hlocals, rfl⟩

end ScriptMachine
