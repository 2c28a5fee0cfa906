import ScriptMachine.Proofs.Calls.Parameters
import ScriptMachine.Proofs.Constancy.Declared

/-!
# Judgements about steps of compilation

`CompileM.Logic` is a judgement about steps of compilation that has a rule for each primitive step. A step begins where
some facts are known, and it leaves facts about its result behind, such as where a jump waits for its target, or which
constant stands at a place. Whoever wants to know something about all code that is ever compiled states a judgement and
proves its rules; that whole pieces of the source obey it is proved from the rules, once, in `Rules.Forms`.

`Known.Emits` lists the instructions that are ever emitted, with what is known of their operands.
-/

namespace ScriptMachine

namespace CompileM

/-- What is known while a unit is compiled. -/
inductive Known where
  /-- A jump stands at the place of the block at hand. -/
  | jump (place : Nat)
  /-- The binding was found or declared. -/
  | load (x : Symbol)
  /-- The binding was declared, or it was found and can be assigned to. -/
  | store (x : Symbol)
  /-- A constant stands at the place. -/
  | place (k : Nat)
  /-- The place is kept for a class. -/
  | reserved (k : Nat)
  /-- The number of arguments was checked. -/
  | args (n : Nat)
  /-- A function body was compiled. -/
  | body (b : Body)
  /-- A method was compiled. -/
  | method (f : Function)

/-- What is known of the methods of a class. -/
def Known.methods (ms : List (String × Function)) : List Known := ms.map fun m => .method m.2

/-- The instructions that are emitted where `K` is known, apart from jumps and those that refer to a binding. -/
inductive Known.Emits (K : List Known) : Opcode → List Nat → Prop where
  | plain {op : Opcode} : op.widths = [] → Emits K op []
  | channel {n : Nat} : n ≤ 1 → Emits K .channel [n]
  /-- The values of a literal are counted. -/
  | count {op : Opcode} (n : Nat) : op = .array ∨ op = .hash ∨ op = .orderedMap → Emits K op [n]
  | call {op : Opcode} {n : Nat} : op = .call ∨ op = .spawn → .args n ∈ K → Emits K op [n]
  | constant {op : Opcode} {k : Nat} : op = .constant ∨ op = .getProperty ∨ op = .setProperty → .place k ∈ K →
    Emits K op [k]
  | invoke {op : Opcode} {k n : Nat} : op = .invoke ∨ op = .invokeSuper → .place k ∈ K → .args n ∈ K → Emits K op [k, n]

/-- The jumps whose targets are set later. -/
inductive Known.Waits : Opcode → List Nat → Prop where
  | jump {op : Opcode} : op = .jump ∨ op = .jumpIfFalse ∨ op = .finallyEnd → Waits op [Opcode.noTarget]
  | tryEnter : Waits .tryEnter [Opcode.noTarget, Opcode.noTarget]

/-- What is compiled in a scope of its own. -/
inductive Opens : CompileM Unit → Prop where
  | literal (f : FunctionLiteral) (binding : Option String) :
    Opens (openLiteral f binding >>= fun _ => functionBody f.body)
  | method (f : FunctionLiteral) : Opens (openMethod f >>= fun _ => functionBody f.body)

/-- A judgement about steps of compilation with its rules. -/
structure Logic where
  /-- Where the code at hand stands. -/
  Level : Type
  /-- Inside one more function body. -/
  inside : Level → Level
  /-- The declarations that the code at hand may contain. -/
  Allows : Level → Declaration → Prop
  /-- In a function body anything may be declared. -/
  allows_inside : ∀ (G : Level) (d : Declaration), Allows (inside G) d
  /-- Begun where `K` is known, a step does what it may, and afterwards `Q` is known of its result. -/
  Gives : {α : Type} → Level → List Known → CompileM α → (α → List Known) → Prop
  weaken : ∀ {α : Type} {G : Level} {K K' : List Known} {Q : α → List Known} {m : CompileM α},
    Gives G K m Q → K ⊆ K' → Gives G K' m Q
  bind : ∀ {α β : Type} {G : Level} {K : List Known} {Q : α → List Known} {R : β → List Known} {m : CompileM α}
    {f : α → CompileM β}, Gives G K m Q → (∀ a, Gives G (K ++ Q a) (f a) R) → Gives G K (m >>= f) R
  pure : ∀ {α : Type} {G : Level} {K : List Known} {Q : α → List Known} {a : α}, (∀ φ ∈ Q a, φ ∈ K) →
    Gives G K (Pure.pure a) Q
  fail : ∀ {α : Type} {G : Level} {K : List Known} {Q : α → List Known} {span : Span} (cause : CompileCause),
    Gives G K (CompileM.fail cause span : CompileM α) Q
  /-- The state is looked at. -/
  withState : ∀ {β : Type} {G : Level} {K : List Known} {R : β → List Known} {f : CompileState → CompileM β},
    (∀ σ, Gives G K (f σ) R) → Gives G K (get >>= f) R
  put : ∀ {G : Level} {K : List Known} {op : Opcode} {xs : List Nat} {span : Span}, Known.Emits K op xs →
    Gives G K (CompileM.put op xs span) fun _ => []
  emit : ∀ {G : Level} {K : List Known} {op : Opcode} {xs : List Nat} {span : Span}, Known.Waits op xs →
    Gives G K (CompileM.emit op xs span) fun place => [.jump place]
  emitJumpTo : ∀ {G : Level} {K : List Known} {op : Opcode} {target : Nat} {span : Span},
    op = .jump ∨ op = .finallyEnd → Gives G K (CompileM.emitJumpTo op target span) fun _ => []
  patch : ∀ {G : Level} {K : List Known} {place : Nat} {span : Span}, .jump place ∈ K → ∀ k target,
    Gives G K (CompileM.patch place k target span) fun _ => []
  /-- The `pop` at the end of a branch is dropped. -/
  dropPop : ∀ {G : Level} {K : List Known}, Gives G K (modifyBlock CodeBlock.dropPop) fun _ => []
  /-- The `pop` at the end of a function body becomes a return. -/
  returnPop : ∀ {G : Level} {K : List Known}, Gives G K (modifyBlock CodeBlock.returnPop) fun _ => []
  addConstant : ∀ {G : Level} {K : List Known} {c : Constant} {span : Span}, c.functions = [] →
    Gives G K (CompileM.addConstant c span) fun k => [.place k]
  define : ∀ {G : Level} {K : List Known} {name : String} {constant : Bool} {span : Span},
    Allows G (name, constant) → Gives G K (CompileM.define name constant span) fun x => [.store x]
  resolve : ∀ {G : Level} {K : List Known} {span : Span} (name : String), Gives G K (CompileM.resolve name span)
    fun x => .load x :: if x.isAssignable then [.store x] else []
  load : ∀ {G : Level} {K : List Known} {x : Symbol} {span : Span}, .load x ∈ K →
    Gives G K (CompileM.load x span) fun _ => []
  store : ∀ {G : Level} {K : List Known} {x : Symbol} {span : Span}, .store x ∈ K →
    Gives G K (CompileM.store x span) fun _ => []
  checkArgs : ∀ {G : Level} {K : List Known} {span : Span} (n : Nat),
    Gives G K (CompileM.checkArgs n span) fun _ => [.args n]
  superClass : ∀ {G : Level} {K : List Known} {span : Span},
    Gives G K (CompileM.superClass span) fun c => [.place c.constant]
  nameFunction : ∀ {G : Level} {K : List Known} (name : Option String),
    Gives (inside G) K (CompileM.nameFunction name) fun _ => []
  inFunction : ∀ {G : Level} {K : List Known} {m : CompileM Unit}, Opens m → (Gives (inside G) [] m fun _ => []) →
    Gives G K (CompileM.inFunction m) fun b => [.body b]
  makeClosure : ∀ {G : Level} {K : List Known} {f : FunctionLiteral} {name : Option String} {b : Body}, .body b ∈ K →
    Gives G K (CompileM.makeClosure f name b) fun _ => []
  makeMethod : ∀ {G : Level} {K : List Known} {cls name : String} {f : FunctionLiteral} {b : Body}, .body b ∈ K →
    Gives G K (CompileM.makeMethod cls f name b) fun m => [.method m]
  beginClass : ∀ {G : Level} {K : List Known} {id : Ident} {hasParent : Bool} {span : Span},
    Allows G (id.name, false) →
    Gives G K (CompileM.beginClass id hasParent span) fun found => [.store found.1, .reserved found.2]
  endClass : ∀ {G : Level} {K : List Known} {x : Symbol} {place : Nat} {c : ClassConstant} {span : Span},
    .store x ∈ K → .reserved place ∈ K → Known.methods c.methods ⊆ K →
    Gives G K (CompileM.endClass x place c span) fun _ => []
  enterLoop : ∀ {G : Level} {K : List Known} (target : Option Nat) (depth : Nat),
    Gives G K (CompileM.enterLoop target depth) fun _ => []
  leaveLoop : ∀ {G : Level} {K : List Known} {span : Span}, Gives G K (CompileM.leaveLoop span) fun _ => []
  placeContinues : ∀ {G : Level} {K : List Known} {span : Span}, Gives G K (CompileM.placeContinues span) fun _ => []
  /-- Another jump waits with the innermost loop. -/
  modifyLoop : ∀ {G : Level} {K : List Known} {place : Nat} {f : LoopContext → LoopContext}, .jump place ∈ K →
    (∀ c, ∀ p ∈ (f c).continueJumps ++ (f c).breakJumps, p ∈ c.continueJumps ++ c.breakJumps ∨ p = place) →
    Gives G K (CompileM.modifyLoop f) fun _ => []

namespace Logic

variable (L : Logic) {α β : Type} {G : L.Level} {K : List Known} {Q : α → List Known} {R : β → List Known}
  {m : CompileM α} {span : Span} {op : Opcode} {xs places : List Nat} {place : Nat} {x : Symbol}

/-- A step does what it may. -/
abbrev Keeps {α : Type} (G : L.Level) (K : List Known) (m : CompileM α) : Prop := L.Gives G K m fun _ => []

/-- All these declarations are allowed. -/
def AllowsAll (G : L.Level) (ds : List Declaration) : Prop := ∀ d ∈ ds, L.Allows G d

theorem allowsAll_nil : L.AllowsAll G [] := List.forall_mem_nil _

theorem allowsAll_append {ds ds' : List Declaration} :
    L.AllowsAll G (ds ++ ds') ↔ L.AllowsAll G ds ∧ L.AllowsAll G ds' := List.forall_mem_append

theorem allowsAll_inside (ds : List Declaration) : L.AllowsAll (L.inside G) ds := fun d _ => L.allows_inside G d

variable {L}

/-- What comes first gives nothing that is needed later. -/
theorem Gives.seq {f : α → CompileM β} (hm : L.Gives G K m Q) (hf : ∀ a, L.Gives G K (f a) R) : L.Gives G K (m >>= f) R :=
  L.bind hm fun a => L.weaken (hf a) (List.subset_append_left _ _)

theorem Gives.bind {f : α → CompileM β} (hm : L.Gives G K m Q) (hf : ∀ a, L.Gives G (K ++ Q a) (f a) R) :
    L.Gives G K (m >>= f) R := L.bind hm hf

theorem Gives.map {f : α → β} (hm : L.Gives G K m Q) (h : ∀ a, ∀ φ ∈ R (f a), φ ∈ K ++ Q a) :
    L.Gives G K (f <$> m) R := by
  rw [map_eq_pure_bind]
  exact L.bind hm fun a => L.pure (h a)

theorem Gives.discard (hm : L.Gives G K m Q) : L.Keeps G K (Functor.discard m) := by
  have hmap : Functor.discard m = (fun _ => PUnit.unit) <$> m := rfl
  rw [hmap]
  exact hm.map fun _ => List.forall_mem_nil _

/-- The block at hand is looked at. -/
theorem withBlock {f : CodeBlock → CompileM β} (h : ∀ b, L.Gives G K (f b) R) : L.Gives G K (getBlock >>= f) R := by
  rw [getBlock, bind_assoc]
  refine L.withState fun σ => ?_
  rw [pure_bind]
  exact h _

theorem withOffset {f : Nat → CompileM β} (h : ∀ o, L.Gives G K (f o) R) : L.Gives G K (offset >>= f) R := by
  rw [offset, bind_assoc]
  refine withBlock fun b => ?_
  rw [pure_bind]
  exact h _

/-! ### Instructions -/

theorem keeps_plain (hop : op.widths = []) : L.Keeps G K (CompileM.put op [] span) := L.put (.plain hop)

theorem keeps_patchHere (hplace : .jump place ∈ K) : L.Keeps G K (patchHere place span) :=
  withOffset fun _ => L.patch hplace _ _

theorem keeps_patchAllHere (hplaces : ∀ place ∈ places, .jump place ∈ K) :
    L.Keeps G K (patchAllHere span places) := by
  induction places with
  | nil => exact L.pure (List.forall_mem_nil _)
  | cons place rest ih =>
    obtain ⟨hplace, hrest⟩ := List.forall_mem_cons.mp hplaces
    exact (keeps_patchHere hplace).seq fun _ => ih hrest

theorem keeps_emitConstant {c : Constant} (hc : c.functions = []) : L.Keeps G K (emitConstant c span) :=
  L.bind (L.addConstant hc) fun _ => L.put (.constant (.inl rfl) List.mem_concat_self)

/-- A member that is named is read, written or called. -/
theorem keeps_named {name : String} {f : Nat → CompileM Unit}
    (h : ∀ k, L.Keeps G (K ++ [.place k]) (f k)) : L.Keeps G K (CompileM.addConstant (.str name) span >>= f) :=
  L.bind (L.addConstant rfl) h

/-! ### Names -/

theorem keeps_loadName {name : String} {span' : Span} :
    L.Keeps G K (CompileM.resolve name span >>= fun x => CompileM.load x span') :=
  L.bind (L.resolve name) fun _ => L.load (List.mem_append_right _ List.mem_cons_self)

/-- What is declared is stored to, and the value is dropped. -/
theorem keeps_bindPop {name : String} {constant : Bool} {span' : Span} (h : L.Allows G (name, constant)) :
    L.Keeps G K (do
      let symbol ← CompileM.define name constant span
      CompileM.store symbol span'
      CompileM.put .pop [] span') :=
  L.bind (L.define h) fun _ => (L.store List.mem_concat_self).seq fun _ => keeps_plain rfl

theorem keeps_bindThrown {param : Option Ident} (h : L.AllowsAll G (param.toList.map fun p => (p.name, false))) :
    L.Keeps G K (bindThrown param span) := by
  cases param with
  | none => exact keeps_plain rfl
  | some p => exact keeps_bindPop (h _ List.mem_cons_self)

/-- In a function body locals are declared. -/
theorem keeps_defineParams (params : List Ident) : L.Keeps (L.inside G) K (defineParams params) := by
  induction params with
  | nil => exact L.pure (List.forall_mem_nil _)
  | cons p ps ih => exact (Gives.discard (L.define (L.allows_inside G _))).seq fun _ => ih

/-! ### Single expressions -/

theorem keeps_literal (l : Literal) : L.Keeps G K (literal l span) := by
  unfold literal
  split
  · exact keeps_emitConstant rfl
  · exact keeps_emitConstant rfl
  · exact keeps_emitConstant rfl
  all_goals exact keeps_plain rfl

theorem keeps_this : L.Keeps G K (this span) := by
  refine L.withState fun σ => ?_
  split
  · exact L.fail _
  · exact keeps_loadName

/-- The instruction of a unary operator has no operands. -/
theorem keeps_unary {op : String} {m : CompileM Unit} (hm : L.Keeps G K m) :
    L.Keeps G K (unaryOpcode op span >>= fun opcode => m >>= fun _ => CompileM.put opcode [] span) := by
  unfold unaryOpcode
  split
  · rw [pure_bind]
    exact hm.seq fun _ => keeps_plain rfl
  · rw [pure_bind]
    exact hm.seq fun _ => keeps_plain rfl
  · exact L.fail _

/-! ### Bodies -/

theorem keeps_finishBranch (body : List Stmt) : L.Keeps G K (finishBranch body span) := by
  refine withBlock fun b => ?_
  split
  · exact L.dropPop
  · exact keeps_plain rfl

theorem keeps_finishBody (body : List Stmt) : L.Keeps G K (finishBody body span) := by
  have hreturn : L.Keeps G K (do
      let block ← getBlock
      if !block.endsWith .returnValue && !block.endsWith .returnNull then CompileM.put .returnNull [] span) := by
    refine withBlock fun b => ?_
    split
    · exact keeps_plain rfl
    · exact L.pure (List.forall_mem_nil _)
  unfold finishBody
  dsimp only
  split
  · exact L.returnPop.seq fun _ => hreturn
  · exact hreturn

theorem methods_addMethod {found : ClassMembers} {name : String} {f : Function}
    (h : Known.methods found.methods ⊆ K) : Known.methods (found.addMethod name f).methods ⊆ K ++ [.method f] := by
  intro φ hφ
  obtain ⟨m, hm, rfl⟩ := List.mem_map.mp hφ
  have hold {e : String × Function} (he : e ∈ found.methods) : Known.method e.2 ∈ K ++ [.method f] :=
    List.mem_append_left _ (h (List.mem_map_of_mem he))
  unfold ClassMembers.addMethod at hm
  split at hm
  · obtain ⟨e, he, rfl⟩ := List.mem_map.mp hm
    split
    · exact List.mem_concat_self
    · exact hold he
  · rcases List.mem_append.mp hm with hm | hm
    · exact hold hm
    · rw [List.mem_singleton.mp hm]
      exact List.mem_concat_self

/-! ### Loops -/

/-- The innermost loop is looked at. -/
theorem withLoop {f : LoopContext → CompileM β} {e : Misplaced} (h : ∀ c, L.Gives G K (f c) R) :
    L.Gives G K (innermostLoop e span >>= f) R := by
  rw [innermostLoop, bind_assoc]
  refine L.withState fun σ => ?_
  split
  · rw [pure_bind]
    exact h _
  · exact L.fail _

end Logic

end CompileM

end ScriptMachine
