import ScriptMachine.Proofs.Calls.Parameters
import ScriptMachine.Proofs.Spans.Origins

/-!
# What steps of compilation append

`CompileM.Appends Src ds m ds' P` says that `m` changes the block at hand only at its end, where it appends
instructions with `P`, and that each function it adds to the pool is the code of a body of the source. Operands of
earlier instructions may change, and nothing else of them. There is one lemma for each primitive step.
-/

namespace ScriptMachine

/-- The function is the block of the instructions `is`, and they are the code of the piece `n`. -/
structure Function.Stems (f : Function) (n : Node) (is : List Emitted) : Prop where
  origins : Origins .top n (is.map Emitted.origin)
  sized : ∀ i ∈ is, i.Sized
  code_eq : f.code = (CodeBlock.ofItems is).code
  debug_eq : f.debug = (CodeBlock.ofItems is).debug

/-- The function is the code of a body of the source. -/
def Function.StemsFrom (Src : Source) (f : Function) : Prop := ∃ b is, Src.body b ∧ f.Stems (.body b) is

/-- All functions of the pool are code of bodies of the source. -/
def Pool.StemsFrom (Src : Source) (p : Pool) : Prop := ∀ c ∈ p, ∀ f ∈ c.functions, f.StemsFrom Src

namespace CompileState

/-- Where the instructions of the block at hand come from. -/
def origins (σ : CompileState) : List Origin := σ.items.map Emitted.origin

/-- The numbers of regions around the loops are `ds`, operands are as many as they should be, and functions of the
pool come from the source. -/
structure Traced (Src : Source) (ds : List Nat) (σ : CompileState) : Prop where
  depths : σ.function.loops.map LoopContext.tryDepth = ds
  sized : ∀ i ∈ σ.items, i.Sized
  pool : σ.pool.StemsFrom Src

section

variable {Src : Source} {ds : List Nat} {σ : CompileState}

@[simp] theorem origins_emit (op : Opcode) (xs : List Nat) (span : Span) :
    (σ.emit op xs span).origins = σ.origins ++ [⟨op, span⟩] := by
  rw [origins, emit_items, List.map_append]
  rfl

@[simp] theorem origins_patch (place k target : Nat) : (σ.patch place k target).origins = σ.origins := by
  rw [origins, patch_items]
  apply List.ext_getElem?
  intro j
  simp only [origins, List.getElem?_map, List.getElem?_modify]
  cases σ.items[j]? with
  | none => rfl
  | some i => split <;> rfl

theorem Traced.emit (h : σ.Traced Src ds) (op : Opcode) (xs : List Nat) (span : Span)
    (hsized : xs.length = op.widths.length) : (σ.emit op xs span).Traced Src ds where
  depths := h.depths
  sized := by
    rw [emit_items]
    exact List.forall_mem_append.mpr ⟨h.sized, List.forall_mem_singleton.mpr hsized⟩
  pool := h.pool

theorem Traced.patch (h : σ.Traced Src ds) (place k target : Nat) : (σ.patch place k target).Traced Src ds where
  depths := h.depths
  sized := by
    intro i hi
    obtain ⟨j, hj⟩ := List.mem_iff_getElem?.mp hi
    obtain ⟨i', hi', rfl⟩ := Option.map_eq_some_iff.mp ((σ.getElem?_patch place k target j).symm.trans hj)
    have hsized := h.sized i' (List.mem_of_getElem? hi')
    split
    · exact (List.length_set).trans hsized
    · exact hsized
  pool := h.pool

theorem Traced.patchAll (h : σ.Traced Src ds) (target : Nat) (places : List Nat) :
    (σ.patchAll target places).origins = σ.origins ∧ (σ.patchAll target places).Traced Src ds := by
  induction places generalizing σ with
  | nil => exact ⟨rfl, h⟩
  | cons place rest ih =>
    obtain ⟨horigins, htraced⟩ := ih (h.patch place 0 target)
    exact ⟨horigins.trans (origins_patch place 0 target), htraced⟩

/-- A constant is added whose functions are code of bodies of the source. -/
theorem Traced.push (h : σ.Traced Src ds) {c : Constant} (hc : ∀ f ∈ c.functions, f.StemsFrom Src) :
    CompileState.Traced Src ds { σ with pool := σ.pool.push c } where
  depths := h.depths
  sized := h.sized
  pool := by
    intro d hd
    rcases Array.mem_push.mp hd with hd | rfl
    · exact h.pool d hd
    · exact hc

/-- The last instruction comes from the last node. -/
theorem items_of_origins {os : List Origin} {o : Origin} (h : σ.origins = os ++ [o]) :
    ∃ before last, σ.items = before ++ [last] ∧ before.map Emitted.origin = os ∧ last.origin = o := by
  obtain ⟨before, last, hitems, hbefore, hlast⟩ := List.map_eq_append_iff.mp h
  obtain ⟨i, rfl, hi⟩ := List.map_eq_singleton_iff.mp hlast
  exact ⟨before, i, hitems, hbefore, hi⟩

/-- It decides how the block ends. -/
theorem endsWith_of_origins {os : List Origin} {o : Origin} (h : σ.origins = os ++ [o]) (op : Opcode) :
    σ.function.block.endsWith op = (o.opcode == op) := by
  obtain ⟨before, last, hitems, -, rfl⟩ := items_of_origins h
  exact endsWith_of_items hitems op

/-- The `pop` at the end is dropped. -/
theorem Traced.dropPop (h : σ.Traced Src ds) {os : List Origin} {s : Span} (hos : σ.origins = os ++ [⟨.pop, s⟩]) :
    (σ.withBlock σ.function.block.dropPop).origins = os ∧
      (σ.withBlock σ.function.block.dropPop).Traced Src ds := by
  obtain ⟨before, last, hitems, hbefore, hlast⟩ := items_of_origins hos
  have hdrop := items_dropPop hitems (congrArg Origin.opcode hlast)
  constructor
  · rw [origins, hdrop, hbefore]
  · refine ⟨h.depths, fun j hj => h.sized j ?_, h.pool⟩
    rw [hdrop] at hj
    rw [hitems]
    exact List.mem_append_left _ hj

/-- The `pop` at the end becomes a return, for the same node. -/
theorem Traced.returnPop (h : σ.Traced Src ds) {os : List Origin} {s : Span} (hos : σ.origins = os ++ [⟨.pop, s⟩]) :
    (σ.withBlock σ.function.block.returnPop).origins = os ++ [⟨.returnValue, s⟩] ∧
      (σ.withBlock σ.function.block.returnPop).Traced Src ds := by
  obtain ⟨before, last, hitems, hbefore, hlast⟩ := items_of_origins hos
  have hop : last.opcode = .pop := congrArg Origin.opcode hlast
  have hreturn := items_returnPop hitems hop
  constructor
  · rw [origins, hreturn, List.map_append, hbefore, ← show last.span = s from congrArg Origin.span hlast]
    rfl
  · refine ⟨h.depths, fun j hj => ?_, h.pool⟩
    have hold : ∀ j ∈ before ++ [last], j.Sized := fun j hj => h.sized j (by rw [hitems]; exact hj)
    rw [hreturn] at hj
    rcases List.mem_append.mp hj with hj | hj
    · exact hold j (List.mem_append_left _ hj)
    · -- neither instruction has operands
      have hlength : last.operands.length = last.opcode.widths.length := hold last List.mem_concat_self
      rw [List.mem_singleton.mp hj]
      rw [hop] at hlength
      exact hlength

end

end CompileState

namespace CompileM

open CompileState

/-- Begun with the loops `ds`, `m` appends instructions with `P` to the block at hand and ends with the loops `ds'`. -/
def Appends {α : Type} (Src : Source) (ds : List Nat) (m : CompileM α) (ds' : List Nat) (P : α → List Origin → Prop) :
    Prop :=
  ∀ (σ : CompileState) (a : α) (σ' : CompileState), m σ = .ok a σ' → σ.Traced Src ds →
    ∃ os, P a os ∧ σ'.origins = σ.origins ++ os ∧ σ'.Traced Src ds'

/-- Nothing is appended. -/
abbrev Silent {α : Type} (Src : Source) (ds : List Nat) (m : CompileM α) (ds' : List Nat) : Prop :=
  Appends Src ds m ds' fun _ os => os = []

section

variable {α β : Type} {Src : Source} {ds ds' ds'' : List Nat} {P : α → List Origin → Prop}
  {Q : β → List Origin → Prop} {m : CompileM α} {span : Span} {op : Opcode} {xs places : List Nat} {place : Nat}
  {x : Symbol}

theorem Appends.bind {f : α → CompileM β} (hm : Appends Src ds m ds' P)
    (hf : ∀ a os, P a os → Appends Src ds' (f a) ds'' fun b os' => Q b (os ++ os')) :
    Appends Src ds (m >>= f) ds'' Q := by
  intro σ b σ' hrun hσ
  obtain ⟨a, σ₁, hfirst, hrest⟩ := bind_ok hrun
  obtain ⟨os, hP, horigins, hσ₁⟩ := hm σ a σ₁ hfirst hσ
  obtain ⟨os', hQ, horigins', hσ'⟩ := hf a os hP σ₁ b σ' hrest hσ₁
  exact ⟨os ++ os', hQ, by rw [horigins', horigins, List.append_assoc], hσ'⟩

theorem Appends.imp {P' : α → List Origin → Prop} (hm : Appends Src ds m ds' P) (h : ∀ a os, P a os → P' a os) :
    Appends Src ds m ds' P' := by
  intro σ a σ' hrun hσ
  obtain ⟨os, hP, hrest⟩ := hm σ a σ' hrun hσ
  exact ⟨os, h a os hP, hrest⟩

/-- What comes first appends nothing. -/
theorem Silent.seq {f : α → CompileM β} (hm : Silent Src ds m ds') (hf : ∀ a, Appends Src ds' (f a) ds'' Q) :
    Appends Src ds (m >>= f) ds'' Q := by
  refine hm.bind fun a os hos => ?_
  rw [hos]
  exact hf a

theorem Silent.discard (hm : Silent Src ds m ds') : Silent Src ds (discard m) ds' := by
  intro σ _ σ' hrun hσ
  obtain ⟨a, hm'⟩ := discard_ok hrun
  exact hm σ a σ' hm' hσ

theorem appends_pure {a : α} (h : P a []) : Appends Src ds (pure a) ds P := by
  intro σ b σ' hrun hσ
  obtain ⟨rfl, rfl⟩ := pure_ok hrun
  exact ⟨[], h, (List.append_nil _).symm, hσ⟩

theorem silent_pure (a : α) : Silent Src ds (pure a) ds := appends_pure rfl

theorem appends_fail (cause : CompileCause) : Appends Src ds (fail cause span : CompileM α) ds' P :=
  fun _ _ _ hrun => (fail_ok hrun).elim

/-- The state is looked at. -/
theorem Appends.withState {f : CompileState → CompileM β} (h : ∀ σ, Appends Src ds (f σ) ds' Q) :
    Appends Src ds (get >>= f) ds' Q := by
  intro σ b σ' hrun hσ
  exact h σ σ b σ' hrun hσ

theorem Appends.withOffset {f : Nat → CompileM β} (h : ∀ o, Appends Src ds (f o) ds' Q) :
    Appends Src ds (offset >>= f) ds' Q := by
  intro σ b σ' hrun hσ
  exact h σ.size σ b σ' hrun hσ

/-- A step that leaves block, loops and pool alone. -/
theorem silent_of_eq
    (h : ∀ σ a σ', m σ = .ok a σ' → σ'.function = σ.function ∧ σ'.pool = σ.pool) : Silent Src ds m ds := by
  intro σ a σ' hrun hσ
  obtain ⟨hfunction, hpool⟩ := h σ a σ' hrun
  have hitems : σ'.items = σ.items := by rw [items, hfunction, items]
  refine ⟨[], rfl, by rw [origins, hitems, List.append_nil, origins], ?_, ?_, ?_⟩
  · rw [hfunction]
    exact hσ.depths
  · rw [hitems]
    exact hσ.sized
  · rw [hpool]
    exact hσ.pool

/-! ### Instructions -/

theorem appends_emit {P : Nat → List Origin → Prop} (hsized : xs.length = op.widths.length)
    (h : ∀ place, P place [⟨op, span⟩]) : Appends Src ds (emit op xs span) ds P := by
  intro σ place σ' hrun hσ
  obtain ⟨rfl, rfl⟩ := emit_ok hrun
  exact ⟨_, h _, origins_emit op xs span, hσ.emit op xs span hsized⟩

theorem appends_put {P : Unit → List Origin → Prop} (hsized : xs.length = op.widths.length) (h : P () [⟨op, span⟩]) :
    Appends Src ds (put op xs span) ds P := by
  intro σ _ σ' hrun hσ
  obtain rfl := put_ok hrun
  exact ⟨_, h, origins_emit op xs span, hσ.emit op xs span hsized⟩

theorem appends_emitJumpTo {target : Nat} {P : Unit → List Origin → Prop} (hsized : op.widths.length = 1)
    (h : P () [⟨op, span⟩]) : Appends Src ds (emitJumpTo op target span) ds P := by
  intro σ _ σ' hrun hσ
  obtain ⟨-, rfl⟩ := emitJumpTo_ok hrun
  exact ⟨_, h, origins_emit op [target] span, hσ.emit op [target] span hsized.symm⟩

/-- One instruction, and what comes after it. -/
theorem Appends.emit {f : Nat → CompileM β} (hsized : xs.length = op.widths.length)
    (h : ∀ place, Appends Src ds (f place) ds' fun b os => Q b (⟨op, span⟩ :: os)) :
    Appends Src ds (CompileM.emit op xs span >>= f) ds' Q :=
  Appends.bind (appends_emit (P := fun _ os => os = [⟨op, span⟩]) hsized fun _ => rfl) fun place _ hos => hos ▸ h place

theorem Appends.put {f : Unit → CompileM β} (hsized : xs.length = op.widths.length)
    (h : Appends Src ds (f ()) ds' fun b os => Q b (⟨op, span⟩ :: os)) :
    Appends Src ds (CompileM.put op xs span >>= f) ds' Q :=
  Appends.bind (appends_put (P := fun _ os => os = [⟨op, span⟩]) hsized rfl) fun _ _ hos => hos ▸ h

theorem Appends.emitJumpTo {target : Nat} {f : Unit → CompileM β} (hsized : op.widths.length = 1)
    (h : Appends Src ds (f ()) ds' fun b os => Q b (⟨op, span⟩ :: os)) :
    Appends Src ds (CompileM.emitJumpTo op target span >>= f) ds' Q :=
  Appends.bind (appends_emitJumpTo (P := fun _ os => os = [⟨op, span⟩]) hsized rfl) fun _ _ hos => hos ▸ h

theorem silent_patch (place k target : Nat) : Silent Src ds (patch place k target span) ds := by
  intro σ _ σ' hrun hσ
  obtain ⟨-, rfl⟩ := patch_ok hrun
  exact ⟨[], rfl, by simp, hσ.patch place k target⟩

theorem silent_patchHere (place : Nat) : Silent Src ds (patchHere place span) ds :=
  .withOffset fun _ => silent_patch _ _ _

theorem silent_patchAllHere (places : List Nat) : Silent Src ds (patchAllHere span places) ds := by
  intro σ _ σ' hrun hσ
  obtain ⟨-, rfl⟩ := patchAllHere_ok hrun
  obtain ⟨horigins, htraced⟩ := hσ.patchAll σ.size places
  exact ⟨[], rfl, by rw [horigins, List.append_nil], htraced⟩

/-! ### Constants and names -/

theorem silent_addConstant {c : Constant} (hc : ∀ f ∈ c.functions, f.StemsFrom Src) :
    Silent Src ds (addConstant c span) ds := by
  intro σ _ σ' hrun hσ
  obtain ⟨rfl, -, -⟩ := addConstant_ok hrun
  exact ⟨[], rfl, (List.append_nil _).symm, hσ.push hc⟩

/-- The name of a member. -/
theorem silent_addName (name : String) : Silent Src ds (addConstant (.str name) span) ds := silent_addConstant nofun

theorem appends_emitConstant {c : Constant} (hc : c.functions = []) :
    Appends Src ds (emitConstant c span) ds fun _ os => os = [⟨.constant, span⟩] := by
  refine (silent_addConstant ?_).seq fun _ => appends_put rfl rfl
  intro f hf
  rw [hc] at hf
  cases hf

theorem silent_define {name : String} {constant : Bool} : Silent Src ds (define name constant span) ds := by
  refine silent_of_eq fun σ x σ' hrun => ?_
  obtain ⟨-, rfl, -⟩ := define_ok hrun
  exact ⟨rfl, rfl⟩

theorem silent_resolve (name : String) : Silent Src ds (resolve name span) ds := by
  refine silent_of_eq fun σ x σ' hrun => ?_
  obtain ⟨found, σ₁, hmod, hcheck⟩ := bind_ok hrun
  obtain ⟨-, rfl⟩ := modifyGet_ok hmod
  cases found with
  | none => exact (fail_ok hcheck).elim
  | some y =>
    obtain ⟨-, rfl⟩ := pure_ok hcheck
    exact ⟨rfl, rfl⟩

theorem appends_load (x : Symbol) :
    Appends Src ds (load x span) ds fun _ os => ∃ op : Opcode, op.isLoad = true ∧ os = [⟨op, span⟩] := by
  unfold load
  cases x.storage <;> exact appends_put rfl ⟨_, rfl, rfl⟩

theorem appends_store (x : Symbol) :
    Appends Src ds (store x span) ds fun _ os => ∃ op : Opcode, op.isStore = true ∧ os = [⟨op, span⟩] := by
  unfold store
  cases x.storage with
  | global => exact appends_put rfl ⟨_, rfl, rfl⟩
  | «local» => exact appends_put rfl ⟨_, rfl, rfl⟩
  | free => exact appends_put rfl ⟨_, rfl, rfl⟩
  | builtin => exact appends_fail _
  | functionSelf => exact appends_fail _

/-- A value is stored into a binding and dropped. -/
theorem appends_storePop (x : Symbol) :
    Appends Src ds (store x span >>= fun _ => CompileM.put .pop [] span) ds fun _ os => Origin.Stored span os := by
  refine (appends_store x).bind fun _ os hos => appends_put rfl ?_
  obtain ⟨op, hop, rfl⟩ := hos
  exact ⟨op, hop, rfl⟩

theorem appends_bindThrown (param : Option Ident) :
    Appends Src ds (bindThrown param span) ds fun _ os => Origin.Caught param span os := by
  cases param with
  | none => exact appends_put rfl rfl
  | some p => exact silent_define.seq fun x => appends_storePop x

theorem appends_capture (x : Symbol) :
    Appends Src ds (capture x span) ds fun _ os =>
      ∃ ops : List Opcode, (∀ op ∈ ops, op.isCapture = true) ∧ os = ops.map fun op => ⟨op, span⟩ := by
  unfold capture
  cases x.storage with
  | «local» => exact appends_put rfl ⟨[.captureLocal], List.forall_mem_singleton.mpr rfl, rfl⟩
  | free => exact appends_put rfl ⟨[.captureFree], List.forall_mem_singleton.mpr rfl, rfl⟩
  | functionSelf => exact appends_put rfl ⟨[.captureSelf], List.forall_mem_singleton.mpr rfl, rfl⟩
  | global => exact appends_pure ⟨[], nofun, rfl⟩
  | builtin => exact appends_pure ⟨[], nofun, rfl⟩

theorem appends_captureAll (symbols : List Symbol) :
    Appends Src ds (captureAll span symbols) ds fun _ os =>
      ∃ ops : List Opcode, (∀ op ∈ ops, op.isCapture = true) ∧ os = ops.map fun op => ⟨op, span⟩ := by
  induction symbols with
  | nil => exact appends_pure ⟨[], nofun, rfl⟩
  | cons x rest ih =>
    refine (appends_capture x).bind fun _ os hos => ih.imp fun _ os' hos' => ?_
    obtain ⟨ops, hops, rfl⟩ := hos
    obtain ⟨ops', hops', rfl⟩ := hos'
    exact ⟨ops ++ ops', List.forall_mem_append.mpr ⟨hops, hops'⟩, by rw [List.map_append]⟩

theorem silent_defineParams (params : List Ident) : Silent Src ds (defineParams params) ds := by
  induction params with
  | nil => exact silent_pure ()
  | cons p ps ih => exact silent_define.discard.seq fun _ => ih

theorem silent_nameFunction (own : Option String) : Silent Src ds (nameFunction own) ds := by
  cases own with
  | none => exact silent_pure ()
  | some name =>
    refine silent_of_eq fun σ _ σ' hrun => ?_
    obtain rfl := modify_ok hrun
    exact ⟨rfl, rfl⟩

/-! ### Single expressions -/

theorem appends_literal (l : Literal) :
    Appends Src ds (literal l span) ds fun _ os => os = [⟨l.opcode, span⟩] := by
  cases l with
  | int n => exact appends_emitConstant rfl
  | float x => exact appends_emitConstant rfl
  | str s => exact appends_emitConstant rfl
  | bool b => cases b <;> exact appends_put rfl rfl
  | null => exact appends_put rfl rfl

theorem appends_this :
    Appends Src ds (this span) ds fun _ os => ∃ op : Opcode, op.isLoad = true ∧ os = [⟨op, span⟩] := by
  refine .withState fun σ => ?_
  split
  · exact appends_fail _
  · exact (silent_resolve _).seq fun x => appends_load x

theorem appends_unaryOpcode {op : String} :
    Appends Src ds (unaryOpcode op span) ds fun opcode os =>
      os = [] ∧ (if op = "-" then Opcode.negate else .not) = opcode := by
  unfold unaryOpcode
  split
  · exact appends_pure ⟨rfl, rfl⟩
  · exact appends_pure ⟨rfl, rfl⟩
  · exact appends_fail _

theorem silent_superClass : Silent Src ds (superClass span) ds := by
  refine silent_of_eq fun σ x σ' hrun => ?_
  obtain ⟨-, rfl⟩ := superClass_ok hrun
  exact ⟨rfl, rfl⟩

theorem silent_checkArgs (count : Nat) : Silent Src ds (checkArgs count span) ds := by
  refine silent_of_eq fun σ x σ' hrun => ?_
  obtain ⟨-, rfl⟩ := checkArgs_ok hrun
  exact ⟨rfl, rfl⟩

/-! ### Loops -/

theorem silent_enterLoop (target : Option Nat) (depth : Nat) :
    Silent Src ds (enterLoop target depth) (depth :: ds) := by
  intro σ _ σ' hrun hσ
  obtain rfl := enterLoop_ok hrun
  exact ⟨[], rfl, (List.append_nil _).symm, congrArg (depth :: ·) hσ.depths, hσ.sized, hσ.pool⟩

/-- Loops change, but not what they know of the regions around them. -/
theorem Traced.withLoops {σ : CompileState} {cs : List LoopContext} (h : σ.Traced Src ds)
    (hcs : cs.map LoopContext.tryDepth = ds') : (σ.withLoops cs).Traced Src ds' := ⟨hcs, h.sized, h.pool⟩

theorem silent_leaveLoop {depth : Nat} : Silent Src (depth :: ds) (leaveLoop span) ds := by
  intro σ _ σ' hrun hσ
  obtain ⟨c, cs, hcs, -, hds⟩ := List.map_eq_cons_iff.mp hσ.depths
  obtain ⟨-, rfl⟩ := leaveLoop_ok hcs hrun
  obtain ⟨horigins, htraced⟩ := (Traced.withLoops hσ hds).patchAll σ.size c.breakJumps
  exact ⟨[], rfl, horigins.trans (List.append_nil _).symm, htraced⟩

theorem silent_placeContinues {depth : Nat} :
    Silent Src (depth :: ds) (placeContinues span) (depth :: ds) := by
  intro σ _ σ' hrun hσ
  obtain ⟨c, cs, hcs, hdepth, hds⟩ := List.map_eq_cons_iff.mp hσ.depths
  obtain ⟨-, rfl⟩ := placeContinues_ok hcs hrun
  have hloops : ({ c with continueJumps := [] } :: cs).map LoopContext.tryDepth = depth :: ds := by
    rw [List.map_cons, hds]
    exact congrArg (· :: ds) hdepth
  obtain ⟨horigins, htraced⟩ := (Traced.withLoops hσ hloops).patchAll σ.size c.continueJumps
  exact ⟨[], rfl, horigins.trans (List.append_nil _).symm, htraced⟩

theorem silent_modifyLoop {f : LoopContext → LoopContext} (hf : ∀ c, (f c).tryDepth = c.tryDepth) :
    Silent Src ds (modifyLoop f) ds := by
  intro σ _ σ' hrun hσ
  cases hcs : σ.function.loops with
  | nil =>
    have hσ' := modify_ok hrun
    simp only [hcs] at hσ'
    subst hσ'
    exact ⟨[], rfl, (List.append_nil _).symm, hσ⟩
  | cons c cs =>
    obtain rfl := modifyLoop_ok hcs hrun
    refine ⟨[], rfl, (List.append_nil _).symm, Traced.withLoops hσ ?_⟩
    rw [← hσ.depths, hcs, List.map_cons, List.map_cons, hf]

/-- The innermost loop is one of those at hand. -/
theorem appends_innermostLoop (m : Misplaced) :
    Appends Src ds (innermostLoop m span) ds fun c os => os = [] ∧ ds.head? = some c.tryDepth := by
  intro σ c σ' hrun hσ
  obtain ⟨cs, hcs, rfl⟩ := innermostLoop_ok hrun
  refine ⟨[], ⟨rfl, ?_⟩, (List.append_nil _).symm, hσ⟩
  rw [← hσ.depths, hcs]
  rfl

end

end CompileM

end ScriptMachine
