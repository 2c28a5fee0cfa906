import ScriptMachine.Proofs.Rules.Forms
import ScriptMachine.Proofs.Widths.State

/-!
# Steps that emit numbers that fit

`CompileM.Checks K m Q` says that all instructions which `m` emits fit, or they spill, if it begins where `K` is known.
There is one lemma for each primitive step of compilation, and together they are the rules of a logic
(`CompileM.fitting`), so that they hold of all pieces of the source.
-/

namespace ScriptMachine

namespace CompileM

open CompileState

/-- Begun where `K` is known, `m` emits nothing but what fits or spills, and `Q` is known of its result. -/
def Checks {α : Type} (K : List Known) (m : CompileM α) (Q : α → List Known) : Prop :=
  ∀ (σ : CompileState) (a : α) (σ' : CompileState), m σ = .ok a σ' → σ.Checked → (∀ φ ∈ K, σ.Knows φ) →
    σ.Advances σ' ∧ ∀ φ ∈ Q a, σ'.Knows φ

section

variable {α β : Type} {K : List Known} {Q : α → List Known} {R : β → List Known} {m : CompileM α} {span : Span}
  {op : Opcode} {xs : List Nat} {place : Nat} {x : Symbol}

theorem Checks.weaken {K' : List Known} (h : Checks K m Q) (hK : K ⊆ K') : Checks K' m Q :=
  fun σ a σ' hrun hσ hknown => h σ a σ' hrun hσ fun φ hφ => hknown φ (hK hφ)

theorem Checks.bind {f : α → CompileM β} (hm : Checks K m Q) (hf : ∀ a, Checks (K ++ Q a) (f a) R) :
    Checks K (m >>= f) R := by
  intro σ b σ' hrun hσ hK
  obtain ⟨a, σ₁, hfirst, hrest⟩ := bind_ok hrun
  obtain ⟨hadvances, hQ⟩ := hm σ a σ₁ hfirst hσ hK
  obtain ⟨hadvances', hR⟩ := hf a σ₁ b σ' hrest hadvances.checked fun φ hφ =>
    (List.mem_append.mp hφ).elim (fun h => hadvances.knows φ (hK φ h)) (hQ φ)
  exact ⟨hadvances.trans hadvances', hR⟩

/-- What comes first gives nothing that is needed later. -/
theorem Checks.seq {f : α → CompileM β} (hm : Checks K m Q) (hf : ∀ a, Checks K (f a) R) : Checks K (m >>= f) R :=
  hm.bind fun a => (hf a).weaken (List.subset_append_left _ _)

theorem checks_pure {a : α} (h : ∀ φ ∈ Q a, φ ∈ K) : Checks K (pure a) Q := by
  intro σ b σ' hrun hσ hK
  obtain ⟨rfl, rfl⟩ := pure_ok hrun
  exact ⟨hσ.refl, fun φ hφ => hK φ (h φ hφ)⟩

theorem checks_fail (cause : CompileCause) : Checks K (fail cause span : CompileM α) Q :=
  fun _ _ _ hrun => (fail_ok hrun).elim

/-! ### Instructions -/

theorem checks_put (h : Emitted.Fits ⟨op, xs, span⟩) : Checks K (put op xs span) fun _ => [] := by
  intro σ _ σ' hrun hσ _
  obtain rfl := put_ok hrun
  exact ⟨hσ.emit span (.inl h), List.forall_mem_nil _⟩

/-- Numbers that fit two bytes, or one. -/
theorem fits_one {n : Nat} {w : Nat} (hop : op.widths = [w]) (hn : n < 256 ^ w) : Emitted.Fits ⟨op, [n], span⟩ := by
  show List.Forall₂ _ op.widths [n]
  rw [hop]
  exact .cons hn .nil

theorem fits_two {n k : Nat} (hop : op.widths = [2, 1]) (hk : k < Pool.capacity) (hn : n < 256) :
    Emitted.Fits ⟨op, [k, n], span⟩ := by
  show List.Forall₂ _ op.widths [k, n]
  rw [hop]
  exact .cons hk (.cons hn .nil)

/-- Whatever is emitted on its own fits, but for the number of values of a literal. -/
theorem Known.Emits.checks (h : Known.Emits K op xs) : Checks K (put op xs span) fun _ => [] := by
  cases h with
  | plain hop => exact checks_put (Emitted.fits_plain hop)
  | channel hn => exact checks_put (fits_one rfl (Nat.lt_of_le_of_lt hn (by decide)))
  | count n hop =>
    by_cases hn : n < 256 ^ 2
    · rcases hop with rfl | rfl | rfl <;> exact checks_put (fits_one rfl hn)
    · intro σ _ σ' hrun hσ _
      obtain rfl := put_ok hrun
      exact ⟨hσ.emit span (.inr (.literal hop (Nat.le_of_not_lt hn))), List.forall_mem_nil _⟩
  | @call _ n hop hargs =>
    intro σ a σ' hrun hσ hK
    have hn : n < 256 := Nat.lt_succ_of_le (hK _ hargs)
    rcases hop with rfl | rfl
    · exact checks_put (fits_one rfl hn) σ a σ' hrun hσ hK
    · exact checks_put (fits_one rfl hn) σ a σ' hrun hσ hK
  | @constant _ k hop hplace =>
    intro σ a σ' hrun hσ hK
    have hk : k < 256 ^ 2 := hK _ hplace
    rcases hop with rfl | rfl | rfl
    · exact checks_put (fits_one rfl hk) σ a σ' hrun hσ hK
    · exact checks_put (fits_one rfl hk) σ a σ' hrun hσ hK
    · exact checks_put (fits_one rfl hk) σ a σ' hrun hσ hK
  | @invoke _ k n hop hplace hargs =>
    intro σ a σ' hrun hσ hK
    have hk : k < Pool.capacity := hK _ hplace
    have hn : n < 256 := Nat.lt_succ_of_le (hK _ hargs)
    rcases hop with rfl | rfl
    · exact checks_put (fits_two rfl hk hn) σ a σ' hrun hσ hK
    · exact checks_put (fits_two rfl hk hn) σ a σ' hrun hσ hK

/-- A jump waits at the place that is answered. -/
theorem Known.Waits.checks (h : Known.Waits op xs) : Checks K (emit op xs span) fun place => [.jump place] := by
  have hjump : Emitted.Fits ⟨op, xs, span⟩ ∧ op.jumpOperands ≠ [] := by
    cases h with
    | jump hop => rcases hop with rfl | rfl | rfl <;> exact ⟨fits_one rfl (by decide), List.cons_ne_nil _ _⟩
    | tryEnter => exact ⟨.cons (by decide) (.cons (by decide) .nil), List.cons_ne_nil _ _⟩
  intro σ place σ' hrun hσ _
  obtain ⟨rfl, rfl⟩ := emit_ok hrun
  refine ⟨hσ.emit span (.inl hjump.1), List.forall_mem_singleton.mpr ⟨⟨op, xs, span⟩, ?_, hjump.2⟩⟩
  rw [emit_items]
  exact List.getElem?_concat_length

theorem checks_emitJumpTo {target : Nat} (hop : op = .jump ∨ op = .finallyEnd) :
    Checks K (emitJumpTo op target span) fun _ => [] := by
  intro σ _ σ' hrun hσ _
  obtain ⟨htarget, rfl⟩ := emitJumpTo_ok hrun
  have hlt : target < 256 ^ 2 := Nat.lt_trans htarget (by decide)
  refine ⟨hσ.emit span (.inl ?_), List.forall_mem_nil _⟩
  rcases hop with rfl | rfl <;> exact fits_one rfl hlt

theorem checks_patch (hplace : .jump place ∈ K) (k target : Nat) :
    Checks K (patch place k target span) fun _ => [] := by
  intro σ _ σ' hrun hσ hK
  obtain ⟨htarget, rfl⟩ := patch_ok hrun
  exact ⟨hσ.patch (hK _ hplace) k htarget, List.forall_mem_nil _⟩

theorem checks_dropPop : Checks K (modifyBlock CodeBlock.dropPop) fun _ => [] := by
  intro σ _ σ' hrun hσ _
  obtain rfl := modifyBlock_ok hrun
  exact ⟨hσ.dropPop, List.forall_mem_nil _⟩

theorem checks_returnPop : Checks K (modifyBlock CodeBlock.returnPop) fun _ => [] := by
  intro σ _ σ' hrun hσ _
  obtain rfl := modifyBlock_ok hrun
  exact ⟨hσ.returnPop, List.forall_mem_nil _⟩

/-! ### Constants -/

theorem checks_addConstant {c : Constant} (hc : ∀ f ∈ c.functions, f.Checked) :
    Checks K (addConstant c span) fun k => [.place k] := by
  intro σ _ σ' hrun hσ _
  obtain ⟨rfl, rfl, hroom⟩ := addConstant_ok hrun
  refine ⟨hσ.withPool fun d hd => ?_, List.forall_mem_singleton.mpr hroom⟩
  rcases Array.mem_push.mp hd with hd | rfl
  · exact .inl hd
  · exact .inr hc

/-! ### Names -/

/-- A variable is declared if operands can address its slot. -/
theorem checks_define {name : String} {constant : Bool} : Checks K (define name constant span) fun x => [.store x] := by
  intro σ x σ' hrun hσ _
  obtain ⟨rfl, rfl, hlocal, hglobal⟩ := define_ok hrun
  obtain ⟨hok, hgrows, hknows⟩ := SymbolTable.define_ok hσ.symbols name constant
  have hsmall : (σ.symbols.define name constant).1.Small := by
    unfold Symbol.Small
    split
    · next hst => exact hglobal hst
    · next hst => exact hlocal hst
    all_goals trivial
  exact ⟨hσ.withSymbols hok (hσ.small.define hsmall) hgrows, List.forall_mem_singleton.mpr ⟨hsmall, hknows⟩⟩

theorem checks_resolve (name : String) :
    Checks K (resolve name span) fun x => .load x :: if x.isAssignable then [.store x] else [] := by
  intro σ x σ' hrun hσ _
  obtain ⟨found, σ₁, hmod, hcheck⟩ := bind_ok hrun
  obtain ⟨hfound, rfl⟩ := modifyGet_ok hmod
  obtain ⟨hok, hgrows, hknows⟩ := SymbolTable.resolve_ok hσ.symbols name
  obtain ⟨hsmall, hanswer⟩ := hσ.small.resolve name
  cases found with
  | none => exact (fail_ok hcheck).elim
  | some y =>
    obtain ⟨rfl, rfl⟩ := pure_ok hcheck
    have hreaches : CompileState.Reaches { σ with symbols := (σ.symbols.resolve name).2 } y :=
      ⟨hanswer y hfound.symm, hknows y hfound.symm⟩
    refine ⟨hσ.withSymbols hok hsmall hgrows, List.forall_mem_cons.mpr ⟨hreaches, fun φ hφ => ?_⟩⟩
    split at hφ
    · rw [List.mem_singleton.mp hφ]
      exact hreaches
    · cases hφ

/-- An instruction that addresses a cell. -/
theorem checks_cell {σ : CompileState} (hσ : σ.Checked) (hop : op = .getFree ∨ op = .setFree ∨ op = .captureFree) {n : Nat}
    (hn : n < σ.symbols.current.free.size) : σ.Advances (σ.emit op [n] span) := by
  by_cases hfits : n < 256
  · refine hσ.emit span (.inl ?_)
    rcases hop with rfl | rfl | rfl <;> exact fits_one rfl hfits
  · exact hσ.emit span (.inr (.cell hop (Nat.le_of_not_lt hfits) hn))

theorem checks_load (hx : .load x ∈ K) : Checks K (load x span) fun _ => [] := by
  intro σ a σ' hrun hσ hK
  have hnames := Reaches.names (hK _ hx)
  unfold load at hrun
  cases hst : x.storage with
  | global =>
    simp only [hst] at hrun hnames
    exact checks_put (fits_one rfl hnames) σ a σ' hrun hσ hK
  | «local» =>
    simp only [hst] at hrun hnames
    exact checks_put (fits_one rfl hnames) σ a σ' hrun hσ hK
  | free =>
    simp only [hst] at hrun hnames
    obtain rfl := put_ok hrun
    exact ⟨checks_cell hσ (.inl rfl) hnames, List.forall_mem_nil _⟩
  | builtin =>
    simp only [hst] at hrun hnames
    exact checks_put (fits_one rfl hnames) σ a σ' hrun hσ hK
  | functionSelf =>
    simp only [hst] at hrun
    exact checks_put (Emitted.fits_plain rfl) σ a σ' hrun hσ hK

theorem checks_store (hx : .store x ∈ K) : Checks K (store x span) fun _ => [] := by
  intro σ a σ' hrun hσ hK
  have hnames := Reaches.names (hK _ hx)
  unfold store at hrun
  cases hst : x.storage with
  | global =>
    simp only [hst] at hrun hnames
    exact checks_put (fits_one rfl hnames) σ a σ' hrun hσ hK
  | «local» =>
    simp only [hst] at hrun hnames
    exact checks_put (fits_one rfl hnames) σ a σ' hrun hσ hK
  | free =>
    simp only [hst] at hrun hnames
    obtain rfl := put_ok hrun
    exact ⟨checks_cell hσ (.inr (.inl rfl)) hnames, List.forall_mem_nil _⟩
  | builtin | functionSelf =>
    simp only [hst] at hrun
    exact (fail_ok hrun).elim

/-- The cells of a new closure are queued. -/
theorem captures {σ σ' : CompileState} (hσ : σ.Checked) (hx : σ.Reaches x) (hrun : capture x span σ = .ok () σ') :
    σ.Advances σ' := by
  have hnames := hx.names
  unfold capture at hrun
  cases hst : x.storage with
  | «local» =>
    simp only [hst] at hrun hnames
    obtain rfl := put_ok hrun
    exact hσ.emit span (.inl (fits_one rfl hnames))
  | free =>
    simp only [hst] at hrun hnames
    obtain rfl := put_ok hrun
    exact checks_cell hσ (.inr (.inr rfl)) hnames
  | functionSelf =>
    simp only [hst] at hrun
    obtain rfl := put_ok hrun
    exact hσ.emit span (.inl (Emitted.fits_plain rfl))
  | global | builtin =>
    simp only [hst] at hrun
    obtain ⟨-, rfl⟩ := pure_ok hrun
    exact hσ.refl

theorem capturesAll {σ σ' : CompileState} (hσ : σ.Checked) {symbols : List Symbol} (h : ∀ x ∈ symbols, σ.Reaches x)
    (hrun : captureAll span symbols σ = .ok () σ') : σ.Advances σ' := by
  induction symbols generalizing σ with
  | nil =>
    obtain ⟨-, rfl⟩ := pure_ok hrun
    exact hσ.refl
  | cons x rest ih =>
    obtain ⟨_, σ₁, hfirst, hrest⟩ := bind_ok hrun
    have hadvances := captures hσ (h x List.mem_cons_self) hfirst
    exact hadvances.trans (ih hadvances.checked
      (fun y hy => (h y (List.mem_cons_of_mem _ hy)).of_grows hadvances.symbols) hrest)

theorem checks_nameFunction (own : Option String) : Checks K (nameFunction own) fun _ => [] := by
  cases own with
  | none => exact checks_pure (List.forall_mem_nil _)
  | some name =>
    intro σ _ σ' hrun hσ _
    obtain rfl := modify_ok hrun
    obtain ⟨hok, hgrows⟩ := @SymbolTable.bind_ok _ _ hσ.symbols ⟨name, .functionSelf, 0, true⟩ trivial nofun
    exact ⟨hσ.withSymbols hok (hσ.small.bind trivial) hgrows, List.forall_mem_nil _⟩

/-! ### Bodies -/

/-- A body begins with an empty block. Back outside, the scopes around it have what it captures. -/
theorem checks_inFunction {m : CompileM Unit} (hopens : Opens m) (h : Checks [] m fun _ => []) :
    Checks K (inFunction m) fun b => [.body b] := by
  intro σ body σ' hrun hσ _
  obtain ⟨σ₁, hbody, hblock, -, hfree, rfl⟩ := inFunction_ok hrun
  have hinside : (inside σ).Checked :=
    ⟨SymbolTable.enclose_ok hσ.symbols, hσ.small.enclose, List.forall_mem_nil _, hσ.classes, hσ.functions,
      List.forall_mem_nil _⟩
  obtain ⟨hadvances, -⟩ := h (inside σ) () σ₁ hbody hinside (List.forall_mem_nil _)
  have hchecked := hadvances.checked
  obtain ⟨hok, hgrows, hsupplies⟩ := SymbolTable.leave_ok hchecked.symbols hadvances.symbols
  have hsmall : ((σ₁.symbols.leave?).getD .empty).Small ∧ ∀ x ∈ body.free, x.Small := by
    refine ⟨hchecked.small.leave, fun x hx => ?_⟩
    rw [hfree, Array.mem_toList_iff] at hx
    exact (hchecked.small _ List.mem_cons_self).free x hx
  have hlength : body.free.length = σ₁.symbols.current.free.size := by rw [hfree, Array.length_toList]
  refine ⟨⟨⟨hok, hsmall.1, fun i hi => ?_, hchecked.classes, hchecked.functions, hσ.waiting⟩, hgrows, fun _ hp => hp⟩, ?_⟩
  · exact (hσ.items i hi).imp_right fun hspills => hspills.mono hgrows.free
  · refine List.forall_mem_singleton.mpr ⟨⟨⟨m, σ, _, hopens, hrun⟩, fun i hi => ?_⟩, fun x hx => ?_⟩
    · rw [hlength]
      rw [hblock] at hi
      exact hchecked.items i hi
    · refine ⟨hsmall.2 x hx, ?_⟩
      rw [hfree, Array.mem_toList_iff] at hx
      exact (hsupplies x hx).1

theorem checks_makeClosure {f : FunctionLiteral} {name : Option String} {b : Body} (hb : .body b ∈ K) :
    Checks K (makeClosure f name b) fun _ => [] := by
  intro σ _ σ' hrun hσ hK
  obtain ⟨hbody, hfree⟩ := hK _ hb
  obtain ⟨_, σ₁, hcaptures, hrest⟩ := bind_ok hrun
  obtain ⟨place, σ₂, hadd, hput⟩ := bind_ok hrest
  have hfirst := capturesAll hσ hfree hcaptures
  have hfunction : ∀ g ∈ (Constant.function (b.block.toFunction name b.locals f.params.length)).functions, g.Checked :=
    List.forall_mem_singleton.mpr ⟨b, name, _, hbody, rfl⟩
  obtain ⟨hsecond, hplace⟩ := checks_addConstant (K := []) hfunction σ₁ place σ₂ hadd hfirst.checked (List.forall_mem_nil _)
  have hk : place < Pool.capacity := hplace _ List.mem_cons_self
  obtain rfl := put_ok hput
  refine ⟨hfirst.trans (hsecond.trans (hsecond.checked.emit f.span ?_)), List.forall_mem_nil _⟩
  by_cases hn : b.free.length < 256
  · exact .inl (fits_two rfl hk hn)
  · exact .inr (.closure hk (Nat.le_of_not_lt hn))

/-- A method captures nothing. -/
theorem checks_makeMethod {cls name : String} {f : FunctionLiteral} {b : Body} (hb : .body b ∈ K) :
    Checks K (makeMethod cls f name b) fun m => [.method m] := by
  intro σ m σ' hrun hσ hK
  obtain ⟨hbody, -⟩ := hK _ hb
  unfold makeMethod at hrun
  cases hfree : b.free with
  | cons captured rest =>
    simp only [hfree] at hrun
    exact (fail_ok hrun).elim
  | nil =>
    simp only [hfree] at hrun
    obtain ⟨rfl, rfl⟩ := pure_ok hrun
    exact ⟨hσ.refl, List.forall_mem_singleton.mpr ⟨b, _, _, hbody, rfl⟩⟩

theorem checks_checkArgs (n : Nat) : Checks K (checkArgs n span) fun _ => [.args n] := by
  intro σ _ σ' hrun hσ _
  obtain ⟨hn, rfl⟩ := checkArgs_ok hrun
  exact ⟨hσ.refl, List.forall_mem_singleton.mpr (Nat.le_of_lt_succ hn)⟩

/-! ### Classes -/

theorem checks_superClass : Checks K (superClass span) fun c => [.place c.constant] := by
  intro σ c σ' hrun hσ _
  obtain ⟨hc, rfl⟩ := superClass_ok hrun
  exact ⟨hσ.refl, List.forall_mem_singleton.mpr (hσ.classes c hc)⟩

theorem checks_beginClass {id : Ident} {hasParent : Bool} :
    Checks K (beginClass id hasParent span) fun found => [.store found.1, .reserved found.2] := by
  intro σ found σ' hrun hσ _
  obtain ⟨x, σ₁, hdefine, hrest⟩ := bind_ok hrun
  obtain ⟨place, σ₂, hadd, hrest⟩ := bind_ok hrest
  obtain ⟨_, σ₃, hmod, hpure⟩ := bind_ok hrest
  obtain ⟨hfirst, hx⟩ := checks_define (K := []) σ x σ₁ hdefine hσ (List.forall_mem_nil _)
  obtain ⟨hsecond, hplace⟩ :=
    checks_addConstant (K := []) (c := .null) (List.forall_mem_nil _) σ₁ place σ₂ hadd hfirst.checked (List.forall_mem_nil _)
  have hk : place < Pool.capacity := hplace _ List.mem_cons_self
  obtain rfl := modify_ok hmod
  obtain ⟨rfl, rfl⟩ := pure_ok hpure
  have hthird := hsecond.checked.withClasses (⟨place, hasParent⟩ :: σ₂.classes) ((id.name, span) :: σ₂.classSpans)
    (List.forall_mem_cons.mpr ⟨hk, hsecond.checked.classes⟩)
  have hx : σ₁.Reaches x := hx _ List.mem_cons_self
  refine ⟨hfirst.trans (hsecond.trans hthird), List.forall_mem_cons.mpr ⟨?_, List.forall_mem_singleton.mpr hk⟩⟩
  exact (hx.of_grows hsecond.symbols).of_grows hthird.symbols

theorem checks_endClass {c : ClassConstant} (hx : .store x ∈ K) (hplace : .reserved place ∈ K)
    (hmethods : Known.methods c.methods ⊆ K) : Checks K (endClass x place c span) fun _ => [] := by
  have hfill : Checks K (modify fun s : CompileState =>
      { s with classes := s.classes.tail, pool := s.pool.setIfInBounds place (.cls c) }) fun _ => [.place place] := by
    intro σ _ σ' hrun hσ hK
    obtain rfl := modify_ok hrun
    have hpool := hσ.withPool (p := σ.pool.setIfInBounds place (.cls c)) fun d hd => ?_
    · refine ⟨hpool.trans (hpool.checked.withClasses σ.classes.tail σ.classSpans fun d hd => ?_),
        List.forall_mem_singleton.mpr (hK _ hplace)⟩
      exact hσ.classes d (List.mem_of_mem_tail hd)
    · rcases Array.mem_or_eq_of_mem_setIfInBounds hd with hd | rfl
      · exact .inl hd
      · refine .inr fun f hf => ?_
        obtain ⟨m, hm, rfl⟩ := List.mem_map.mp hf
        exact hK _ (hmethods (List.mem_map_of_mem hm))
  refine hfill.bind fun _ => Checks.seq (Known.Emits.constant (.inl rfl) List.mem_concat_self).checks fun _ => ?_
  exact (checks_store (List.mem_append_left _ hx)).seq fun _ => checks_put (Emitted.fits_plain rfl)

/-! ### Loops -/

theorem checks_enterLoop (target : Option Nat) (depth : Nat) : Checks K (enterLoop target depth) fun _ => [] := by
  intro σ _ σ' hrun hσ _
  obtain rfl := enterLoop_ok hrun
  refine ⟨hσ.withLoops _ fun c hc => ?_, List.forall_mem_nil _⟩
  rcases List.mem_cons.mp hc with rfl | hc
  · exact List.forall_mem_nil _
  · exact hσ.waiting c hc

theorem checks_leaveLoop : Checks K (leaveLoop span) fun _ => [] := by
  intro σ _ σ' hrun hσ _
  cases hcs : σ.function.loops with
  | nil =>
    obtain ⟨_, σ₁, hget, hrest⟩ := bind_ok hrun
    obtain ⟨rfl, rfl⟩ := get_ok hget
    rw [hcs] at hrest
    obtain ⟨-, rfl⟩ := pure_ok hrest
    exact ⟨hσ.refl, List.forall_mem_nil _⟩
  | cons c cs =>
    obtain ⟨hroom, rfl⟩ := leaveLoop_ok hcs hrun
    have hloops := hσ.withLoops cs fun d hd => hσ.waiting d (hcs ▸ List.mem_cons_of_mem _ hd)
    refine ⟨hloops.trans (hloops.checked.patchAll (fun place hplace => ?_) hroom), List.forall_mem_nil _⟩
    exact hσ.waiting c (hcs ▸ List.mem_cons_self) place (List.mem_append_right _ hplace)

theorem checks_placeContinues : Checks K (placeContinues span) fun _ => [] := by
  intro σ _ σ' hrun hσ _
  cases hcs : σ.function.loops with
  | nil =>
    obtain ⟨_, σ₁, hget, hrest⟩ := bind_ok hrun
    obtain ⟨rfl, rfl⟩ := get_ok hget
    rw [hcs] at hrest
    obtain ⟨-, rfl⟩ := pure_ok hrest
    exact ⟨hσ.refl, List.forall_mem_nil _⟩
  | cons c cs =>
    obtain ⟨hroom, rfl⟩ := placeContinues_ok hcs hrun
    have hloop : ∀ place ∈ c.continueJumps ++ c.breakJumps, σ.Leaps place := hσ.waiting c (hcs ▸ List.mem_cons_self)
    have hloops := hσ.withLoops ({ c with continueJumps := [] } :: cs) fun d hd => ?_
    · refine ⟨hloops.trans (hloops.checked.patchAll (fun place hplace => ?_) hroom), List.forall_mem_nil _⟩
      exact hloop place (List.mem_append_left _ hplace)
    · rcases List.mem_cons.mp hd with rfl | hd
      · exact fun place hplace => hloop place (List.mem_append_right _ hplace)
      · exact hσ.waiting d (hcs ▸ List.mem_cons_of_mem _ hd)

/-- Another jump waits with the innermost loop. -/
theorem checks_modifyLoop {f : LoopContext → LoopContext} (hplace : .jump place ∈ K)
    (h : ∀ c, ∀ p ∈ (f c).continueJumps ++ (f c).breakJumps, p ∈ c.continueJumps ++ c.breakJumps ∨ p = place) :
    Checks K (modifyLoop f) fun _ => [] := by
  intro σ _ σ' hrun hσ hK
  cases hcs : σ.function.loops with
  | nil =>
    have hσ' := modify_ok hrun
    simp only [hcs] at hσ'
    rw [hσ']
    exact ⟨hσ.refl, List.forall_mem_nil _⟩
  | cons c cs =>
    obtain rfl := modifyLoop_ok hcs hrun
    refine ⟨hσ.withLoops _ fun d hd => ?_, List.forall_mem_nil _⟩
    rcases List.mem_cons.mp hd with rfl | hd
    · intro p hp
      rcases h c p hp with hold | rfl
      · exact hσ.waiting c (hcs ▸ List.mem_cons_self) p hold
      · exact hK _ hplace
    · exact hσ.waiting d (hcs ▸ List.mem_cons_of_mem _ hd)

end

/-- Numbers that fit, as a judgement about steps. -/
def fitting : Logic where
  Level := Unit
  inside := id
  Allows _ _ := True
  allows_inside _ _ := trivial
  Gives _ K m Q := Checks K m Q
  weaken h hK := h.weaken hK
  bind hm hf := hm.bind hf
  pure h := checks_pure h
  fail := checks_fail
  withState h := fun σ => h σ σ
  put h := h.checks
  emit h := h.checks
  emitJumpTo := checks_emitJumpTo
  patch := checks_patch
  dropPop := checks_dropPop
  returnPop := checks_returnPop
  addConstant hc := checks_addConstant (hc ▸ List.forall_mem_nil _)
  define _ := checks_define
  resolve := checks_resolve
  load := checks_load
  store := checks_store
  checkArgs := checks_checkArgs
  superClass := checks_superClass
  nameFunction := checks_nameFunction
  inFunction := checks_inFunction
  makeClosure := checks_makeClosure
  makeMethod := checks_makeMethod
  beginClass _ := checks_beginClass
  endClass := checks_endClass
  enterLoop := checks_enterLoop
  leaveLoop := checks_leaveLoop
  placeContinues := checks_placeContinues
  modifyLoop := checks_modifyLoop

/-- All instructions of statements fit, or they spill. -/
theorem checks_stmts (ss : List Stmt) : Checks [] (stmts [] ss) fun _ => [] :=
  Logic.keeps_stmts (L := fitting) (G := ()) (K := []) fun _ _ => trivial

end CompileM

end ScriptMachine
