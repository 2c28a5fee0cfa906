import ScriptMachine.Machine.Basic
import ScriptMachine.Proofs.Layout.Growth

/-!
# Where control goes

From each point of a block control goes on to other points, under the regions and the height that the
layout has for them. `Point.Flows L p` says that every way from `p` leads to a spot that satisfies
`L`. In a layout all ways lead to points of the same block, as `Layout.Ways` shows; here is what its
proof is made of:

* `Lays.starts`, `Lays.endsPlain` — where the code of a piece starts and how it ends;
* `Landing` — what the ways out of a piece need;
* `Context.flows_jump` and its like — the ways from a single instruction.

There are three exceptions, all of them `break` and `continue`. A `continue` in the update clause of a
loop has no target. A jump in a finally body that is compiled in place may leave a loop whose regions
are not open any more, and a jump may leave a loop with operands on the stack. `Site.Fine` excludes
them as far as it matters: `R` says whether regions count, `H` whether heights do.
-/

namespace ScriptMachine

open Point

/-! ## Spots -/

/-- Where control stands in a block. -/
structure Spot where
  offset : Nat
  regions : List Region
  height : Nat
  setup : Setup

def Point.spot (p : Point) : Spot := ⟨p.offset, p.regions, p.height, p.setup⟩

/-- Before an instruction with `k` operands of the piece at hand on the stack. -/
def Context.spot (Γ : Context) (offset k : Nat) : Spot := ⟨offset, Γ.regions, Γ.height + k, .nothing⟩

/-- Both ways out of a region by a throw lead on, and there is at least one; `outer` are the regions
around it. -/
structure Region.Resumes (L : Spot → Prop) (r : Region) (outer : List Region) : Prop where
  catches : ∀ t ∈ r.catchTarget, L ⟨t, outer, r.height + 1, .nothing⟩
  cleans : ∀ t ∈ r.finallyTarget, L ⟨t, outer, r.height + 2, .nothing⟩
  some : r.catchTarget.isSome ∨ r.finallyTarget.isSome

/-- An instruction that enters a region has the targets of the region. -/
structure Point.Opens (p : Point) (r : Region) : Prop where
  enter : r.enter = p.offset
  catchTarget : r.catchTarget = Handler.target? (p.item.operand 0)
  finallyTarget : r.finallyTarget = Handler.target? (p.item.operand 1)
  height : r.height = p.height

/-- A jump with a target, which the machine reads as it is written. -/
structure Emitted.Jumps (i : Emitted) : Prop where
  operands : i.operands = [i.operand 0]
  target : i.operand 0 ≠ Opcode.noTarget

/-- Every way from a point leads to a spot that satisfies `L`. -/
def Point.Flows (L : Spot → Prop) (p : Point) : Prop :=
  match p.item.opcode with
  | .jump => p.item.Jumps ∧ L ⟨p.item.operand 0, p.regions, p.height, .nothing⟩
  | .jumpIfFalse =>
    p.item.operand 0 ≠ Opcode.noTarget ∧
      L ⟨p.item.operand 0, p.regions, p.height - 1, .nothing⟩ ∧
      L ⟨p.offset + 3, p.regions, p.height - 1, .nothing⟩
  | .finallyEnd =>
    p.item.operand 0 ≠ Opcode.noTarget ∧
      ∃ r outer, p.regions = r :: outer ∧ L ⟨p.item.operand 0, outer, p.height, .nothing⟩
  | .tryEnter =>
    ∃ r, p.Opens r ∧ L ⟨p.offset + 5, r :: p.regions, p.height, .nothing⟩ ∧ r.Resumes L p.regions
  | .returnValue | .returnNull | .halt => p.regions = []
  | .throw => True
  | .rethrow => L ⟨p.offset + 1, p.regions, p.height - 2, .nothing⟩
  | op => L ⟨p.offset + op.length, p.regions, p.item.after p.height, p.setup.after p.item⟩

theorem Point.flows_plain {L : Spot → Prop} {p : Point} (h : p.item.opcode.isPlain = true) :
    p.Flows L ↔ L ⟨p.offset + p.item.opcode.length, p.regions, p.item.after p.height,
      p.setup.after p.item⟩ := by
  unfold Point.Flows
  cases hop : p.item.opcode <;> rw [hop] at h <;> first | exact Iff.rfl | cases h

/-- Control that stands at `s` may go on at `p`: nothing that `p` counts on is missing. It has the
regions of `p` if `R`, and just the height of `p` if `H`. -/
structure Spot.Meets (R H : Prop) (s p : Spot) : Prop where
  offset : s.offset = p.offset
  regions : R → s.regions = p.regions
  enough : p.height ≤ s.height
  height : H → s.height = p.height
  setup : p.setup = .nothing ∨ s.setup = p.setup

theorem Spot.Meets.refl (R H : Prop) (s : Spot) : s.Meets R H s :=
  ⟨rfl, fun _ => rfl, Nat.le_refl _, fun _ => rfl, .inr rfl⟩

theorem Spot.Meets.trans {R H : Prop} {s t p : Spot} (hst : s.Meets R H t) (htp : t.Meets R H p) :
    s.Meets R H p where
  offset := hst.offset.trans htp.offset
  regions hR := (hst.regions hR).trans (htp.regions hR)
  enough := Nat.le_trans htp.enough hst.enough
  height hH := (hst.height hH).trans (htp.height hH)
  setup := by
    rcases htp.setup with hp | hp
    · exact .inl hp
    · rcases hst.setup with ht | ht
      · exact .inl (hp.symm.trans ht)
      · exact .inr (ht.trans hp)

/-- `L` also holds where nothing is missing of what it counts on. -/
def Coarse (R H : Prop) (L : Spot → Prop) : Prop := ∀ ⦃s p : Spot⦄, s.Meets R H p → L p → L s

theorem Coarse.spot {R H : Prop} {L : Spot → Prop} (hL : Coarse R H L) {o h h' : Nat}
    {rs rs' : List Region} {u : Setup} (hs : L ⟨o, rs, h, .nothing⟩) (hr : R → rs' = rs) (hle : h ≤ h')
    (hh : H → h' = h) : L ⟨o, rs', h', u⟩ :=
  hL (p := ⟨o, rs, h, .nothing⟩) ⟨rfl, hr, hle, hh, .inl rfl⟩ hs

/-! ## What jumps rely on -/

/-- What a jump out of the body of a loop relies on. -/
structure LoopShape.Allows (R H : Prop) (l : LoopShape) (leap : Leap) (height : Nat) : Prop where
  target : leap = .cont → l.closed = false
  regions : R → l.left = false
  heights : H → l.height = height

namespace Site

/-- What a piece of the source relies on, apart from its parts. -/
def Fine (R H : Prop) : Site × Node → Prop
  | (S, .action (.breakLoop _)) => ∀ l ∈ S.loops.head?, l.Allows R H .brk S.height
  | (S, .action (.continueLoop _)) => ∀ l ∈ S.loops.head?, l.Allows R H .cont S.height
  | (_, .form e) => H → e.Counted
  | _ => True

/-- A piece is compiled on the way through another one, into the same block. -/
def Within : Site × Node → Site × Node → Prop :=
  Relation.ReflTransGen fun a b => b ∈ parts a.1 a.2 ∧ ∀ body, b.2 ≠ .body body

/-- A piece and all of its parts are fine. -/
def Sound (R H : Prop) (S : Site) (n : Node) : Prop := ∀ b, Within (S, n) b → Fine R H b

theorem Sound.fine {R H : Prop} {S : Site} {n : Node} (h : Sound R H S n) : Fine R H (S, n) :=
  h _ .refl

theorem Sound.part {R H : Prop} {S T : Site} {n k : Node} (h : Sound R H S n)
    (hk : (T, k) ∈ S.parts n) (hbody : ∀ body, k ≠ .body body) : Sound R H T k := by
  intro b hb
  exact h b (Relation.ReflTransGen.head ⟨hk, hbody⟩ hb)

end Site

/-- Whether the code of a block may end here. -/
def Point.Final (code : List Point) : Prop :=
  ∃ p, code.getLast? = some p ∧
    (p.item.opcode = .returnValue ∨ p.item.opcode = .returnNull ∨ p.item.opcode = .halt)

/-- Where control is once the code of a piece, which ends at `o`, was run through. -/
def Node.after (Γ : Context) (o : Nat) : Node → Spot
  | .expr _ | .form _ | .value _ | .alternative _ _ => Γ.spot o 1
  | .operands _ _ rest => Γ.spot o rest.length
  | .exits depth _ => (Γ.exitTo depth).spot o 0
  | _ => Γ.spot o 0

/-! ## Entries and ends -/

section

variable {Γ : Context} {n : Node} {o : Nat} {code a b : List Point} {notes : List Note}

/-- The code of a piece starts where the context says, or there is none. -/
def Point.Starts (Γ : Context) (n : Node) (o : Nat) (code : List Point) : Prop :=
  (code = [] ∧ n.after Γ o = Γ.spot o 0) ∨ ∃ p rest, code = p :: rest ∧ p.spot = Γ.spot o 0

theorem Point.starts_cons (n : Node) {p : Point} (h : p.spot = Γ.spot o 0) (rest : List Point) :
    Starts Γ n o (p :: rest) := .inr ⟨p, rest, rfl, h⟩

/-- A piece that starts with another one. -/
theorem Point.Starts.append {Γ' : Context} {k : Node} (h : Starts Γ' k o a)
    (hΓ : Γ'.spot o 0 = Γ.spot o 0)
    (hb : a = [] → k.after Γ' o = Γ.spot o 0 → Starts Γ n o b) : Starts Γ n o (a ++ b) := by
  rcases h with ⟨rfl, hspot⟩ | ⟨p, rest, rfl, hp⟩
  · exact hb rfl (hspot.trans hΓ)
  · exact starts_cons n (hp.trans hΓ) _

/-- A piece that starts with an expression, which always has code. -/
theorem Point.Starts.append_expr {Γ' : Context} {e : Expr} (h : Starts Γ' (.expr e) o a)
    (hΓ : Γ'.spot o 0 = Γ.spot o 0) : Starts Γ n o (a ++ b) := by
  refine h.append hΓ fun _ hspot => ?_
  have hh : Γ'.height = Γ.height := congrArg Spot.height hΓ
  have hh' : Γ'.height + 1 = Γ.height := congrArg Spot.height hspot
  omega

theorem Point.starts_row {is : List Emitted} (hne : is ≠ []) (height : Nat)
    (h : height = Γ.height) : Starts Γ n o (row Γ.regions o height is) := by
  cases is with
  | nil => exact (hne rfl).elim
  | cons i is =>
    subst h
    exact starts_cons n rfl _

theorem Lays.starts (h : Lays Γ n o code notes) : Starts Γ n o code := by
  induction h with
  | noOperands | noStmts | noOptStmt | noTest | noUpdate => exact .inl ⟨rfl, rfl⟩
  | @noExits Γ o depth span hle =>
    refine .inl ⟨rfl, ?_⟩
    simp [Node.after, Context.exitTo, Context.spot, Nat.sub_eq_zero_of_le hle]
  | expr _ ih | alternative _ ih | stmt _ ih | optStmt _ ih | block _ ih | tryNone _ ih => exact ih
  | bodyReturn _ _ _ _ ih => exact ih
  | strict _ _ htail ih =>
    refine ih.append rfl fun hnil hspot => ?_
    subst hnil
    exact starts_row htail.nonempty _ (congrArg Spot.height hspot)
  | operand _ _ ih _ => exact ih.append_expr rfl
  | and _ _ _ _ ih _ | or _ _ _ _ ih _ => exact ih.append_expr rfl
  | ternary _ _ _ _ _ _ ih _ _ | cond _ _ _ _ _ _ ih _ _ => exact ih.append_expr rfl
  | bind _ _ ih | exprStmt _ ih | throw _ ih | test _ _ ih | update _ ih => exact ih.append_expr rfl
  | ret _ _ ih _ | «while» _ _ _ _ ih _ => exact ih.append_expr rfl
  | index | noAlternative | exits | tryCatch | tryFinally | tryBoth => exact starts_cons _ rfl _
  | value _ _ ih₁ ih₂ | stmts _ _ ih₁ ih₂ =>
    refine ih₁.append rfl fun hnil _ => ?_
    subst hnil
    exact ih₂
  | classDecl htail => exact starts_row htail.nonempty _ rfl
  | noValue _ _ ih | bodyNull _ _ ih | unit _ ih =>
    refine ih.append rfl fun hnil _ => ?_
    subst hnil
    exact starts_cons _ rfl _
  | retNull _ ih | brk _ _ ih | cont _ _ _ _ _ ih | contWait _ _ _ ih =>
    refine ih.append rfl fun hnil hspot => ?_
    subst hnil
    refine starts_cons _ ?_ _
    exact hspot
  | bodyValue _ _ ih₁ ih₂ =>
    refine ih₁.append rfl fun hnil _ => ?_
    subst hnil
    exact ih₂.append_expr rfl
  | «for» _ _ _ _ hstart hnext _ _ _ _ _ ih₀ ih₁ ih₂ ih₃ =>
    subst hstart hnext
    -- the first clause that has code, and the jump back if none has
    refine ih₀.append rfl fun h₀ _ => ?_
    subst h₀
    refine Starts.append ih₁ rfl fun h₁ _ => ?_
    subst h₁
    refine Starts.append ih₂ rfl fun h₂ _ => ?_
    subst h₂
    refine Starts.append ih₃ rfl fun h₃ _ => ?_
    subst h₃
    exact starts_cons _ rfl _

theorem Point.final_append (a : List Point) (hb : b ≠ []) : Final (a ++ b) ↔ Final b := by
  unfold Final
  rw [List.getLast?_append_of_ne_nil _ hb]

theorem Point.final_concat (a : List Point) (p : Point) : Final (a ++ [p]) ↔
    (p.item.opcode = .returnValue ∨ p.item.opcode = .returnNull ∨ p.item.opcode = .halt) := by
  rw [final_append a (by simp)]
  simp [Final]

/-- The code ends with an instruction that control runs through. -/
def Point.EndsPlain (code : List Point) : Prop :=
  ∃ a p, code = a ++ [p] ∧ p.item.opcode.isPlain = true

theorem Point.EndsPlain.append (h : EndsPlain b) (a : List Point) : EndsPlain (a ++ b) := by
  obtain ⟨b, p, rfl, hp⟩ := h
  exact ⟨a ++ b, p, by simp, hp⟩

theorem Point.EndsPlain.cons (h : EndsPlain b) (p : Point) : EndsPlain (p :: b) := h.append [p]

theorem Point.EndsPlain.not_final (h : EndsPlain code) : ¬ Final code := by
  obtain ⟨a, p, rfl, hp⟩ := h
  rw [final_concat]
  rintro (hop | hop | hop) <;> rw [hop] at hp <;> cases hp

theorem Point.EndsPlain.ne_nil (h : EndsPlain code) : code ≠ [] := by
  obtain ⟨a, p, rfl, -⟩ := h
  simp

theorem Point.endsPlain_rowFrom {tail : List Emitted} (hplain : ∀ i ∈ tail, i.opcode.isPlain = true)
    (hne : tail ≠ []) (u : Setup) (regions : List Region) (o height : Nat) :
    EndsPlain (rowFrom u regions o height tail) := by
  induction tail generalizing u o height with
  | nil => exact (hne rfl).elim
  | cons i is ih =>
    cases is with
    | nil => exact ⟨[], _, rfl, hplain i List.mem_cons_self⟩
    | cons j js =>
      exact (ih (fun x hx => hplain x (List.mem_cons_of_mem _ hx)) (by simp) _ _ _).cons _

theorem Tail.endsPlain {counted : Prop} {k m : Nat} {tail : List Emitted}
    (h : Tail counted k m tail) (regions : List Region) (o height : Nat) :
    EndsPlain (row regions o height tail) := endsPlain_rowFrom h.plain h.nonempty _ _ _ _

/-- Pieces that have a value. -/
def Node.hasValue : Node → Bool
  | .expr _ | .form _ | .value _ | .alternative _ _ => true
  | _ => false

/-- Control runs through the end of an expression. -/
theorem Lays.endsPlain (h : Lays Γ n o code notes) (hn : n.hasValue = true) : EndsPlain code := by
  induction h with
  | expr _ ih | alternative _ ih => exact ih rfl
  | strict _ _ htail _ => exact (htail.endsPlain _ _ _).append _
  | and _ _ _ _ _ ih => exact (((ih rfl).cons _).cons _).cons _ |>.append _
  | or _ _ _ _ _ ih => exact ((((ih rfl).cons _).cons _).cons _).cons _ |>.append _
  | ternary _ _ _ _ _ _ _ _ ih | cond _ _ _ _ _ _ _ _ ih =>
    exact ((((ih rfl).cons _).append _).cons _).append _
  | noAlternative => exact ⟨[], _, rfl, rfl⟩
  | value _ _ _ ih => exact (ih rfl).append _
  | noValue _ _ _ => exact ⟨_, _, rfl, rfl⟩
  | _ => cases hn

end

/-! ## Ways through a layout -/

/-- What the ways out of a piece of code need: its points, the end of its code and the targets of the
innermost loop satisfy `L`. The end only counts if control can get there. -/
structure Landing (L : Spot → Prop) (Γ : Context) (n : Node) (o : Nat) (code : List Point) :
    Prop where
  points : ∀ p ∈ code, L p.spot
  stop : code ≠ [] → ¬ Final code → L (n.after Γ (o + size code))
  test : ∀ l ∈ Γ.loops.head?, ∀ c s, n = .test (some c) s →
    L (Γ.spot l.breakTo 0) ∧ l.breakTo < Opcode.noTarget
  brk : ∀ l ∈ Γ.loops.head?, L ⟨l.breakTo, l.regions, l.height, .nothing⟩ ∧
    (Waits .brk Γ.loops.length code → l.breakTo < Opcode.noTarget)
  cont : ∀ l ∈ Γ.loops.head?, ∀ t ∈ l.continueTo, L ⟨t, l.regions, l.height, .nothing⟩ ∧
    (Waits .cont Γ.loops.length code → t < Opcode.noTarget)

section

variable {R H : Prop} {L : Spot → Prop} {Γ Γ' : Context} {n k : Node} {o o' : Nat}
  {code a b c : List Point} {notes : List Note}

theorem Point.Waits.mono {l : Leap} {m : Nat} (h : Waits l m c) (hsub : c ⊆ code) :
    Waits l m code := by
  obtain ⟨p, hp, hl⟩ := h
  exact ⟨p, hsub hp, hl⟩

/-- A part in the same loops. -/
theorem Landing.sub (h : Landing L Γ n o code) (hsub : c ⊆ code) (hΓ : Γ'.loops = Γ.loops)
    (hk : ∀ e s, k ≠ .test (some e) s)
    (hstop : c ≠ [] → ¬ Final c → L (k.after Γ' (o' + size c))) : Landing L Γ' k o' c := by
  refine ⟨fun p hp => h.points p (hsub hp), hstop, fun l hl e s hes => (hk e s hes).elim, ?_, ?_⟩
  · intro l hl
    rw [hΓ] at hl ⊢
    exact ⟨(h.brk l hl).1, fun hw => (h.brk l hl).2 (hw.mono hsub)⟩
  · intro l hl t ht
    rw [hΓ] at hl ⊢
    exact ⟨(h.cont l hl t ht).1, fun hw => (h.cont l hl t ht).2 (hw.mono hsub)⟩

/-- A part in the same loops, once some regions were left. -/
theorem Landing.sub_leave {rs : List Region} (h : Landing L Γ n o code) (hsub : c ⊆ code)
    (hk : ∀ e s, k ≠ .test (some e) s)
    (hstop : c ≠ [] → ¬ Final c → L (k.after (Γ.leave rs) (o' + size c))) :
    Landing L (Γ.leave rs) k o' c := by
  have hΓ : (Γ.leave rs).loops = Γ.loops.map (Loop.leave rs.length) := rfl
  refine ⟨fun p hp => h.points p (hsub hp), hstop, fun l hl e s hes => (hk e s hes).elim, ?_, ?_⟩
  · intro l hl
    rw [hΓ, List.head?_map] at hl
    obtain ⟨l', hl', rfl⟩ := Option.map_eq_some_iff.mp hl
    rw [hΓ, List.length_map]
    exact ⟨(h.brk l' hl').1, fun hw => (h.brk l' hl').2 (hw.mono hsub)⟩
  · intro l hl t ht
    rw [hΓ, List.head?_map] at hl
    obtain ⟨l', hl', rfl⟩ := Option.map_eq_some_iff.mp hl
    rw [hΓ, List.length_map]
    exact ⟨(h.cont l' hl' t ht).1, fun hw => (h.cont l' hl' t ht).2 (hw.mono hsub)⟩

/-- Where a piece of code starts, if there is any. -/
theorem Point.Starts.lands (h : Starts Γ n o code) (hne : code ≠ []) (hL : ∀ p ∈ code, L p.spot) :
    L (Γ.spot o 0) := by
  rcases h with ⟨rfl, -⟩ | ⟨p, rest, rfl, hp⟩
  · exact (hne rfl).elim
  · exact hp ▸ hL p List.mem_cons_self

/-- A piece of code that is followed by another one ends where that one starts. -/
theorem Point.Starts.follow {s : Spot} (h : Starts Γ n o b) (hL : ∀ p ∈ b, L p.spot)
    (hs : s = Γ.spot o 0) (hend : ¬ Final (a ++ b) → L (n.after Γ (o + size b))) (ha : ¬ Final a) :
    L s := by
  subst hs
  rcases h with ⟨rfl, hspot⟩ | ⟨p, rest, rfl, hp⟩
  · rw [List.append_nil] at hend
    rw [← hspot]
    exact hend ha
  · exact hp ▸ hL p List.mem_cons_self

/-! ### Single instructions -/

theorem Emitted.operand_target {op : Opcode} (hop : op.widths = [2]) {t : Nat} {span : Span}
    (ht : t < Opcode.noTarget) : Emitted.operand ⟨op, [t], span⟩ 0 = t := by
  unfold Opcode.noTarget at ht
  simp only [operand, hop, List.getD_cons_zero, cut, if_true]
  omega

theorem Context.flows_jump {t k : Nat} {span : Span} (ht : t < Opcode.noTarget)
    (hL : L (Γ.spot t k)) : (Γ.point o k .jump [t] span).Flows L := by
  have hop : (Γ.point o k .jump [t] span).item.operand 0 = t := Emitted.operand_target rfl ht
  refine ⟨⟨?_, ?_⟩, ?_⟩
  · rw [hop]
    rfl
  · rw [hop]
    exact Nat.ne_of_lt ht
  · show L ⟨_, _, _, _⟩
    rw [hop]
    exact hL

theorem Context.flows_jumpIfFalse {t k : Nat} {span : Span} (ht : t < Opcode.noTarget)
    (hL : L (Γ.spot t k)) (hnext : L (Γ.spot (o + 3) k)) :
    (Γ.point o (k + 1) .jumpIfFalse [t] span).Flows L := by
  have hop : (Γ.point o (k + 1) .jumpIfFalse [t] span).item.operand 0 = t :=
    Emitted.operand_target rfl ht
  show _ ≠ _ ∧ L ⟨_, _, _, _⟩ ∧ L ⟨_, _, _, _⟩
  rw [hop]
  exact ⟨Nat.ne_of_lt ht, hL, hnext⟩

theorem Context.flows_finallyEnd {t : Nat} {span : Span} {r : Region} {rs : List Region}
    (hr : Γ.regions = r :: rs) (ht : t < Opcode.noTarget) (hL : L ⟨t, rs, Γ.height, .nothing⟩) :
    (Γ.point o 0 .finallyEnd [t] span).Flows L := by
  have hop : (Γ.point o 0 .finallyEnd [t] span).item.operand 0 = t := Emitted.operand_target rfl ht
  show _ ≠ _ ∧ ∃ r outer, _ = r :: outer ∧ L ⟨_, _, _, _⟩
  rw [hop]
  exact ⟨Nat.ne_of_lt ht, r, rs, hr, hL⟩

theorem Context.flows_plain {op : Opcode} {xs : List Nat} {k : Nat} {span : Span}
    (hop : op.isPlain = true) (hsetup : Setup.nothing.after ⟨op, xs, span⟩ = .nothing)
    (hL : L ⟨o + op.length, Γ.regions, Emitted.after ⟨op, xs, span⟩ (Γ.height + k), .nothing⟩) :
    (Γ.point o k op xs span).Flows L := by
  refine (Point.flows_plain (p := Γ.point o k op xs span) hop).mpr ?_
  show L ⟨_, _, Emitted.after ⟨op, xs, span⟩ (Γ.height + k), Setup.nothing.after ⟨op, xs, span⟩⟩
  rwa [hsetup]

theorem Emitted.after_add {i : Emitted} {base k : Nat} (h : i.takes ≤ k) :
    i.after (base + k) = base + i.after k := by
  unfold Emitted.after
  omega

/-- Control runs through a row to its end. -/
theorem Coarse.flows_row (hL : Coarse R H L) {tail : List Emitted} {k m base height : Nat}
    {regions : List Region} {u : Setup} (hplain : ∀ i ∈ tail, i.opcode.isPlain = true)
    (henough : Emitted.Enough tail k m) (hbalance : H → Emitted.Balance tail k m)
    (hheight : height = base + k) (hpoints : ∀ p ∈ rowFrom u regions o height tail, L p.spot)
    (hstop : L ⟨o + size (rowFrom u regions o height tail), regions, base + m, .nothing⟩) :
    ∀ p ∈ rowFrom u regions o height tail, p.Flows L := by
  induction tail generalizing o k height u with
  | nil => simp [rowFrom]
  | cons i is ih =>
    have hafter : i.after height = base + i.after k := by
      rw [hheight, Emitted.after_add henough.1]
    intro p hp
    rcases List.mem_cons.mp hp with rfl | hp
    · refine (Point.flows_plain (hplain i List.mem_cons_self)).mpr ?_
      cases is with
      | nil =>
        have hleft : m ≤ i.after k := henough.2
        refine hL.spot hstop (fun _ => rfl) (by rw [hafter]; omega) fun hH => ?_
        rw [hafter, (hbalance hH).2]
      | cons j js => exact hpoints _ (List.mem_cons_of_mem _ List.mem_cons_self)
    · refine ih (fun j hj => hplain j (List.mem_cons_of_mem _ hj)) henough.2
        (fun hH => (hbalance hH).2) hafter (fun q hq => hpoints q (List.mem_cons_of_mem _ hq)) ?_ p hp
      simpa [rowFrom, Nat.add_assoc] using hstop

theorem Straight.flows_row {counted : Prop} {tail : List Emitted} {k m base : Nat}
    {regions : List Region} (h : Straight counted k m tail) (hL : Coarse R H L)
    (hcounted : H → counted) (hpoints : ∀ p ∈ row regions o (base + k) tail, L p.spot)
    (hstop : L ⟨o + size (row regions o (base + k) tail), regions, base + m, .nothing⟩) :
    ∀ p ∈ row regions o (base + k) tail, p.Flows L :=
  hL.flows_row h.plain h.enough (fun hH => h.balance (hcounted hH)) rfl hpoints hstop

/-- The loops that the code at hand may still leave are inside the open regions, and no loop has more
below it on the stack than the code at hand. -/
structure Context.Nested (Γ : Context) : Prop where
  regions : ∀ l ∈ Γ.loops, l.left = false → l.regions <:+ Γ.regions
  heights : ∀ l ∈ Γ.loops, l.height ≤ Γ.height

theorem Context.nested_top : Context.top.Nested :=
  ⟨by simp [Context.top], by simp [Context.top]⟩

theorem Context.Nested.up (h : Γ.Nested) (k : Nat) : (Γ.up k).Nested :=
  ⟨h.regions, fun l hl => Nat.le_add_right_of_le (h.heights l hl)⟩

theorem Context.Nested.enter (h : Γ.Nested) (r : Region) : (Γ.enter r).Nested :=
  ⟨fun l hl hleft => (h.regions l hl hleft).trans (List.suffix_cons r Γ.regions), h.heights⟩

theorem Context.Nested.loop (h : Γ.Nested) (breakTo : Nat) (continueTo : Option Nat) (waits : Bool) :
    (Γ.loop breakTo continueTo waits).Nested := by
  refine ⟨fun l hl hleft => ?_, fun l hl => ?_⟩
  · rcases List.mem_cons.mp hl with rfl | hl
    · exact List.suffix_refl _
    · exact h.regions l hl hleft
  · rcases List.mem_cons.mp hl with rfl | hl
    · exact Nat.le_refl _
    · exact h.heights l hl

theorem Context.Nested.leave (h : Γ.Nested) {r : Region} {rs : List Region}
    (hr : Γ.regions = r :: rs) : (Γ.leave rs).Nested := by
  refine ⟨fun l hl hleft => ?_, fun l hl => ?_⟩
  · obtain ⟨l', hl', rfl⟩ := List.mem_map.mp hl
    simp only [Loop.leave, Bool.or_eq_false_iff, decide_eq_false_iff_not, Nat.not_lt] at hleft
    have hsuffix := h.regions l' hl' hleft.1
    rw [hr] at hsuffix
    rcases List.suffix_cons_iff.mp hsuffix with heq | hsuffix
    · have hlen : l'.regions.length = rs.length + 1 := by rw [heq, List.length_cons]
      omega
    · exact hsuffix
  · obtain ⟨l', hl', rfl⟩ := List.mem_map.mp hl
    exact h.heights l' hl'

/-- An exit to the regions around a loop ends there. -/
theorem Context.Nested.exitTo (h : Γ.Nested) {l : Loop} (hl : l ∈ Γ.loops) (hleft : l.left = false) :
    (Γ.exitTo l.regions.length).regions = l.regions := by
  obtain ⟨inner, hinner⟩ := h.regions l hl hleft
  simp [Context.exitTo, ← hinner]

/-- A jump out of the body of a loop. -/
theorem Context.flows_leap {l : Loop} {t : Nat} {leap : Leap} {span : Span} {p : Point}
    (hL : Coarse R H L) (hΓ : Γ.Nested) (hl : l ∈ Γ.loops)
    (hallows : LoopShape.Allows R H ⟨l.regions.length, l.height, l.continueTo.isNone, l.left⟩ leap
      Γ.height)
    (ht : t < Opcode.noTarget) (hland : L ⟨t, l.regions, l.height, .nothing⟩)
    (hitem : p.item = ⟨.jump, [t], span⟩) (hspot : p.spot = (Γ.exitTo l.regions.length).spot o 0) :
    p.Flows L := by
  have hop : p.item.operand 0 = t := by
    rw [hitem]
    exact Emitted.operand_target rfl ht
  have hregions : p.regions = (Γ.exitTo l.regions.length).regions := congrArg Spot.regions hspot
  have hheight : p.height = Γ.height := congrArg Spot.height hspot
  have hjump : p.item.opcode = .jump := by rw [hitem]
  have hjumps : p.item.Jumps := by
    refine ⟨?_, ?_⟩
    · rw [hop, hitem]
    · rw [hop]
      exact Nat.ne_of_lt ht
  unfold Point.Flows
  rw [hjump]
  show _ ∧ L ⟨_, _, _, _⟩
  rw [hop, hregions, hheight]
  refine ⟨hjumps, hL.spot hland ?_ (hΓ.heights l hl) ?_⟩
  · intro hR
    exact hΓ.exitTo hl (hallows.regions hR)
  · intro hH
    exact (hallows.heights hH).symm

end

end ScriptMachine
