import ScriptMachine.Proofs.Handlers.Records
import ScriptMachine.Proofs.Frames.Program

/-!
# Heights of programs

Where no jump leaves operands behind, and the values of all literals can be counted, the operands of a frame are just
those of its layout (`Machine.Level`). So a statement leaves the stack as it was, an expression leaves one value more,
an instruction that is applied to operands finds just these, and the run of a block ends without operands
(`Compiler.Built.heights_kept`).

1. **Ends**: what stands in a layout where statements and expressions begin and end.
2. **Halts**: the end of a block.
3. **Programs**.
-/

namespace ScriptMachine

open Point

/-! ## Ends -/

/-- Where a statement or an expression begins or ends, and over how many operands. -/
inductive Note.Counts : Note → Nat → Nat → Prop where
  | stmtBegins {s : Stmt} {start stop : Nat} {Γ : Context} : Counts (.stmt s start stop Γ) start Γ.height
  | stmtEnds {s : Stmt} {start stop : Nat} {Γ : Context} : Counts (.stmt s start stop Γ) stop Γ.height
  | exprBegins {e : Expr} {start stop : Nat} {Γ : Context} : Counts (.expr e start stop Γ) start Γ.height
  | exprEnds {e : Expr} {start stop : Nat} {Γ : Context} : Counts (.expr e start stop Γ) stop (Γ.height + 1)

/-- What comes next is an instruction of the piece over so many operands, or the end of the piece. -/
def Point.Joins (Γ : Context) (n : Node) (o : Nat) (code : List Point) (b height : Nat) : Prop :=
  (b = o + size code ∧ height = (n.after Γ b).height) ∨ ∃ q ∈ code, q.offset = b ∧ q.height = height

/-- Whatever begins or ends in a piece is followed by what counts on its height. -/
def Point.Flush (Γ : Context) (n : Node) (o : Nat) (code : List Point) (notes : List Note) : Prop :=
  ∀ note ∈ notes, ∀ b height, note.Counts b height → Joins Γ n o code b height

section

variable {Γ Γ' : Context} {n k : Node} {o o' b height : Nat} {code c : List Point} {ns n₁ n₂ notes : List Note}
  {q : Point}

theorem Point.Joins.of_mem (hq : q ∈ code) (hb : q.offset = b) (hh : q.height = height) : Joins Γ n o code b height :=
  .inr ⟨q, hq, hb, hh⟩

theorem Point.Joins.starts (hs : Starts Γ' k o' c) (hsub : c ⊆ code)
    (hnext : Joins Γ n o code (o' + size c) (k.after Γ' (o' + size c)).height) : Joins Γ n o code o' Γ'.height := by
  rcases hs with ⟨rfl, hafter⟩ | ⟨q, rest, rfl, hq⟩
  · rw [size_nil, Nat.add_zero, hafter] at hnext
    exact hnext
  · exact .of_mem (hsub List.mem_cons_self) (congrArg Spot.offset hq) (congrArg Spot.height hq)

theorem Point.flush_nil : Flush Γ n o code [] := List.forall_mem_nil _

theorem Point.Flush.append (h₁ : Flush Γ n o code n₁) (h₂ : Flush Γ n o code n₂) : Flush Γ n o code (n₁ ++ n₂) :=
  List.forall_mem_append.mpr ⟨h₁, h₂⟩

theorem Point.Flush.part (h : Flush Γ' k o' c ns) (hsub : c ⊆ code)
    (hnext : Joins Γ n o code (o' + size c) (k.after Γ' (o' + size c)).height) : Flush Γ n o code ns := by
  intro note hnote b height hcounts
  rcases h note hnote b height hcounts with ⟨rfl, rfl⟩ | ⟨q, hq, hb, hh⟩
  · exact hnext
  · exact .of_mem (hsub hq) hb hh

/-- A part that an instruction comes after. -/
theorem Point.Flush.before (h : Flush Γ' k o' c ns) (hsub : c ⊆ code) (hq : q ∈ code) (hb : q.offset = o' + size c)
    (hh : q.height = (k.after Γ' (o' + size c)).height) : Flush Γ n o code ns := h.part hsub (.of_mem hq hb hh)

/-- A part at the end. -/
theorem Point.Flush.last (h : Flush Γ' k o' c ns) (hsub : c ⊆ code) (hend : o' + size c = o + size code)
    (hh : (k.after Γ' (o' + size c)).height = (n.after Γ (o' + size c)).height) : Flush Γ n o code ns :=
  h.part hsub (.inl ⟨hend, hh⟩)

/-- At both ends of each statement and each expression there are the operands that are around it. -/
theorem Lays.flush (h : Lays Γ n o code notes) : Flush Γ n o code notes := by
  induction h with
  | noOperands | noStmts | noOptStmt | noTest | noUpdate | noExits | noAlternative | classDecl => exact flush_nil
  | @expr Γ e o code notes hform ih =>
    refine List.forall_mem_cons.mpr ⟨fun b height hcounts => ?_, ih.last (List.Subset.refl _) rfl rfl⟩
    cases hcounts with
    | exprBegins => exact .starts hform.starts (List.Subset.refl _) (.inl ⟨rfl, rfl⟩)
    | exprEnds => exact .inl ⟨rfl, rfl⟩
  | @stmt Γ s o code notes haction ih =>
    refine List.forall_mem_cons.mpr ⟨fun b height hcounts => ?_, ih.last (List.Subset.refl _) rfl rfl⟩
    cases hcounts with
    | stmtBegins => exact .starts haction.starts (List.Subset.refl _) (.inl ⟨rfl, rfl⟩)
    | stmtEnds => exact .inl ⟨rfl, rfl⟩
  | alternative _ ih | optStmt _ ih | block _ ih | tryNone _ ih | bodyReturn _ _ _ _ ih =>
    exact ih.last (List.Subset.refl _) rfl rfl
  | @strict Γ e o es code notes tail _ _ htail ih =>
    rcases htail.row_head Γ.regions (o + size code) (Γ.height + es.length) with ⟨q, hq, hspot⟩
    exact ih.before (List.subset_append_left _ _) (List.mem_append_right _ hq) (congrArg Spot.offset hspot)
      (congrArg Spot.height hspot)
  | @bind Γ o name e constant span code notes tail _ htail ih =>
    rcases htail.row_head Γ.regions (o + size code) (Γ.height + 1) with ⟨q, hq, hspot⟩
    exact ih.before (List.subset_append_left _ _) (List.mem_append_right _ hq) (congrArg Spot.offset hspot)
      (congrArg Spot.height hspot)
  | @operand Γ e k o x xs c₁ c₂ n₁ n₂ h₁ h₂ ih₁ ih₂ =>
    have hend : Joins Γ (.operands e k (.expr x :: xs)) o (c₁ ++ c₂) (o + size c₁ + size c₂)
        (Node.after (Γ.up 1) (o + size c₁ + size c₂) (.operands e (k + 1) xs)).height := by
      refine .inl ⟨by simp [Nat.add_assoc], ?_⟩
      simp [Node.after, Context.spot, Context.up, Nat.add_assoc, Nat.add_comm 1]
    refine List.forall_mem_cons.mpr ⟨?_, Flush.append ?_ ?_⟩
    · intro b height hcounts
      cases hcounts
    · exact ih₁.part (List.subset_append_left _ _) (.starts h₂.starts (List.subset_append_right _ _) hend)
    · exact ih₂.part (List.subset_append_right _ _) hend
  | @index Γ e k o i span xs place c₂ n₂ h₂ ih₂ =>
    refine List.forall_mem_cons.mpr ⟨?_, ?_⟩
    · intro b height hcounts
      cases hcounts
    refine ih₂.part (List.subset_cons_self _ _) (.inl ⟨?_, ?_⟩)
    · simp [Opcode.lengths, Nat.add_assoc]
    · simp [Node.after, Context.spot, Context.up, Nat.add_assoc, Nat.add_comm 1]
  | @value Γ o ss e s span c₁ c₂ n₁ n₂ h₁ h₂ ih₁ ih₂ | @stmts Γ o s ss c₁ c₂ n₁ n₂ h₁ h₂ ih₁ ih₂ =>
    refine .append (ih₁.part (List.subset_append_left _ _) (.starts h₂.starts (List.subset_append_right _ _) ?_))
      (ih₂.part (List.subset_append_right _ _) ?_)
    all_goals exact .inl ⟨by simp [Nat.add_assoc], rfl⟩
  | noValue _ _ ih | exprStmt _ ih | throw _ ih | update _ ih | bodyNull _ _ ih | test _ _ ih | unit _ ih
  | retNull _ ih | brk _ _ ih | cont _ _ _ _ _ ih | contWait _ _ _ ih =>
    exact ih.before (List.subset_append_left _ _) (List.mem_append_right _ (List.mem_singleton.mpr rfl)) rfl rfl
  | @bodyValue o ss e s span c₁ c₂ n₁ n₂ h₁ h₂ ih₁ ih₂ =>
    have hlast : Joins .top (.body ⟨ss ++ [.expr e s], span⟩) o
        (c₁ ++ (c₂ ++ [Context.top.point (o + size c₁ + size c₂) 1 .returnValue [] s])) (o + size c₁ + size c₂) 1 :=
      .of_mem (q := Context.top.point (o + size c₁ + size c₂) 1 .returnValue [] s) (by simp) rfl rfl
    refine .append (ih₁.part (by simp) (.starts h₂.starts (fun q hq => by simp [hq]) hlast)) ?_
    exact ih₂.part (fun q hq => by simp [hq]) hlast
  | @ret Γ o e span c₁ c₂ n₁ n₂ h₁ h₂ ih₁ ih₂ =>
    have hlast : Joins Γ (.action (.ret (some e) span)) o
        (c₁ ++ (c₂ ++ [(Γ.exitTo 0).point (o + size c₁ + size c₂) 1 .returnValue [] span])) (o + size c₁ + size c₂)
        (Γ.height + 1) :=
      .of_mem (q := (Γ.exitTo 0).point (o + size c₁ + size c₂) 1 .returnValue [] span) (by simp) rfl rfl
    refine .append (ih₁.part (by simp) (.starts h₂.starts (fun q hq => by simp [hq]) hlast)) ?_
    exact ih₂.part (fun q hq => by simp [hq]) hlast
  | @exits Γ o depth span r rs c₁ c₂ n₁ n₂ hr hdepth h₁ h₂ hlt ih₁ ih₂ =>
    have hend : Joins Γ (.exits depth span) o (Γ.point o 0 .finallyEnd [o + 3] span :: (c₁ ++ c₂))
        (o + 3 + size c₁ + size c₂) Γ.height := .inl ⟨by simp [Opcode.lengths, Nat.add_assoc], rfl⟩
    refine .append (ih₁.part (fun q hq => by simp [hq]) (.starts h₂.starts (fun q hq => by simp [hq]) hend)) ?_
    exact ih₂.part (fun q hq => by simp [hq]) hend
  | @and Γ o l r span c₁ c₂ n₁ n₂ stop h₁ h₂ hstop hlt ih₁ ih₂ =>
    refine .append (ih₁.before (q := Γ.point (o + size c₁) 1 .dup [] span) (by simp) (by simp) rfl rfl) ?_
    exact ih₂.last (fun q hq => by simp [hq]) (by simp [Opcode.lengths]; omega) rfl
  | @or Γ o l r span c₁ c₂ n₁ n₂ stop h₁ h₂ hstop hlt ih₁ ih₂ =>
    refine .append (ih₁.before (q := Γ.point (o + size c₁) 1 .dup [] span) (by simp) (by simp) rfl rfl) ?_
    exact ih₂.last (fun q hq => by simp [hq]) (by simp [Opcode.lengths]; omega) rfl
  | @ternary Γ o c y n span c₁ c₂ c₃ n₁ n₂ n₃ other stop h₁ h₂ h₃ hother hstop hlt ih₁ ih₂ ih₃
  | @cond Γ o c y n span c₁ c₂ c₃ n₁ n₂ n₃ other stop h₁ h₂ h₃ hother hstop hlt ih₁ ih₂ ih₃ =>
    refine .append ?_ (.append ?_ ?_)
    · exact ih₁.before (q := Γ.point (o + size c₁) 1 .jumpIfFalse [other] span) (by simp) (by simp) rfl rfl
    · exact ih₂.before (q := Γ.point (o + size c₁ + 3 + size c₂) 1 .jump [stop] span) (fun q hq => by simp [hq])
        (by simp) rfl rfl
    · exact ih₃.last (fun q hq => by simp [hq]) (by simp [Opcode.lengths, hother]; omega) rfl
  | @«while» Γ o c body s span c₁ c₂ n₁ n₂ stop h₁ h₂ hstop hlt ih₁ ih₂ =>
    refine .append ?_ ?_
    · exact ih₁.before (q := Γ.point (o + size c₁) 1 .jumpIfFalse [stop] span) (by simp) (by simp) rfl rfl
    · exact ih₂.before (q := Γ.point (o + size c₁ + 3 + size c₂) 0 .jump [o] span) (fun q hq => by simp [hq])
        (by simp) rfl rfl
  | @«for» Γ o init c u body s span c₀ c₁ c₂ c₃ n₀ n₁ n₂ n₃ start next stop h₀ h₁ h₂ h₃ hstart hnext hstop hlt hsome
      hbrk hcont ih₀ ih₁ ih₂ ih₃ =>
    let whole := c₀ ++ (c₁ ++ (c₂ ++ (c₃ ++ [Γ.point (next + size c₃) 0 .jump [start] span])))
    have hjump : Joins Γ (.action (.forLoop init c u ⟨body, s⟩ span)) o whole (next + size c₃) Γ.height :=
      .of_mem (q := Γ.point (next + size c₃) 0 .jump [start] span) (by simp [whole]) rfl rfl
    have hupdate : Joins Γ (.action (.forLoop init c u ⟨body, s⟩ span)) o whole next (Γ.loop stop none true).height :=
      .starts h₃.starts (fun q hq => by simp [whole, hq]) hjump
    rw [hnext] at hupdate
    have hbody : Joins Γ (.action (.forLoop init c u ⟨body, s⟩ span)) o whole (start + size c₁)
        (Γ.loop stop (some next) true).height :=
      .starts h₂.starts (fun q hq => by simp [whole, hq]) hupdate
    have htest : Joins Γ (.action (.forLoop init c u ⟨body, s⟩ span)) o whole start
        (Γ.loop stop (some next) true).height :=
      .starts h₁.starts (fun q hq => by simp [whole, hq]) hbody
    rw [hstart] at htest
    refine .append (ih₀.part (fun q hq => by simp [hq]) htest) (.append ?_ (.append ?_ ?_))
    · exact ih₁.part (fun q hq => by simp [hq]) hbody
    · exact ih₂.part (fun q hq => by simp [hq]) hupdate
    · exact ih₃.part (fun q hq => by simp [hq]) hjump
  | @tryCatch Γ o body s param handler s' span c₁ c₂ n₁ n₂ bind r handle stop h₁ hbind h₂ hr hh hstop hlt ih₁ ih₂ =>
    refine .append ?_ ?_
    · exact ih₁.before (q := (Γ.enter r).point (o + 5 + size c₁) 0 .finallyEnd [stop] span) (fun q hq => by simp [hq])
        (by simp) rfl rfl
    · refine ih₂.before (q := Γ.point (stop - 3) 0 .jump [stop] span) (fun q hq => by simp [hq]) (by simp) ?_ rfl
      show stop - 3 = _
      omega
  | @tryFinally Γ o body s cleanup s' span c₁ c₂ n₁ n₂ r final h₁ h₂ hr hf hlt ih₁ ih₂ =>
    refine .append ?_ ?_
    · exact ih₁.before (q := (Γ.enter r).point (o + 5 + size c₁) 0 .finallyEnd [final - 2] span)
        (fun q hq => by simp [hq]) (by simp) rfl rfl
    · exact ih₂.before (q := Γ.point (final + size c₂) 2 .rethrow [] span) (fun q hq => by simp [hq]) (by simp) rfl rfl
  | @tryBoth Γ o body s param handler s' cleanup s'' span c₁ c₂ c₃ n₁ n₂ n₃ bind r r' handle final h₁ hbind h₂ h₃ hr hr'
      hh hf hlt ih₁ ih₂ ih₃ =>
    refine .append ?_ (.append ?_ ?_)
    · exact ih₁.before (q := (Γ.enter r).point (o + 5 + size c₁) 0 .finallyEnd [final - 2] span)
        (fun q hq => by simp [hq]) (by simp) rfl rfl
    · exact ih₂.before (q := (Γ.enter r').point (r'.enter + 5 + size c₂) 0 .finallyEnd [final - 2] span)
        (fun q hq => by simp [hq]) (by simp) rfl rfl
    · exact ih₃.before (q := Γ.point (final + size c₃) 2 .rethrow [] span) (fun q hq => by simp [hq]) (by simp) rfl rfl


/-! ## Halts -/

/-- A machine only halts at the end of a block, where there are no operands. -/
theorem Lays.height_of_halt (h : Lays Γ n o code notes) : ∀ p ∈ code, p.item.opcode = .halt → p.height = 0 := by
  have row {u : Setup} {rs : List Region} {o height : Nat} {tail : List Emitted}
      (hplain : ∀ i ∈ tail, i.opcode.isPlain = true) :
      ∀ p ∈ rowFrom u rs o height tail, p.item.opcode = .halt → p.height = 0 := by
    intro p hp hop
    have hmem := (of_mem_rowFrom hp).2
    have := hplain _ hmem
    rw [hop] at this
    cases this
  have point {Γ : Context} {o k : Nat} {op : Opcode} {xs : List Nat} {span : Span} (hop : op ≠ .halt) :
      (Γ.point o k op xs span).item.opcode = .halt → (Γ.point o k op xs span).height = 0 := fun h => absurd h hop
  induction h with
  | noOperands | noStmts | noOptStmt | noTest | noUpdate | noExits => simp
  | expr _ ih | stmt _ ih | alternative _ ih | optStmt _ ih | block _ ih | tryNone _ ih => exact ih
  | bodyReturn _ _ _ _ ih => exact ih
  | strict _ _ htail ih => exact List.forall_mem_append.mpr ⟨ih, row htail.plain⟩
  | bind _ htail ih => exact List.forall_mem_append.mpr ⟨ih, row htail.plain⟩
  | classDecl htail => exact row htail.plain
  | operand _ _ ih₁ ih₂ | value _ _ ih₁ ih₂ | stmts _ _ ih₁ ih₂ => exact List.forall_mem_append.mpr ⟨ih₁, ih₂⟩
  | index _ ih₂ => exact List.forall_mem_cons.mpr ⟨point (by simp), ih₂⟩
  | noAlternative => exact List.forall_mem_singleton.mpr (point (by simp))
  | noValue _ _ ih | exprStmt _ ih | throw _ ih | update _ ih | bodyNull _ _ ih | test _ _ ih =>
    exact List.forall_mem_append.mpr ⟨ih, List.forall_mem_singleton.mpr (point (by simp))⟩
  | unit _ ih => exact List.forall_mem_append.mpr ⟨ih, List.forall_mem_singleton.mpr fun _ => rfl⟩
  | retNull _ ih | brk _ _ ih | cont _ _ _ _ _ ih | contWait _ _ _ ih =>
    exact List.forall_mem_append.mpr ⟨ih, List.forall_mem_singleton.mpr fun hop => by cases hop⟩
  | bodyValue _ _ ih₁ ih₂ | ret _ _ ih₁ ih₂ =>
    simp only [List.forall_mem_append, List.forall_mem_singleton]
    exact ⟨ih₁, ih₂, point (by simp)⟩
  | exits _ _ _ _ _ ih₁ ih₂ =>
    simp only [List.forall_mem_append, List.forall_mem_cons]
    exact ⟨point (by simp), ih₁, ih₂⟩
  | and _ _ _ _ ih₁ ih₂ =>
    simp only [List.forall_mem_append, List.forall_mem_cons]
    exact ⟨ih₁, point (by simp), point (by simp), point (by simp), ih₂⟩
  | or _ _ _ _ ih₁ ih₂ =>
    simp only [List.forall_mem_append, List.forall_mem_cons]
    exact ⟨ih₁, point (by simp), point (by simp), point (by simp), point (by simp), ih₂⟩
  | «while» _ _ _ _ ih₁ ih₂ =>
    simp only [List.forall_mem_append, List.forall_mem_cons]
    exact ⟨ih₁, point (by simp), ih₂, point (by simp), by simp⟩
  | ternary _ _ _ _ _ _ ih₁ ih₂ ih₃ | cond _ _ _ _ _ _ ih₁ ih₂ ih₃ =>
    simp only [List.forall_mem_append, List.forall_mem_cons]
    exact ⟨ih₁, point (by simp), ih₂, point (by simp), ih₃⟩
  | «for» _ _ _ _ _ _ _ _ _ _ _ ih₀ ih₁ ih₂ ih₃ =>
    simp only [List.forall_mem_append, List.forall_mem_singleton]
    exact ⟨ih₀, ih₁, ih₂, ih₃, point (by simp)⟩
  | tryCatch _ hbind _ _ _ _ _ ih₁ ih₂ =>
    simp only [List.forall_mem_append, List.forall_mem_cons]
    exact ⟨point (by simp), ih₁, point (by simp), row hbind.plain, ih₂, point (by simp), by simp⟩
  | tryFinally _ _ _ _ _ ih₁ ih₂ =>
    simp only [List.forall_mem_append, List.forall_mem_cons]
    exact ⟨point (by simp), ih₁, point (by simp), point (by simp), point (by simp), ih₂, point (by simp), by simp⟩
  | tryBoth _ hbind _ _ _ _ _ _ _ ih₁ ih₂ ih₃ =>
    simp only [List.forall_mem_append, List.forall_mem_cons]
    exact ⟨point (by simp), ih₁, point (by simp), row hbind.plain, point (by simp), ih₂, point (by simp),
      point (by simp), point (by simp), ih₃, point (by simp), by simp⟩

end

/-! ## Programs -/

/-- The statements that leave the body of a loop by a jump. -/
def Term.isLeap : Term → Bool
  | .stmt (.breakLoop _) | .stmt (.continueLoop _) => true
  | _ => false

/-- The operands of a frame are those of its layout. -/
structure Machine.Level (L : Function → List Point) (m : Machine) (f : Frame) : Prop where
  point : ∃ p, f.At L p ∧ m.sp = f.floor + p.height
  /-- A piece of the source begins with the operands that are around it. -/
  begins : ∀ Γ n code notes, Lays Γ n f.ip code notes → code ≠ [] → code ⊆ L f.closure.function →
    m.sp = f.floor + Γ.height
  /-- Both ends of a statement are at the same height, and at its end an expression has left one value more. -/
  ends : ∀ n notes, n.isBlock = true → Lays .top n 0 (L f.closure.function) notes → ∀ note ∈ notes, ∀ height,
    note.Counts f.ip height → m.sp = f.floor + height
  /-- What is applied to the operands of an expression finds just these. -/
  operands : ∀ Γ e es o code notes, Lays Γ (.form e) o code notes → code ⊆ L f.closure.function →
    e.operands? = some es → ∃ c tail notes', Lays Γ (.operands e 0 es) o c notes' ∧
      code = c ++ row Γ.regions (o + size c) (Γ.height + es.length) tail ∧
      (f.ip = o + size c → m.sp = f.floor + Γ.height + es.length)
  halts : ∀ p, f.At L p → p.item.opcode = .halt → m.sp = f.floor

section

variable {G : Grade} {m : Machine} {fs : Array Frame} {f : Frame} {p q : Point} {s : Spot} {own hs : List Handler}

/-- Where heights count, the point at which a frame stands says how many operands it has. -/
theorem Machine.Poised.sp_eq (hm : m.Poised G fs f p s own hs) (hG : G.heights) (hq : f.At G.layout q) :
    m.sp = f.floor + q.height := by
  have heq : q = p := hm.at.eq hq hm.rests.follows.sound.neat
  have hheight : s.height = p.height := hm.meets.height hG
  rw [heq, ← hheight]
  exact hm.rests.height

theorem Machine.Poised.level (hm : m.Poised G fs f p s own hs) (hG : G.heights) : m.Level G.layout f := by
  have hfollows := hm.rests.follows
  refine ⟨⟨p, hm.at, hm.sp_eq hG hm.at⟩, ?_, ?_, ?_, ?_⟩
  · intro Γ n code notes hlays hne hsub
    rcases hlays.starts with ⟨rfl, -⟩ | ⟨q, rest, rfl, hq⟩
    · exact absurd rfl hne
    · have hat : f.At G.layout q := ⟨hsub List.mem_cons_self, congrArg Spot.offset hq⟩
      have hheight : q.height = Γ.height := congrArg Spot.height hq
      rw [hm.sp_eq hG hat, hheight]
  · intro n notes hn hlays note hnote height hcounts
    rcases hlays.flush note hnote f.ip height hcounts with ⟨hend, -⟩ | ⟨q, hq, hip, hheight⟩
    · -- the frame stands before the end of its code
      have hlt := (hfollows.sound.neat.bounds hm.point).2
      have hlength := p.item.opcode.length_pos
      have hip := hm.offset_eq
      omega
    · rw [hm.sp_eq hG ⟨hq, hip⟩, hheight]
  · intro Γ e es o code notes hlays hsub hes
    cases hlays with
    | @strict _ _ _ es' c _ tail hops hoperands htail =>
      cases hops.symm.trans hes
      refine ⟨c, tail, notes, hoperands, rfl, fun hip => ?_⟩
      rcases htail.row_head Γ.regions (o + size c) (Γ.height + es.length) with ⟨q, hq, hspot⟩
      have hat : f.At G.layout q :=
        ⟨hsub (List.mem_append_right c hq), (congrArg Spot.offset hspot).trans hip.symm⟩
      have hheight : q.height = Γ.height + es.length := congrArg Spot.height hspot
      rw [hm.sp_eq hG hat, hheight, Nat.add_assoc]
    | and => simp [Expr.operands?] at hes
    | or => simp [Expr.operands?] at hes
    | ternary => cases hes
    | cond => cases hes
  · intro q hq hop
    rcases hfollows.layout with ⟨n, notes, -, hlays, -⟩
    rw [hm.sp_eq hG hq, hlays.height_of_halt q hq.mem hop, Nat.add_zero]

variable {us : List (List Stmt)} {c c' : Compiler} {prog : Program} {unit : UnitCode}

/-- Where there is neither `break` nor `continue`, and literals can be counted, nothing can go wrong. -/
theorem Regular.fine {R H : Prop} {ss : List Stmt} (h : Regular ss)
    (hno : ∀ s ∈ ss, ∀ t, (Term.stmt s).Has True t → t.isLeap = false) {b : Site × Node}
    (hb : Site.Visits (.top, .unit ss) b) : Site.Fine R H b := by
  have hleaps : Site.Obeys (fun t => ∀ u, t.Has True u → u.isLeap = false)
      (fun f => ∀ t ∈ f.terms, ∀ u, t.Has True u → u.isLeap = false) b := by
    induction hb with
    | refl =>
      refine ⟨fun t ht => ?_, fun f hf => by cases hf⟩
      rcases List.mem_map.mp ht with ⟨s, hs, rfl⟩
      exact hno s hs
    | tail _ hpart ih =>
      refine ih.part (D := True) (fun t u ht hhas v hv => ht v (hhas.trans hv)) ?_ (fun f hf => hf) hpart fun _ => trivial
      intro b c f span ht t hmem u hu
      refine ht u (.trans (Term.has_of_parts ?_) hu)
      exact List.mem_append_right _ (List.mem_append_right _ hmem)
  have hobeys := h.obeys hb
  rcases b with ⟨S, k⟩
  unfold Site.Fine
  split
  · next heq =>
    cases heq
    cases hleaps.terms _ List.mem_cons_self _ (.refl _)
  · next heq =>
    cases heq
    cases hleaps.terms _ List.mem_cons_self _ (.refl _)
  · next e heq =>
    cases heq
    exact fun _ => (hobeys.terms (.expr e) List.mem_cons_self _ (.refl _)).counted e rfl
  · trivial

theorem Regular.orderly_of_no_leaps {R H : Prop} {ss : List Stmt} (h : ∀ u ∈ ss :: us, Regular u)
    (hno : ∀ u ∈ ss :: us, ∀ s ∈ u, ∀ t, (Term.stmt s).Has True t → t.isLeap = false) : Orderly R H ss us := by
  have fine {u : List Stmt} (hu : u ∈ ss :: us) {n : Node} (hn : Site.Visits (.top, .unit u) (.top, n)) :
      Site.Sound R H .top n := by
    intro b hb
    refine (h u hu).fine (hno u hu) (Relation.ReflTransGen.trans hn ?_)
    exact Relation.ReflTransGen.mono (fun _ _ hstep => hstep.1) _ _ hb
  constructor
  · exact fine List.mem_cons_self .refl
  · rintro b ⟨u, hu, hvisits⟩
    exact fine hu hvisits

/-- In every state of a run the operands of the running frame are those of its layout. So a statement that a frame has
run through, however it was left, leaves the stack pointer where it was, and an expression leaves one value more. -/
theorem Compiler.Built.heights_kept (h : Built us c) (hp : Orderly False True (c.statements prog) us)
    (hcompile : c.compile prog = .ok (unit, c')) : ∃ L : Function → List Point,
    (∀ f, unit.Runs c' f → ∃ n notes, f.Renders (c.statements prog) us n (L f) notes) ∧
    ∀ (s : State) (ss : List State), s.Launches (unit.Runs c') → (s :: ss).IsChain (State.Next (unit.Runs c')) →
      (∀ t ∈ s :: ss, ∀ (fs : Array Frame) (f : Frame), t.machine.frames = fs.push f → t.machine.waiting = none →
        t.machine.Level L f) ∧
      ∀ t ∈ s :: ss, ∀ u ∈ s :: ss, ∀ (fs gs : Array Frame) (f g : Frame), t.machine.frames = fs.push f →
        u.machine.frames = gs.push g → t.machine.waiting = none → u.machine.waiting = none → f.Same g →
        ∀ n notes, n.isBlock = true → Lays .top n 0 (L f.closure.function) notes → ∀ note ∈ notes,
          (∀ a Γ, note = .stmt a f.ip g.ip Γ → u.machine.sp = t.machine.sp) ∧
          (∀ e Γ, note = .expr e f.ip g.ip Γ → u.machine.sp = t.machine.sp + 1) := by
  rcases h.exists_layouts hp hcompile with ⟨L, hL⟩
  refine ⟨L, fun f hf => (hL f hf).1, fun s ss hs hss => ?_⟩
  have hlevel : ∀ t ∈ s :: ss, ∀ (fs : Array Frame) (f : Frame), t.machine.frames = fs.push f →
      t.machine.waiting = none → t.machine.Level L f := by
    intro t ht fs f hframes hw
    have hpiles := hs.all_piles (fun f hf => (hL f hf).2) hss t ht
    rcases hpiles.poised hframes hw with ⟨p, u, own, hs, hpoised⟩
    exact hpoised.level trivial
  refine ⟨hlevel, fun t ht u hu fs gs f g hf hg hwf hwg hsame n notes hn hlays note hnote => ?_⟩
  have hleft := (hlevel t ht fs f hf hwf).ends n notes hn hlays note hnote
  have hlays' : Lays .top n 0 (L g.closure.function) notes := by
    rw [hsame.closure]
    exact hlays
  have hright := (hlevel u hu gs g hg hwg).ends n notes hn hlays' note hnote
  rw [hsame.floor] at hright
  constructor
  · rintro a Γ rfl
    rw [hleft _ .stmtBegins, hright _ .stmtEnds]
  · rintro e Γ rfl
    rw [hleft _ .exprBegins, hright _ .exprEnds, Nat.add_assoc]

end

theorem orderly_calledLiteral (R H : Prop) : Orderly R H [calledLiteral] [] := by
  refine Regular.orderly_of_no_leaps (List.forall_mem_singleton.mpr regular_calledLiteral) ?_
  refine List.forall_mem_singleton.mpr (List.forall_mem_singleton.mpr fun t ht => ?_)
  have hmem := calledLiteral.mem_terms ht
  simp only [calledLiteral.terms, List.mem_cons, List.not_mem_nil, or_false] at hmem
  rcases hmem with rfl | rfl | rfl | rfl | rfl <;> rfl

open calledLiteral in
/-- The literal is called over no operands, and its result is the only one. -/
theorem calledLiteral_heights_kept : ∃ c' L,
    (Compiler.new .empty #[] false).compile ⟨[calledLiteral]⟩ = .ok (calledLiteral.unit, c') ∧
    started.Launches (calledLiteral.unit.Runs c') ∧
    [started, made, called, computed, returned].IsChain (State.Next (calledLiteral.unit.Runs c')) ∧
    called.machine.Level L callee ∧ returned.machine.Level L { frame with ip := 6 } := by
  rcases compile_calledLiteral with ⟨c', hcompile, hpool⟩
  have hH : calledLiteral.unit.Runs c' function :=
    .inr ⟨.function function, by simp [hpool], List.mem_singleton.mpr rfl⟩
  have hlaunches := launches hH (.inl rfl)
  have hchain := isChain hH
  rcases Compiler.Built.heights_kept (.new .empty 0 false) (orderly_calledLiteral False True) hcompile with ⟨L, -, hlevel⟩
  have hruns := (hlevel _ _ hlaunches hchain).1
  refine ⟨c', L, hcompile, hlaunches, hchain, hruns called (by simp) #[{ frame with ip := 6 }] callee rfl rfl, ?_⟩
  exact hruns returned (by simp) #[] _ rfl rfl

end ScriptMachine
