import ScriptMachine.Proofs.Layout.Growth

/-!
# The bytes of a block

The instructions of a laid out block stand one after the other, and each has as many operands as its
opcode says. So decoding the bytes of the block gives back its points, and the machine, which reads at
an offset, finds there the instruction that the layout has put there:

* `Lays.neat` — offsets and operands of a layout are in order;
* `decode_of_holds` — the block decodes to its points;
* `readOperands?_of_holds` — what the machine reads at the offset of a point.
-/

namespace ScriptMachine

open Point

/-! ## Operands -/

theorem Opcode.widths_le (op : Opcode) : ∀ w ∈ op.widths, w = 1 ∨ w = 2 := by
  cases op <;> decide

namespace Emitted

/-- As many operands as the opcode has widths. -/
def Sized (i : Emitted) : Prop := i.operands.length = i.opcode.widths.length

/-- All operands as the machine reads them. -/
def read (i : Emitted) : List Nat := List.zipWith cut i.opcode.widths i.operands

theorem read_one {i : Emitted} {w : Nat} (h : i.Sized) (hw : i.opcode.widths = [w]) :
    i.read = [i.operand 0] := by
  obtain ⟨op, xs, span⟩ := i
  simp only [Sized] at h hw
  rw [hw, List.length_singleton, List.length_eq_one_iff] at h
  obtain ⟨x, rfl⟩ := h
  simp [read, operand, hw]

theorem read_two {i : Emitted} {v w : Nat} (h : i.Sized) (hw : i.opcode.widths = [v, w]) :
    i.read = [i.operand 0, i.operand 1] := by
  obtain ⟨op, xs, span⟩ := i
  simp only [Sized] at h hw
  rw [hw, List.length_cons, List.length_singleton, List.length_eq_two] at h
  obtain ⟨x, y, rfl⟩ := h
  simp [read, operand, hw]

end Emitted

/-- The instruction of a point, as decoding gives it. -/
def Point.instruction (p : Point) : Instruction := ⟨p.offset, p.item.opcode, p.item.read⟩

theorem length_operandBytes {w : Nat} (hw : w = 1 ∨ w = 2) (n : Nat) :
    (operandBytes w n).length = w := by
  rcases hw with rfl | rfl <;> rfl

theorem length_encodeOperands {ws ns : List Nat} (hws : ∀ w ∈ ws, w = 1 ∨ w = 2)
    (h : ns.length = ws.length) : (encodeOperands ws ns).length = ws.foldr (· + ·) 0 := by
  induction ws generalizing ns with
  | nil => simp [encodeOperands]
  | cons w ws ih =>
    cases ns with
    | nil => simp at h
    | cons n ns =>
      have hw := length_operandBytes (hws w List.mem_cons_self) n
      have hrest := ih (fun v hv => hws v (List.mem_cons_of_mem _ hv)) (Nat.succ.inj h)
      simp [encodeOperands, hw, hrest]

theorem length_encode {i : Emitted} (h : i.Sized) :
    (encode i.opcode i.operands).length = i.opcode.length := by
  have := length_encodeOperands i.opcode.widths_le h
  simp only [encode, List.length_cons, this, Opcode.length]
  omega

/-- An operand is read back as it was written, cut to its width. -/
theorem operandAt?_append (pre post : List UInt8) {w : Nat} (hw : w = 1 ∨ w = 2) (n : Nat) :
    operandAt? (pre ++ (operandBytes w n ++ post)).toArray pre.length w = some (Emitted.cut w n) := by
  rcases hw with rfl | rfl
  · simp [operandAt?, operandBytes, Emitted.cut]
  · simp only [operandAt?, operandBytes, Emitted.cut]
    simp
    omega

theorem operandsAt?_append (pre post : List UInt8) {ws ns : List Nat}
    (hws : ∀ w ∈ ws, w = 1 ∨ w = 2) (h : ns.length = ws.length) :
    operandsAt? (pre ++ (encodeOperands ws ns ++ post)).toArray pre.length ws =
      some (List.zipWith Emitted.cut ws ns) := by
  induction ws generalizing pre ns with
  | nil => simp [operandsAt?]
  | cons w ws ih =>
    cases ns with
    | nil => simp at h
    | cons n ns =>
      have hw := hws w List.mem_cons_self
      have hlen := length_operandBytes hw n
      have hrest := ih (pre ++ operandBytes w n) (fun v hv => hws v (List.mem_cons_of_mem _ hv))
        (Nat.succ.inj h)
      rw [List.length_append, hlen] at hrest
      simp only [operandsAt?, encodeOperands, List.append_assoc]
      rw [operandAt?_append pre _ hw]
      simp only [List.append_assoc] at hrest
      simp [hrest]

/-! ## Points in a row -/

namespace Point

/-- The points stand one after the other, the first one at `o`, with all their operands. -/
def Neat : Nat → List Point → Prop
  | _, [] => True
  | o, p :: ps => p.offset = o ∧ p.item.Sized ∧ Neat (o + p.item.opcode.length) ps

@[simp] theorem neat_nil (o : Nat) : Neat o [] := trivial

theorem neat_cons (o : Nat) (p : Point) (ps : List Point) :
    Neat o (p :: ps) ↔ p.offset = o ∧ p.item.Sized ∧ Neat (o + p.item.opcode.length) ps := Iff.rfl

@[simp] theorem neat_append (o : Nat) (a b : List Point) :
    Neat o (a ++ b) ↔ Neat o a ∧ Neat (o + size a) b := by
  induction a generalizing o with
  | nil => simp
  | cons p a ih => simp [neat_cons, ih, Nat.add_assoc, and_assoc]

/-- The bytes of a piece of code. -/
def bytes (code : List Point) : List UInt8 :=
  code.flatMap fun p => encode p.item.opcode p.item.operands

theorem length_bytes {o : Nat} {code : List Point} (h : Neat o code) :
    (bytes code).length = size code := by
  induction code generalizing o with
  | nil => rfl
  | cons p code ih =>
    have hp := length_encode h.2.1
    have hrest := ih h.2.2
    simp only [bytes, List.flatMap_cons, List.length_append, hp, size_cons] at hrest ⊢
    omega

end Point

theorem CodeBlock.code_eq (b : CodeBlock) :
    b.code = (b.items.toList.flatMap fun i => encode i.opcode i.operands).toArray := by
  have push_all : ∀ (bs : List UInt8) (acc : Array UInt8),
      bs.foldl Array.push acc = acc ++ bs.toArray := by
    intro bs
    induction bs with
    | nil => simp
    | cons b bs ih => simp [ih]
  have all : ∀ (is : List Emitted) (acc : Array UInt8),
      is.foldl (fun bytes i => (encode i.opcode i.operands).foldl Array.push bytes) acc =
        acc ++ (is.flatMap fun i => encode i.opcode i.operands).toArray := by
    intro is
    induction is with
    | nil => simp
    | cons i is ih =>
      intro acc
      rw [List.foldl_cons, ih, push_all]
      simp
  rw [CodeBlock.code, ← Array.foldl_toList, all]
  simp

theorem Function.Holds.bytes_eq {f : Function} {code : List Point} (h : f.Holds code) :
    f.code = (bytes code).toArray := by
  rw [h.code_eq, CodeBlock.code_eq]
  simp [bytes, items, List.flatMap_map]

/-! ## Decoding -/

section Reading

variable {pre code : List Point} {p : Point}

theorem getElem?_bytes (hpre : Neat 0 pre) (p : Point) (code : List Point) :
    (bytes (pre ++ p :: code)).toArray[size pre]? = some p.item.opcode.toByte := by
  have hlen := length_bytes hpre
  simp only [bytes] at hlen
  simp [bytes, encode, ← hlen]

theorem readOperands?_bytes (hpre : Neat 0 pre) (hp : p.item.Sized) (code : List Point) :
    readOperands? p.item.opcode (bytes (pre ++ p :: code)).toArray (size pre + 1) =
      some p.item.read := by
  have hlen := length_bytes hpre
  have := operandsAt?_append (bytes pre ++ [p.item.opcode.toByte]) (bytes code)
    p.item.opcode.widths_le hp
  rw [List.length_append, hlen, List.length_singleton] at this
  simpa [readOperands?, bytes, encode, Emitted.read] using this

/-- Decoding from the offset of a point on gives the points from there on. -/
theorem decodeFrom_bytes (pre code : List Point) (h : Neat 0 (pre ++ code))
    (done : List Instruction) :
    decodeFrom (bytes (pre ++ code)).toArray (size pre) done =
      .ok (done.reverse ++ code.map Point.instruction) := by
  have hsize := length_bytes h
  induction code generalizing pre done with
  | nil =>
    rw [decodeFrom]
    simp only [List.append_nil] at hsize
    simp [hsize]
  | cons p code ih =>
    obtain ⟨hpre, hp⟩ := (neat_append 0 pre (p :: code)).mp h
    obtain ⟨hoffset, hsized, -⟩ := hp
    have hlt : size pre < (bytes (pre ++ p :: code)).toArray.size := by
      simp only [List.size_toArray, hsize, size_append, size_cons]
      have := p.item.opcode.length_pos
      omega
    have hbyte := getElem?_bytes hpre p code
    rw [Array.getElem?_eq_getElem hlt, Option.some.injEq] at hbyte
    have hreads := readOperands?_bytes hpre hsized code
    have happ : pre ++ p :: code = (pre ++ [p]) ++ code := by simp
    have hnext : size (pre ++ [p]) = size pre + p.item.opcode.length := by simp
    have ih := ih (pre ++ [p]) (by rwa [← happ]) (⟨size pre, p.item.opcode, p.item.read⟩ :: done)
      (by rwa [← happ])
    rw [decodeFrom, dif_pos hlt]
    simp only [hbyte, Opcode.ofByte?_toByte, hreads]
    rw [happ, ← hnext, ih]
    simp [Point.instruction, hoffset]

end Reading

section Holds

variable {f : Function} {code : List Point}

/-- A block decodes to its points. -/
theorem decode_of_holds (hf : f.Holds code) (h : Neat 0 code) :
    decode f.code = .ok (code.map Point.instruction) := by
  rw [hf.bytes_eq]
  exact decodeFrom_bytes [] code h []

theorem size_of_holds (hf : f.Holds code) (h : Neat 0 code) : f.code.size = size code := by
  rw [hf.bytes_eq, List.size_toArray, length_bytes h]

/-- A point of a neat piece of code stands where the points before it end. -/
theorem Point.Neat.split {o : Nat} {p : Point} (h : Neat o code) (hp : p ∈ code) :
    ∃ a b, code = a ++ p :: b ∧ p.offset = o + size a ∧ Neat o a ∧ p.item.Sized := by
  obtain ⟨a, b, rfl⟩ := List.append_of_mem hp
  obtain ⟨ha, hb⟩ := (neat_append o a (p :: b)).mp h
  exact ⟨a, b, rfl, hb.1, ha, hb.2.1⟩

/-- The offsets of a piece of code. -/
theorem Point.Neat.bounds {o : Nat} {p : Point} (h : Neat o code) (hp : p ∈ code) :
    o ≤ p.offset ∧ p.offset < o + size code := by
  obtain ⟨a, b, rfl, hoffset, -, -⟩ := h.split hp
  have hpos := p.item.opcode.length_pos
  simp only [size_append, size_cons]
  omega

/-- Different points have different offsets. -/
theorem Point.Neat.eq_of_offset {o : Nat} {p q : Point} (h : Neat o code) (hp : p ∈ code) (hq : q ∈ code)
    (heq : p.offset = q.offset) : p = q := by
  obtain ⟨a, b, rfl, hoffset, -, -⟩ := h.split hp
  obtain ⟨hbefore, -, -, hbehind⟩ := (neat_append o a (p :: b)).mp h
  have hpos := p.item.opcode.length_pos
  rcases List.mem_append.mp hq with hq | hq
  · have := hbefore.bounds hq
    omega
  · rcases List.mem_cons.mp hq with rfl | hq
    · rfl
    · have := hbehind.bounds hq
      omega

theorem getElem?_of_holds (hf : f.Holds code) (h : Neat 0 code) {p : Point} (hp : p ∈ code) :
    f.code[p.offset]? = some p.item.opcode.toByte := by
  obtain ⟨a, b, rfl, hoffset, ha, -⟩ := h.split hp
  rw [hf.bytes_eq, hoffset, Nat.zero_add]
  exact getElem?_bytes ha p b

theorem readOperands?_of_holds (hf : f.Holds code) (h : Neat 0 code) {p : Point} (hp : p ∈ code) :
    readOperands? p.item.opcode f.code (p.offset + 1) = some p.item.read := by
  obtain ⟨a, b, rfl, hoffset, ha, hsized⟩ := h.split hp
  rw [hf.bytes_eq, hoffset, Nat.zero_add]
  exact readOperands?_bytes ha hsized b

end Holds

/-! ## Layouts -/

theorem Point.neat_rowFrom {tail : List Emitted} (h : ∀ i ∈ tail, i.Sized) (u : Setup)
    (regions : List Region) (o height : Nat) : Neat o (rowFrom u regions o height tail) := by
  induction tail generalizing u o height with
  | nil => trivial
  | cons i is ih =>
    exact ⟨rfl, h i List.mem_cons_self, ih (fun j hj => h j (List.mem_cons_of_mem _ hj)) _ _ _⟩

theorem Point.items_rowFrom (u : Setup) (regions : List Region) (o height : Nat) (is : List Emitted) :
    items (rowFrom u regions o height is) = is := by
  induction is generalizing u o height with
  | nil => rfl
  | cons i is ih => exact congrArg (i :: ·) (ih _ _ _)

/-- A block decodes to its instructions, if all have their operands. -/
theorem CodeBlock.decode_eq {b : CodeBlock} (hsized : ∀ i ∈ b.items.toList, i.Sized) :
    decode b.code = .ok ((row [] 0 0 b.items.toList).map Point.instruction) := by
  have hbytes : b.code = (bytes (row [] 0 0 b.items.toList)).toArray := by
    rw [CodeBlock.code_eq]
    conv_lhs => rw [← items_rowFrom .nothing [] 0 0 b.items.toList]
    simp [bytes, Point.items, List.flatMap_map]
  rw [hbytes]
  exact decodeFrom_bytes [] _ (neat_rowFrom hsized _ _ _ _) []

theorem Straight.neat {counted : Prop} {k m : Nat} {tail : List Emitted}
    (h : Straight counted k m tail) (regions : List Region) (o height : Nat) :
    Neat o (row regions o height tail) := neat_rowFrom h.sized _ _ _ _

@[simp] theorem neat_point (Γ : Context) (o o' k : Nat) (op : Opcode) (xs : List Nat) (span : Span)
    (ps : List Point) : Neat o (Γ.point o' k op xs span :: ps) ↔
      o' = o ∧ xs.length = op.widths.length ∧ Neat (o + op.length) ps := Iff.rfl

@[simp] theorem neat_leap (Γ : Context) (o o' : Nat) (l : Leap) (t : Nat) (span : Span) :
    Neat o [Γ.leap o' l t span] ↔ o' = o := by
  simp [neat_cons, Context.leap, Emitted.Sized, Opcode.widths]

/-- Offsets and operands of a layout are in order. -/
theorem Lays.neat {Γ : Context} {n : Node} {o : Nat} {code : List Point} {notes : List Note}
    (h : Lays Γ n o code notes) : Neat o code := by
  induction h with
  | noOperands | noStmts | noOptStmt | noTest | noUpdate | noExits => exact neat_nil _
  | expr _ ih | stmt _ ih | alternative _ ih | optStmt _ ih | block _ ih | tryNone _ ih => exact ih
  | bodyReturn _ _ _ _ ih => exact ih
  | strict _ _ htail ih => exact (neat_append _ _ _).mpr ⟨ih, htail.neat _ _ _⟩
  | bind _ htail ih => exact (neat_append _ _ _).mpr ⟨ih, htail.neat _ _ _⟩
  | classDecl htail => exact htail.neat _ _ _
  | operand _ _ ih₁ ih₂ | value _ _ ih₁ ih₂ | stmts _ _ ih₁ ih₂ =>
    exact (neat_append _ _ _).mpr ⟨ih₁, ih₂⟩
  | tryCatch _ hbind _ hr hhandle hstop _ ih₁ ih₂ =>
    subst hr hhandle hstop
    simp only [Nat.add_assoc] at ih₁ ih₂
    simp [Nat.add_assoc, Opcode.lengths, Opcode.widths, hbind.neat, ih₁, ih₂]
    omega
  | tryFinally _ _ hr hfinal _ ih₁ ih₂ =>
    subst hr hfinal
    simp only [Nat.add_assoc, Nat.reduceAdd] at ih₁ ih₂
    simp [Nat.add_assoc, Opcode.lengths, Opcode.widths, ih₁, ih₂]
    omega
  | tryBoth _ hbind _ _ hr hr' hhandle hfinal _ ih₁ ih₂ ih₃ =>
    subst hr hr' hhandle
    dsimp only at hfinal ih₂ ⊢
    subst hfinal
    simp only [Nat.add_assoc, Nat.reduceAdd] at ih₁ ih₂ ih₃
    simp [Nat.add_assoc, Opcode.lengths, Opcode.widths, hbind.neat, ih₁, ih₂, ih₃]
    omega
  | _ =>
    subst_vars
    simp_all [Nat.add_assoc, Opcode.lengths, Opcode.widths]

/-! ## Cells -/

theorem Opcode.widths_usesCell {op : Opcode} (h : op.usesCell = true) : op.widths = [1] := by
  cases op <;> first | rfl | cases h

/-- An instruction that uses a cell uses one that there is. -/
theorem Emitted.Refers.cell {S : Supply} {u : Setup} {i : Emitted} (h : i.Refers S u)
    (hcell : i.opcode.usesCell = true) : i.operand 0 < S.free := by
  obtain ⟨op, xs, span⟩ := i
  cases op <;> first | exact h | cases hcell

/-- The code of a function uses no cells but those it was compiled with. -/
theorem Function.From.frees {f : Function} {Src : Source} {p : Pool} {n : Nat} (h : f.From Src p n) :
    f.Frees n := by
  obtain ⟨b, code, notes, hlies⟩ := h
  intro is hdecode i hi hcell k hk
  rw [decode_of_holds hlies.holds hlies.lays.neat] at hdecode
  cases hdecode
  obtain ⟨q, hq, rfl⟩ := List.mem_map.mp hi
  obtain ⟨-, -, -, -, -, hsized⟩ := hlies.lays.neat.split hq
  have hread := Emitted.read_one hsized (Opcode.widths_usesCell hcell)
  have hmem : k ∈ q.item.read := hk
  rw [hread, List.mem_singleton] at hmem
  rw [hmem]
  exact (hlies.refers q hq).cell hcell

end ScriptMachine
