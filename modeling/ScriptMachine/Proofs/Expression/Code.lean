import ScriptMachine.Proofs.Layout.Bytes

/-!
# Code inside a block

A piece of code stands somewhere in the block of a function: `Function.HasAt f o seg` says that the
instructions `seg` begin at offset `o` of `f`, whatever comes before and after them. The machine finds
there the opcode, the operands and the span of each instruction:

* `Function.HasAt.byte`, `Function.HasAt.operands`, `Function.HasAt.span` — what it reads at the offset
  of an instruction;
* `Function.HasAt.append` — a piece that is put together stands there part by part.
-/

namespace ScriptMachine

/-! ## Lists of instructions -/

namespace Emitted

/-- The bytes of instructions. -/
def bytes (is : List Emitted) : List UInt8 := is.flatMap fun i => encode i.opcode i.operands

theorem length_bytes_of_sized {is : List Emitted} (h : ∀ i ∈ is, i.Sized) :
    (bytes is).length = extent is := by
  induction is with
  | nil => rfl
  | cons i is ih =>
    have hi := length_encode (h i List.mem_cons_self)
    have his := ih fun j hj => h j (List.mem_cons_of_mem _ hj)
    simp only [bytes, List.flatMap_cons, List.length_append, hi, extent_cons] at his ⊢
    omega

end Emitted

/-! ## The table of spans -/

/-- If the table begins with the entries at or before an offset, the last of them gives the span
there. -/
theorem Function.spanAt?_of_split {f : Function} {a b : List DebugSpan} {o : Nat} (hne : a ≠ [])
    (hf : f.debug = (a ++ b).toArray) (ha : ∀ d ∈ a, d.offset ≤ o) (hb : ∀ d ∈ b, o < d.offset) :
    f.spanAt? o = a.getLast?.map (·.span) := by
  let accept (i : Nat) : Bool := f.debug[i]?.any fun d => decide (d.offset ≤ o)
  have hpos : 0 < a.length := List.length_pos_iff.mpr hne
  have haccept : ∀ i, accept i = true ↔ i < a.length := by
    intro i
    simp only [accept, hf, List.getElem?_toArray]
    by_cases hi : i < a.length
    · rw [List.getElem?_append_left hi, List.getElem?_eq_getElem hi]
      simpa [hi] using ha _ (List.getElem_mem hi)
    · simp only [hi, iff_false, Bool.not_eq_true]
      rw [List.getElem?_append_right (by omega)]
      cases hget : b[i - a.length]? with
      | none => rfl
      | some d => simpa using hb d (List.mem_of_getElem? hget)
  have hlast : ∀ i, accept i = true ↔ i ≤ bisect accept 0 f.debug.size := by
    apply accept_iff_le_bisect accept 0 f.debug.size
    · intro i j hij hj
      rw [haccept] at hj ⊢
      omega
    · rwa [haccept]
    · intro i hi
      rw [hf, List.size_toArray, List.length_append] at hi
      have := haccept i
      by_contra hcon
      rw [Bool.not_eq_false, haccept] at hcon
      omega
  have hat : bisect accept 0 f.debug.size = a.length - 1 := by
    have hle := (hlast (a.length - 1)).mp ((haccept _).mpr (by omega))
    have hlt := (haccept _).mp ((hlast _).mpr (Nat.le_refl (bisect accept 0 f.debug.size)))
    omega
  have hget : f.debug[a.length - 1]? = a.getLast? := by
    rw [hf, List.getElem?_toArray, List.getElem?_append_left (by omega), List.getLast?_eq_getElem?]
  show (f.debug[bisect accept 0 f.debug.size]?.filter _).map _ = _
  rw [hat, hget]
  cases hcase : a.getLast? with
  | none => rfl
  | some d =>
    have := ha d (List.mem_of_getLast? hcase)
    simp [Option.filter, this]

/-! ## Code at an offset -/

/-- The instructions `seg` stand in the block of `f` from offset `o` on. -/
structure Function.HasAt (f : Function) (o : Nat) (seg : List Emitted) : Prop where
  block : ∃ before after,
    f.code = (Emitted.bytes (before ++ seg ++ after)).toArray ∧
    f.debug = (CodeBlock.debugFrom 0 none (before ++ seg ++ after)).toArray ∧
    (∀ i ∈ before ++ seg, i.Sized) ∧ Emitted.extent before = o

namespace Function.HasAt

variable {f : Function} {o : Nat} {a b seg : List Emitted} {i : Emitted}

theorem append (h : f.HasAt o (a ++ b)) : f.HasAt o a ∧ f.HasAt (o + Emitted.extent a) b := by
  obtain ⟨before, after, hcode, hdebug, hsized, hat⟩ := h.block
  constructor
  · refine ⟨before, b ++ after, by simpa using hcode, by simpa using hdebug, ?_, hat⟩
    intro j hj
    apply hsized j
    rcases List.mem_append.mp hj with hj | hj <;> simp [hj]
  · refine ⟨before ++ a, after, by simpa using hcode, by simpa using hdebug, ?_, by simp [hat]⟩
    simpa using hsized

theorem left (h : f.HasAt o (a ++ b)) : f.HasAt o a := h.append.1

theorem right (h : f.HasAt o (a ++ b)) : f.HasAt (o + Emitted.extent a) b := h.append.2

theorem head (h : f.HasAt o (i :: seg)) : f.HasAt o [i] := HasAt.left (b := seg) h

theorem tail (h : f.HasAt o (i :: seg)) : f.HasAt (o + i.opcode.length) seg :=
  HasAt.right (a := [i]) h

theorem sized (h : f.HasAt o [i]) : i.Sized := by
  obtain ⟨before, after, -, -, hsized, -⟩ := h.block
  exact hsized i (by simp)

/-- The opcode. -/
theorem byte (h : f.HasAt o [i]) : f.code[o]? = some i.opcode.toByte := by
  obtain ⟨before, after, hcode, -, hsized, hat⟩ := h.block
  have hlen := Emitted.length_bytes_of_sized fun j hj => hsized j (List.mem_append_left _ hj)
  rw [hat] at hlen
  simp only [Emitted.bytes] at hlen
  simp [hcode, Emitted.bytes, encode, ← hlen]

/-- The operands. -/
theorem operands (h : f.HasAt o [i]) : readOperands? i.opcode f.code (o + 1) = some i.read := by
  obtain ⟨before, after, hcode, -, hsized, hat⟩ := h.block
  have hlen := Emitted.length_bytes_of_sized fun j hj => hsized j (List.mem_append_left _ hj)
  rw [hat] at hlen
  have hread := operandsAt?_append (Emitted.bytes before ++ [i.opcode.toByte]) (Emitted.bytes after)
    i.opcode.widths_le h.sized
  rw [List.length_append, hlen, List.length_singleton] at hread
  rw [hcode]
  simpa [readOperands?, Emitted.bytes, encode, Emitted.read] using hread

/-- The span. -/
theorem span (h : f.HasAt o [i]) : f.spanAt? o = some i.span := by
  obtain ⟨before, after, -, hdebug, -, hat⟩ := h.block
  have hpos := i.opcode.length_pos
  have hlast : CodeBlock.lastSpan none (before ++ [i]) = some i.span := by
    rw [CodeBlock.lastSpan_append]
    rfl
  rw [CodeBlock.debugFrom_append] at hdebug
  rcases CodeBlock.getLast?_debugFrom 0 none (before ++ [i]) with ⟨hspan, hne⟩ | ⟨-, hspan⟩
  · rw [Function.spanAt?_of_split hne hdebug, hspan, hlast]
    · intro d hd
      rw [CodeBlock.debugFrom_append] at hd
      rcases List.mem_append.mp hd with hd | hd
      · have := CodeBlock.offset_of_mem_debugFrom hd
        omega
      · -- the table of a single instruction has one entry at most, at its offset
        simp only [CodeBlock.debugFrom] at hd
        split at hd
        · cases hd
        · rw [List.mem_singleton.mp hd, hat]
          exact Nat.le_of_eq (Nat.zero_add o)
    · intro d hd
      have hd := CodeBlock.offset_of_mem_debugFrom hd
      rw [Emitted.extent_append, hat] at hd
      simp only [Emitted.extent_cons] at hd
      omega
  · rw [hlast] at hspan
    cases hspan

end Function.HasAt

end ScriptMachine
