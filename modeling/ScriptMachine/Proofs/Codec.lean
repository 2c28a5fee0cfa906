import Mathlib.Algebra.Ring.Nat
import ScriptMachine.Proofs.Layout.Bytes

/-!
# Instructions and their bytes

A block of bytes and a list of instructions are two forms of the same thing, and which blocks have a second form is
said without decoding.

1. **Contiguous instructions**: each instruction stands where the one before it ends, and its operands fit their
   widths.
2. **Walks**: from offset zero, and from instruction to instruction by their lengths. A walk ends at the end of the
   block, or at an offset from which no instruction can be read.
3. **Decoding**: it follows the walk. It answers contiguous instructions that assemble to the block, and to no other
   block, or the fault at the end of the walk (`decode_inverts_assemble`).
-/

namespace ScriptMachine

open Point

/-! ## Contiguous instructions -/

/-- As many operands as the opcode has widths, each below the bound that its width sets. -/
def Instruction.Fits (i : Instruction) : Prop := List.Forall₂ (fun w n => n < 256 ^ w) i.opcode.widths i.operands

instance (i : Instruction) : Decidable i.Fits := inferInstanceAs (Decidable (List.Forall₂ _ _ _))

/-- Each instruction stands at the offset that follows the one before; the first one stands at `o`, and the last one
ends at `stop`. -/
def Contiguous (o : Nat) : List Instruction → Nat → Prop
  | [], stop => o = stop
  | i :: is, stop => i.offset = o ∧ Contiguous i.next is stop

instance decidableContiguous (o : Nat) : (is : List Instruction) → (stop : Nat) → Decidable (Contiguous o is stop)
  | [], stop => inferInstanceAs (Decidable (o = stop))
  | i :: is, stop =>
    have := decidableContiguous i.next is stop
    inferInstanceAs (Decidable (_ ∧ _))

/-- The instruction as a point of a block, with nothing around it. -/
def Instruction.point (i : Instruction) : Point :=
  ⟨i.offset, ⟨i.opcode, i.operands, .dummy⟩, [], 0, .nothing, none⟩

section

variable {is : List Instruction} {o stop : Nat}

/-- An operand that fits its width is not cut. -/
theorem cut_of_lt {w n : Nat} (hw : w = 1 ∨ w = 2) (h : n < 256 ^ w) : Emitted.cut w n = n := by
  rcases hw with rfl | rfl
  · exact Nat.mod_eq_of_lt h
  · exact Nat.mod_eq_of_lt h

theorem Instruction.Fits.length_eq {i : Instruction} (h : i.Fits) : i.operands.length = i.opcode.widths.length :=
  (List.Forall₂.length_eq h).symm

/-- Operands that fit are read as they were written. -/
theorem zipWith_cut {ws ns : List Nat} (hws : ∀ w ∈ ws, w = 1 ∨ w = 2)
    (h : List.Forall₂ (fun w n => n < 256 ^ w) ws ns) : List.zipWith Emitted.cut ws ns = ns := by
  induction h with
  | nil => rfl
  | cons hn _ ih =>
    have hhead := cut_of_lt (hws _ List.mem_cons_self) hn
    have htail := ih fun w hw => hws w (List.mem_cons_of_mem _ hw)
    rw [List.zipWith_cons_cons, hhead, htail]

theorem Instruction.Fits.read_eq {i : Instruction} (h : i.Fits) : i.point.instruction = i := by
  have hread : i.point.item.read = i.operands := zipWith_cut i.opcode.widths_le h
  show (⟨i.offset, i.opcode, i.point.item.read⟩ : Instruction) = i
  rw [hread]

theorem Contiguous.neat (h : Contiguous o is stop) (hfits : ∀ i ∈ is, i.Fits) :
    Neat o (is.map Instruction.point) := by
  induction is generalizing o with
  | nil => exact neat_nil o
  | cons i is ih =>
    rcases h with ⟨hoffset, hrest⟩
    have hrest := ih hrest fun j hj => hfits j (List.mem_cons_of_mem _ hj)
    refine ⟨hoffset, (hfits i List.mem_cons_self).length_eq, ?_⟩
    rw [← hoffset]
    exact hrest

theorem bytes_map_point : bytes (is.map Instruction.point) = assemble is := List.flatMap_map ..

/-- What was assembled decodes to the instructions that it was assembled from. -/
theorem Contiguous.decode_assemble (h : Contiguous 0 is stop) (hfits : ∀ i ∈ is, i.Fits) :
    decode (assemble is).toArray = .ok is := by
  have hdecode := decodeFrom_bytes [] (is.map Instruction.point) (h.neat hfits) []
  have hsame : is.map (Point.instruction ∘ Instruction.point) = is :=
    (List.map_congr_left fun i hi => (hfits i hi).read_eq).trans (List.map_id is)
  rw [List.nil_append, bytes_map_point, List.map_map, hsame] at hdecode
  exact hdecode

end

/-! ## Operands in a block

An operand is there if the block does not end before it, and then it is the one that its bytes encode. -/

section

variable {code : Array UInt8} {pos w n : Nat} {ws ns : List Nat}

/-- The bytes from an offset on are the byte there, if there is one, and the bytes that follow. -/
theorem drop_eq_cons {b : UInt8} (h : code[pos]? = some b) :
    code.toList.drop pos = b :: code.toList.drop (pos + 1) := by
  have hlt := (Array.getElem?_eq_some_iff.mp h).1
  rw [← Array.getElem?_toList] at h
  rw [List.drop_eq_getElem_cons (by simpa using hlt), (List.getElem?_eq_some_iff.mp h).2]

theorem operandAt?_isSome (hw : w = 1 ∨ w = 2) : (operandAt? code pos w).isSome ↔ pos + w ≤ code.size := by
  rcases hw with rfl | rfl
  · simp [operandAt?, Nat.succ_le_iff]
  · by_cases h : pos + 1 < code.size
    · have h' : pos < code.size := by omega
      simp [operandAt?, h, h', Nat.succ_le_iff]
    · have hnone : code[pos + 1]? = none := Array.getElem?_eq_none (by omega)
      simp only [operandAt?, hnone]
      simp
      omega

/-- An operand that is read fits its width, and its bytes are those that it was read from. -/
theorem operandAt?_bytes (hw : w = 1 ∨ w = 2) (h : operandAt? code pos w = some n) :
    n < 256 ^ w ∧ operandBytes w n ++ code.toList.drop (pos + w) = code.toList.drop pos := by
  rcases hw with rfl | rfl
  · have h : code[pos]?.map UInt8.toNat = some n := h
    rcases Option.map_eq_some_iff.mp h with ⟨b, hb, rfl⟩
    constructor
    · simpa using b.toNat_lt
    · rw [drop_eq_cons hb]
      simp [operandBytes]
  · cases hhi : code[pos]? with
    | none => simp [operandAt?, hhi] at h
    | some hi =>
      cases hlo : code[pos + 1]? with
      | none => simp [operandAt?, hhi, hlo] at h
      | some lo =>
        simp only [operandAt?, hhi, hlo] at h
        have h : hi.toNat * 256 + lo.toNat = n := by simpa using h
        have hhi' := hi.toNat_lt
        have hlo' := lo.toNat_lt
        have hdiv : n / 256 = hi.toNat := by omega
        have hlow : n.toUInt8 = lo := by
          apply UInt8.toNat_inj.mp
          simp
          omega
        constructor
        · omega
        · rw [drop_eq_cons hhi, drop_eq_cons hlo]
          simp [operandBytes, hdiv, hlow]

theorem operandsAt?_isSome (hws : ∀ w ∈ ws, w = 1 ∨ w = 2) (hpos : pos ≤ code.size) :
    (operandsAt? code pos ws).isSome ↔ pos + ws.foldr (· + ·) 0 ≤ code.size := by
  induction ws generalizing pos with
  | nil => simpa [operandsAt?] using hpos
  | cons w ws ih =>
    have hhead : (operandAt? code pos w).isSome ↔ pos + w ≤ code.size :=
      operandAt?_isSome (hws w List.mem_cons_self)
    cases hread : operandAt? code pos w with
    | none =>
      rw [hread] at hhead
      simp only [operandsAt?, hread, List.foldr_cons]
      simp at hhead ⊢
      omega
    | some n =>
      rw [hread] at hhead
      have hfit : pos + w ≤ code.size := hhead.mp rfl
      have ih := ih (fun v hv => hws v (List.mem_cons_of_mem _ hv)) hfit
      simp only [operandsAt?, hread, Option.isSome_map, ih, List.foldr_cons]
      omega

theorem operandsAt?_bytes (hws : ∀ w ∈ ws, w = 1 ∨ w = 2) (h : operandsAt? code pos ws = some ns) :
    List.Forall₂ (fun w n => n < 256 ^ w) ws ns ∧
      encodeOperands ws ns ++ code.toList.drop (pos + ws.foldr (· + ·) 0) = code.toList.drop pos := by
  induction ws generalizing pos ns with
  | nil =>
    cases h
    exact ⟨.nil, by simp [encodeOperands]⟩
  | cons w ws ih =>
    cases hread : operandAt? code pos w with
    | none => simp [operandsAt?, hread] at h
    | some n =>
      simp only [operandsAt?, hread] at h
      rcases Option.map_eq_some_iff.mp h with ⟨ms, hrest, rfl⟩
      rcases operandAt?_bytes (hws w List.mem_cons_self) hread with ⟨hn, hbytes⟩
      rcases ih (fun v hv => hws v (List.mem_cons_of_mem _ hv)) hrest with ⟨hms, hothers⟩
      constructor
      · exact .cons hn hms
      · rw [encodeOperands, List.append_assoc, List.foldr_cons, ← Nat.add_assoc, hothers, hbytes]

/-- The operands of an instruction are there if the block does not end inside the instruction. -/
theorem readOperands?_isSome {op : Opcode} {o : Nat} (h : o < code.size) :
    (readOperands? op code (o + 1)).isSome ↔ o + op.length ≤ code.size := by
  rw [readOperands?, operandsAt?_isSome op.widths_le h, Opcode.length]
  omega

theorem readOperands?_eq_none {op : Opcode} {o : Nat} (h : o < code.size) :
    readOperands? op code (o + 1) = none ↔ code.size < o + op.length := by
  rw [← Option.not_isSome_iff_eq_none, readOperands?_isSome h]
  omega

end

/-! ## Walks -/

/-- The offsets that are reached from the start of the block, from instruction to instruction by their lengths. -/
inductive Walks (code : Array UInt8) : Nat → Prop
  | start : Walks code 0
  | next {o : Nat} {op : Opcode} : Walks code o → code[o]? = some op.toByte → o + op.length ≤ code.size →
      Walks code (o + op.length)

namespace DecodeError

/-- Where the fault is. -/
def offset : DecodeError → Nat
  | .unknownOpcode _ o => o
  | .truncated _ o => o

/-- What is wrong in the block at the offset of the fault: the byte there is no opcode, or it is one and the block
ends inside its instruction. -/
def Stands (code : Array UInt8) : DecodeError → Prop
  | .unknownOpcode b o => code[o]? = some b ∧ Opcode.ofByte? b = none
  | .truncated op o => code[o]? = some op.toByte ∧ code.size < o + op.length

/-- The walk through the block ends at the offset of the fault. -/
def Arises (code : Array UInt8) (e : DecodeError) : Prop := Walks code e.offset ∧ e.Stands code

end DecodeError

section

variable {code : Array UInt8} {o : Nat} {is done : List Instruction} {e : DecodeError}

theorem Walks.le_size (h : Walks code o) : o ≤ code.size := by
  cases h with
  | start => exact Nat.zero_le _
  | next _ _ hfit => exact hfit

/-! ### What one step of decoding does -/

/-- At the end of the block decoding answers what it has. -/
theorem decodeFrom_size (done : List Instruction) : decodeFrom code code.size done = .ok done.reverse := by
  rw [decodeFrom, dif_neg (Nat.lt_irrefl _)]

/-- Before the end decoding meets a fault, or it goes on behind an instruction of which the bytes there are the code. -/
theorem decodeFrom_cases (h : o < code.size) (done : List Instruction) :
    (∃ e : DecodeError, e.offset = o ∧ e.Stands code ∧ decodeFrom code o done = .error e) ∨
      ∃ i : Instruction, i.offset = o ∧ i.Fits ∧ code[o]? = some i.opcode.toByte ∧ i.next ≤ code.size ∧
        encode i.opcode i.operands ++ code.toList.drop i.next = code.toList.drop o ∧
        decodeFrom code o done = decodeFrom code i.next (i :: done) := by
  have hbyte : code[o]? = some code[o] := Array.getElem?_eq_getElem h
  cases hop : Opcode.ofByte? code[o] with
  | none =>
    refine .inl ⟨.unknownOpcode code[o] o, rfl, ⟨hbyte, hop⟩, ?_⟩
    rw [decodeFrom, dif_pos h]
    simp only [hop]
  | some op =>
    rw [← Opcode.toByte_of_ofByte? hop] at hbyte
    cases hread : readOperands? op code (o + 1) with
    | none =>
      refine .inl ⟨.truncated op o, rfl, ⟨hbyte, (readOperands?_eq_none h).mp hread⟩, ?_⟩
      rw [decodeFrom, dif_pos h]
      simp only [hop, hread]
    | some ns =>
      rcases operandsAt?_bytes op.widths_le hread with ⟨hfits, hbytes⟩
      refine .inr ⟨⟨o, op, ns⟩, rfl, hfits, hbyte, ?_, ?_, ?_⟩
      · exact (readOperands?_isSome h).mp (Option.isSome_of_eq_some hread)
      · rw [drop_eq_cons hbyte, ← hbytes]
        simp [encode, Instruction.next, Opcode.length, Nat.add_assoc]
      · rw [decodeFrom, dif_pos h]
        simp only [hop, hread]
        rfl

/-- Where there is an opcode and a fault stands, the block ends inside the instruction. -/
theorem DecodeError.Stands.size_lt {op : Opcode} (h : e.Stands code) (hop : code[e.offset]? = some op.toByte) :
    code.size < e.offset + op.length := by
  cases e with
  | unknownOpcode b o =>
    rcases h with ⟨hbyte, hnone⟩
    rw [← Option.some.inj (hop.symm.trans hbyte), Opcode.ofByte?_toByte] at hnone
    cases hnone
  | truncated op' o =>
    rcases h with ⟨hbyte, hsize⟩
    rw [Opcode.toByte_inj (Option.some.inj (hop.symm.trans hbyte))]
    exact hsize

/-- A fault stands at the offset at which decoding has arrived, so this is where it ends. -/
theorem DecodeError.Stands.decodeFrom_eq (h : e.Stands code) (done : List Instruction) :
    decodeFrom code e.offset done = .error e := by
  cases e with
  | unknownOpcode b o =>
    rcases h with ⟨hbyte, hop⟩
    rcases Array.getElem?_eq_some_iff.mp hbyte with ⟨hlt, rfl⟩
    show decodeFrom code o done = _
    rw [decodeFrom, dif_pos hlt]
    simp only [hop]
  | truncated op o =>
    rcases h with ⟨hbyte, hsize⟩
    rcases Array.getElem?_eq_some_iff.mp hbyte with ⟨hlt, heq⟩
    show decodeFrom code o done = _
    rw [decodeFrom, dif_pos hlt]
    simp only [heq, Opcode.ofByte?_toByte, (readOperands?_eq_none hlt).mpr hsize]

/-! ### What a whole run of decoding does -/

/-- Decoding follows the walk: wherever the walk arrives, decoding arrives with some instructions. -/
theorem Walks.decode_eq (h : Walks code o) : ∃ done, decode code = decodeFrom code o done := by
  induction h with
  | start => exact ⟨[], rfl⟩
  | @next o op _ hbyte hfit ih =>
    rcases ih with ⟨done, hdone⟩
    rcases Array.getElem?_eq_some_iff.mp hbyte with ⟨hlt, -⟩
    rcases decodeFrom_cases hlt done with ⟨e, rfl, hstands, -⟩ | ⟨i, rfl, -, hbyte', -, -, hgoes⟩
    · -- the instruction that the walk has taken ends in the block
      exact absurd hfit (Nat.not_le.mpr (hstands.size_lt hbyte))
    · cases Opcode.toByte_inj (Option.some.inj (hbyte.symm.trans hbyte'))
      exact ⟨i :: done, hdone.trans hgoes⟩

/-- From an offset on the walk decoding answers contiguous instructions whose code is the rest of the block, or a fault
further on. -/
theorem Walks.decodes_rest {o : Nat} (h : Walks code o) (done : List Instruction) :
    (∃ e : DecodeError, e.Arises code ∧ decodeFrom code o done = .error e) ∨
      ∃ rest, Contiguous o rest code.size ∧ (∀ i ∈ rest, i.Fits) ∧ assemble rest = code.toList.drop o ∧
        decodeFrom code o done = .ok (done.reverse ++ rest) := by
  by_cases hlt : o < code.size
  · rcases decodeFrom_cases hlt done with
      ⟨e, rfl, hstands, heq⟩ | ⟨i, rfl, hfits, hbyte, hnext, hbytes, heq⟩
    · exact .inl ⟨e, ⟨h, hstands⟩, heq⟩
    · rw [heq]
      have hshorter : code.size - i.next < code.size - i.offset := by
        have := i.opcode.length_pos
        simp only [Instruction.next] at *
        omega
      have hwalks : Walks code i.next := h.next hbyte hnext
      have ih := Walks.decodes_rest hwalks (i :: done)
      rcases ih with hfault | ⟨rest, hrest, hall, hcode, heq⟩
      · exact .inl hfault
      · refine .inr ⟨i :: rest, ⟨rfl, hrest⟩, ?_, ?_, ?_⟩
        · intro j hj
          rcases List.mem_cons.mp hj with rfl | hj
          · exact hfits
          · exact hall j hj
        · rw [← hbytes, ← hcode]
          rfl
        · rw [heq]
          simp
  · have hend : o = code.size := Nat.le_antisymm h.le_size (Nat.not_lt.mp hlt)
    subst hend
    refine .inr ⟨[], rfl, by simp, by simp [assemble], ?_⟩
    rw [decodeFrom_size, List.append_nil]
termination_by code.size - o

/-- Decoding inverts assembling, and assembling inverts decoding: what a block decodes to is contiguous instructions
that assemble to the block, contiguous instructions are what their block decodes to, and a block decodes to nothing
exactly if the walk through it ends at a fault, which is the one that is reported. -/
theorem decode_inverts_assemble :
    (∀ code is, decode code = .ok is →
      assemble is = code.toList ∧ (∀ i ∈ is, i.Fits) ∧ Contiguous 0 is code.size) ∧
    (∀ is stop, (∀ i ∈ is, i.Fits) → Contiguous 0 is stop → decode (assemble is).toArray = .ok is) ∧
    ∀ code e, decode code = .error e ↔ e.Arises code := by
  refine ⟨fun code is h => ?_, fun is stop hfits h => h.decode_assemble hfits, fun code e => ⟨fun h => ?_, fun h => ?_⟩⟩
  · rcases (Walks.start : Walks code 0).decodes_rest [] with ⟨e, -, heq⟩ | ⟨rest, hcontiguous, hfits, hcode, heq⟩
    · cases h.symm.trans heq
    · cases h.symm.trans heq
      exact ⟨hcode, hfits, hcontiguous⟩
  · rcases (Walks.start : Walks code 0).decodes_rest [] with ⟨e', harises, heq⟩ | ⟨rest, -, -, -, heq⟩
    · cases h.symm.trans heq
      exact harises
    · cases h.symm.trans heq
  · rcases h with ⟨hwalks, hstands⟩
    rcases hwalks.decode_eq with ⟨done, hdone⟩
    rw [hdone]
    exact hstands.decodeFrom_eq done

/-- A constant that is loaded and dropped before the program ends. -/
def loadAndHalt : List Instruction := [⟨0, .constant, [0x0105]⟩, ⟨3, .pop, []⟩, ⟨4, .halt, []⟩]

/-- The three instructions are what their five bytes decode to, and with the last two bytes of the constant missing
decoding stops behind the first instruction. -/
theorem loadAndHalt_decodes : (∀ i ∈ loadAndHalt, i.Fits) ∧ Contiguous 0 loadAndHalt 5 ∧
    decode #[0x01, 0x01, 0x05, 0x80, 0xFF] = .ok loadAndHalt ∧
    assemble loadAndHalt = [0x01, 0x01, 0x05, 0x80, 0xFF] ∧
    decode #[0x80, 0x01, 0x01] = .error (.truncated .constant 1) := by
  have hfits : ∀ i ∈ loadAndHalt, i.Fits := by decide
  have hcontiguous : Contiguous 0 loadAndHalt 5 := by decide
  have hdecode := decode_inverts_assemble.2.1 loadAndHalt 5 hfits hcontiguous
  have hpop : (#[0x80, 0x01, 0x01] : Array UInt8)[0]? = some Opcode.pop.toByte := rfl
  have hwalks : Walks #[0x80, 0x01, 0x01] 1 := Walks.start.next hpop (by decide)
  have hfault := (decode_inverts_assemble.2.2 #[0x80, 0x01, 0x01] (.truncated .constant 1)).mpr
    ⟨hwalks, rfl, by decide⟩
  exact ⟨hfits, hcontiguous, hdecode, (decode_inverts_assemble.1 _ _ hdecode).1, hfault⟩

end

end ScriptMachine
