import Mathlib.Algebra.Ring.Nat
import ScriptMachine.Native.Prelude
import ScriptMachine.Proofs.Expression.Compile
import ScriptMachine.Value.Arithmetic
import ScriptMachine.Word

/-!
# Characters by byte

An index into a string counts bytes. What stands there is the character that starts at that byte, and
nothing inside a character or outside of the string:

* `charAtByte?_eq_some_iff` says which character that is;
* `filterMap_charAtByte?` says that from the first byte to the last each character is met once.

The result is `Heap.items_cover`, about the items of a string, the instruction that reads them, the
length that the prelude reports, and the text that all items together make up again.
-/

namespace ScriptMachine

/-! ## The character at a byte -/

theorem utf8ByteSize_ofList_cons (c : Char) (cs : List Char) :
    (String.ofList (c :: cs)).utf8ByteSize = c.utf8Size + (String.ofList cs).utf8ByteSize := by
  rw [String.ofList_cons, String.utf8ByteSize_append, String.utf8ByteSize_singleton]

theorem charAtByte?_eq_some_iff {cs : List Char} {n : Nat} {c : Char} :
    charAtByte? cs n = some c ↔
      ∃ before after, cs = before ++ c :: after ∧ (String.ofList before).utf8ByteSize = n := by
  induction cs generalizing n with
  | nil => simp [charAtByte?]
  | cons d cs ih =>
    have hpos := d.utf8Size_pos
    simp only [charAtByte?, beq_iff_eq]
    constructor
    · intro h
      split at h
      · next hzero =>
        obtain rfl := Option.some.inj h
        exact ⟨[], cs, rfl, hzero.symm⟩
      · split at h
        · cases h
        · obtain ⟨before, after, rfl, hlen⟩ := ih.mp h
          refine ⟨d :: before, after, rfl, ?_⟩
          rw [utf8ByteSize_ofList_cons]
          omega
    · rintro ⟨before, after, hcs, rfl⟩
      cases before with
      | nil =>
        obtain ⟨rfl, -⟩ := List.cons.inj hcs
        simp
      | cons d' before =>
        obtain ⟨rfl, htail⟩ := List.cons.inj hcs
        rw [utf8ByteSize_ofList_cons, if_neg (by omega), if_neg (by omega), Nat.add_sub_cancel_left]
        exact ih.mpr ⟨before, after, htail, rfl⟩

/-- Nothing starts inside the first character. -/
theorem charAtByte?_inside {c : Char} {n : Nat} (cs : List Char) (hpos : 0 < n) (hlt : n < c.utf8Size) :
    charAtByte? (c :: cs) n = none := by
  rw [charAtByte?, if_neg (by simpa using Nat.ne_of_gt hpos), if_pos hlt]

/-- Behind the first character the others are found. -/
theorem charAtByte?_behind (c : Char) (cs : List Char) (n : Nat) :
    charAtByte? (c :: cs) (c.utf8Size + n) = charAtByte? cs n := by
  have hpos := c.utf8Size_pos
  rw [charAtByte?, if_neg (by simp; omega), if_neg (by omega), Nat.add_sub_cancel_left]

/-- The characters that start at the bytes of a text are those of the text, each of them once and in
their order. -/
theorem filterMap_charAtByte? (cs : List Char) :
    (List.range (String.ofList cs).utf8ByteSize).filterMap (charAtByte? cs) = cs := by
  induction cs with
  | nil => rfl
  | cons c cs ih =>
    have hpos := c.utf8Size_pos
    have hfirst : (List.range c.utf8Size).filterMap (charAtByte? (c :: cs)) = [c] := by
      obtain ⟨k, hk⟩ : ∃ k, c.utf8Size = k + 1 := ⟨c.utf8Size - 1, by omega⟩
      have hinside : (List.range k).filterMap (fun n => charAtByte? (c :: cs) (n + 1)) = [] := by
        rw [List.filterMap_eq_nil_iff]
        intro n hn
        exact charAtByte?_inside cs (Nat.succ_pos n) (by rw [List.mem_range] at hn; omega)
      rw [hk, List.range_succ_eq_map, List.filterMap_cons, List.filterMap_map]
      exact congrArg (c :: ·) hinside
    have hrest : (charAtByte? (c :: cs)) ∘ (c.utf8Size + ·) = charAtByte? cs :=
      funext (charAtByte?_behind c cs)
    rw [utf8ByteSize_ofList_cons, List.range_add, List.filterMap_append, List.filterMap_map,
      hfirst, hrest, ih]
    rfl

/-! ## Items of a string -/

/-- A character starts at byte `n`, which is inside the string and a boundary of characters. -/
def StartsCharacter (s : String) (n : Nat) : Prop :=
  n < s.utf8ByteSize ∧ String.Pos.Raw.IsValid s ⟨n⟩

theorem startsCharacter_iff {s : String} {n : Nat} :
    StartsCharacter s n ↔ ∃ c, charAtByte? s.toList n = some c := by
  constructor
  · rintro ⟨hlt, hvalid⟩
    obtain ⟨before, after, rfl, hpos⟩ := String.Pos.Raw.isValid_iff_exists_append.mp hvalid
    obtain rfl : n = before.utf8ByteSize := congrArg String.Pos.Raw.byteIdx hpos
    rw [String.utf8ByteSize_append] at hlt
    cases hafter : after.toList with
    | nil =>
      obtain rfl : after = "" := String.toList_eq_nil_iff.mp hafter
      simp at hlt
    | cons c rest =>
      exact ⟨c, charAtByte?_eq_some_iff.mpr
        ⟨before.toList, rest, by rw [String.toList_append, hafter], by rw [String.ofList_toList]⟩⟩
  · rintro ⟨c, hc⟩
    obtain ⟨before, after, hs, rfl⟩ := charAtByte?_eq_some_iff.mp hc
    have hs : s = String.ofList before ++ String.ofList (c :: after) := by
      rw [← String.ofList_append, ← hs, String.ofList_toList]
    have hpos := c.utf8Size_pos
    refine ⟨?_, String.Pos.Raw.isValid_iff_exists_append.mpr ⟨_, _, hs, rfl⟩⟩
    rw [hs, String.utf8ByteSize_append, utf8ByteSize_ofList_cons]
    omega

namespace Heap

/-- An item is the character that starts at a byte, by itself. -/
theorem stringItem_of_starts {s : String} {i : Int64} (hpos : 0 ≤ i.toInt)
    (hstarts : StartsCharacter s i.toInt.toNat) :
    ∃ before c after, s = before ++ String.singleton c ++ after ∧
      before.utf8ByteSize = i.toInt.toNat ∧ stringItem s i = .str (String.singleton c) := by
  obtain ⟨c, hc⟩ := startsCharacter_iff.mp hstarts
  obtain ⟨before, after, hs, hsize⟩ := charAtByte?_eq_some_iff.mp hc
  refine ⟨.ofList before, c, .ofList after, ?_, hsize, ?_⟩
  · rw [String.append_assoc, ← String.ofList_cons, ← String.ofList_append, ← hs, String.ofList_toList]
  · have hnonneg : ¬ i < 0 := by
      rw [Int64.lt_iff_toInt_lt]
      simpa using hpos
    rw [stringItem, if_neg hnonneg, hc]

/-- There is no item anywhere else. -/
theorem stringItem_of_not_starts {s : String} {i : Int64}
    (h : ¬ (0 ≤ i.toInt ∧ StartsCharacter s i.toInt.toNat)) : stringItem s i = .null := by
  rw [stringItem]
  split
  · rfl
  · next hnonneg =>
    have hpos : 0 ≤ i.toInt := by
      rw [Int64.lt_iff_toInt_lt] at hnonneg
      simpa using hnonneg
    split
    · next c hc => exact absurd ⟨hpos, startsCharacter_iff.mpr ⟨c, hc⟩⟩ h
    · rfl

/-- At the number of a byte. -/
theorem stringItem_ofNat (s : String) {n : Nat} (hn : n < 2 ^ 63) :
    stringItem s (Int64.ofNat n) =
      (charAtByte? s.toList n).elim .null fun c => .str (String.singleton c) := by
  have htoInt := Int64.toInt_ofNat_of_lt hn
  have hnonneg : ¬ Int64.ofNat n < 0 := by
    rw [Int64.lt_iff_toInt_lt, htoInt]
    simp
  rw [stringItem, if_neg hnonneg, htoInt, Int.toNat_natCast]
  cases charAtByte? s.toList n <;> rfl

/-- The items of a string at the first `n` bytes, put together with `+`; those that are null are left
out. -/
def gatherItems (h : Heap) (s : String) : Nat → Except Cause Value
  | 0 => .ok (.str "")
  | n + 1 => do
    let sum ← h.gatherItems s n
    match ← h.getItem (.str s) (.int (Int64.ofNat n)) with
    | .null => return sum
    | item => BinaryOp.add.apply h sum item

theorem gatherItems_eq (h : Heap) (s : String) {n : Nat} (hn : n ≤ 2 ^ 63) :
    h.gatherItems s n = .ok (.str (.ofList ((List.range n).filterMap (charAtByte? s.toList)))) := by
  induction n with
  | zero => rfl
  | succ n ih =>
    have hitem : h.getItem (.str s) (.int (Int64.ofNat n)) = .ok (stringItem s (Int64.ofNat n)) := rfl
    rw [gatherItems, ih (by omega), hitem, stringItem_ofNat s (by omega), List.range_succ,
      List.filterMap_append, List.filterMap_cons, List.filterMap_nil]
    cases charAtByte? s.toList n with
    | none =>
      rw [List.append_nil]
      rfl
    | some c =>
      rw [String.ofList_append]
      rfl

/-! ## Results -/

variable {C : Stage} {ip : Nat} {vs : List Value} {span : Span}

/-- The instruction that reads an item of a string pushes it and never faults. -/
theorem goes_stringItem (s : String) (i : Int64)
    (hi : C.frame.closure.function.HasAt ip [⟨.getIndex, [], span⟩]) (hroom : C.HasRoom vs) :
    C.Goes ip (vs ++ [.str s] ++ [.int i]) (ip + 1) (vs ++ [stringItem s i]) :=
  fun st t ht => Stage.carries_getIndex hi hroom st t ht

/-- An item of a string is the character that starts at a byte, by itself, and null where none starts;
the instruction pushes it. The length that the prelude reports (no string of a machine is longer than a
signed word counts) is the number of bytes, and the items at all of them put together are the string. -/
theorem items_cover (h : Heap) (s : String) :
    (∀ i : Int64,
      h.getItem (.str s) (.int i) = .ok (stringItem s i) ∧
      (0 ≤ i.toInt ∧ StartsCharacter s i.toInt.toNat →
        ∃ before c after, s = before ++ String.singleton c ++ after ∧
          before.utf8ByteSize = i.toInt.toNat ∧ stringItem s i = .str (String.singleton c)) ∧
      (¬ (0 ≤ i.toInt ∧ StartsCharacter s i.toInt.toNat) → stringItem s i = .null)) ∧
    (∀ (C : Stage) (ip : Nat) (span : Span) (vs : List Value) (i : Int64),
      C.frame.closure.function.HasAt ip [⟨.getIndex, [], span⟩] → C.HasRoom vs →
        C.Goes ip (vs ++ [.str s] ++ [.int i]) (ip + 1) (vs ++ [stringItem s i])) ∧
    (s.utf8ByteSize < 2 ^ 63 →
      ∃ n : Int64, Prelude.len.call h [.str s] = (.value (.int n), h) ∧
        n.toInt = s.utf8ByteSize ∧ h.gatherItems s n.toInt.toNat = .ok (.str s)) := by
  refine ⟨fun i => ⟨rfl, fun hi => stringItem_of_starts hi.1 hi.2, stringItem_of_not_starts⟩,
    fun C ip span vs i hi hroom => goes_stringItem s i hi hroom, fun hsize => ?_⟩
  have hn := Int64.toInt_ofNat_of_lt hsize
  refine ⟨Int64.ofNat s.utf8ByteSize, rfl, hn, ?_⟩
  have hall := filterMap_charAtByte? s.toList
  rw [String.ofList_toList] at hall
  rw [hn, Int.toNat_natCast, gatherItems_eq h s (Nat.le_of_lt hsize), hall, String.ofList_toList]

/-- A machine before the instruction that reads an item. -/
def itemStage : Stage := .atBlock #[] [⟨.getIndex, [], .dummy⟩] 2

/-- `é` has the bytes 1 and 2. -/
theorem accented_items_cover :
    (StartsCharacter "hé" (1 : Int64).toInt.toNat ∧
      ∃ before c after, "hé" = before ++ String.singleton c ++ after ∧
        before.utf8ByteSize = 1 ∧ stringItem "hé" 1 = .str (String.singleton c)) ∧
    (¬ StartsCharacter "hé" (2 : Int64).toInt.toNat ∧ stringItem "hé" 2 = .null) ∧
    itemStage.Goes 0 [.str "hé", .int 1] 1 [stringItem "hé" 1] ∧
    "hé".utf8ByteSize < 2 ^ 63 ∧
      ∃ n : Int64, Prelude.len.call .empty [.str "hé"] = (.value (.int n), .empty) ∧
        n.toInt = "hé".utf8ByteSize ∧ Heap.empty.gatherItems "hé" n.toInt.toNat = .ok (.str "hé") := by
  obtain ⟨hitems, hgoes, hlen⟩ := items_cover .empty "hé"
  have hstarts : StartsCharacter "hé" (1 : Int64).toInt.toNat :=
    startsCharacter_iff.mpr ⟨'é', by decide⟩
  have hinside : ¬ StartsCharacter "hé" (2 : Int64).toInt.toNat := by
    rw [startsCharacter_iff, show charAtByte? "hé".toList (2 : Int64).toInt.toNat = none by decide]
    simp
  have hat : itemStage.frame.closure.function.HasAt 0 [⟨.getIndex, [], .dummy⟩] :=
    Stage.hasAt_atBlock (by simp [Emitted.Sized, Opcode.widths])
  exact ⟨⟨hstarts, (hitems 1).2.1 ⟨by decide, hstarts⟩⟩,
    ⟨hinside, (hitems 2).2.2 fun h => hinside h.2⟩,
    hgoes itemStage 0 .dummy [] 1 hat (by decide : 0 < 2), by decide, hlen (by decide)⟩

end Heap

end ScriptMachine
