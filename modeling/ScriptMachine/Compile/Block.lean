import ScriptMachine.Code.Function

/-!
# Blocks under construction

A block is a list of instructions, each with the span of the node it was emitted for. Jumps are
emitted with a placeholder and get their target once it is known. The run-length table of spans grows
with the block: an instruction opens an entry if its span is not that of the instruction before, and
when a `pop` at the end is dropped the entries at its offset go with it. Bytes are made when the block
is finished.

The length of a block and its table are determined by the instructions (`CodeBlock.size_eq`,
`CodeBlock.spans_eq`), whatever was dropped, patched or replaced on the way.
-/

namespace ScriptMachine

/-- An instruction of a block under construction. -/
structure Emitted where
  opcode : Opcode
  operands : List Nat
  span : Span
deriving DecidableEq, Repr, Inhabited

namespace Emitted

/-- Length of instructions in bytes. -/
def extent : List Emitted → Nat
  | [] => 0
  | i :: is => i.opcode.length + extent is

@[simp] theorem extent_nil : extent [] = 0 := rfl

@[simp] theorem extent_cons (i : Emitted) (is : List Emitted) :
    extent (i :: is) = i.opcode.length + extent is := rfl

@[simp] theorem extent_append (a b : List Emitted) : extent (a ++ b) = extent a + extent b := by
  induction a with
  | nil => simp
  | cons i a ih => simp [ih, Nat.add_assoc]

/-- What the table of spans takes from an instruction. -/
def mark (i : Emitted) : Nat × Span := (i.opcode.length, i.span)

theorem extent_congr {a b : List Emitted} (h : a.map mark = b.map mark) : extent a = extent b := by
  induction a generalizing b with
  | nil =>
    cases b with
    | nil => rfl
    | cons j b => cases h
  | cons i a ih =>
    cases b with
    | nil => cases h
    | cons j b =>
      simp only [List.map_cons, List.cons.injEq, mark, Prod.mk.injEq] at h
      rw [extent_cons, extent_cons, h.1.1, ih h.2]

end Emitted

/-! ## The table of spans -/

namespace CodeBlock

/-- One entry for each run of instructions with the same span. -/
def debugFrom (offset : Nat) (last : Option Span) : List Emitted → List DebugSpan
  | [] => []
  | i :: rest =>
    let tail := debugFrom (offset + i.opcode.length) (some i.span) rest
    if last = some i.span then tail else ⟨offset, i.span⟩ :: tail

/-- The span of the last instruction, or the one before all of them. -/
def lastSpan (last : Option Span) : List Emitted → Option Span
  | [] => last
  | i :: is => lastSpan (some i.span) is

theorem lastSpan_append (last : Option Span) (a b : List Emitted) :
    lastSpan last (a ++ b) = lastSpan (lastSpan last a) b := by
  induction a generalizing last with
  | nil => rfl
  | cons i a ih => exact ih _

theorem debugFrom_append (o : Nat) (last : Option Span) (a b : List Emitted) :
    debugFrom o last (a ++ b) =
      debugFrom o last a ++ debugFrom (o + Emitted.extent a) (lastSpan last a) b := by
  induction a generalizing o last with
  | nil => rfl
  | cons i a ih =>
    have hrest := ih (o + i.opcode.length) (some i.span)
    simp only [List.cons_append, debugFrom, lastSpan, Emitted.extent_cons, hrest, ← Nat.add_assoc]
    split <;> rfl

theorem debugFrom_congr {o : Nat} {last : Option Span} {a b : List Emitted}
    (h : a.map Emitted.mark = b.map Emitted.mark) : debugFrom o last a = debugFrom o last b := by
  induction a generalizing o last b with
  | nil =>
    cases b with
    | nil => rfl
    | cons j b => cases h
  | cons i a ih =>
    cases b with
    | nil => cases h
    | cons j b =>
      simp only [List.map_cons, List.cons.injEq, Emitted.mark, Prod.mk.injEq] at h
      simp only [debugFrom, h.1.1, h.1.2, ih h.2]

theorem offset_of_mem_debugFrom {o : Nat} {last : Option Span} {is : List Emitted} {d : DebugSpan}
    (h : d ∈ debugFrom o last is) : o ≤ d.offset ∧ d.offset < o + Emitted.extent is := by
  induction is generalizing o last with
  | nil => cases h
  | cons i is ih =>
    have hpos := i.opcode.length_pos
    have htail : d ∈ debugFrom (o + i.opcode.length) (some i.span) is →
        o ≤ d.offset ∧ d.offset < o + (i.opcode.length + Emitted.extent is) := by
      intro hd
      have := ih hd
      omega
    simp only [debugFrom, Emitted.extent_cons] at h ⊢
    split at h
    · exact htail h
    · rcases List.mem_cons.mp h with rfl | h
      · show o ≤ o ∧ o < o + _
        omega
      · exact htail h

/-- The last entry of the table is that of the last instruction, unless that goes on with the span
before the table. -/
theorem getLast?_debugFrom (o : Nat) (last : Option Span) (is : List Emitted) :
    (debugFrom o last is).getLast?.map (·.span) = lastSpan last is ∧ debugFrom o last is ≠ [] ∨
      debugFrom o last is = [] ∧ lastSpan last is = last := by
  induction is generalizing o last with
  | nil => exact .inr ⟨rfl, rfl⟩
  | cons i is ih =>
    simp only [debugFrom, lastSpan]
    rcases ih (o + i.opcode.length) (some i.span) with ⟨hspan, hne⟩ | ⟨hnil, hspan⟩
    · left
      split
      · exact ⟨hspan, hne⟩
      · rw [List.getLast?_cons_of_ne_nil hne]
        exact ⟨hspan, List.cons_ne_nil _ _⟩
    · rw [hnil, hspan]
      split
      · next hlast => exact .inr ⟨rfl, hlast.symm⟩
      · exact .inl ⟨rfl, List.cons_ne_nil _ _⟩

/-- The table has entries that are of the instructions in front, and those from their end on. -/
theorem dropWhile_debugFrom (a b : List Emitted) :
    (debugFrom 0 none (a ++ b)).reverse.dropWhile (fun d => decide (Emitted.extent a ≤ d.offset)) =
      (debugFrom 0 none a).reverse := by
  rw [debugFrom_append, List.reverse_append, List.dropWhile_append_of_pos]
  · cases hfront : (debugFrom 0 none a).reverse with
    | nil => rfl
    | cons d ds =>
      have hd : d ∈ debugFrom 0 none a := by
        rw [← List.mem_reverse, hfront]
        exact List.mem_cons_self
      have hlt := (offset_of_mem_debugFrom hd).2
      rw [List.dropWhile_cons_of_neg]
      simp only [decide_eq_true_eq]
      omega
  · intro d hd
    have hle := (offset_of_mem_debugFrom (List.mem_reverse.mp hd)).1
    simp only [decide_eq_true_eq]
    omega

end CodeBlock

/-! ## Blocks -/

/-- A block under construction. -/
structure CodeBlock where
  items : Array Emitted
  /-- Length in bytes. -/
  size : Nat
  /-- The table of spans, latest entry first. -/
  spans : List DebugSpan
  size_eq : size = Emitted.extent items.toList
  spans_eq : spans.reverse = CodeBlock.debugFrom 0 none items.toList

namespace CodeBlock

def empty : CodeBlock := ⟨#[], 0, [], rfl, rfl⟩

instance : Inhabited CodeBlock := ⟨empty⟩

/-- The latest entry has the span of the last instruction. -/
theorem head?_spans (b : CodeBlock) : b.spans.head?.map (·.span) = lastSpan none b.items.toList := by
  have hlast : b.spans.head? = (debugFrom 0 none b.items.toList).getLast? := by
    rw [← b.spans_eq, List.getLast?_reverse]
  rw [hlast]
  rcases getLast?_debugFrom 0 none b.items.toList with ⟨hspan, -⟩ | ⟨hnil, hspan⟩
  · exact hspan
  · rw [hnil, hspan]
    rfl

/-- Append an instruction. -/
def emit (b : CodeBlock) (op : Opcode) (operands : List Nat) (span : Span) : CodeBlock where
  items := b.items.push ⟨op, operands, span⟩
  size := b.size + op.length
  spans := if b.spans.head?.map (·.span) = some span then b.spans else ⟨b.size, span⟩ :: b.spans
  size_eq := by simp [b.size_eq]
  spans_eq := by
    have hsize : 0 + Emitted.extent b.items.toList = b.size := by rw [b.size_eq, Nat.zero_add]
    rw [Array.toList_push, debugFrom_append, hsize, ← b.head?_spans, ← b.spans_eq]
    simp only [debugFrom]
    split <;> simp

/-- Put other instructions in the places of the old ones, of the same lengths and with the same spans. -/
def revise (b : CodeBlock) (items : Array Emitted)
    (h : items.toList.map Emitted.mark = b.items.toList.map Emitted.mark) : CodeBlock where
  items := items
  size := b.size
  spans := b.spans
  size_eq := by rw [Emitted.extent_congr h, b.size_eq]
  spans_eq := by rw [debugFrom_congr h, b.spans_eq]

@[simp] theorem revise_items (b : CodeBlock) (items : Array Emitted)
    (h : items.toList.map Emitted.mark = b.items.toList.map Emitted.mark) : (b.revise items h).items = items := rfl

@[simp] theorem revise_size (b : CodeBlock) (items : Array Emitted)
    (h : items.toList.map Emitted.mark = b.items.toList.map Emitted.mark) : (b.revise items h).size = b.size := rfl

theorem map_mark_modify (items : Array Emitted) (place : Nat) (f : Emitted → Emitted)
    (h : ∀ i, items[place]? = some i → (f i).mark = i.mark) :
    (items.modify place f).toList.map Emitted.mark = items.toList.map Emitted.mark := by
  apply List.ext_getElem?
  intro k
  simp only [List.getElem?_map, Array.getElem?_toList, Array.getElem?_modify]
  split
  · next hk =>
    subst hk
    cases hi : items[place]? with
    | none => rfl
    | some i => exact congrArg some (h i hi)
  · rfl

/-- Change an operand of an instruction given by its place in the list. -/
def patch (b : CodeBlock) (place operand target : Nat) : CodeBlock :=
  b.revise (b.items.modify place fun i => { i with operands := i.operands.set operand target })
    (map_mark_modify _ _ _ fun _ _ => rfl)

/-- Whether the last instruction has a given opcode. -/
def endsWith (b : CodeBlock) (op : Opcode) : Bool :=
  match b.items.back? with
  | some i => i.opcode == op
  | none => false

theorem exists_last {b : CodeBlock} {op : Opcode} (h : b.endsWith op = true) :
    ∃ i, b.items.back? = some i ∧ b.items.toList = b.items.pop.toList ++ [i] ∧ i.opcode = op := by
  unfold endsWith at h
  split at h
  · next i hi =>
    refine ⟨i, hi, ?_, by simpa using h⟩
    rw [← Array.getLast?_toList] at hi
    obtain ⟨front, hfront⟩ := List.getLast?_eq_some_iff.mp hi
    rw [Array.toList_pop, hfront, List.dropLast_concat]
  · cases h

/-- The end of the instructions before a `pop`. -/
theorem size_sub_pop {b : CodeBlock} (h : b.endsWith .pop = true) :
    b.size - Opcode.length .pop = Emitted.extent b.items.pop.toList := by
  obtain ⟨i, -, hitems, hop⟩ := exists_last h
  rw [b.size_eq, hitems, Emitted.extent_append, Emitted.extent_cons, hop, Emitted.extent_nil]
  omega

/-- Drop a `pop` at the end, so that its value stays on the stack. -/
def dropPop (b : CodeBlock) : CodeBlock :=
  if h : b.endsWith .pop then
    let start := b.size - Opcode.length .pop
    { items := b.items.pop
      size := start
      spans := b.spans.dropWhile fun d => start ≤ d.offset
      size_eq := size_sub_pop h
      spans_eq := by
        obtain ⟨i, -, hitems, -⟩ := exists_last h
        have hspans : b.spans = (debugFrom 0 none (b.items.pop.toList ++ [i])).reverse := by
          rw [← hitems, ← b.spans_eq, List.reverse_reverse]
        simp only [start, hspans, size_sub_pop h, dropWhile_debugFrom, List.reverse_reverse] }
  else b

/-- Turn a `pop` at the end into a return of its value. -/
def returnPop (b : CodeBlock) : CodeBlock :=
  if h : b.endsWith .pop then
    b.revise (b.items.modify (b.items.size - 1) fun i => { i with opcode := .returnValue })
      (map_mark_modify _ _ _ fun i hi => by
        obtain ⟨j, hj, -, hop⟩ := exists_last h
        rw [Array.back?_eq_getElem?, hi] at hj
        cases hj
        simp only [Emitted.mark, hop]
        rfl)
  else b

/-- The bytes of the block. -/
def code (b : CodeBlock) : Array UInt8 :=
  b.items.foldl (fun bytes i => (encode i.opcode i.operands).foldl Array.push bytes) #[]

/-- The table of spans of the block. -/
def debug (b : CodeBlock) : Array DebugSpan := b.spans.reverse.toArray

theorem debug_eq (b : CodeBlock) : b.debug = (debugFrom 0 none b.items.toList).toArray :=
  congrArg List.toArray b.spans_eq

/-- The function of a finished block. -/
def toFunction (b : CodeBlock) (name : Option String) (locals params : Nat) : Function :=
  ⟨name, b.code, locals, params, b.debug⟩

/-- The block with the given instructions. -/
def ofItems (is : List Emitted) : CodeBlock where
  items := is.toArray
  size := Emitted.extent is
  spans := (debugFrom 0 none is).reverse
  size_eq := rfl
  spans_eq := List.reverse_reverse _

@[simp] theorem items_ofItems (is : List Emitted) : (ofItems is).items.toList = is := rfl

/-- There is one block with the given instructions. -/
theorem eq_ofItems (b : CodeBlock) : b = ofItems b.items.toList := by
  obtain ⟨items, size, spans, hsize, hspans⟩ := b
  subst hsize
  have hlist : spans = (debugFrom 0 none items.toList).reverse := by rw [← hspans, List.reverse_reverse]
  subst hlist
  rfl

theorem eq_of_items {b c : CodeBlock} (h : b.items = c.items) : b = c := by
  calc
    b = ofItems b.items.toList := b.eq_ofItems
    _ = ofItems c.items.toList := by rw [h]
    _ = c := c.eq_ofItems.symm

end CodeBlock

end ScriptMachine
