/-!
# Spans

A span is the byte range of a piece of source text together with the line it starts on. Nodes of a
program, instructions of a block and errors all carry one.
-/

namespace ScriptMachine

/-- The bytes `start ≤ i < stop` of a source text, beginning on line `line`. -/
structure Span where
  start : Nat
  stop : Nat
  line : Nat
deriving DecidableEq, Repr, Inhabited, BEq

namespace Span

/-- The span of a node that stands for no source text. -/
def dummy : Span := ⟨0, 0, 0⟩

def isDummy (s : Span) : Bool := decide (s = dummy)

/-- Length in bytes; a range that ends before it starts is empty. -/
def length (s : Span) : Nat := s.stop - s.start

def isEmpty (s : Span) : Bool := s.length == 0

/-- The smallest span that covers both; a dummy span covers nothing and is dropped. -/
def merge (a b : Span) : Span :=
  if a.isDummy then b
  else if b.isDummy then a
  else ⟨min a.start b.start, max a.stop b.stop, min a.line b.line⟩

/-- Text of a span in listings and messages, such as `line 3 (10..14)`. -/
def text (s : Span) : String :=
  s!"line {s.line} ({s.start}..{s.stop})"

@[simp] theorem isDummy_dummy : dummy.isDummy = true := by simp [isDummy]

@[simp] theorem dummy_merge (s : Span) : dummy.merge s = s := by simp [merge]

@[simp] theorem merge_dummy (s : Span) : s.merge dummy = s := by
  unfold merge
  split
  · next h => simpa [isDummy, eq_comm] using h
  · simp

end Span

end ScriptMachine
