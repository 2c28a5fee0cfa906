import ScriptMachine.Code.Instruction
import ScriptMachine.Span

/-!
# Compiled functions

The block of instructions of one function body, with the spans its instructions came from. The table
of spans is sorted by offset, and a span is found in it by halving.
-/

namespace ScriptMachine

/-- From `offset` on, up to the next entry, instructions come from `span`. -/
structure DebugSpan where
  offset : Nat
  span : Span
deriving DecidableEq, Repr, Inhabited

/-- A compiled function body. -/
structure Function where
  name : Option String
  code : Array UInt8
  /-- Number of local slots, parameters included. -/
  locals : Nat
  params : Nat
  debug : Array DebugSpan
deriving Inhabited, DecidableEq

/-- Halve the `size` positions from `low` on until one is left. The position in the middle decides: if
it is accepted the search goes on from there, and otherwise below it. -/
def bisect (accept : Nat → Bool) (low size : Nat) : Nat :=
  if size ≤ 1 then low
  else if accept (low + size / 2) then bisect accept (low + size / 2) (size - size / 2)
  else bisect accept low (size - size / 2)
termination_by size
decreasing_by all_goals omega

/-- If the accepted positions are those below some bound, halving finds the last of them. -/
theorem accept_iff_le_bisect (accept : Nat → Bool) (low size : Nat)
    (closed : ∀ i j, i ≤ j → accept j = true → accept i = true) (hlow : accept low = true)
    (hend : ∀ i, low + size ≤ i → accept i = false) (i : Nat) :
    accept i = true ↔ i ≤ bisect accept low size := by
  fun_induction bisect accept low size with
  | case1 low size small =>
    refine ⟨fun h => ?_, fun h => closed i low h hlow⟩
    apply Nat.le_of_not_lt
    intro above
    have := hend i (by omega)
    simp [this] at h
  | case2 low size large mid ih => exact ih mid fun j hj => hend j (by omega)
  | case3 low size large mid ih =>
    refine ih hlow fun j hj => Bool.eq_false_iff.mpr fun hj' => ?_
    exact mid (closed _ j (by omega) hj')

namespace Function

/-- The span of the instruction at `offset`: that of the last entry at or before it. -/
def spanAt? (f : Function) (offset : Nat) : Option Span :=
  let starts (d : DebugSpan) : Bool := d.offset ≤ offset
  let last := bisect (fun i => f.debug[i]?.any starts) 0 f.debug.size
  (f.debug[last]?.filter starts).map (·.span)

/-- The function's name in messages. -/
def displayName (f : Function) : String := f.name.getD "<anonymous>"

/-- The function of a top-level block. -/
def main (code : Array UInt8) (debug : Array DebugSpan) : Function :=
  ⟨some "<main>", code, 0, 0, debug⟩

end Function

end ScriptMachine
