import ScriptMachine.Value.Heap

/-!
# Equality of values

Containers are compared by what they hold, functions, classes, instances and channels by identity,
errors by their message. Containers may hold themselves: a pair of containers that is already being
compared counts as equal, since both sides then go on in the same way.
-/

namespace ScriptMachine

/-- A pair of containers of one kind. -/
inductive ContainerPair where
  | arrays (a b : Ref)
  | maps (a b : Ref)
  | hashes (a b : Ref)
deriving DecidableEq, Repr

namespace Heap

/-- Compare two dictionaries by key. -/
def dictsEqual (equal : Value → Value → Bool) (a b : Dict Key Value) : Bool :=
  a.size == b.size && a.entries.all fun e =>
    match b.get? e.1 with
    | some w => equal e.2 w
    | none => false

/-- Equality with the pairs in `opened` being compared already; `fuel` bounds the nesting of pairs
still to be opened. -/
def equalFrom (h : Heap) (fuel : Nat) (opened : List ContainerPair) (a b : Value) : Bool :=
  match a, b with
  | .int a, .int b => a == b
  | .float a, .float b => a == b
  | .int a, .float b => a.toFloat == b
  | .float a, .int b => b.toFloat == a
  | .bool a, .bool b => a == b
  | .null, .null => true
  | .str a, .str b => a == b
  | .array x, .array y =>
    if x == y || opened.contains (.arrays x y) then true
    else
      match fuel with
      | 0 => true
      | fuel + 1 =>
        let xs := h.array x
        let ys := h.array y
        xs.size == ys.size
          && (xs.zip ys).all fun p => h.equalFrom fuel (.arrays x y :: opened) p.1 p.2
  | .map x, .map y =>
    if x == y || opened.contains (.maps x y) then true
    else
      match fuel with
      | 0 => true
      | fuel + 1 => dictsEqual (h.equalFrom fuel (.maps x y :: opened)) (h.map x) (h.map y)
  | .hash x, .hash y =>
    if x == y || opened.contains (.hashes x y) then true
    else
      match fuel with
      | 0 => true
      | fuel + 1 => dictsEqual (h.equalFrom fuel (.hashes x y :: opened)) (h.hash x) (h.hash y)
  | .closure a, .closure b => a.id == b.id
  | .function a _, .function b _ => a == b
  | .native a _, .native b _ => a == b
  | .cls a, .cls b => a.id == b.id
  | .object a _, .object b _ => a == b
  | .channel a _, .channel b _ => a == b
  | .error a _, .error b _ => a == b
  | _, _ => false
termination_by structural fuel

/-- Number of pairs of containers of one kind: no chain of open pairs is longer. -/
def pairCount (h : Heap) : Nat :=
  h.arrays.size * h.arrays.size + h.maps.size * h.maps.size + h.hashes.size * h.hashes.size

/-- Equality of values. -/
def equal (h : Heap) (a b : Value) : Bool := h.equalFrom (h.pairCount + 1) [] a b

end Heap

end ScriptMachine
