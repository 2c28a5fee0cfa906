/-!
# JSON documents

A document keeps its members in order and keeps repeated keys: what a repeated key means is decided
by whoever reads the object. Integers in the range of 64-bit words are told apart from all other
numbers, which are doubles.
-/

namespace ScriptMachine

/-- A JSON document. -/
inductive Json where
  | null
  | bool (b : Bool)
  | int (n : Int)
  | float (x : Float)
  | str (s : String)
  | arr (items : List Json)
  | obj (fields : List (String × Json))
deriving Inhabited

namespace Json

/-- The value of the last member with the given key. -/
def field? (j : Json) (key : String) : Option Json :=
  match j with
  | .obj fields => (fields.reverse.find? fun f => f.1 == key).map (·.2)
  | _ => none

/-- The text of a string. -/
def str? : Json → Option String
  | .str s => some s
  | _ => none

/-- The value of a boolean. -/
def bool? : Json → Option Bool
  | .bool b => some b
  | _ => none

/-- The value of an integer. -/
def int? : Json → Option Int
  | .int n => some n
  | _ => none

/-- The value of a natural number. -/
def nat? : Json → Option Nat
  | .int n => if 0 ≤ n then some n.toNat else none
  | _ => none

/-- The items of an array. -/
def items? : Json → Option (List Json)
  | .arr items => some items
  | _ => none

/-- Whether a document is `null`. -/
def isNull : Json → Bool
  | .null => true
  | _ => false

/-! ## Equality -/

mutual

/-- Equality of documents; members count in order, floats by their numeric value. -/
def beq : Json → Json → Bool
  | .null, .null => true
  | .bool a, .bool b => a == b
  | .int a, .int b => a == b
  | .float a, .float b => a == b
  | .str a, .str b => a == b
  | .arr as, .arr bs => beqItems as bs
  | .obj as, .obj bs => beqFields as bs
  | _, _ => false
termination_by structural a => a

/-- Equality of item lists. -/
def beqItems : List Json → List Json → Bool
  | [], [] => true
  | a :: as, b :: bs => beq a b && beqItems as bs
  | _, _ => false
termination_by structural as => as

/-- Equality of member lists. -/
def beqFields : List (String × Json) → List (String × Json) → Bool
  | [], [] => true
  | (k, a) :: as, (l, b) :: bs => k == l && beq a b && beqFields as bs
  | _, _ => false
termination_by structural as => as

end

instance : BEq Json := ⟨beq⟩

/-! ## Size of nesting -/

mutual

/-- Number of containers on the longest path to a leaf, plus one. -/
def depth : Json → Nat
  | .arr items => depthItems items + 1
  | .obj fields => depthFields fields + 1
  | _ => 1
termination_by structural j => j

/-- The greatest depth of the items. -/
def depthItems : List Json → Nat
  | [] => 0
  | j :: js => max (depth j) (depthItems js)
termination_by structural js => js

/-- The greatest depth of the members. -/
def depthFields : List (String × Json) → Nat
  | [] => 0
  | (_, j) :: js => max (depth j) (depthFields js)
termination_by structural js => js

end

/-! ## Repeated keys -/

/-- Keep the last of the members that share a key. -/
def lastOfEach (fields : List (String × Json)) : List (String × Json) :=
  (fields.foldr (fun f (kept : List (String × Json)) =>
    if kept.any (·.1 == f.1) then kept else f :: kept) [])

mutual

/-- The document in which every object keeps only the last member of each key. -/
def collapse : Json → Json
  | .arr items => .arr (collapseItems items)
  | .obj fields => .obj (lastOfEach (collapseFields fields))
  | .null => .null
  | .bool b => .bool b
  | .int n => .int n
  | .float x => .float x
  | .str s => .str s
termination_by structural j => j

/-- Collapse every item. -/
def collapseItems : List Json → List Json
  | [] => []
  | j :: js => collapse j :: collapseItems js
termination_by structural js => js

/-- Collapse every member. -/
def collapseFields : List (String × Json) → List (String × Json)
  | [] => []
  | (k, j) :: js => (k, collapse j) :: collapseFields js
termination_by structural js => js

end

end Json

end ScriptMachine
