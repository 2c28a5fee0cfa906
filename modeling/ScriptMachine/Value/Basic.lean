import ScriptMachine.Code.Function
import ScriptMachine.Value.Dict

/-!
# Values

What a running program computes with. Numbers, strings, booleans, null and errors are plain data.
Arrays, maps, cells, fields and channels are mutable and shared: a value holds a reference into the
`Heap`. Functions, closures and classes never change once made; they stand inside the value together
with an identity, which is all that equality looks at.
-/

namespace ScriptMachine

/-- Position of a mutable object in its table of the heap. -/
abbrev Ref := Nat

/-- A function together with the cells of the variables it captured. -/
structure Closure where
  id : Nat
  function : Function
  free : Array Ref
deriving Inhabited

/-- A class, linked to its parent. -/
structure Class where
  id : Nat
  name : String
  parentName : Option String
  properties : List String
  methods : List (String × Closure)
  parent : Option Class

instance : Inhabited Class := ⟨⟨0, "", none, [], [], none⟩⟩

/-- A value. -/
inductive Value where
  | int (n : Int64)
  | float (x : Float)
  | bool (b : Bool)
  | null
  | str (s : String)
  | array (ref : Ref)
  | map (ref : Ref)
  | hash (ref : Ref)
  | closure (c : Closure)
  | function (id : Nat) (f : Function)
  /-- A host function: its place in the table of host functions, and its name. -/
  | native (id : Nat) (name : String)
  | cls (c : Class)
  | object (ref : Ref) (c : Class)
  /-- A channel; no capacity means unbounded. -/
  | channel (ref : Ref) (capacity : Option Nat)
  | error (message : String) (span : Option Span)

instance : Inhabited Value := ⟨.null⟩

/-- A key of a map. -/
inductive Key where
  | int (n : Int64)
  | float (x : Float)
  | bool (b : Bool)
  | str (s : String)

namespace Key

/-- Equality of keys: kinds must agree; all NaNs are one key, and so are both zeros. -/
def same : Key → Key → Bool
  | .int a, .int b => a == b
  | .float a, .float b => if a.isNaN then b.isNaN else a == b
  | .bool a, .bool b => a == b
  | .str a, .str b => a == b
  | _, _ => false

instance : BEq Key := ⟨same⟩

/-- The value of a key. -/
def toValue : Key → Value
  | .int n => .int n
  | .float x => .float x
  | .bool b => .bool b
  | .str s => .str s

end Key

namespace Class

/-- The class's own method with a given name. -/
def ownMethod? (c : Class) (name : String) : Option Closure :=
  (c.methods.find? fun m => m.1 == name).map (·.2)

/-- The class itself, its parent, and so on to the root. -/
def chain : Class → List Class
  | c@⟨_, _, _, _, _, none⟩ => [c]
  | c@⟨_, _, _, _, _, some p⟩ => c :: chain p

/-- The method of the nearest class on the chain that has one of this name. -/
def findMethod? (c : Class) (name : String) : Option Closure :=
  c.chain.findSome? fun k => k.ownMethod? name

/-- Method names that construct instances, in order of preference. -/
def constructorNames : List String := ["init", "constructor"]

/-- A class's own constructor. -/
def ownConstructor? (c : Class) : Option Closure := constructorNames.findSome? c.ownMethod?

/-- The constructor of the nearest class on the chain that has one. -/
def constructor? (c : Class) : Option Closure := c.chain.findSome? ownConstructor?

/-- Append the properties that are not yet among the names. -/
def addNames (names properties : List String) : List String :=
  properties.foldl (fun names p => if names.contains p then names else names ++ [p]) names

/-- Declared properties without repetition, those of ancestors first. -/
def fieldNames (c : Class) : List String :=
  c.chain.reverse.foldl (fun names k => addNames names k.properties) []

end Class

namespace Value

/-- The kind of a value, as named in messages. -/
def typeName : Value → String
  | .int _ => "integer"
  | .float _ => "float"
  | .bool _ => "boolean"
  | .null => "null"
  | .str _ => "string"
  | .array _ => "array"
  | .map _ => "ordered_map"
  | .hash _ => "hash"
  | .closure _ => "closure"
  | .function _ _ => "function"
  | .native _ _ => "native_function"
  | .cls _ => "class"
  | .object _ _ => "instance"
  | .channel _ _ => "channel"
  | .error _ _ => "error"

/-- Only false and null count as false. -/
def isTruthy : Value → Bool
  | .bool b => b
  | .null => false
  | _ => true

/-- Whether a value can be called. -/
def isCallable : Value → Bool
  | .closure _ | .native _ _ | .cls _ => true
  | _ => false

/-- The key that a value stands for. -/
def key? : Value → Option Key
  | .int n => some (.int n)
  | .float x => some (.float x)
  | .bool b => some (.bool b)
  | .str s => some (.str s)
  | _ => none

end Value

end ScriptMachine
