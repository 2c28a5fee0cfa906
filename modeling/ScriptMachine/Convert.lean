import ScriptMachine.Value.Heap

/-!
# Host types

How a host exchanges typed data with a program. A `HostType` is a shape of data, `HostType.Data` the
data of that shape; `ofValue` reads a value as such data and `toValue` writes it. Integers widen to
floats and floats never narrow. A map takes the entries with string keys and skips all others.
-/

namespace ScriptMachine

/-- A shape of host data. -/
inductive HostType where
  | value
  | int
  | float
  | bool
  | string
  | unit
  | option (t : HostType)
  | list (t : HostType)
  | map (t : HostType)
deriving DecidableEq, Repr

/-- Data of a shape; a map is a list of entries with distinct keys, in order. -/
def HostType.Data : HostType → Type
  | .value => Value
  | .int => Int64
  | .float => Float
  | .bool => Bool
  | .string => String
  | .unit => Unit
  | .option t => Option t.Data
  | .list t => List t.Data
  | .map t => List (String × t.Data)

/-- Why a value cannot be read as data of a shape. Kinds are given by name. -/
inductive ConversionError where
  | mismatch (expected found : String)
  | element (index : Nat) (expected found : String)
  | entry (key : String) (expected found : String)
deriving DecidableEq, Repr

namespace ConversionError

def message : ConversionError → String
  | .mismatch expected found => s!"Type mismatch: expected {expected}, found {found}"
  | .element index expected found =>
    s!"Array element type mismatch at index {index}: expected {expected}, found {found}"
  | .entry key expected found =>
    s!"Map value type mismatch for key '{key}': expected {expected}, found {found}"

/-- Kind of an error, for reports. -/
def kind : ConversionError → String
  | .mismatch _ _ => "TypeMismatch"
  | .element _ _ _ => "ArrayElementTypeMismatch"
  | .entry _ _ _ => "MapValueTypeMismatch"

/-- Say at which element a plain mismatch was found. -/
def inElement (index : Nat) : ConversionError → ConversionError
  | .mismatch expected found => .element index expected found
  | e => e

/-- Say at which key a plain mismatch was found. -/
def inEntry (key : String) : ConversionError → ConversionError
  | .mismatch expected found => .entry key expected found
  | e => e

end ConversionError

namespace HostType

/-- Read every element, counting from `index`, and stop at the first that cannot be read. -/
def readElements {α : Type} (f : Value → Except ConversionError α) :
    Nat → List Value → Except ConversionError (List α)
  | _, [] => .ok []
  | index, v :: vs =>
    match f v with
    | .error e => .error (e.inElement index)
    | .ok a =>
      match readElements f (index + 1) vs with
      | .error e => .error e
      | .ok as => .ok (a :: as)

/-- Read every entry with a string key and stop at the first that cannot be read. -/
def readEntries {α : Type} (f : Value → Except ConversionError α) :
    List (Key × Value) → Except ConversionError (List (String × α))
  | [] => .ok []
  | (.str key, v) :: rest =>
    match f v with
    | .error e => .error (e.inEntry key)
    | .ok a =>
      match readEntries f rest with
      | .error e => .error e
      | .ok as => .ok ((key, a) :: as)
  | _ :: rest => readEntries f rest

/-- Read a value as data of a shape. -/
def ofValue (h : Heap) : (t : HostType) → Value → Except ConversionError t.Data
  | .value, v => .ok v
  | .int, v =>
    match v with
    | .int n => .ok n
    | v => .error (.mismatch "integer" v.typeName)
  | .float, v =>
    match v with
    | .float x => .ok x
    | .int n => .ok n.toFloat
    | v => .error (.mismatch "float" v.typeName)
  | .bool, v =>
    match v with
    | .bool b => .ok b
    | v => .error (.mismatch "boolean" v.typeName)
  | .string, v =>
    match v with
    | .str s => .ok s
    | v => .error (.mismatch "string" v.typeName)
  | .unit, v =>
    match v with
    | .null => .ok ()
    | v => .error (.mismatch "null" v.typeName)
  | .option t, v =>
    match v with
    | .null => .ok none
    | v => (ofValue h t v).map some
  | .list t, v =>
    match v with
    | .array r => readElements (ofValue h t) 0 (h.array r).toList
    | v => .error (.mismatch "array" v.typeName)
  | .map t, v =>
    match v with
    | .map r => readEntries (ofValue h t) (h.map r).toList
    | .hash r => readEntries (ofValue h t) (h.hash r).toList
    | v => .error (.mismatch "map" v.typeName)

/-- Write a list of data, threading the heap. -/
def writeAll {α : Type} (f : Heap → α → Value × Heap) : Heap → List α → List Value × Heap
  | h, [] => ([], h)
  | h, a :: as =>
    let (v, h) := f h a
    let (vs, h) := writeAll f h as
    (v :: vs, h)

/-- Write data of a shape as a value; lists and maps become new objects. -/
def toValue : (t : HostType) → Heap → t.Data → Value × Heap
  | .value, h, v => (v, h)
  | .int, h, (n : Int64) => (.int n, h)
  | .float, h, (x : Float) => (.float x, h)
  | .bool, h, (b : Bool) => (.bool b, h)
  | .string, h, (s : String) => (.str s, h)
  | .unit, h, _ => (.null, h)
  | .option t, h, (a : Option t.Data) =>
    match a with
    | none => (.null, h)
    | some a => toValue t h a
  | .list t, h, (as : List t.Data) =>
    let (vs, h) := writeAll (toValue t) h as
    h.newArray vs.toArray
  | .map t, h, (es : List (String × t.Data)) =>
    let (vs, h) := writeAll (toValue t) h (es.map (·.2))
    h.newMap (.ofList ((es.map fun e => Key.str e.1).zip vs))

end HostType

end ScriptMachine
