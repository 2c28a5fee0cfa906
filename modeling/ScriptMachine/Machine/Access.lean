import ScriptMachine.Value.Arithmetic
import ScriptMachine.Machine.Stack

/-!
# Items and properties

Reading and writing items of containers and properties of instances and maps. Reading what is not
there gives null.
-/

namespace ScriptMachine

/-- The character that starts at byte `i`; none inside a character or past the end. -/
def charAtByte? : List Char → Nat → Option Char
  | [], _ => none
  | c :: cs, i =>
    if i == 0 then some c else if i < c.utf8Size then none else charAtByte? cs (i - c.utf8Size)

/-- A place in the heap that can be written. -/
inductive Place where
  | item (array : Ref) (index : Nat)
  | mapEntry (map : Ref) (key : Key)
  | hashEntry (hash : Ref) (key : Key)
  | field (object : Ref) (name : String)

namespace Heap

/-- The item of an array at a signed index. -/
def arrayItem (h : Heap) (r : Ref) (i : Int64) : Value :=
  if i < 0 then .null else (h.array r)[i.toInt.toNat]?.getD .null

/-- The one-character string at a byte offset. -/
def stringItem (s : String) (i : Int64) : Value :=
  if i < 0 then .null
  else
    match charAtByte? s.toList i.toInt.toNat with
    | some c => .str (String.singleton c)
    | none => .null

/-- A value as a key, or the cause why it is none. -/
def keyOrCause (v : Value) : Except Cause Key :=
  match v.key? with
  | some k => .ok k
  | none => .error (.unhashable v.typeName)

/-- `target[index]` -/
def getItem (h : Heap) (target index : Value) : Except Cause Value :=
  match target, index with
  | .array r, .int i => .ok (h.arrayItem r i)
  | .str s, .int i => .ok (stringItem s i)
  | .map r, key => (keyOrCause key).map fun k => ((h.map r).get? k).getD .null
  | .hash r, key => (keyOrCause key).map fun k => ((h.hash r).get? k).getD .null
  | .array _, v | .str _, v => .error (.typeMismatch (.indexKind v.typeName))
  | v, _ => .error (.typeMismatch (.notIndexable v.typeName))

/-- The place that `target[index] = v` writes to. -/
def itemPlace (h : Heap) (target index : Value) : Except Cause Place :=
  match target, index with
  | .array r, .int i =>
    let n := (h.array r).size
    if 0 ≤ i && i.toInt.toNat < n then .ok (.item r i.toInt.toNat)
    else .error (.indexOutOfBounds i n)
  | .map r, key => (keyOrCause key).map (.mapEntry r)
  | .hash r, key => (keyOrCause key).map (.hashEntry r)
  | .array _, w => .error (.typeMismatch (.indexKind w.typeName))
  | w, _ => .error (.typeMismatch (.notAssignable w.typeName))

/-- The property of an instance or map, if the value can have properties at all. -/
def property? (h : Heap) (target : Value) (name : String) : Option (Option Value) :=
  match target with
  | .object r _ => some ((h.objectFields r).get? name)
  | .map r => some ((h.map r).get? (.str name))
  | .hash r => some ((h.hash r).get? (.str name))
  | _ => none

/-- `target.name` -/
def getProperty (h : Heap) (target : Value) (name : String) : Except Cause Value :=
  match h.property? target name with
  | some v => .ok (v.getD .null)
  | none => .error (.typeMismatch (.readProperty name target.typeName))

/-- The place that `target.name = v` writes to. -/
def propertyPlace (target : Value) (name : String) : Except Cause Place :=
  match target with
  | .object r _ => .ok (.field r name)
  | .map r => .ok (.mapEntry r (.str name))
  | .hash r => .ok (.hashEntry r (.str name))
  | w => .error (.typeMismatch (.setProperty name w.typeName))

/-- Write to a place. -/
def write (h : Heap) (place : Place) (v : Value) : Heap :=
  match place with
  | .item r i => h.modifyArray r (·.setIfInBounds i v)
  | .mapEntry r k => h.modifyMap r (·.insert k v)
  | .hashEntry r k => h.modifyHash r (·.insert k v)
  | .field r name => h.setField r name v

end Heap

end ScriptMachine
