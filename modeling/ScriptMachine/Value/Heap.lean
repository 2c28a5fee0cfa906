import ScriptMachine.Channel
import ScriptMachine.Value.Basic

/-!
# The heap

One table for each kind of mutable object. Objects are made, read and written through the functions
here; a reference that no object has reads as an empty one and writes nothing.
-/

namespace ScriptMachine

/-- All mutable objects. -/
structure Heap where
  arrays : Array (Array Value)
  maps : Array (Dict Key Value)
  hashes : Array (Dict Key Value)
  /-- Cells of captured variables. -/
  cells : Array Value
  /-- Fields of instances. -/
  fields : Array (Dict String Value)
  channels : Array (Channel Value)
  /-- The next unused identity of functions, closures and classes. -/
  nextId : Nat
deriving Inhabited

namespace Heap

def empty : Heap := ⟨#[], #[], #[], #[], #[], #[], 0⟩

/-! ## Making objects -/

def newArray (h : Heap) (vs : Array Value) : Value × Heap :=
  let ref := h.arrays.size
  (.array ref, { h with arrays := h.arrays.push vs })

def newMap (h : Heap) (d : Dict Key Value) : Value × Heap :=
  let ref := h.maps.size
  (.map ref, { h with maps := h.maps.push d })

def newHash (h : Heap) (d : Dict Key Value) : Value × Heap :=
  let ref := h.hashes.size
  (.hash ref, { h with hashes := h.hashes.push d })

def newCell (h : Heap) (v : Value) : Ref × Heap :=
  let ref := h.cells.size
  (ref, { h with cells := h.cells.push v })

def newChannel (h : Heap) (capacity : Option Nat) : Ref × Heap :=
  let ref := h.channels.size
  (ref, { h with channels := h.channels.push (.new capacity) })

/-- An identity not used before. -/
def freshId (h : Heap) : Nat × Heap := (h.nextId, { h with nextId := h.nextId + 1 })

def newClosure (h : Heap) (f : Function) (free : Array Ref) : Closure × Heap :=
  let (id, h) := h.freshId
  (⟨id, f, free⟩, h)

/-- The fields of a new instance: declared properties bound to the arguments by position, missing ones
to null. -/
def initialFields (c : Class) (args : List Value) : Dict String Value :=
  .ofList (c.fieldNames.mapIdx fun i name => (name, args[i]?.getD .null))

def newObject (h : Heap) (c : Class) (args : List Value) : Value × Heap :=
  let ref := h.fields.size
  (.object ref c, { h with fields := h.fields.push (initialFields c args) })

/-! ## Reading -/

def array (h : Heap) (ref : Ref) : Array Value := h.arrays[ref]?.getD #[]
def map (h : Heap) (ref : Ref) : Dict Key Value := h.maps[ref]?.getD .empty
def hash (h : Heap) (ref : Ref) : Dict Key Value := h.hashes[ref]?.getD .empty
def cell (h : Heap) (ref : Ref) : Value := h.cells[ref]?.getD .null
def objectFields (h : Heap) (ref : Ref) : Dict String Value := h.fields[ref]?.getD .empty
def channel (h : Heap) (ref : Ref) : Channel Value := h.channels[ref]?.getD (.new none)

/-! ## Writing -/

def modifyArray (h : Heap) (ref : Ref) (f : Array Value → Array Value) : Heap :=
  { h with arrays := h.arrays.modify ref f }

def modifyMap (h : Heap) (ref : Ref) (f : Dict Key Value → Dict Key Value) : Heap :=
  { h with maps := h.maps.modify ref f }

def modifyHash (h : Heap) (ref : Ref) (f : Dict Key Value → Dict Key Value) : Heap :=
  { h with hashes := h.hashes.modify ref f }

def setCell (h : Heap) (ref : Ref) (v : Value) : Heap :=
  { h with cells := h.cells.setIfInBounds ref v }

def setField (h : Heap) (ref : Ref) (name : String) (v : Value) : Heap :=
  { h with fields := h.fields.modify ref (·.insert name v) }

def setChannel (h : Heap) (ref : Ref) (c : Channel Value) : Heap :=
  { h with channels := h.channels.setIfInBounds ref c }

/-- Close a channel. -/
def closeChannel (h : Heap) (ref : Ref) : Heap :=
  { h with channels := h.channels.modify ref Channel.close }

end Heap

end ScriptMachine
