import ScriptMachine.Native.Basic
import ScriptMachine.Value.Render

/-!
# The prelude

The functions that every program can call. Their order fixes their numbers.
-/

namespace ScriptMachine.Prelude

/-- The error of a function that does not take values of a kind. -/
def unsupported (function : String) (v : Value) : Value :=
  .error (function ++ "() not supported for " ++ v.typeName) none

/-- The first argument. -/
def first (args : List Value) : Value := args.headD .null

/-- Length of a string in bytes, of a container in items, of a channel in waiting messages. -/
def len : Native := .pure "len" (some 1) fun h args =>
  match first args with
  | .str s => .int (Int64.ofNat s.utf8ByteSize)
  | .array r => .int (Int64.ofNat (h.array r).size)
  | .map r => .int (Int64.ofNat (h.map r).size)
  | .hash r => .int (Int64.ofNat (h.hash r).size)
  | .channel r _ => .int (Int64.ofNat (h.channel r).length)
  | v => unsupported "len" v

def close : Native := ⟨"close", some 1, fun h args =>
  match first args with
  | .channel r _ => (.value .null, h.closeChannel r)
  | v => (.value (unsupported "close" v), h)⟩

/-- A new array as the outcome of a call. -/
def arrayOutcome (h : Heap) (vs : List Value) : NativeOutcome × Heap :=
  let (v, h) := h.newArray vs.toArray
  (.value v, h)

/-- Keys of a map or names of an instance's fields, in order. -/
def keys : Native := ⟨"keys", some 1, fun h args =>
  match first args with
  | .map r => arrayOutcome h ((h.map r).keys.map Key.toValue)
  | .hash r => arrayOutcome h ((h.hash r).keys.map Key.toValue)
  | .object r _ => arrayOutcome h ((h.objectFields r).keys.map Value.str)
  | v => (.value (unsupported "keys" v), h)⟩

/-- Values of a map in order, or a copy of an array. -/
def values : Native := ⟨"values", some 1, fun h args =>
  match first args with
  | .map r => arrayOutcome h (h.map r).values
  | .hash r => arrayOutcome h (h.hash r).values
  | .array r => arrayOutcome h (h.array r).toList
  | v => (.value (unsupported "values" v), h)⟩

/-- Append to an array in place and answer the same array. -/
def push : Native := ⟨"push", some 2, fun h args =>
  match args with
  | [.array r, v] => (.value (.array r), h.modifyArray r (·.push v))
  | args => (.value (unsupported "push" (first args)), h)⟩

def typeOf : Native := .pure "type" (some 1) fun _ args => .str (first args).typeName

def toText : Native := .pure "str" (some 1) fun h args => .str (h.render (first args))

/-- Fail with the argument's text, or with the argument if it is an error. -/
def error : Native := .pure "error" (some 1) fun h args =>
  match first args with
  | .error message span => .error message span
  | v => .error (h.render v) none

/-- The prelude in order. -/
def functions : List Native := [len, close, keys, values, push, typeOf, toText, error]

/-- A registry with the prelude, whose functions stand in the table of host functions from `base`
on. -/
def registry (base : Nat) : Registry :=
  ⟨(functions.mapIdx fun i n => ⟨n.name, base + i⟩).toArray⟩

end ScriptMachine.Prelude
