import ScriptMachine.Convert
import ScriptMachine.Native.Basic
import ScriptMachine.Value.Render

/-!
# Sample host functions

Functions that a host registers by the name of their behaviour.
-/

namespace ScriptMachine.Host

/-- What a sample host function does. -/
inductive Behaviour where
  | null
  | argc
  | args
  | first
  | fail
  | failAt
  | crash
  | crashPlain
  | sum
  | countKeys
deriving DecidableEq, Repr

/-- The behaviour with a given name. -/
def Behaviour.ofName? (name : String) : Option Behaviour :=
  match name with
  | "null" => some .null
  | "argc" => some .argc
  | "args" => some .args
  | "first" => some .first
  | "fail" => some .fail
  | "fail_at" => some .failAt
  | "panic" => some .crash
  | "panic_str" => some .crashPlain
  | "sum" => some .sum
  | "count_keys" => some .countKeys
  | _ => none

/-- Text of the first argument. -/
def firstText (h : Heap) (args : List Value) : String :=
  match args with
  | [] => "none"
  | v :: _ => h.render v

/-- The span that a failing function reports as its own. -/
def failSpan : Span := ⟨70, 75, 7⟩

/-- Sum of integer arguments, or the error of the first that is none. -/
def sumOf (h : Heap) (args : List Value) : Value :=
  let total := args.foldlM (fun (n : Int64) v =>
    match HostType.ofValue h .int v with
    | .ok (m : Int64) => Except.ok (n + m)
    | .error e => .error e) 0
  match total with
  | .ok n => .int n
  | .error e => .error e.message none

/-- Number of string keys of a map. -/
def keyCount (h : Heap) (args : List Value) : Value :=
  match HostType.ofValue h (.map .value) (args.headD .null) with
  | .ok (es : List (String × Value)) => .int (Int64.ofNat es.length)
  | .error e => .error e.message none

/-- Run a behaviour. -/
def Behaviour.run (b : Behaviour) (h : Heap) (args : List Value) : NativeOutcome × Heap :=
  match b with
  | .null => (.value .null, h)
  | .argc => (.value (.int (Int64.ofNat args.length)), h)
  | .args =>
    let (v, h) := h.newArray args.toArray
    (.value v, h)
  | .first => (.value (args.headD .null), h)
  | .fail => (.value (.error ("fail: " ++ firstText h args) none), h)
  | .failAt => (.value (.error ("fail: " ++ firstText h args) (some failSpan)), h)
  | .crash => (.crash ("native panic: " ++ firstText h args), h)
  | .crashPlain => (.crash "static panic", h)
  | .sum => (.value (sumOf h args), h)
  | .countKeys => (.value (keyCount h args), h)

/-- A host function with a given behaviour. -/
def native (name : String) (arity : Option Nat) (b : Behaviour) : Native := ⟨name, arity, b.run⟩

end ScriptMachine.Host
