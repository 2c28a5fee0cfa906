import ScriptMachine.Code.Instruction

/-!
# Code as text

A block of code is written with two digits in base sixteen for each byte.
-/

namespace ScriptMachine.Hex

/-- Value of a digit. -/
def digit? (c : Char) : Option Nat :=
  if c.isDigit then some (c.toNat - '0'.toNat)
  else if 'a' ≤ c ∧ c ≤ 'f' then some (c.toNat - 'a'.toNat + 10)
  else if 'A' ≤ c ∧ c ≤ 'F' then some (c.toNat - 'A'.toNat + 10)
  else none

/-- Bytes of a list of digits, after those already `done`. -/
def bytes? (done : Array UInt8) : List Char → Option (Array UInt8)
  | [] => some done
  | [_] => none
  | a :: b :: rest =>
    match digit? a, digit? b with
    | some high, some low => bytes? (done.push (UInt8.ofNat (high * 16 + low))) rest
    | _, _ => none

/-- The code that a text denotes. -/
def read? (text : String) : Option (Array UInt8) := bytes? #[] text.toList

/-- The text of a block of code. -/
def text (code : Array UInt8) : String := code.foldl (fun s b => s ++ byteDigits false b) ""

end ScriptMachine.Hex
