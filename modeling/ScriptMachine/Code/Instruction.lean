import ScriptMachine.Code.Opcode

/-!
# Encoding and decoding instructions

`Instruction.encode` writes one instruction, `decode` reads a whole block and `assemble` writes it
again. A block that does not decode is refused at its first bad offset.
-/

namespace ScriptMachine

/-- A decoded instruction and where it stands. -/
structure Instruction where
  offset : Nat
  opcode : Opcode
  operands : List Nat
deriving DecidableEq, Repr

/-! ## Encoding -/

/-- An operand of width `w`, cut to its width. -/
def operandBytes (w n : Nat) : List UInt8 :=
  if w == 2 then [(n / 256).toUInt8, n.toUInt8] else [n.toUInt8]

/-- The operands of an instruction; an operand without a width is dropped. -/
def encodeOperands : List Nat → List Nat → List UInt8
  | w :: ws, n :: ns => operandBytes w n ++ encodeOperands ws ns
  | _, _ => []

/-- The bytes of an instruction. -/
def encode (op : Opcode) (operands : List Nat) : List UInt8 :=
  op.toByte :: encodeOperands op.widths operands

/-! ## Decoding -/

/-- The operand of width `w` at position `pos`. -/
def operandAt? (code : Array UInt8) (pos w : Nat) : Option Nat :=
  if w == 2 then
    match code[pos]?, code[pos + 1]? with
    | some hi, some lo => some (hi.toNat * 256 + lo.toNat)
    | _, _ => none
  else code[pos]?.map UInt8.toNat

/-- Operands of the given widths from position `pos` on. -/
def operandsAt? (code : Array UInt8) (pos : Nat) : List Nat → Option (List Nat)
  | [] => some []
  | w :: ws =>
    match operandAt? code pos w with
    | some n => (operandsAt? code (pos + w) ws).map (n :: ·)
    | none => none

/-- The operands of `op` from position `pos` on. -/
def readOperands? (op : Opcode) (code : Array UInt8) (pos : Nat) : Option (List Nat) :=
  operandsAt? code pos op.widths

/-- Why a block does not decode. -/
inductive DecodeError where
  | unknownOpcode (byte : UInt8) (offset : Nat)
  | truncated (opcode : Opcode) (offset : Nat)
deriving DecidableEq, Repr

/-- Decode from `offset` on; `done` holds the instructions before it in reverse. -/
def decodeFrom (code : Array UInt8) (offset : Nat) (done : List Instruction) :
    Except DecodeError (List Instruction) :=
  if h : offset < code.size then
    match Opcode.ofByte? code[offset] with
    | none => .error (.unknownOpcode code[offset] offset)
    | some op =>
      match readOperands? op code (offset + 1) with
      | none => .error (.truncated op offset)
      | some operands => decodeFrom code (offset + op.length) (⟨offset, op, operands⟩ :: done)
  else .ok done.reverse
termination_by code.size - offset
decreasing_by
  have := op.length_pos
  omega

/-- The instructions of a block. -/
def decode (code : Array UInt8) : Except DecodeError (List Instruction) := decodeFrom code 0 []

/-- The bytes of a list of instructions. -/
def assemble (instructions : List Instruction) : List UInt8 :=
  instructions.flatMap fun i => encode i.opcode i.operands

namespace Instruction

/-- The jump targets that are present. -/
def targets (i : Instruction) : List Nat :=
  (i.opcode.jumpOperands.filterMap fun k => i.operands[k]?).filter (· != Opcode.noTarget)

/-- Offset of the instruction that follows. -/
def next (i : Instruction) : Nat := i.offset + i.opcode.length

end Instruction

/-! ## Text -/

/-- Two digits of a byte, in the given alphabet of sixteen. -/
def byteDigits (upper : Bool) (b : UInt8) : String :=
  let digit (n : Nat) : Char := if upper then (Nat.digitChar n).toUpper else Nat.digitChar n
  String.ofList [digit (b.toNat / 16), digit (b.toNat % 16)]

/-- Wording of a decoding error. -/
def DecodeError.message : DecodeError → String
  | .unknownOpcode byte offset => "unknown opcode 0x" ++ byteDigits false byte ++ s!" at offset {offset}"
  | .truncated opcode offset => "truncated " ++ opcode.name ++ s!" at offset {offset}"

/-- A number with at least four digits. -/
def fourDigits (n : Nat) : String :=
  let ds := toString n
  String.ofList (List.replicate (4 - ds.length) '0') ++ ds

/-- One line of a listing; an absent target is written as a dash. -/
def Instruction.line (i : Instruction) : String :=
  let jumps := !i.opcode.jumpOperands.isEmpty
  i.operands.foldl
    (fun line n => line ++ " " ++ (if n == Opcode.noTarget && jumps then "-" else toString n))
    (fourDigits i.offset ++ "  " ++ i.opcode.name)

end ScriptMachine
