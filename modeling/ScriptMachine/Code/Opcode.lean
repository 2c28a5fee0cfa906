/-!
# The instruction set

An instruction is one byte for its opcode followed by up to two operands of one or two bytes, most
significant byte first. `Opcode.widths` is the one table that encoding, decoding and execution share.
-/

namespace ScriptMachine

/-- What an instruction does. -/
inductive Opcode where
  /-- Push a constant of the pool. -/
  | constant
  /-- Push null. -/
  | null
  /-- Push true. -/
  | pushTrue
  /-- Push false. -/
  | pushFalse
  /-- Push a local slot. -/
  | getLocal
  /-- Store the top of the stack into a local slot and leave it on the stack. -/
  | setLocal
  /-- Push a global. -/
  | getGlobal
  /-- Store the top of the stack into a global and leave it on the stack. -/
  | setGlobal
  /-- Push the value of a captured cell of the running closure. -/
  | getFree
  /-- Store the top of the stack into a captured cell and leave it on the stack. -/
  | setFree
  /-- Push a native function of the registry. -/
  | getBuiltin
  /-- Push the running closure. -/
  | currentClosure
  /-- Queue the shared cell of a local for the next closure. -/
  | captureLocal
  /-- Queue a captured cell of the running closure for the next closure. -/
  | captureFree
  /-- Queue a cell that holds the running closure for the next closure. -/
  | captureSelf
  /-- Pop `b` and `a`, push `a + b`. -/
  | add
  /-- Pop `b` and `a`, push `a - b`. -/
  | sub
  /-- Pop `b` and `a`, push `a * b`. -/
  | mul
  /-- Pop `b` and `a`, push `a / b`. -/
  | div
  /-- Pop `b` and `a`, push `a % b`. -/
  | mod
  /-- Pop `a`, push `-a`. -/
  | negate
  /-- Pop `b` and `a`, push `a == b`. -/
  | equal
  /-- Pop `b` and `a`, push `a != b`. -/
  | notEqual
  /-- Pop `b` and `a`, push `a > b`. -/
  | greater
  /-- Pop `b` and `a`, push `a >= b`. -/
  | greaterEqual
  /-- Pop `a`, push `!a`. -/
  | not
  /-- Go to a target. -/
  | jump
  /-- Pop a condition and go to a target if it is false. -/
  | jumpIfFalse
  /-- Call the callee below the given number of arguments. -/
  | call
  /-- Return the top of the stack. -/
  | returnValue
  /-- Return null. -/
  | returnNull
  /-- Make a closure of a function constant and the last queued cells. -/
  | closure
  /-- Make an array of the given number of values. -/
  | array
  /-- Make a hash map of the given number of values, keys and values in turn. -/
  | hash
  /-- Make an ordered map of the given number of values, keys and values in turn. -/
  | orderedMap
  /-- Pop an index and a target, push the item. -/
  | getIndex
  /-- Pop a value, an index and a target, store the item and push the value. -/
  | setIndex
  /-- Pop and remember the top of the stack. -/
  | pop
  /-- Push the top of the stack again. -/
  | dup
  /-- Pop an instance, push a field. -/
  | getProperty
  /-- Pop a value and an instance, store a field and push the value. -/
  | setProperty
  /-- Call a method of the receiver below the given number of arguments. -/
  | invoke
  /-- Pop a class and call its parent's method on the receiver. -/
  | invokeSuper
  /-- Push a handler with a catch target and a finally target. -/
  | tryEnter
  /-- Leave a protected region: pop its handler and go to a target. -/
  | finallyEnd
  /-- Pop a value and throw it. -/
  | throw
  /-- End a finally block: pop a flag and a value, and throw the value if the flag is set. -/
  | rethrow
  /-- Start a task that calls the callee below the given number of arguments. -/
  | spawn
  /-- Make a channel; if the operand is one, its capacity is popped first. -/
  | channel
  /-- Pop a value and a channel, send, push null. -/
  | send
  /-- Pop a channel, push the value received. -/
  | receive
  /-- End the program. -/
  | halt
deriving DecidableEq, Repr, Inhabited

namespace Opcode

/-- The operand that marks an absent jump target. -/
def noTarget : Nat := 0xFFFF

/-- The opcode's byte. -/
def toByte : Opcode → UInt8
  | .constant => 0x01
  | .null => 0x02
  | .pushTrue => 0x03
  | .pushFalse => 0x04
  | .getLocal => 0x10
  | .setLocal => 0x11
  | .getGlobal => 0x12
  | .setGlobal => 0x13
  | .getFree => 0x14
  | .setFree => 0x15
  | .getBuiltin => 0x16
  | .currentClosure => 0x17
  | .captureLocal => 0x18
  | .captureFree => 0x19
  | .captureSelf => 0x1A
  | .add => 0x20
  | .sub => 0x21
  | .mul => 0x22
  | .div => 0x23
  | .mod => 0x24
  | .negate => 0x25
  | .equal => 0x30
  | .notEqual => 0x31
  | .greater => 0x32
  | .greaterEqual => 0x33
  | .not => 0x40
  | .jump => 0x50
  | .jumpIfFalse => 0x51
  | .call => 0x60
  | .returnValue => 0x61
  | .returnNull => 0x62
  | .closure => 0x63
  | .array => 0x70
  | .hash => 0x71
  | .orderedMap => 0x72
  | .getIndex => 0x73
  | .setIndex => 0x74
  | .pop => 0x80
  | .dup => 0x81
  | .getProperty => 0x90
  | .setProperty => 0x91
  | .invoke => 0x92
  | .invokeSuper => 0x93
  | .tryEnter => 0xA0
  | .finallyEnd => 0xA1
  | .throw => 0xA2
  | .rethrow => 0xA3
  | .spawn => 0xB0
  | .channel => 0xB1
  | .send => 0xB2
  | .receive => 0xB3
  | .halt => 0xFF

/-- The opcode with a given byte. -/
def ofByte? (b : UInt8) : Option Opcode :=
  match b.toNat with
  | 0x01 => some .constant
  | 0x02 => some .null
  | 0x03 => some .pushTrue
  | 0x04 => some .pushFalse
  | 0x10 => some .getLocal
  | 0x11 => some .setLocal
  | 0x12 => some .getGlobal
  | 0x13 => some .setGlobal
  | 0x14 => some .getFree
  | 0x15 => some .setFree
  | 0x16 => some .getBuiltin
  | 0x17 => some .currentClosure
  | 0x18 => some .captureLocal
  | 0x19 => some .captureFree
  | 0x1A => some .captureSelf
  | 0x20 => some .add
  | 0x21 => some .sub
  | 0x22 => some .mul
  | 0x23 => some .div
  | 0x24 => some .mod
  | 0x25 => some .negate
  | 0x30 => some .equal
  | 0x31 => some .notEqual
  | 0x32 => some .greater
  | 0x33 => some .greaterEqual
  | 0x40 => some .not
  | 0x50 => some .jump
  | 0x51 => some .jumpIfFalse
  | 0x60 => some .call
  | 0x61 => some .returnValue
  | 0x62 => some .returnNull
  | 0x63 => some .closure
  | 0x70 => some .array
  | 0x71 => some .hash
  | 0x72 => some .orderedMap
  | 0x73 => some .getIndex
  | 0x74 => some .setIndex
  | 0x80 => some .pop
  | 0x81 => some .dup
  | 0x90 => some .getProperty
  | 0x91 => some .setProperty
  | 0x92 => some .invoke
  | 0x93 => some .invokeSuper
  | 0xA0 => some .tryEnter
  | 0xA1 => some .finallyEnd
  | 0xA2 => some .throw
  | 0xA3 => some .rethrow
  | 0xB0 => some .spawn
  | 0xB1 => some .channel
  | 0xB2 => some .send
  | 0xB3 => some .receive
  | 0xFF => some .halt
  | _ => none

/-- The opcode's name in listings. -/
def name : Opcode → String
  | .constant => "Constant"
  | .null => "Null"
  | .pushTrue => "True"
  | .pushFalse => "False"
  | .getLocal => "GetLocal"
  | .setLocal => "SetLocal"
  | .getGlobal => "GetGlobal"
  | .setGlobal => "SetGlobal"
  | .getFree => "GetFree"
  | .setFree => "SetFree"
  | .getBuiltin => "GetBuiltin"
  | .currentClosure => "CurrentClosure"
  | .captureLocal => "CaptureLocal"
  | .captureFree => "CaptureFree"
  | .captureSelf => "CaptureSelf"
  | .add => "Add"
  | .sub => "Sub"
  | .mul => "Mul"
  | .div => "Div"
  | .mod => "Mod"
  | .negate => "Negate"
  | .equal => "Equal"
  | .notEqual => "NotEqual"
  | .greater => "Greater"
  | .greaterEqual => "GreaterEqual"
  | .not => "Not"
  | .jump => "Jump"
  | .jumpIfFalse => "JumpIfFalse"
  | .call => "Call"
  | .returnValue => "ReturnValue"
  | .returnNull => "Return"
  | .closure => "Closure"
  | .array => "Array"
  | .hash => "Hash"
  | .orderedMap => "OrderedMap"
  | .getIndex => "GetIndex"
  | .setIndex => "SetIndex"
  | .pop => "Pop"
  | .dup => "Dup"
  | .getProperty => "GetProperty"
  | .setProperty => "SetProperty"
  | .invoke => "Invoke"
  | .invokeSuper => "InvokeSuper"
  | .tryEnter => "TryEnter"
  | .finallyEnd => "FinallyEnd"
  | .throw => "Throw"
  | .rethrow => "Rethrow"
  | .spawn => "Spawn"
  | .channel => "Channel"
  | .send => "Send"
  | .receive => "Receive"
  | .halt => "Halt"

/-- Every opcode, in the order of their bytes. -/
def all : List Opcode := [
  .constant, .null, .pushTrue, .pushFalse, .getLocal, .setLocal, .getGlobal, .setGlobal,
  .getFree, .setFree, .getBuiltin, .currentClosure, .captureLocal, .captureFree, .captureSelf,
  .add, .sub, .mul, .div, .mod, .negate, .equal, .notEqual, .greater, .greaterEqual, .not, .jump,
  .jumpIfFalse, .call, .returnValue, .returnNull, .closure, .array, .hash, .orderedMap,
  .getIndex, .setIndex, .pop, .dup, .getProperty, .setProperty, .invoke, .invokeSuper, .tryEnter,
  .finallyEnd, .throw, .rethrow, .spawn, .channel, .send, .receive, .halt]

/-- Byte widths of the operands, in order. -/
def widths : Opcode → List Nat
  | .constant | .getGlobal | .setGlobal | .jump | .jumpIfFalse | .array | .hash | .orderedMap
  | .getProperty | .setProperty | .finallyEnd => [2]
  | .getLocal | .setLocal | .getFree | .setFree | .getBuiltin | .captureLocal | .captureFree
  | .call | .spawn | .channel => [1]
  | .closure | .invoke | .invokeSuper => [2, 1]
  | .tryEnter => [2, 2]
  | _ => []

/-- Length of a whole instruction in bytes. -/
def length (op : Opcode) : Nat := 1 + op.widths.foldr (· + ·) 0

/-- Positions of the operands that are jump targets. -/
def jumpOperands : Opcode → List Nat
  | .jump | .jumpIfFalse | .finallyEnd => [0]
  | .tryEnter => [0, 1]
  | _ => []

/-- The opcode with a given name. -/
def ofName? (name : String) : Option Opcode := all.find? fun op => op.name == name

theorem ofByte?_toByte (op : Opcode) : ofByte? op.toByte = some op := by cases op <;> rfl

theorem toByte_inj {op op' : Opcode} (h : op.toByte = op'.toByte) : op = op' := by
  have hbyte := congrArg ofByte? h
  rw [ofByte?_toByte, ofByte?_toByte] at hbyte
  exact Option.some.inj hbyte

theorem toByte_of_ofByte? {b : UInt8} {op : Opcode} (h : ofByte? b = some op) : op.toByte = b := by
  apply UInt8.toNat_inj.mp
  unfold ofByte? at h
  split at h
  all_goals cases h
  all_goals exact Eq.symm ‹_›

/-- The opcode of every byte, as a table for the machine's inner loop. -/
def table : Array (Option Opcode) := Array.ofFn fun i : Fin 256 => ofByte? (UInt8.ofNat i)

theorem table_size : table.size = 256 := by simp [table]

/-- The opcode with a given byte, by table. -/
def dispatch (b : UInt8) : Option Opcode :=
  have : b.toNat < table.size := by
    have := b.toNat_lt
    rw [table_size]
    omega
  table[b.toNat]

theorem dispatch_eq_ofByte? (b : UInt8) : dispatch b = ofByte? b := by
  simp [dispatch, table]

theorem length_pos (op : Opcode) : 0 < op.length := by
  unfold length
  omega

theorem mem_all (op : Opcode) : op ∈ all := by cases op <;> decide

end Opcode

end ScriptMachine
