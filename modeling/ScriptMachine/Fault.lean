import ScriptMachine.Operator
import ScriptMachine.Value.Render

/-!
# Faults

What can go wrong while a program runs: a cause, and the span of the instruction where it arose. Most
causes can be caught by a `try` of the same task; exhausted limits, a value that nobody caught and
instructions that make no sense cannot.
-/

namespace ScriptMachine

/-- An operation applied to values it is not made for. Kinds of values are given by name. -/
inductive TypeMismatch where
  | operands (op : BinaryOp) (left right : String)
  | negate (kind : String)
  | channelCapacity (text : String)
  | methodCall (method kind : String)
  | sendOn (kind : String)
  | receiveFrom (kind : String)
  | indexKind (kind : String)
  | notIndexable (kind : String)
  | notAssignable (kind : String)
  | readProperty (property kind : String)
  | setProperty (property kind : String)
  /-- A result that the host cannot take, explained in its own words. -/
  | hostConversion (text : String)
deriving DecidableEq, Repr

/-- Why a block of instructions cannot be executed. -/
inductive Defect where
  | builtinIndex (index : Nat)
  | closureOver (kind : String)
  | missingCaptures (count : Nat)
  | superCallOn (kind : String)
  | returnWithoutFrame
  | emptyHandler
  | stackUnderflow
  | noFrame
  | truncated
  | localIndex (index : Nat)
  | freeIndex (index : Nat)
  | constantIndex (index : Nat)
  | nameConstant (kind : String)
deriving DecidableEq, Repr

/-- What went wrong. -/
inductive Cause where
  | typeMismatch (m : TypeMismatch)
  | divideByZero
  | indexOutOfBounds (index : Int64) (length : Nat)
  | unhashable (kind : String)
  | notCallable (kind : String)
  | arityMismatch (name : String) (expected got : Nat)
  | channelClosed
  | uncaught (value : Value)
  | stackOverflow
  | frameOverflow (limit : Nat)
  | unknownOpcode (byte : UInt8) (offset : Nat)
  | invalidBytecode (defect : Defect)

/-- A cause and where it arose; defects of the code itself have no place in a source text. -/
structure Fault where
  cause : Cause
  span : Option Span

namespace TypeMismatch

def message : TypeMismatch → String
  | .operands op l r => "Invalid operands for " ++ op.symbol ++ ": " ++ l ++ " and " ++ r
  | .negate k => "Cannot negate " ++ k
  | .channelCapacity t => "Channel capacity must be a non-negative integer, got " ++ t
  | .methodCall m k => "Cannot call method '" ++ m ++ "' on " ++ k
  | .sendOn k => "Cannot send on " ++ k
  | .receiveFrom k => "Cannot receive from " ++ k
  | .indexKind k => "Index must be an integer, got " ++ k
  | .notIndexable k => "Cannot index " ++ k
  | .notAssignable k => "Cannot assign into " ++ k
  | .readProperty p k => "Cannot read property '" ++ p ++ "' of " ++ k
  | .setProperty p k => "Cannot set property '" ++ p ++ "' on " ++ k
  | .hostConversion t => t

end TypeMismatch

namespace Defect

def message : Defect → String
  | .builtinIndex i => s!"builtin index {i} out of range"
  | .closureOver k => "closure over non-function constant " ++ k
  | .missingCaptures n => s!"closure expects {n} captured cells"
  | .superCallOn k => "super call on " ++ k
  | .returnWithoutFrame => "return without a frame"
  | .emptyHandler => "try region without catch or finally"
  | .stackUnderflow => "operand stack underflow"
  | .noFrame => "no active frame"
  | .truncated => "truncated instruction"
  | .localIndex i => s!"local {i} outside the stack"
  | .freeIndex i => s!"free variable {i} out of range"
  | .constantIndex i => s!"constant {i} out of range"
  | .nameConstant k => "expected name constant, found " ++ k

end Defect

namespace Cause

/-- Whether a `try` may recover. -/
def isCatchable : Cause → Bool
  | .uncaught _ | .stackOverflow | .frameOverflow _ | .unknownOpcode _ _ | .invalidBytecode _ =>
    false
  | _ => true

/-- Whether the cause is tied to a place in the program. -/
def hasPlace : Cause → Bool
  | .unknownOpcode _ _ | .invalidBytecode _ => false
  | _ => true

/-- Wording of a cause. -/
def message (h : Heap) : Cause → String
  | .typeMismatch m => "Type error: " ++ m.message
  | .divideByZero => "Division by zero"
  | .indexOutOfBounds i n => s!"Index {i.toInt} out of bounds for length {n}"
  | .unhashable k => "Unhashable type: " ++ k
  | .notCallable k => "Calling non-callable value of type " ++ k
  | .arityMismatch name expected got =>
    s!"Wrong number of arguments to {name}: expected {expected}, got {got}"
  | .channelClosed => "Send on closed channel"
  | .uncaught v => "Uncaught exception: " ++ h.render v
  | .stackOverflow => "Stack overflow"
  | .frameOverflow limit => s!"Frame overflow: call depth exceeded {limit}"
  | .unknownOpcode b offset =>
    "Unknown opcode 0x" ++ byteDigits true b ++ s!" at offset {offset}"
  | .invalidBytecode d => "Invalid bytecode: " ++ d.message

/-- Kind of a cause, for reports. -/
def kind : Cause → String
  | .typeMismatch _ => "TypeError"
  | .divideByZero => "DivideByZero"
  | .indexOutOfBounds _ _ => "IndexOutOfBounds"
  | .unhashable _ => "UnhashableType"
  | .notCallable _ => "NotCallable"
  | .arityMismatch _ _ _ => "ArityMismatch"
  | .channelClosed => "ChannelClosed"
  | .uncaught _ => "UncaughtThrow"
  | .stackOverflow => "StackOverflow"
  | .frameOverflow _ => "FrameOverflow"
  | .unknownOpcode _ _ => "UnknownOpcode"
  | .invalidBytecode _ => "InvalidBytecode"

/-- The fault of a cause that arose at `span`. -/
def placed (c : Cause) (span : Span) : Fault := ⟨c, if c.hasPlace then some span else none⟩

end Cause

namespace Fault

/-- The error value that a handler receives. -/
def toValue (h : Heap) (f : Fault) : Value := .error (f.cause.message h) f.span

end Fault

end ScriptMachine
