import ScriptMachine.Ast.Decode
import ScriptMachine.Compile.Error
import ScriptMachine.Fault
import ScriptMachine.Json.Printer
import ScriptMachine.Word

/-!
# Diagnostics

A diagnostic is an error in the form in which it is shown or sent on: a stable code, a message, the
place, and remarks. Faults and compile errors both have one.

* `K0…` are faults that arise while a program runs.
* `K1…` are reasons to refuse a unit.
* `K9…` are defects of the code itself.
-/

namespace ScriptMachine

/-- An error as it is reported. -/
structure Diagnostic where
  /-- Version of the document form. -/
  version : Nat := 1
  code : String
  message : String
  file : String := "<unknown>"
  /-- Line, counted from one; zero when unknown. -/
  line : Nat
  /-- First byte of the place. -/
  offset : Nat
  /-- Bytes of the place. -/
  length : Nat
  /-- The line of source text; empty when unknown. -/
  snippet : String := ""
  notes : List String := []
  help : Option String := none
deriving DecidableEq, Repr

/-- Code of a cause. -/
def Cause.code : Cause → String
  | .typeMismatch _ => "K0001"
  | .notCallable _ => "K0002"
  | .arityMismatch _ _ _ => "K0003"
  | .unhashable _ => "K0004"
  | .divideByZero => "K0005"
  | .indexOutOfBounds _ _ => "K0006"
  | .channelClosed => "K0007"
  | .uncaught _ => "K0008"
  | .stackOverflow => "K0010"
  | .frameOverflow _ => "K0011"
  | .unknownOpcode _ _ => "K9998"
  | .invalidBytecode _ => "K9999"

/-- Code of a reason to refuse a unit; all exceeded limits share one. -/
def CompileCause.code : CompileCause → String
  | .unresolvedIdentifier _ => "K1001"
  | .unknownOperator _ => "K1002"
  | .malformedClassBody _ _ => "K1003"
  | .unknownParentClass _ _ => "K1004"
  | .inheritanceCycle _ => "K1005"
  | .invalidAssignmentTarget _ => "K1006"
  | .misplacedKeyword _ => "K1007"
  | .tooManyConstants | .tooManyLocals | .tooManyGlobals | .tooManyArguments | .jumpOutOfRange =>
    "K1010"

namespace Diagnostic

/-- An error at `span`. -/
def new (code message : String) (span : Span) : Diagnostic :=
  { code, message, line := span.line, offset := span.start, length := span.length }

/-- Add a remark. -/
def withNote (d : Diagnostic) (note : String) : Diagnostic := { d with notes := d.notes ++ [note] }

/-- The diagnostic of a fault. One that no handler can take says so. -/
def ofFault (h : Heap) (f : Fault) : Diagnostic :=
  let d := new f.cause.code (f.cause.message h) (f.span.getD .dummy)
  if f.cause.isCatchable then d else d.withNote "this error cannot be caught by `try`"

/-- The diagnostic of a compile error. -/
def ofCompileError (e : CompileError) : Diagnostic :=
  let d := new e.cause.code e.cause.message e.span
  match e.cause with
  | .invalidAssignmentTarget _ =>
    { d with help := some "only `let` bindings, array elements and properties can be assigned" }
  | _ => d

/-! ## Text -/

/-- One line: level, code and message. -/
def short (d : Diagnostic) : String := "error[" ++ d.code ++ "]: " ++ d.message

/-- Digits of a line number, set in at least two columns. -/
def gutter (line : Nat) : String := if line < 10 then s!" {line}" else toString line

/-- Several lines for a reader: message, place, source line, notes and help. -/
def human (d : Diagnostic) : String :=
  let snippet := if d.snippet.isEmpty then "" else "   |\n" ++ gutter d.line ++ " | " ++ d.snippet ++ "\n"
  let notes := String.join (d.notes.map fun note => "   = note: " ++ note ++ "\n")
  let help := match d.help with
    | some help => "   = help: " ++ help ++ "\n"
    | none => ""
  d.short ++ "\n" ++ "  --> " ++ d.file ++ s!":{d.line}\n" ++ snippet ++ notes ++ help

/-! ## Documents -/

/-- The document of a diagnostic; what is empty is left out. -/
def toJson (d : Diagnostic) : Json :=
  .obj <|
    [("diag_version", .int d.version), ("level", .str "error"), ("code", .str d.code),
      ("message", .str d.message), ("file", .str d.file), ("line", .int d.line),
      ("offset", .int d.offset), ("length", .int d.length)]
    ++ (if d.snippet.isEmpty then [] else [("snippet", .str d.snippet)])
    ++ (if d.notes.isEmpty then [] else [("notes", .arr (d.notes.map .str))])
    ++ (match d.help with
      | some help => [("help", .str help)]
      | none => [])

/-- Parts of a diagnostic in the order of its document. -/
def partNames : List String :=
  ["diag_version", "level", "code", "message", "file", "line", "offset", "length", "snippet",
    "notes", "help"]

/-- The parts of a document. In an array, the last three may be missing. -/
def parts? (j : Json) : Option (List (Option Json)) :=
  match j with
  | .arr items =>
    if 8 ≤ items.length ∧ items.length ≤ 11 then
      some (items.map some ++ List.replicate (11 - items.length) none)
    else none
  | j => j.parts? partNames

/-- A natural number of at most 32 bits. -/
def word? (j : Json) : Option Nat := j.nat?.filter (· < Word.limit32)

/-- Whether a document names the one level there is. -/
def isLevel (j : Json) : Bool :=
  match j.variant? with
  | some ("error", none) | some ("error", some .null) => true
  | _ => false

/-- Read a diagnostic. -/
def ofJson? (j : Json) : Option Diagnostic := do
  match ← parts? j with
  | [some version, some level, some code, some message, some file, some line, some offset,
      some length, snippet, notes, help] =>
    if isLevel level then
      some
        { version := ← word? version
          code := ← code.str?
          message := ← message.str?
          file := ← file.str?
          line := ← word? line
          offset := ← offset.nat?
          length := ← length.nat?
          snippet := ← (snippet.getD (.str "")).str?
          notes := ← (← (notes.getD (.arr [])).items?).mapM Json.str?
          help := ← Json.optional? Json.str? help }
    else none
  | _ => none

/-- Read a diagnostic from text. -/
def ofText? (text : String) : Option Diagnostic := (Json.parseMembers? partNames text).bind ofJson?

end Diagnostic

end ScriptMachine
