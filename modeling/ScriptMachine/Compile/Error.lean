import ScriptMachine.Span

/-!
# Compile errors

Why a unit is refused, and where.
-/

namespace ScriptMachine

/-- What is wrong with a class body. -/
inductive ClassDefect where
  | unnamedMethod
  | notADeclaration
  | methodCaptures (method captured : String)
deriving DecidableEq, Repr

/-- A keyword in a place where it makes no sense. -/
inductive Misplaced where
  | returnOutsideFunction
  | breakOutsideLoop
  | continueOutsideLoop
  | superNotCalled
  | superOutsideSubclass
  | thisOutsideMethod
deriving DecidableEq, Repr

/-- Why a unit is refused. -/
inductive CompileCause where
  | unresolvedIdentifier (name : String)
  | unknownOperator (operator : String)
  | malformedClassBody (cls : String) (defect : ClassDefect)
  | unknownParentClass (cls parent : String)
  | inheritanceCycle (cls : String)
  | invalidAssignmentTarget (name : String)
  | misplacedKeyword (m : Misplaced)
  | tooManyConstants
  | tooManyLocals
  | tooManyGlobals
  | tooManyArguments
  | jumpOutOfRange
deriving DecidableEq, Repr

/-- A cause and where it arose. -/
structure CompileError where
  cause : CompileCause
  span : Span
deriving DecidableEq, Repr

def ClassDefect.message : ClassDefect → String
  | .unnamedMethod => "method literal without a name"
  | .notADeclaration => "only property and method declarations are allowed"
  | .methodCaptures m v => "method '" ++ m ++ "' captures local '" ++ v ++ "' of an enclosing function"

def Misplaced.keyword : Misplaced → String
  | .returnOutsideFunction => "return"
  | .breakOutsideLoop => "break"
  | .continueOutsideLoop => "continue"
  | .superNotCalled | .superOutsideSubclass => "super"
  | .thisOutsideMethod => "this"

/-- Where the keyword would belong. -/
def Misplaced.context : Misplaced → String
  | .returnOutsideFunction => "a function"
  | .breakOutsideLoop | .continueOutsideLoop => "a loop"
  | .superNotCalled => "a method call"
  | .superOutsideSubclass => "a subclass method"
  | .thisOutsideMethod => "a class method"

namespace CompileCause

def message : CompileCause → String
  | .unresolvedIdentifier n => "Unresolved identifier '" ++ n ++ "'"
  | .unknownOperator o => "Unknown operator '" ++ o ++ "'"
  | .malformedClassBody c d => "Malformed body of class '" ++ c ++ "': " ++ d.message
  | .unknownParentClass c p => "Class '" ++ c ++ "' extends unknown class '" ++ p ++ "'"
  | .inheritanceCycle c => "Inheritance cycle involving class '" ++ c ++ "'"
  | .invalidAssignmentTarget n => "Cannot assign to '" ++ n ++ "'"
  | .misplacedKeyword m => "'" ++ m.keyword ++ "' used outside of " ++ m.context
  | .tooManyConstants => "Too many constants in one program (limit 65536)"
  | .tooManyLocals => "Too many local variables in one function (limit 256)"
  | .tooManyGlobals => "Too many global variables (limit 65536)"
  | .tooManyArguments => "Too many arguments in one call (limit 255)"
  | .jumpOutOfRange => "Instruction block too large for a jump target"

/-- Kind of a cause, for reports. -/
def kind : CompileCause → String
  | .unresolvedIdentifier _ => "UnresolvedIdentifier"
  | .unknownOperator _ => "UnknownOperator"
  | .malformedClassBody _ _ => "MalformedClassBody"
  | .unknownParentClass _ _ => "UnknownParentClass"
  | .inheritanceCycle _ => "InheritanceCycle"
  | .invalidAssignmentTarget _ => "InvalidAssignmentTarget"
  | .misplacedKeyword _ => "MisplacedKeyword"
  | .tooManyConstants => "TooManyConstants"
  | .tooManyLocals => "TooManyLocals"
  | .tooManyGlobals => "TooManyGlobals"
  | .tooManyArguments => "TooManyArguments"
  | .jumpOutOfRange => "JumpOutOfRange"

end CompileCause

end ScriptMachine
