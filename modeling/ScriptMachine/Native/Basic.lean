import ScriptMachine.Text.Quoted
import ScriptMachine.Value.Heap

/-!
# Host functions

A host function takes the arguments of a call and the heap and answers with a value; an error value
means failure. It may also crash, which ends the task that called it. A `Registry` gives the functions
of a session their numbers.
-/

namespace ScriptMachine

/-- What a host function came to. -/
inductive NativeOutcome where
  | value (v : Value)
  | crash (message : String)

/-- A host function; without an arity it takes any number of arguments. -/
structure Native where
  name : String
  arity : Option Nat
  body : Heap → List Value → NativeOutcome × Heap

namespace Native

/-- The error of a call with a wrong number of arguments. -/
def arityMessage (name : String) (expected got : Nat) : String :=
  let plural := if expected == 1 then "" else "s"
  s!"Function '{name}' expects {expected} argument{plural}, got {got}"

/-- Call a host function; a wrong number of arguments never reaches its body. -/
def call (n : Native) (h : Heap) (args : List Value) : NativeOutcome × Heap :=
  match n.arity with
  | some k =>
    if args.length == k then n.body h args
    else (.value (.error (arityMessage n.name k args.length) none), h)
  | none => n.body h args

/-- A host function that needs no heap. -/
def pure (name : String) (arity : Option Nat) (f : Heap → List Value → Value) : Native :=
  ⟨name, arity, fun h args => (.value (f h args), h)⟩

end Native

/-- Why a function cannot be registered. -/
inductive RegistryError where
  | duplicate (name : String)
  | full
deriving DecidableEq, Repr

def RegistryError.message : RegistryError → String
  | .duplicate name => s!"Native function '{name}' is already registered"
  | .full => "Native function table is full (256 entries)"

/-- The text of an attempt to make a host function without a body. -/
def missingBodyMessage (name : String) : String :=
  s!"Native function '{name}' missing implementation"

/-- A registered function: its name and its place in the table of host functions. -/
structure RegistryEntry where
  name : String
  id : Nat
deriving DecidableEq, Repr, Inhabited

/-- Registered functions; the position is the number that instructions use. -/
structure Registry where
  entries : Array RegistryEntry
deriving Inhabited

namespace Registry

/-- Numbers of functions fit one byte. -/
def capacity : Nat := 256

def empty : Registry := ⟨#[]⟩

def size (r : Registry) : Nat := r.entries.size

/-- The function with a given number. -/
def get? (r : Registry) (index : Nat) : Option Value :=
  r.entries[index]?.map fun e => .native e.id e.name

/-- The number of the function with a given name. -/
def lookup? (r : Registry) (name : String) : Option Nat :=
  r.entries.findIdx? fun e => e.name == name

/-- Give a function the next number. A name that is taken is refused first, then a full table. -/
def register (r : Registry) (name : String) (id : Nat) : Except RegistryError (Nat × Registry) :=
  if (r.lookup? name).isSome then .error (.duplicate name)
  else if capacity ≤ r.size then .error .full
  else .ok (r.size, ⟨r.entries.push ⟨name, id⟩⟩)

/-- Registered names in order. -/
def names (r : Registry) : List String := r.entries.toList.map (·.name)

/-- The list of names, for inspection. -/
def inspect (r : Registry) : String :=
  "[" ++ String.intercalate ", " (r.names.map Text.quoted) ++ "]"

end Registry

end ScriptMachine
