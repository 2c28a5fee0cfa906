import ScriptMachine.Settings
import ScriptMachine.Toml.Reader

/-!
# Project configuration

A configuration has two sections, `vm` and `compiler`, and every entry may be absent. Configurations
merge entry by entry, are checked against the allowed ranges, and give settings once the absent
entries take their defaults.
-/

namespace ScriptMachine

/-- Limits of the machine. -/
structure MachineLimits where
  stackSize : Option Nat := none
  maxFrames : Option Nat := none
  globalsSize : Option Nat := none
deriving DecidableEq, Repr, Inhabited

/-- Choices of the compiler. -/
structure CompilerChoices where
  optimize : Option Bool := none
deriving DecidableEq, Repr, Inhabited

/-- A project configuration. -/
structure ProjectConfig where
  vm : Option MachineLimits := none
  compiler : Option CompilerChoices := none
deriving DecidableEq, Repr, Inhabited

/-- Why a value is refused. -/
inductive ValueDefect where
  | notANumber (text : String)
  | outOfRange (value low high : Nat)
deriving DecidableEq, Repr

/-- Why there is no configuration. -/
inductive ConfigError where
  | notFound
  | unreadable
  | malformed
  | invalid (field : String) (defect : ValueDefect)
deriving DecidableEq, Repr

/-- Wording of a defect. -/
def ValueDefect.message : ValueDefect → String
  | .notANumber text => "'" ++ text ++ "' is not a non-negative integer"
  | .outOfRange v low high => s!"{v} is outside the allowed range {low}..={high}"

/-- Kind of an error, for reports. -/
def ConfigError.kind : ConfigError → String
  | .notFound => "NotFound"
  | .unreadable => "IoError"
  | .malformed => "TomlParseError"
  | .invalid _ _ => "InvalidValue"

/-- Wording of an error; that of an unusable file depends on the file. -/
def ConfigError.message? : ConfigError → Option String
  | .invalid field defect => some ("Invalid value for '" ++ field ++ "': " ++ defect.message)
  | _ => none

/-- The values that an entry may have, ends included. -/
structure AllowedRange where
  low : Nat
  high : Nat
deriving DecidableEq, Repr

namespace AllowedRange

def stackSize : AllowedRange := ⟨16, 1048576⟩

def maxFrames : AllowedRange := ⟨1, 65536⟩

/-- Globals are numbered with sixteen bits. -/
def globalsSize : AllowedRange := ⟨0, 65536⟩

/-- Refuse a value outside of the range. -/
def check (r : AllowedRange) (field : String) (value : Nat) : Except ConfigError Unit :=
  if r.low ≤ value ∧ value ≤ r.high then .ok ()
  else .error (.invalid field (.outOfRange value r.low r.high))

/-- Check an entry that may be absent. -/
def check? (r : AllowedRange) (field : String) : Option Nat → Except ConfigError Unit
  | none => .ok ()
  | some value => r.check field value

end AllowedRange

namespace ProjectConfig

/-- Check all entries against their ranges; the first defect is reported. -/
def validate (c : ProjectConfig) : Except ConfigError Unit := do
  match c.vm with
  | none => .ok ()
  | some vm =>
    AllowedRange.stackSize.check? "vm.stack_size" vm.stackSize
    AllowedRange.maxFrames.check? "vm.max_frames" vm.maxFrames
    AllowedRange.globalsSize.check? "vm.globals_size" vm.globalsSize

/-- Merge sections; where both have one, `f` merges their entries. -/
def mergeSections {α : Type} [Inhabited α] (f : α → α → α) (base other : Option α) : Option α :=
  match other with
  | none => base
  | some o => some (f (base.getD default) o)

/-- Entries of `other` win over those of `base`. -/
def merge (base other : ProjectConfig) : ProjectConfig where
  vm := mergeSections (fun b o =>
    ⟨o.stackSize <|> b.stackSize, o.maxFrames <|> b.maxFrames, o.globalsSize <|> b.globalsSize⟩)
    base.vm other.vm
  compiler := mergeSections (fun b o => ⟨o.optimize <|> b.optimize⟩) base.compiler other.compiler

/-- Settings with defaults for what is absent. -/
def settings (c : ProjectConfig) : Settings :=
  let defaults : Settings := {}
  let vm := c.vm.getD {}
  let compiler := c.compiler.getD {}
  { stackSize := vm.stackSize.getD defaults.stackSize
    maxFrames := vm.maxFrames.getD defaults.maxFrames
    globalsSize := vm.globalsSize.getD defaults.globalsSize
    optimize := compiler.optimize.getD defaults.optimize }

@[simp] theorem merge_empty (c : ProjectConfig) : c.merge {} = c := by
  cases c
  rfl

end ProjectConfig

/-! ## From documents -/

namespace Toml

/-- The value of an entry that counts something. -/
def count? : Toml → Option Nat
  | .int n => if 0 ≤ n then some n.toNat else none
  | _ => none

/-- The value of an entry that switches something. -/
def switch? : Toml → Option Bool
  | .bool b => some b
  | _ => none

/-- Read an entry that may be absent. -/
def Table.entry? {α : Type} (read : Toml → Option α) (t : Table) (name : String) :
    Option (Option α) :=
  match t.get? name with
  | none => some none
  | some v => (read v).map some

/-- Whether a table has no other names than these. -/
def Table.hasOnly (t : Table) (names : List String) : Bool := t.all fun f => names.contains f.1

end Toml

/-- Read the limits of the machine: a table, or an array with one item for each entry. -/
def MachineLimits.ofToml? : Toml → Option MachineLimits
  | .table _ t =>
    if Toml.Table.hasOnly t ["stack_size", "max_frames", "globals_size"] then do
      some ⟨← Toml.Table.entry? Toml.count? t "stack_size",
        ← Toml.Table.entry? Toml.count? t "max_frames",
        ← Toml.Table.entry? Toml.count? t "globals_size"⟩
    else none
  | .array (stack :: frames :: globals :: _) => do
    some ⟨some (← stack.count?), some (← frames.count?), some (← globals.count?)⟩
  | _ => none

/-- Read the choices of the compiler: a table, or an array with one item for each entry. -/
def CompilerChoices.ofToml? : Toml → Option CompilerChoices
  | .table _ t =>
    if Toml.Table.hasOnly t ["optimize"] then do
      some ⟨← Toml.Table.entry? Toml.switch? t "optimize"⟩
    else none
  | .array (optimize :: _) => do some ⟨some (← optimize.switch?)⟩
  | _ => none

namespace ProjectConfig

/-- Read a configuration. Sections and entries must be known ones. -/
def ofTable? (t : Toml.Table) : Option ProjectConfig :=
  if Toml.Table.hasOnly t ["vm", "compiler"] then do
    some ⟨← Toml.Table.entry? MachineLimits.ofToml? t "vm",
      ← Toml.Table.entry? CompilerChoices.ofToml? t "compiler"⟩
  else none

/-- Read a configuration from text and check it. -/
def ofText (text : String) : Except ConfigError ProjectConfig := do
  match (Toml.parse? text).bind ofTable? with
  | none => .error .malformed
  | some config =>
    config.validate
    return config

end ProjectConfig

end ScriptMachine
