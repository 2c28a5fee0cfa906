import ScriptMachine.Config.Basic
import ScriptMachine.Config.FileTree
import ScriptMachine.Decimal.Text
import ScriptMachine.Text.Blank
import ScriptMachine.Word

/-!
# Finding the configuration

The file `kestrel.toml` is looked for in a directory and then in the ones above it; the first one
found is used, and if there is none everything takes its default. Variables of the environment win
over the file.
-/

namespace ScriptMachine

/-- Variables and their values; the last one set counts. -/
abbrev Environment := List (String × String)

namespace Environment

def get? (env : Environment) (name : String) : Option String := env.reverse.lookup name

/-- Digits of a natural number below `2^64`, after an optional plus sign. -/
def readCount? (text : String) : Option Nat :=
  let digits := match text.toList with
    | '+' :: ds => ds
    | ds => ds
  if digits.isEmpty || !digits.all Char.isDigit then none
  else
    let n := Decimal.digitsValue digits
    if n < Word.limit64 then some n else none

/-- The number in a variable, if it is set. Blanks around it do not count. -/
def count (env : Environment) (name : String) (range : AllowedRange) :
    Except ConfigError (Option Nat) :=
  match env.get? name with
  | none => .ok none
  | some text =>
    match readCount? (Text.trimBlanks text) with
    | none => .error (.invalid name (.notANumber text))
    | some n => (range.check name n).map fun _ => some n

/-- Whether the text of a variable means yes. -/
def isYes (text : String) : Bool := ["true", "1", "yes"].contains text.toLower

/-- The configuration that the environment asks for. -/
def config (env : Environment) : Except ConfigError ProjectConfig := do
  let stackSize ← env.count "KESTREL_STACK_SIZE" .stackSize
  let maxFrames ← env.count "KESTREL_MAX_FRAMES" .maxFrames
  let globalsSize ← env.count "KESTREL_GLOBALS_SIZE" .globalsSize
  let vm : MachineLimits := ⟨stackSize, maxFrames, globalsSize⟩
  let optimize := (env.get? "KESTREL_OPTIMIZE").map isYes
  return {
    vm := if vm = {} then none else some vm
    compiler := optimize.map fun b => ⟨some b⟩ }

end Environment

/-- A configuration and the directory it belongs to, if a file was found. -/
structure LoadedConfig where
  project : ProjectConfig
  root : Option TreePath
deriving DecidableEq, Repr

namespace LoadedConfig

/-- Name of the file. -/
def fileName : String := "kestrel.toml"

def isProject (c : LoadedConfig) : Bool := c.root.isSome

def settings (c : LoadedConfig) : Settings := c.project.settings

/-- Read the file at a path. -/
def readFile (t : FileTree) (p : TreePath) : Except ConfigError ProjectConfig :=
  match t.find p with
  | .entry (.file text) => ProjectConfig.ofText text
  | .entry .directory | .blocked => .error .unreadable
  | .missing => .error .notFound

/-- Let the environment, if there is one, win over what was read. -/
def override (env : Option Environment) (c : ProjectConfig) : Except ConfigError ProjectConfig :=
  match env with
  | none => .ok c
  | some env => env.config.map c.merge

/-- Look for the file in a directory and then in those above it. -/
def search (t : FileTree) (start : TreePath) :
    Except ConfigError (Option TreePath × ProjectConfig) :=
  match (start :: start.ancestors).find? fun directory => t.has (directory.child fileName) with
  | some directory => (readFile t (directory.child fileName)).map fun c => (some directory.trim, c)
  | none => .ok (none, {})

/-- Load the configuration that applies in a directory, which need not exist. -/
def ofDirectory (t : FileTree) (env : Option Environment) (start : TreePath) :
    Except ConfigError LoadedConfig := do
  let (root, c) ← search t start
  return ⟨← override env c, root⟩

/-- Load the configuration in a given file. -/
def ofFile (t : FileTree) (env : Option Environment) (path : TreePath) :
    Except ConfigError LoadedConfig := do
  let c ← readFile t path
  return ⟨← override env c, path.ancestors.head?.map TreePath.trim⟩

end LoadedConfig

end ScriptMachine
