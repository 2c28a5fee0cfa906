import ScriptMachine.Value.Render

/-!
# Listings

Text of a compiled unit: its constants, its top-level block, and the block of every function among
its constants. A block that does not decode is replaced by the reason.
-/

namespace ScriptMachine.Listing

/-- Lines of a block. -/
def blockLines (code : Array UInt8) : List String :=
  match decode code with
  | .ok instructions => instructions.map Instruction.line
  | .error e => ["<" ++ e.message ++ ">"]

/-- Text of a constant; strings are quoted and a class names its parent. -/
def constantText (h : Heap) : Value → String
  | .str s => Text.quoted s
  | .function _ f => "<fn " ++ f.displayName ++ ">"
  | .cls c =>
    match c.parentName with
    | some parent => "<class " ++ c.name ++ " extends " ++ parent ++ ">"
    | none => "<class " ++ c.name ++ ">"
  | v => h.render v

/-- Lines of the constants, closed by an empty line; nothing if there are none. -/
def constantLines (h : Heap) (constants : List Value) : List String :=
  if constants.isEmpty then []
  else
    ["=== Constants ==="] ++ constants.mapIdx (fun i v => toString i ++ ": " ++ constantText h v)
      ++ [""]

/-- Lines of a function constant, after an empty line. -/
def functionLines (place : Nat) : Value → List String
  | .function _ f =>
    ["", s!"=== fn {f.displayName} (constant {place}, {f.locals} locals, {f.params} params) ==="]
      ++ blockLines f.code
  | _ => []

/-- The listing of a unit. -/
def text (h : Heap) (code : Array UInt8) (constants : List Value) : String :=
  let lines := constantLines h constants ++ ["=== Instructions ==="] ++ blockLines code
    ++ (constants.mapIdx functionLines).flatten
  lines.foldl (fun out line => out ++ line ++ "\n") ""

end ScriptMachine.Listing
