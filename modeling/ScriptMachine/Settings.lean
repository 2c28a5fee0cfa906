/-!
# Settings

The limits under which a program runs, and whether it is optimised first.
-/

namespace ScriptMachine

/-- Effective settings. -/
structure Settings where
  /-- Slots of the operand stack. -/
  stackSize : Nat := 2048
  /-- Greatest depth of calls. -/
  maxFrames : Nat := 1024
  /-- Slots that the table of globals is prepared for. -/
  globalsSize : Nat := 65536
  /-- Whether constants are folded before compilation. -/
  optimize : Bool := true
deriving DecidableEq, Repr, Inhabited

end ScriptMachine
