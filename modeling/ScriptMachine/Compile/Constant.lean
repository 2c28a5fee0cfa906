import ScriptMachine.Code.Function

/-!
# Constants

What a compiled unit puts into the constant pool. A class refers to its parent by its place in the
pool, once it is linked.
-/

namespace ScriptMachine

/-- A class as compiled. -/
structure ClassConstant where
  name : String
  parentName : Option String
  properties : List String
  /-- Methods in the order of their first declaration. -/
  methods : List (String × Function)
  /-- Place of the parent in the pool. -/
  parent : Option Nat
deriving Inhabited, DecidableEq

/-- A constant of the pool. -/
inductive Constant where
  | null
  | int (n : Int64)
  | float (x : Float)
  | str (s : String)
  | function (f : Function)
  | cls (c : ClassConstant)
deriving Inhabited

namespace Constant

def class? : Constant → Option ClassConstant
  | .cls c => some c
  | _ => none

def function? : Constant → Option Function
  | .function f => some f
  | _ => none

end Constant

/-- The constants of all units so far. -/
abbrev Pool := Array Constant

namespace Pool

/-- The largest pool. -/
def capacity : Nat := 65536

/-- The compiled functions of the pool. -/
def functions (p : Pool) : List Function := p.toList.filterMap Constant.function?

end Pool

end ScriptMachine
