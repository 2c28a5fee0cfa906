import ScriptMachine.Compile.Constant
import ScriptMachine.Compile.Error

/-!
# Linking classes

After a unit is compiled, every new class is linked to its parent. A parent is looked up by name in
the whole pool, and the latest class of a name counts. The chain above each new class must end: it is
walked up to a class without parent or one that is linked already, and refused if a name on it is
unknown or comes up again. Nothing is linked unless every new class passes.
-/

namespace ScriptMachine

namespace Pool

/-- The class at a place. -/
def class? (p : Pool) (place : Nat) : Option ClassConstant := p[place]?.bind Constant.class?

/-- Place and content of the latest class of a name. -/
def lastClass? (p : Pool) (name : String) : Option (Nat × ClassConstant) :=
  (List.range p.size).reverse.findSome? fun place =>
    match p.class? place with
    | some c => if c.name == name then some (place, c) else none
    | none => none

/-- The classes from place `first` on that are not linked. -/
def newClasses (p : Pool) (first : Nat) : List (Nat × ClassConstant) :=
  (List.range p.size).filterMap fun place =>
    if first ≤ place then
      match p.class? place with
      | some c => if c.parent.isNone then some (place, c) else none
      | none => none
    else none

end Pool

namespace Link

/-- The span of a class declared in this unit. -/
def spanOf (spans : List (String × Span)) (name : String) : Span :=
  ((spans.find? fun e => e.1 == name).map (·.2)).getD .dummy

/-- Walk the chain above `current`, which started at the class `start`; `seen` holds the names met so
far. Every step adds a name of the pool, so `fuel` need not exceed the number of constants. -/
def walk (p : Pool) (spans : List (String × Span)) (start : String) :
    Nat → List String → ClassConstant → Except CompileError Unit
  | 0, _, _ => .error ⟨.inheritanceCycle start, spanOf spans start⟩
  | fuel + 1, seen, current =>
    match current.parentName, current.parent with
    | some parent, none =>
      match p.lastClass? parent with
      | none => .error ⟨.unknownParentClass current.name parent, spanOf spans current.name⟩
      | some (_, next) =>
        if seen.contains next.name then .error ⟨.inheritanceCycle start, spanOf spans start⟩
        else walk p spans start fuel (next.name :: seen) next
    | _, _ => .ok ()

/-- Walk the chains of all given classes. -/
def checkAll (p : Pool) (spans : List (String × Span)) :
    List (Nat × ClassConstant) → Except CompileError Unit
  | [] => .ok ()
  | (_, c) :: rest =>
    match walk p spans c.name (p.size + 1) [c.name] c with
    | .error e => .error e
    | .ok () => checkAll p spans rest

/-- The class linked to its parent in the pool. -/
def linked (p : Pool) (c : ClassConstant) : ClassConstant :=
  { c with parent := c.parentName.bind fun name => (p.lastClass? name).map (·.1) }

end Link

/-- Link the classes that were added from place `first` on. -/
def Pool.link (p : Pool) (spans : List (String × Span)) (first : Nat) : Except CompileError Pool :=
  let new := p.newClasses first
  match Link.checkAll p spans new with
  | .error e => .error e
  | .ok () => .ok (new.foldl (fun q e => q.setIfInBounds e.1 (.cls (Link.linked p e.2))) p)

end ScriptMachine
