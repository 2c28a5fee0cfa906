import ScriptMachine.Compile.Constant
import ScriptMachine.Value.Heap

/-!
# Loading constants

Before a unit runs, its new constants become values. Functions, classes and methods get an identity
each; constants of earlier units keep the values they had.
-/

namespace ScriptMachine

namespace Pool

/-- Identities that a constant needs: one for itself and one for each method. -/
def identities : Constant → Nat
  | .function _ => 1
  | .cls c => 1 + c.methods.length
  | _ => 0

/-- The first identity of each of the given constants, counting from `next`, and the next unused
one. -/
def assignIds (next : Nat) : List Constant → List Nat × Nat
  | [] => ([], next)
  | c :: rest =>
    let (ids, last) := assignIds (next + identities c) rest
    (next :: ids, last)

/-- The class at a place: loaded earlier, or new with the identities of its place. The chain of parents
is at most `fuel` long. -/
def classAt? (p : Pool) (loaded : Array Value) (ids : Array Nat) : Nat → Nat → Option Class
  | 0, _ => none
  | fuel + 1, place =>
    if place < loaded.size then
      match loaded[place]? with
      | some (.cls c) => some c
      | _ => none
    else
      match p[place]? with
      | some (.cls c) =>
        let id := ids[place - loaded.size]?.getD 0
        some
          { id
            name := c.name
            parentName := c.parentName
            properties := c.properties
            methods := c.methods.mapIdx fun i m => (m.1, ⟨id + 1 + i, m.2, #[]⟩)
            parent := c.parent.bind (classAt? p loaded ids fuel) }
      | _ => none

/-- The value of a constant that is not loaded yet. -/
def valueAt (p : Pool) (loaded : Array Value) (ids : Array Nat) (place : Nat) : Value :=
  match p[place]? with
  | some (.int n) => .int n
  | some (.float x) => .float x
  | some (.str s) => .str s
  | some (.function f) => .function (ids[place - loaded.size]?.getD 0) f
  | some (.cls _) =>
    match classAt? p loaded ids (p.size + 1) place with
    | some c => .cls c
    | none => .null
  | _ => .null

/-- Load the constants that are not loaded yet. -/
def load (p : Pool) (loaded : Array Value) (h : Heap) : Array Value × Heap :=
  let new := p.toList.drop loaded.size
  let (ids, next) := assignIds h.nextId new
  let ids := ids.toArray
  let values := (List.range new.length).map fun i => p.valueAt loaded ids (loaded.size + i)
  (loaded ++ values.toArray, { h with nextId := next })

end Pool

end ScriptMachine
