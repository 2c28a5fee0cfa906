import Std.Data.HashMap

/-!
# Names and what they stand for

Every function body has a scope of its own, inside the scope of the function around it; the outermost
scope holds globals and host functions. Blocks open no scope. A name found in an outer function's
scope becomes a free variable of every scope in between, so that each closure can be given the cell
it needs by the closure around it.
-/

namespace ScriptMachine

/-- Where a binding lives. -/
inductive Storage where
  | global
  | local
  | free
  | builtin
  /-- The function being defined. -/
  | functionSelf
deriving DecidableEq, Repr, Inhabited

/-- A resolved binding. -/
structure Symbol where
  name : String
  storage : Storage
  index : Nat
  constant : Bool
deriving DecidableEq, Repr, Inhabited

/-- Whether a binding may be assigned to. -/
def Symbol.isAssignable (s : Symbol) : Bool :=
  !s.constant && match s.storage with
    | .global | .local | .free => true
    | _ => false

/-- The bindings of one scope. -/
structure Scope where
  store : Std.HashMap String Symbol
  /-- Number of slots defined so far. -/
  definitions : Nat
  /-- The bindings captured from the scope around, in order of capture. -/
  free : Array Symbol
deriving Inhabited

namespace Scope

def empty : Scope := ⟨{}, 0, #[]⟩

/-- Bind a name to a symbol. -/
def insert (s : Scope) (symbol : Symbol) : Scope :=
  { s with store := s.store.insert symbol.name symbol }

/-- Declare a variable: one declared before in this scope keeps its slot, any other gets the next. -/
def define (s : Scope) (storage : Storage) (name : String) (constant : Bool) : Symbol × Scope :=
  let reused : Option Nat := match s.store[name]? with
    | some old => if old.storage = storage then some old.index else none
    | none => none
  match reused with
  | some index =>
    let symbol : Symbol := ⟨name, storage, index, constant⟩
    (symbol, s.insert symbol)
  | none =>
    let symbol : Symbol := ⟨name, storage, s.definitions, constant⟩
    (symbol, { s with definitions := s.definitions + 1 }.insert symbol)

/-- Capture a binding of the scope around as the next free variable. -/
def defineFree (s : Scope) (outer : Symbol) : Symbol × Scope :=
  let symbol : Symbol := ⟨outer.name, .free, s.free.size, outer.constant⟩
  (symbol, { s with free := s.free.push outer }.insert symbol)

end Scope

/-- The current scope and the scopes around it, innermost first. -/
structure SymbolTable where
  current : Scope
  outer : List Scope
deriving Inhabited

namespace SymbolTable

/-- An outermost scope without bindings. -/
def empty : SymbolTable := ⟨.empty, []⟩

def isGlobal (t : SymbolTable) : Bool := t.outer.isEmpty

/-- Enter the scope of a function body. -/
def enclose (t : SymbolTable) : SymbolTable := ⟨.empty, t.current :: t.outer⟩

/-- Leave the current scope for the one around it. -/
def leave? (t : SymbolTable) : Option SymbolTable :=
  match t.outer with
  | [] => none
  | s :: rest => some ⟨s, rest⟩

/-- Declare a variable in the current scope. -/
def define (t : SymbolTable) (name : String) (constant : Bool) : Symbol × SymbolTable :=
  let (symbol, current) := t.current.define (if t.isGlobal then .global else .local) name constant
  (symbol, { t with current })

/-- Bind a name in the current scope to a symbol of its own kind. -/
def bind (t : SymbolTable) (symbol : Symbol) : SymbolTable :=
  { t with current := t.current.insert symbol }

/-- Bind a host function by its number. -/
def defineBuiltin (t : SymbolTable) (index : Nat) (name : String) : Symbol × SymbolTable :=
  let symbol : Symbol := ⟨name, .builtin, index, true⟩
  (symbol, t.bind symbol)

/-- Bind the name of the function whose body the current scope belongs to. -/
def defineFunctionName (t : SymbolTable) (name : String) : Symbol × SymbolTable :=
  let symbol : Symbol := ⟨name, .functionSelf, 0, true⟩
  (symbol, t.bind symbol)

/-- The binding of a name in the current scope alone. -/
def lookup? (t : SymbolTable) (name : String) : Option Symbol := t.current.store[name]?

/-- Resolve a name from a scope outward. What lies in a function's scope further out is captured by
every scope on the way. -/
def resolveFrom (name : String) (scope : Scope) (outer : List Scope) :
    Option Symbol × Scope × List Scope :=
  match scope.store[name]? with
  | some symbol => (some symbol, scope, outer)
  | none =>
    match outer with
    | [] => (none, scope, [])
    | next :: rest =>
      match resolveFrom name next rest with
      | (none, next, rest) => (none, scope, next :: rest)
      | (some symbol, next, rest) =>
        match symbol.storage with
        | .global | .builtin => (some symbol, scope, next :: rest)
        | _ =>
          let (symbol, scope) := scope.defineFree symbol
          (some symbol, scope, next :: rest)
termination_by structural outer

/-- Resolve a name. -/
def resolve (t : SymbolTable) (name : String) : Option Symbol × SymbolTable :=
  match resolveFrom name t.current t.outer with
  | (symbol, current, outer) => (symbol, ⟨current, outer⟩)

end SymbolTable

end ScriptMachine
