/-!
# Insertion-ordered dictionaries

Entries keep the order in which their keys were first inserted. Writing an existing key keeps its
place, and keeps the key as it was first written.
-/

namespace ScriptMachine

/-- A dictionary with entries in insertion order. -/
structure Dict (κ ν : Type) where
  entries : Array (κ × ν)
deriving Inhabited

namespace Dict

variable {κ ν : Type} [BEq κ]

def empty : Dict κ ν := ⟨#[]⟩

/-- Number of entries. -/
def size (d : Dict κ ν) : Nat := d.entries.size

/-- Entries in order. -/
def toList (d : Dict κ ν) : List (κ × ν) := d.entries.toList

/-- The value of a key. -/
def get? (d : Dict κ ν) (k : κ) : Option ν := (d.entries.find? fun e => e.1 == k).map (·.2)

/-- Whether a key is present. -/
def contains (d : Dict κ ν) (k : κ) : Bool := d.entries.any fun e => e.1 == k

/-- Bind a key: an existing entry gets the new value in place, a new one goes to the end. -/
def insert (d : Dict κ ν) (k : κ) (v : ν) : Dict κ ν :=
  match d.entries.findIdx? fun e => e.1 == k with
  | some i => ⟨d.entries.modify i fun e => (e.1, v)⟩
  | none => ⟨d.entries.push (k, v)⟩

/-- Bind a list of keys from the left. -/
def ofList (entries : List (κ × ν)) : Dict κ ν :=
  entries.foldl (fun d e => d.insert e.1 e.2) empty

/-- The keys in order. -/
def keys (d : Dict κ ν) : List κ := d.toList.map (·.1)

/-- The values in order. -/
def values (d : Dict κ ν) : List ν := d.toList.map (·.2)

end Dict

end ScriptMachine
