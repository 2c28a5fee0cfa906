/-!
# TOML documents

A document is a table of named values. A table remembers how it came to be, because that decides who
may still add to it:

* a table under its own header is closed once another header follows;
* a table that only stands on the way to a header may later get a header of its own;
* a table made by dotted keys takes further dotted keys, but no header;
* an inline table is complete as written.
-/

namespace ScriptMachine

/-- How a table came to be. -/
inductive TableOrigin where
  | header
  | underway
  | dotted
  | inline
deriving DecidableEq, Repr

/-- A value of a document. -/
inductive Toml where
  | int (n : Int)
  | bool (b : Bool)
  | text (s : String)
  /-- A float, as written. -/
  | float (token : String)
  /-- A date, a time or both, as written. -/
  | moment (token : String)
  | array (items : List Toml)
  | table (origin : TableOrigin) (fields : List (String × Toml))
  /-- Tables that share one header; the one written last comes first. -/
  | tables (items : List (List (String × Toml)))
deriving Inhabited

namespace Toml

/-- Named values in the order in which they were added. -/
abbrev Table := List (String × Toml)

namespace Table

/-- The value of a name. -/
def get? (t : Table) (name : String) : Option Toml := t.lookup name

/-- Give a name a value, in the place it has or at the end. -/
def put (t : Table) (name : String) (v : Toml) : Table :=
  match t with
  | [] => [(name, v)]
  | (n, w) :: rest => if n == name then (n, v) :: rest else (n, w) :: put rest name v

/-- Add a name that is not there yet. -/
def add (t : Table) (name : String) (v : Toml) : Option Table :=
  match t.get? name with
  | none => some (t.put name v)
  | some _ => none

/-- Change the table that a header's path leads to; missing tables on the way are made. -/
def under (path : List String) (change : Table → Option Table) (t : Table) : Option Table :=
  match path with
  | [] => change t
  | name :: rest =>
    match t.get? name with
    | none => (under rest change []).map fun inner => t.put name (.table .underway inner)
    | some (.table origin inner) =>
      if origin = .inline then none
      else (under rest change inner).map fun inner => t.put name (.table origin inner)
    | some (.tables (last :: before)) =>
      (under rest change last).map fun last => t.put name (.tables (last :: before))
    | some _ => none

/-- Add the value of a dotted key. Its path leads only through tables that dotted keys made. -/
def addDotted (path : List String) (name : String) (v : Toml) (t : Table) : Option Table :=
  match path with
  | [] => t.add name v
  | step :: rest =>
    match t.get? step with
    | none => (addDotted rest name v []).map fun inner => t.put step (.table .dotted inner)
    | some (.table .dotted inner) =>
      (addDotted rest name v inner).map fun inner => t.put step (.table .dotted inner)
    | some _ => none

/-- Open the table of a header. -/
def openHeader (name : String) (t : Table) : Option Table :=
  match t.get? name with
  | none => some (t.put name (.table .header []))
  | some (.table .underway inner) => some (t.put name (.table .header inner))
  | some _ => none

/-- Open one more of the tables that share a header. -/
def openNext (name : String) (t : Table) : Option Table :=
  match t.get? name with
  | none => some (t.put name (.tables [[]]))
  | some (.tables items) => some (t.put name (.tables ([] :: items)))
  | some _ => none

end Table

end Toml

end ScriptMachine
