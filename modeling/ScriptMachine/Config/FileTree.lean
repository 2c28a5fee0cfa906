/-!
# Files and directories

A tree of files, and paths into it as they are written. A path keeps its text: an empty segment and
`.` lead nowhere, but they are answered again where the path is answered.

* `TreePath.ancestors` are the directories above a path, the nearest first.
* `FileTree.find` follows a path one segment after the other. Every segment needs a directory to be
  followed from, so that even an empty one after the name of a file leads astray.
-/

namespace ScriptMachine

/-- Whether a segment of a path stays where it is. -/
def isHere (segment : String) : Bool := segment == "" || segment == "."

/-- A path as it is written. -/
structure TreePath where
  /-- Whether it starts above all directories and not at the root of the tree. -/
  absolute : Bool
  /-- What stands between slashes; `..` goes up. -/
  segments : List String
deriving DecidableEq, Repr

namespace TreePath

/-- The path of a text. -/
def ofText (text : String) : TreePath :=
  match text.splitOn "/" with
  | "" :: segment :: rest => ⟨true, segment :: rest⟩
  | segments => ⟨false, segments⟩

/-- The text of a path. -/
def toText (p : TreePath) : String := (if p.absolute then "/" else "") ++ "/".intercalate p.segments

/-- The path to a name inside a directory. -/
def child (p : TreePath) (name : String) : TreePath := { p with segments := p.segments ++ [name] }

/-- The path without the segments at its ends that lead nowhere. -/
def trim (p : TreePath) : TreePath :=
  { p with segments := ((p.segments.dropWhile isHere).reverse.dropWhile isHere).reverse }

/-- Of segments in reverse, the parts that end in a name, the longest first, and the empty one. -/
def climb : List String → List (List String)
  | [] => [[]]
  | s :: above => if isHere s then climb above else (s :: above).reverse :: climb above

/-- The directories above a path, the nearest first. A path without names has none. -/
def ancestors (p : TreePath) : List TreePath :=
  (climb p.segments.reverse).tail.map fun segments => { p with segments }

/-- Most bytes of a name. -/
def maxName : Nat := 255

/-- Most bytes of a path. -/
def maxLength : Nat := 4095

/-- Whether a path may be followed at all: it is not too long and has no NUL in it. -/
def isSound (p : TreePath) : Bool :=
  p.toText.utf8ByteSize ≤ maxLength && !p.toText.contains '\x00'

end TreePath

/-- What stands under a path. -/
inductive Entry where
  | file (text : String)
  | directory
deriving DecidableEq, Repr

/-- Files and directories by the names on the way to them. -/
structure FileTree where
  entries : List (List String × Entry)
deriving Repr

/-- What looking for a path finds. -/
inductive Found where
  | entry (e : Entry)
  | missing
  /-- There is no looking: a file stands where a directory would have to, or the path or a name in it
  cannot be one. -/
  | blocked
deriving DecidableEq, Repr

namespace FileTree

/-- The tree that has nothing in it. -/
def empty : FileTree := ⟨[([], .directory)]⟩

/-- Put an entry at the end of segments, and directories on the way, starting at the names `here`. -/
def put (t : FileTree) (here : List String) (e : Entry) : List String → FileTree
  | [] => ⟨(here, e) :: t.entries⟩
  | s :: rest =>
    let next := if isHere s then here else if s == ".." then here.dropLast else here ++ [s]
    put ⟨(here, .directory) :: t.entries⟩ next e rest

/-- Put an entry at a path. -/
def insert (t : FileTree) (p : TreePath) (e : Entry) : FileTree := t.put [] e p.segments

/-- The entry under names; what was put there last counts. -/
def entry? (t : FileTree) (names : List String) : Option Entry := t.entries.lookup names

/-- Follow segments inside the tree, from the names `here`, or above its root. Above the root there
are directories, of which no entry is known. -/
def follow (t : FileTree) (here : Option (List String)) (segments : List String) : Found :=
  let entry := match here with
    | some names => t.entry? names
    | none => some .directory
  match segments, entry with
  | [], some e => .entry e
  | _, none => .missing
  | _ :: _, some (.file _) => .blocked
  | s :: rest, some .directory =>
    if isHere s then t.follow here rest
    else if s == ".." then
      let isRoot := here == some []
      t.follow (if isRoot then none else here.map List.dropLast) rest
    else if s.utf8ByteSize > TreePath.maxName then .blocked
    else
      match here with
      | some names => t.follow (some (names ++ [s])) rest
      | none => .missing

/-- Look for a path. -/
def find (t : FileTree) (p : TreePath) : Found :=
  if p.isSound then t.follow (if p.absolute then none else some []) p.segments else .blocked

/-- Whether there is anything at a path. -/
def has (t : FileTree) (p : TreePath) : Bool :=
  match t.find p with
  | .entry _ => true
  | _ => false

end FileTree

end ScriptMachine
