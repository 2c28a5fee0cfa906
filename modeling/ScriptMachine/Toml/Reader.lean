import ScriptMachine.Toml.Scalar

/-!
# Reading TOML

A document is read line by line: a header, a key with its value, or nothing, each with an optional
comment. Arrays may run over several lines, inline tables may not. Arrays and inline tables nest at
most `maxNesting` deep, and so do the names of a key.
-/

namespace ScriptMachine.Toml

/-- Greatest depth of nesting. -/
def maxNesting : Nat := 79

/-! ## Blanks and comments -/

/-- Skip blanks. -/
def skipBlanks (cs : List Char) : List Char := cs.dropWhile fun c => c == ' ' || c == '\t'

/-- Skip a comment. -/
def skipComment : List Char → List Char
  | '#' :: rest => rest.dropWhile isPlain
  | cs => cs

/-- The text after the end of the line; blanks and a comment may come before it. -/
def endLine? (cs : List Char) : Option (List Char) :=
  match skipComment (skipBlanks cs) with
  | [] => some []
  | '\n' :: rest => some rest
  | '\r' :: '\n' :: rest => some rest
  | _ => none

/-- Skip blanks, comments and line breaks. -/
def skipLines (inComment : Bool) : List Char → List Char
  | [] => []
  | '\n' :: rest => skipLines false rest
  | '\r' :: '\n' :: rest => skipLines false rest
  | c :: rest =>
    if inComment then if isPlain c then skipLines true rest else c :: rest
    else if c == ' ' || c == '\t' then skipLines false rest
    else if c == '#' then skipLines true rest
    else c :: rest

/-! ## Keys -/

/-- Whether a character may stand in an unquoted name. -/
def isNameChar (c : Char) : Bool := c.isAlphanum || c == '_' || c == '-'

/-- One name of a key. -/
def name? (cs : List Char) : Option (String × List Char) :=
  match cs with
  | '"' :: rest => (basicText? [] rest).map fun (s, rest) => (String.ofList s, rest)
  | '\'' :: rest => (literalText? [] rest).map fun (s, rest) => (String.ofList s, rest)
  | cs =>
    let name := cs.takeWhile isNameChar
    if name.isEmpty then none else some (String.ofList name, cs.dropWhile isNameChar)

/-- A key: names divided by points, as the path to the last of them and that one. At most `limit`
names come before the last. -/
def key? (limit : Nat) (path : List String) (cs : List Char) :
    Option ((List String × String) × List Char) :=
  match name? (skipBlanks cs) with
  | none => none
  | some (name, rest) =>
    match skipBlanks rest with
    | '.' :: rest =>
      match limit with
      | 0 => none
      | limit + 1 => key? limit (path ++ [name]) rest
    | rest => some ((path, name), rest)

/-! ## Values -/

/-- The items of an array after its opening bracket. -/
def arrayItems? (item : List Char → Option (Toml × List Char)) (done : List Toml) (cs : List Char) :
    Option (List Toml × List Char) :=
  match skipLines false cs with
  | ']' :: rest => some (done.reverse, rest)
  | start =>
    match item start with
    | none => none
    | some (v, rest) =>
      match skipLines false rest with
      | ']' :: rest => some ((v :: done).reverse, rest)
      | ',' :: rest =>
        if rest.length < cs.length then arrayItems? item (v :: done) rest else none
      | _ => none
termination_by cs.length

/-- A key with its value. -/
def pair (value : List Char → Option (Toml × List Char)) (cs : List Char) :
    Option (List String × String × Toml × List Char) := do
  let ((path, name), rest) ← key? (maxNesting - 1) [] cs
  match rest with
  | '=' :: rest =>
    let (v, rest) ← value (skipBlanks rest)
    some (path, name, v, rest)
  | _ => none

/-- The members of an inline table after its opening brace. -/
def inlineFields? (value : List Char → Option (Toml × List Char)) (done : Table) (cs : List Char) :
    Option (Table × List Char) :=
  match pair value cs with
  | none => none
  | some (path, name, v, rest) =>
    match done.addDotted path name v with
    | none => none
    | some done =>
      match skipBlanks rest with
      | '\x7d' :: rest => some (done, rest)
      | ',' :: rest =>
        if rest.length < cs.length then inlineFields? value done rest else none
      | _ => none
termination_by cs.length

/-- A value in which arrays and inline tables nest at most `nesting` deep. -/
def value? (nesting : Nat) (cs : List Char) : Option (Toml × List Char) :=
  match cs with
  | '[' :: rest =>
    match nesting with
    | 0 => none
    | nesting + 1 => (arrayItems? (value? nesting) [] rest).map fun (items, rest) => (.array items, rest)
  | '\x7b' :: rest =>
    match nesting with
    | 0 => none
    | nesting + 1 =>
      match skipBlanks rest with
      | '\x7d' :: rest => some (.table .inline [], rest)
      | rest =>
        (inlineFields? (value? nesting) [] rest).map fun (t, rest) => (.table .inline t, rest)
  | cs =>
    match quotedText? cs with
    | some (s, rest) => some (.text (String.ofList s), rest)
    | none =>
      let (token, rest) := splitToken cs
      (ofToken? token).map fun v => (v, rest)

/-! ## Documents -/

/-- A document while it is read: its root, and the path of the header under which keys now go. -/
structure Reading where
  root : Table
  header : List String

namespace Reading

/-- Add a key with its value under the current header. -/
def add (r : Reading) (path : List String) (name : String) (v : Toml) : Option Reading :=
  (r.root.under r.header (·.addDotted path name v)).map fun root => { r with root }

/-- Go on under a header; `next` tells a header of one table from that of several. -/
def enter (r : Reading) (next : Bool) (path : List String) (name : String) : Option Reading :=
  (r.root.under path (if next then (·.openNext name) else (·.openHeader name))).map fun root =>
    ⟨root, path ++ [name]⟩

/-- Read one line that is not blank. -/
def line (r : Reading) (cs : List Char) : Option (Reading × List Char) := do
  match cs with
  | '[' :: '[' :: rest =>
    let ((path, name), rest) ← key? (maxNesting - 1) [] rest
    match rest with
    | ']' :: ']' :: rest => some (← r.enter true path name, ← endLine? rest)
    | _ => none
  | '[' :: rest =>
    let ((path, name), rest) ← key? (maxNesting - 1) [] rest
    match rest with
    | ']' :: rest => some (← r.enter false path name, ← endLine? rest)
    | _ => none
  | cs =>
    let (path, name, v, rest) ← pair (value? maxNesting) cs
    some (← r.add path name v, ← endLine? rest)

/-- Read all lines. -/
def lines (r : Reading) (cs : List Char) : Option Table :=
  match skipLines false cs with
  | [] => some r.root
  | start =>
    match r.line start with
    | none => none
    | some (r, rest) => if rest.length < cs.length then lines r rest else none
termination_by cs.length

end Reading

/-- Read a document; a mark of byte order may stand in front. -/
def parse? (text : String) : Option Table :=
  let cs := match text.toList with
    | '\uFEFF' :: rest => rest
    | cs => cs
  Reading.lines ⟨[], []⟩ cs

end ScriptMachine.Toml
