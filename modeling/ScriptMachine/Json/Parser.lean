import ScriptMachine.Json.Token

/-!
# Reading JSON

The parser is a pushdown machine over tokens: open containers stand on a stack, so nesting costs no
recursion and a limit on it is a comparison.
-/

namespace ScriptMachine.Json

/-- An open container with what it holds so far, in reverse. -/
inductive Frame where
  | arr (done : List Json)
  | obj (done : List (String × Json)) (key : String)

/-- What may come next. -/
inductive Expect where
  | value
  | itemOrClose
  | keyOrClose
  | key
  | colon
  | commaOrClose
  | ended (j : Json)

/-- State of the parser. -/
structure Parsing where
  frames : List Frame
  depth : Nat
  expect : Expect

namespace Parsing

def start : Parsing := ⟨[], 0, .value⟩

/-- A value is complete: it ends the document or goes into the innermost container. -/
def deliver (frames : List Frame) (depth : Nat) (j : Json) : Parsing :=
  match frames with
  | [] => ⟨[], depth, .ended j⟩
  | .arr done :: rest => ⟨.arr (j :: done) :: rest, depth, .commaOrClose⟩
  | .obj done key :: rest => ⟨.obj ((key, j) :: done) key :: rest, depth, .commaOrClose⟩

/-- Close the innermost container with a bracket of its kind. -/
def close (s : Parsing) (isArray : Bool) : Option Parsing :=
  match s.frames, isArray with
  | .arr done :: rest, true => some (deliver rest (s.depth - 1) (.arr done.reverse))
  | .obj done _ :: rest, false => some (deliver rest (s.depth - 1) (.obj done.reverse))
  | _, _ => none

/-- The first token of a value; containers nest at most `limit` deep. -/
def stepValue (limit : Option Nat) (s : Parsing) (t : Token) : Option Parsing :=
  let fits := match limit with
    | some n => decide (s.depth < n)
    | none => true
  match t with
  | .scalar j => some (deliver s.frames s.depth j)
  | .openArray => if fits then some ⟨.arr [] :: s.frames, s.depth + 1, .itemOrClose⟩ else none
  | .openObject => if fits then some ⟨.obj [] "" :: s.frames, s.depth + 1, .keyOrClose⟩ else none
  | _ => none

/-- A key of the innermost object. -/
def stepKey (s : Parsing) (t : Token) : Option Parsing :=
  match t, s.frames with
  | .scalar (.str key), .obj done _ :: rest => some ⟨.obj done key :: rest, s.depth, .colon⟩
  | _, _ => none

/-- Read one token. -/
def step (limit : Option Nat) (s : Parsing) (t : Token) : Option Parsing :=
  match s.expect with
  | .value => stepValue limit s t
  | .itemOrClose =>
    match t with
    | .closeArray => s.close true
    | t => stepValue limit s t
  | .keyOrClose =>
    match t with
    | .closeObject => s.close false
    | t => stepKey s t
  | .key => stepKey s t
  | .colon =>
    match t with
    | .colon => some { s with expect := .value }
    | _ => none
  | .commaOrClose =>
    match t, s.frames with
    | .comma, .arr _ :: _ => some { s with expect := .value }
    | .comma, .obj _ _ :: _ => some { s with expect := .key }
    | .closeArray, _ => s.close true
    | .closeObject, _ => s.close false
    | _, _ => none
  | .ended _ => none

end Parsing

/-- The document that tokens make up, whose containers nest at most `limit` deep. -/
def ofTokens? (limit : Option Nat) (tokens : List Token) : Option Json := do
  let s ← tokens.foldlM (Parsing.step limit) Parsing.start
  match s.expect with
  | .ended j => some j
  | _ => none

/-- Read a whole text as one document whose containers nest at most `limit` deep. -/
def parse? (limit : Option Nat) (text : String) : Option Json :=
  (tokens? text).bind (ofTokens? limit)

/-! ## Members that nobody asks for -/

/-- The token, or one of its form if it has no value. -/
def Token.formal : Token → Token
  | .brokenString => .scalar (.str "")
  | .hugeNumber => .scalar .null
  | t => t

/-- Open containers after a token. -/
def Token.depthAfter (depth : Nat) : Token → Nat
  | .openArray | .openObject => depth + 1
  | .closeArray | .closeObject => depth - 1
  | _ => depth

/-- Go over tokens and make those formal that stand inside a member of the outermost object whose key
is not in `keys`. So many containers are open as `depth` says, `asked` tells whether the member at
hand counts, and `done` is what lies behind, in reverse. -/
def formalOutside (keys : List String) (depth : Nat) (asked : Bool) (done : List Token) :
    List Token → List Token
  | [] => done.reverse
  | .scalar (.str key) :: .colon :: rest =>
    let asked := if depth == 1 then keys.contains key else asked
    formalOutside keys depth asked (.colon :: .scalar (.str key) :: done) rest
  | t :: rest =>
    let asked := match depth, t with
      | 1, .comma => true
      | _, _ => asked
    formalOutside keys (t.depthAfter depth) asked ((if asked then t else t.formal) :: done) rest

/-- Read a whole text as one document of whose outermost object only the members with one of `keys`
are asked for. In all others strings and numbers need the right form, but no value. -/
def parseMembers? (keys : List String) (text : String) : Option Json :=
  (tokens? text).bind fun tokens => ofTokens? none (formalOutside keys 0 true [] tokens)

end ScriptMachine.Json
