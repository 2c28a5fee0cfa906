import ScriptMachine.Decimal.Text
import ScriptMachine.Json.Basic

/-!
# Writing JSON

Two layouts: `compact` without any blanks, and `pretty` with one member or item a line, indented by
two blanks. Both write the same tokens.
-/

namespace ScriptMachine.Json

/-- Two digits in base sixteen. -/
def hexByte (n : Nat) : String :=
  String.ofList [Nat.digitChar (n / 16 % 16), Nat.digitChar (n % 16)]

/-- One character of a string: quotes, backslashes and controls are escaped, all else is itself. -/
def escapeChar (c : Char) : String :=
  match c with
  | '"' => "\\\""
  | '\\' => "\\\\"
  | '\x08' => "\\b"
  | '\x0c' => "\\f"
  | '\n' => "\\n"
  | '\r' => "\\r"
  | '\t' => "\\t"
  | c => if c.toNat < 0x20 then "\\u00" ++ hexByte c.toNat else String.singleton c

/-- A string token appended to `out`. -/
def writeString (out : String) (s : String) : String :=
  (s.foldl (fun acc c => acc ++ escapeChar c) (out ++ "\"")) ++ "\""

/-- Number token of a float; JSON has no token for infinities and NaN, which are `null`. -/
def floatToken (x : Float) : String :=
  if x.isNaN || x.isInf then "null" else Decimal.floatText x

mutual

/-- Append a document without blanks. -/
def write (out : String) : Json → String
  | .null => out ++ "null"
  | .bool b => out ++ (if b then "true" else "false")
  | .int n => out ++ toString n
  | .float x => out ++ floatToken x
  | .str s => writeString out s
  | .arr items => writeItems (out.push '[') items true ++ "]"
  | .obj fields => writeFields (out.push '\x7b') fields true ++ "\x7d"
termination_by structural j => j

/-- Append items, separated by commas. -/
def writeItems (out : String) : List Json → Bool → String
  | [], _ => out
  | j :: js, first => writeItems (write (if first then out else out.push ',') j) js false
termination_by structural js => js

/-- Append members, separated by commas. -/
def writeFields (out : String) : List (String × Json) → Bool → String
  | [], _ => out
  | (k, j) :: js, first =>
    let out := writeString (if first then out else out.push ',') k
    writeFields (write (out.push ':') j) js false
termination_by structural js => js

end

/-- The document without blanks. -/
def compact (j : Json) : String := write "" j

/-- A new line indented for `level` open containers. -/
def newLine (level : Nat) : String := "\n" ++ String.ofList (List.replicate (2 * level) ' ')

mutual

/-- The document laid out over lines, its first line at the current position. An empty container is
written without a line break. -/
def layout (level : Nat) : Json → String
  | .null => "null"
  | .bool b => if b then "true" else "false"
  | .int n => toString n
  | .float x => floatToken x
  | .str s => writeString "" s
  | .arr [] => "[]"
  | .arr (j :: js) =>
    "[" ++ newLine (level + 1) ++ layout (level + 1) j ++ layoutItems (level + 1) js
      ++ newLine level ++ "]"
  | .obj [] => "\x7b\x7d"
  | .obj ((k, j) :: js) =>
    "\x7b" ++ newLine (level + 1) ++ writeString "" k ++ ": " ++ layout (level + 1) j
      ++ layoutFields (level + 1) js ++ newLine level ++ "\x7d"
termination_by structural j => j

/-- The items after the first, each on its line. -/
def layoutItems (level : Nat) : List Json → String
  | [] => ""
  | j :: js => "," ++ newLine level ++ layout level j ++ layoutItems level js
termination_by structural js => js

/-- The members after the first, each on its line. -/
def layoutFields (level : Nat) : List (String × Json) → String
  | [] => ""
  | (k, j) :: js =>
    "," ++ newLine level ++ writeString "" k ++ ": " ++ layout level j ++ layoutFields level js
termination_by structural js => js

end

/-- The document over lines, indented by two blanks. -/
def pretty (j : Json) : String := layout 0 j

end ScriptMachine.Json
