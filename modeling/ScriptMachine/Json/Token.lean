import ScriptMachine.Decimal.Text
import ScriptMachine.Json.Basic
import ScriptMachine.Word

/-!
# Tokens of JSON text

The lexer is a machine that reads one character at a time: `Lexing.step` moves from mode to mode and
emits tokens. Strings are decoded and numbers are evaluated while lexing. The text must be strict:
no leading zeros, no raw controls in strings. A string with half of a surrogate pair and a number
beyond the range of doubles have the right form but no value, and are tokens of their own.
-/

namespace ScriptMachine.Json

/-- A token; scalars arrive as documents. -/
inductive Token where
  | openArray
  | closeArray
  | openObject
  | closeObject
  | comma
  | colon
  | scalar (j : Json)
  /-- A string in which half of a surrogate pair is escaped. -/
  | brokenString
  /-- A number beyond the range of doubles. -/
  | hugeNumber

/-! ## Numbers -/

/-- Greatest integer that is kept exactly. -/
def maxInt : Nat := Word.limit64 - 1

/-- The token of a double with magnitude `x`. -/
def doubleToken (negative : Bool) (x : Float) : Token :=
  if x.isInf then .hugeNumber else .scalar (.float (if negative then -x else x))

/-- The token of an integer: inside the range of 64-bit words it is exact, `-0` and all others are
doubles. -/
def integerToken (negative : Bool) (n : Nat) : Token :=
  if !negative && n ≤ maxInt then .scalar (.int n)
  else if negative && 0 < n && n ≤ Word.limit63 then .scalar (.int (-(n : Int)))
  else doubleToken negative (Decimal.nearest n 0)

/-- Read a number. -/
def readNumber (cs : List Char) : Option Token :=
  let (negative, body) := match cs with
    | '-' :: r => (true, r)
    | r => (false, r)
  let whole := body.takeWhile Char.isDigit
  let rest := body.dropWhile Char.isDigit
  let wholeOk := match whole with
    | [] => false
    | ['0'] => true
    | c :: _ => c != '0'
  if !wholeOk then none
  else if rest.isEmpty then some (integerToken negative (Decimal.digitsValue whole))
  else
    let fraction? : Option (List Char × List Char) := match rest with
      | '.' :: r =>
        let ds := r.takeWhile Char.isDigit
        if ds.isEmpty then none else some (ds, r.dropWhile Char.isDigit)
      | r => some ([], r)
    match fraction? with
    | none => none
    | some (fraction, rest) =>
      match Decimal.readExponent rest with
      | some (e, []) =>
        let digits := Decimal.digitsValue (whole ++ fraction)
        some (doubleToken negative (Decimal.nearest digits (e - fraction.length)))
      | _ => none

/-! ## The lexer -/

/-- What the lexer is in the middle of. Text already read stands in reverse; a string has none once
half of a surrogate pair stood in it. -/
inductive Mode where
  | between
  | word (acc : List Char)
  | number (acc : List Char)
  | string (acc : Option (List Char))
  | escape (acc : Option (List Char))
  /-- `count` digits of a `\u` escape read, with value `n`; `high` is the first half of a pair. -/
  | unicode (acc : Option (List Char)) (high : Option Nat) (count n : Nat)
  /-- The first half of a pair has been read; a backslash should follow. -/
  | half (acc : Option (List Char)) (high : Nat)
  /-- The backslash has been read; a `u` should follow. -/
  | halfEscape (acc : Option (List Char)) (high : Nat)

/-- State of the lexer: tokens emitted so far, in reverse, and the mode. -/
structure Lexing where
  emitted : List Token
  mode : Mode

/-- The scalar named by a word. -/
def wordScalar (acc : List Char) : Option Json :=
  match String.ofList acc.reverse with
  | "null" => some .null
  | "true" => some (.bool true)
  | "false" => some (.bool false)
  | _ => none

/-- Value of a digit in base sixteen. -/
def hexValue (c : Char) : Option Nat :=
  if '0' ≤ c && c ≤ '9' then some (c.toNat - '0'.toNat)
  else if 'a' ≤ c && c ≤ 'f' then some (c.toNat - 'a'.toNat + 10)
  else if 'A' ≤ c && c ≤ 'F' then some (c.toNat - 'A'.toNat + 10)
  else none

namespace Lexing

def start : Lexing := ⟨[], .between⟩

/-- A character between tokens. -/
def stepBetween (emitted : List Token) (c : Char) : Option Lexing :=
  match c with
  | ' ' | '\t' | '\n' | '\r' => some ⟨emitted, .between⟩
  | '[' => some ⟨.openArray :: emitted, .between⟩
  | ']' => some ⟨.closeArray :: emitted, .between⟩
  | '\x7b' => some ⟨.openObject :: emitted, .between⟩
  | '\x7d' => some ⟨.closeObject :: emitted, .between⟩
  | ',' => some ⟨.comma :: emitted, .between⟩
  | ':' => some ⟨.colon :: emitted, .between⟩
  | '"' => some ⟨emitted, .string (some [])⟩
  | c =>
    if c.isDigit || c == '-' then some ⟨emitted, .number [c]⟩
    else if c.isAlpha then some ⟨emitted, .word [c]⟩
    else none

/-- Whether a character can continue a number. -/
def isNumberChar (c : Char) : Bool :=
  c.isDigit || c == '.' || c == 'e' || c == 'E' || c == '+' || c == '-'

/-- The text of a short escape. -/
def shortEscape (c : Char) : Option Char :=
  match c with
  | '"' => some '"'
  | '\\' => some '\\'
  | '/' => some '/'
  | 'b' => some '\x08'
  | 'f' => some '\x0c'
  | 'n' => some '\n'
  | 'r' => some '\r'
  | 't' => some '\t'
  | _ => none

/-- The token of a string. -/
def stringToken (acc : Option (List Char)) : Token :=
  match acc with
  | some cs => .scalar (.str (String.ofList cs.reverse))
  | none => .brokenString

/-- A character of a string. -/
def stepString (emitted : List Token) (acc : Option (List Char)) (c : Char) : Option Lexing :=
  if c == '"' then some ⟨stringToken acc :: emitted, .between⟩
  else if c == '\\' then some ⟨emitted, .escape acc⟩
  else if c.toNat < 0x20 then none
  else some ⟨emitted, .string (acc.map (c :: ·))⟩

/-- The character after a backslash. -/
def stepEscape (emitted : List Token) (acc : Option (List Char)) (c : Char) : Option Lexing :=
  if c == 'u' then some ⟨emitted, .unicode acc none 0 0⟩
  else (shortEscape c).map fun d => ⟨emitted, .string (acc.map (d :: ·))⟩

/-- The four digits of an escape have value `n`: a full character, the first half of a pair, or the
second half that completes `high`. A half that stands alone leaves no text. -/
def closeUnicode (acc : Option (List Char)) (high : Option Nat) (n : Nat) : Mode :=
  match high with
  | none =>
    if 0xDC00 ≤ n && n ≤ 0xDFFF then .string none
    else if 0xD800 ≤ n && n ≤ 0xDBFF then .half acc n
    else .string (acc.map (Char.ofNat n :: ·))
  | some h =>
    if 0xDC00 ≤ n && n ≤ 0xDFFF then
      .string (acc.map (Char.ofNat (0x10000 + (h - 0xD800) * 0x400 + (n - 0xDC00)) :: ·))
    else .string none

/-- Read one character. -/
def step (s : Lexing) (c : Char) : Option Lexing :=
  match s.mode with
  | .between => stepBetween s.emitted c
  | .word acc =>
    if c.isAlpha then some ⟨s.emitted, .word (c :: acc)⟩
    else do
      let j ← wordScalar acc
      stepBetween (.scalar j :: s.emitted) c
  | .number acc =>
    if isNumberChar c then some ⟨s.emitted, .number (c :: acc)⟩
    else do
      let token ← readNumber acc.reverse
      stepBetween (token :: s.emitted) c
  | .string acc => stepString s.emitted acc c
  | .escape acc => stepEscape s.emitted acc c
  | .unicode acc high count n => do
    let d ← hexValue c
    if count == 3 then some ⟨s.emitted, closeUnicode acc high (n * 16 + d)⟩
    else some ⟨s.emitted, .unicode acc high (count + 1) (n * 16 + d)⟩
  | .half acc high =>
    if c == '\\' then some ⟨s.emitted, .halfEscape acc high⟩ else stepString s.emitted none c
  | .halfEscape acc high =>
    if c == 'u' then some ⟨s.emitted, .unicode acc (some high) 0 0⟩ else stepEscape s.emitted none c

/-- End of text: only a word or a number may still be open. -/
def finish (s : Lexing) : Option (List Token) :=
  match s.mode with
  | .between => some s.emitted.reverse
  | .word acc => (wordScalar acc).map fun j => (Token.scalar j :: s.emitted).reverse
  | .number acc => (readNumber acc.reverse).map fun token => (token :: s.emitted).reverse
  | _ => none

end Lexing

/-- The tokens of a text. -/
def tokens? (text : String) : Option (List Token) :=
  (text.toList.foldlM Lexing.step Lexing.start).bind Lexing.finish

end ScriptMachine.Json
