import ScriptMachine.Decimal.Text
import ScriptMachine.Toml.Basic
import ScriptMachine.Word

/-!
# Scalars of TOML

Unquoted values are maximal runs of letters, digits and `+ - . : _`; a date and a time may also be
divided by one blank. What a run means is decided by its form alone. Quoted text comes in four kinds:
with escapes or without, on one line or on several.
-/

namespace ScriptMachine.Toml

/-- Whether a character may stand in text and comments: all but the controls, and the tab. -/
def isPlain (c : Char) : Bool := c == '\t' || (0x20 ≤ c.toNat && c.toNat != 0x7F)

/-! ## Integers -/

/-- Value of a digit in bases up to sixteen. -/
def digitValue? (base : Nat) (c : Char) : Option Nat :=
  let n :=
    if c.isDigit then c.toNat - '0'.toNat
    else if 'a' ≤ c ∧ c ≤ 'f' then c.toNat - 'a'.toNat + 10
    else if 'A' ≤ c ∧ c ≤ 'F' then c.toNat - 'A'.toNat + 10
    else base
  if n < base then some n else none

/-- Value of digits of which two may be divided by one underscore; `afterDigit` says whether an
underscore may come now. -/
def digits? (base : Nat) (afterDigit : Bool) (value : Nat) : List Char → Option Nat
  | [] => if afterDigit then some value else none
  | '_' :: rest => if afterDigit then digits? base false value rest else none
  | c :: rest => (digitValue? base c).bind fun d => digits? base true (value * base + d) rest

/-- Decimal digits without a leading zero. -/
def decimal? (cs : List Char) : Option Nat :=
  match cs with
  | '0' :: _ :: _ => none
  | cs => digits? 10 false 0 cs

/-- Split off a sign; `true` is minus. -/
def splitSign : List Char → Bool × List Char
  | '-' :: rest => (true, rest)
  | '+' :: rest => (false, rest)
  | cs => (false, cs)

/-- An integer in the range of signed 64-bit words: signed decimal, or unsigned in another base. -/
def integer? (cs : List Char) : Option Int := do
  let n ← match cs with
    | '0' :: 'x' :: ds => (digits? 16 false 0 ds).map Int.ofNat
    | '0' :: 'o' :: ds => (digits? 8 false 0 ds).map Int.ofNat
    | '0' :: 'b' :: ds => (digits? 2 false 0 ds).map Int.ofNat
    | cs =>
      let (minus, ds) := splitSign cs
      (decimal? ds).map fun n => if minus then -(n : Int) else n
  if Word.isSigned64 n then some n else none

/-! ## Floats -/

/-- Whether a character may stand in the digits of a float. -/
def isDigitOrBar (c : Char) : Bool := c.isDigit || c == '_'

/-- Whether this is the exponent of a float. -/
def isExponent : List Char → Bool
  | 'e' :: cs | 'E' :: cs => (digits? 10 false 0 (splitSign cs).2).isSome
  | _ => false

/-- Whether an unsigned text is a decimal integer followed by a fraction, an exponent or both. -/
def isFraction (body : List Char) : Bool :=
  (decimal? (body.takeWhile isDigitOrBar)).isSome &&
    match body.dropWhile isDigitOrBar with
    | '.' :: r =>
      let rest := r.dropWhile isDigitOrBar
      (digits? 10 false 0 (r.takeWhile isDigitOrBar)).isSome && (rest.isEmpty || isExponent rest)
    | r => isExponent r

/-- Whether the digits of an unsigned float stand for a number beyond the range of doubles. -/
def isHuge (body : List Char) : Bool :=
  match Decimal.readFloat? (String.ofList (body.filter (· != '_'))) with
  | some x => x.isInf
  | none => false

/-- Whether this is a float: `inf`, `nan` or digits, with or without a sign. Digits beyond the range
of doubles are taken for minus infinity after a minus sign and refused otherwise. -/
def isFloat (cs : List Char) : Bool :=
  let (minus, body) := splitSign cs
  if body = "inf".toList ∨ body = "nan".toList then true
  else isFraction body && (minus || !isHuge body)

/-! ## Dates and times -/

/-- A number written with two digits. -/
def pair? : List Char → Option (Nat × List Char)
  | a :: b :: rest => do
    some ((← digitValue? 10 a) * 10 + (← digitValue? 10 b), rest)
  | _ => none

/-- Days of a month. -/
def daysOf (year month : Nat) : Nat :=
  if month = 2 then
    if year % 4 = 0 ∧ (year % 100 ≠ 0 ∨ year % 400 = 0) then 29 else 28
  else if month = 4 ∨ month = 6 ∨ month = 9 ∨ month = 11 then 30
  else 31

/-- Read over a date. -/
def skipDate? (cs : List Char) : Option (List Char) := do
  let (century, cs) ← pair? cs
  let (year, cs) ← pair? cs
  match cs with
  | '-' :: cs =>
    let (month, cs) ← pair? cs
    match cs with
    | '-' :: cs =>
      let (day, cs) ← pair? cs
      let fits := 1 ≤ month ∧ month ≤ 12 ∧ 1 ≤ day ∧ day ≤ daysOf (century * 100 + year) month
      if fits then some cs else none
    | _ => none
  | _ => none

/-- Read over hours and minutes. -/
def skipMinutes? (cs : List Char) : Option (List Char) := do
  let (hour, cs) ← pair? cs
  match cs with
  | ':' :: cs =>
    let (minute, cs) ← pair? cs
    if hour < 24 ∧ minute < 60 then some cs else none
  | _ => none

/-- Read over a time of day. -/
def skipTime? (cs : List Char) : Option (List Char) := do
  match ← skipMinutes? cs with
  | ':' :: cs =>
    let (second, cs) ← pair? cs
    if second ≤ 60 then
      match cs with
      | '.' :: c :: cs => if c.isDigit then some (cs.dropWhile Char.isDigit) else none
      | cs => some cs
    else none
  | _ => none

/-- Whether this is the distance to universal time, or nothing. -/
def isOffset : List Char → Bool
  | [] | ['Z'] | ['z'] => true
  | '+' :: cs | '-' :: cs => skipMinutes? cs == some []
  | _ => false

/-- Whether this is a date, a time, or a date and a time. -/
def isMoment (cs : List Char) : Bool :=
  skipTime? cs == some [] ||
    match skipDate? cs with
    | some [] => true
    | some (divider :: time) =>
      (divider == 'T' || divider == 't' || divider == ' ') &&
        match skipTime? time with
        | some offset => isOffset offset
        | none => false
    | none => false

/-! ## Unquoted values -/

/-- Whether a character may stand in an unquoted value. -/
def isTokenChar (c : Char) : Bool :=
  c.isAlphanum || c == '+' || c == '-' || c == '.' || c == ':' || c == '_'

/-- The unquoted value at the front, and the rest. -/
def splitToken (cs : List Char) : List Char × List Char :=
  let token := cs.takeWhile isTokenChar
  match skipDate? token, cs.dropWhile isTokenChar with
  | some [], ' ' :: c :: rest =>
    if c.isDigit then (token ++ ' ' :: (c :: rest).takeWhile isTokenChar, rest.dropWhile isTokenChar)
    else (token, ' ' :: c :: rest)
  | _, rest => (token, rest)

/-- The value of an unquoted token. -/
def ofToken? (token : List Char) : Option Toml :=
  if token = "true".toList then some (.bool true)
  else if token = "false".toList then some (.bool false)
  else
    match integer? token with
    | some n => some (.int n)
    | none =>
      if isFloat token then some (.float (String.ofList token))
      else if isMoment token then some (.moment (String.ofList token))
      else none

/-! ## Quoted text -/

/-- The character with the given code in base sixteen; halves of surrogate pairs are none. -/
def charOfHex? (ds : List Char) : Option Char := do
  let n ← ds.foldlM (fun n c => (digitValue? 16 c).map (n * 16 + ·)) 0
  if n < 0xD800 ∨ (0xE000 ≤ n ∧ n < 0x110000) then some (Char.ofNat n) else none

/-- The character of a one-letter escape. -/
def escaped? : Char → Option Char
  | 'b' => some '\x08'
  | 't' => some '\t'
  | 'n' => some '\n'
  | 'f' => some '\x0c'
  | 'r' => some '\r'
  | '"' => some '"'
  | '\\' => some '\\'
  | _ => none

/-- Text with escapes, up to its closing quote; `done` is reversed. -/
def basicText? (done : List Char) : List Char → Option (List Char × List Char)
  | '"' :: rest => some (done.reverse, rest)
  | '\\' :: 'u' :: a :: b :: c :: d :: rest =>
    (charOfHex? [a, b, c, d]).bind fun x => basicText? (x :: done) rest
  | '\\' :: 'U' :: a :: b :: c :: d :: e :: f :: g :: h :: rest =>
    (charOfHex? [a, b, c, d, e, f, g, h]).bind fun x => basicText? (x :: done) rest
  | '\\' :: c :: rest => (escaped? c).bind fun x => basicText? (x :: done) rest
  | c :: rest => if isPlain c then basicText? (c :: done) rest else none
  | [] => none

/-- Text without escapes, up to its closing quote. -/
def literalText? (done : List Char) : List Char → Option (List Char × List Char)
  | '\'' :: rest => some (done.reverse, rest)
  | c :: rest => if isPlain c then literalText? (c :: done) rest else none
  | [] => none

/-- Whether the rest of the line is blank. -/
def endsLine (cs : List Char) : Bool :=
  match cs.dropWhile fun c => c == ' ' || c == '\t' with
  | '\n' :: _ | '\r' :: '\n' :: _ => true
  | _ => false

/-- Text with escapes over several lines, up to three closing quotes, before which two more belong to
the text. A backslash at the end of a line joins the next text to it; `joining` skips what lies
between. -/
def longBasicText? (joining : Bool) (done : List Char) : List Char → Option (List Char × List Char)
  | '\r' :: '\n' :: rest => longBasicText? joining (if joining then done else '\n' :: done) rest
  | '\n' :: rest => longBasicText? joining (if joining then done else '\n' :: done) rest
  | '"' :: '"' :: '"' :: '"' :: '"' :: rest => some (('"' :: '"' :: done).reverse, rest)
  | '"' :: '"' :: '"' :: '"' :: rest => some (('"' :: done).reverse, rest)
  | '"' :: '"' :: '"' :: rest => some (done.reverse, rest)
  | '\\' :: 'u' :: a :: b :: c :: d :: rest =>
    (charOfHex? [a, b, c, d]).bind fun x => longBasicText? false (x :: done) rest
  | '\\' :: 'U' :: a :: b :: c :: d :: e :: f :: g :: h :: rest =>
    (charOfHex? [a, b, c, d, e, f, g, h]).bind fun x => longBasicText? false (x :: done) rest
  | '\\' :: c :: rest =>
    if endsLine (c :: rest) then longBasicText? true done rest
    else (escaped? c).bind fun x => longBasicText? false (x :: done) rest
  | c :: rest =>
    if joining && (c == ' ' || c == '\t') then longBasicText? true done rest
    else if isPlain c then longBasicText? false (c :: done) rest
    else none
  | [] => none

/-- Text without escapes over several lines. -/
def longLiteralText? (done : List Char) : List Char → Option (List Char × List Char)
  | '\'' :: '\'' :: '\'' :: '\'' :: '\'' :: rest => some (('\'' :: '\'' :: done).reverse, rest)
  | '\'' :: '\'' :: '\'' :: '\'' :: rest => some (('\'' :: done).reverse, rest)
  | '\'' :: '\'' :: '\'' :: rest => some (done.reverse, rest)
  | '\r' :: '\n' :: rest => longLiteralText? ('\n' :: done) rest
  | '\n' :: rest => longLiteralText? ('\n' :: done) rest
  | c :: rest => if isPlain c then longLiteralText? (c :: done) rest else none
  | [] => none

/-- A line break right after the opening quotes is not part of the text. -/
def dropBreak : List Char → List Char
  | '\r' :: '\n' :: rest => rest
  | '\n' :: rest => rest
  | cs => cs

/-- Quoted text of any kind. -/
def quotedText? : List Char → Option (List Char × List Char)
  | '"' :: '"' :: '"' :: rest => longBasicText? false [] (dropBreak rest)
  | '\'' :: '\'' :: '\'' :: rest => longLiteralText? [] (dropBreak rest)
  | '"' :: rest => basicText? [] rest
  | '\'' :: rest => literalText? [] rest
  | _ => none

end ScriptMachine.Toml
