import ScriptMachine.Text.Extender

/-!
# Quoted text

Strings inside containers, map keys and string constants in listings are written in double quotes.
A quote, a backslash and the common controls get a short escape; a character that cannot be seen by
itself is written as its code point in braces.
-/

namespace ScriptMachine.Text

/-- The digits of `n` in base sixteen, lower case, without leading zeros. -/
def hexDigits (n : Nat) : String := String.ofList (Nat.toDigits 16 n)

/-- One character inside quotes. -/
def quoteChar (c : Char) : String :=
  match c with
  | '"' => "\\\""
  | '\\' => "\\\\"
  | '\x00' => "\\0"
  | '\t' => "\\t"
  | '\r' => "\\r"
  | '\n' => "\\n"
  | c =>
    if isExtender c || isUnprintable c then "\\u\x7b" ++ hexDigits c.toNat ++ "\x7d"
    else String.singleton c

/-- Text in double quotes. -/
def quoted (s : String) : String :=
  "\"" ++ s.foldl (fun acc c => acc ++ quoteChar c) "" ++ "\""

end ScriptMachine.Text
