import ScriptMachine.Decimal.Shortest

/-!
# Float text

How floats are written in values, listings and documents, and how decimal text is read.
-/

namespace ScriptMachine.Decimal

/-- Layout of a float: a magnitude `10^low ≤ x < 10^high`, and zero, is written positionally, all
others with an exponent. -/
structure FloatLayout where
  low : Int
  high : Int
  /-- Whether a positional number without fraction digits gets `.0`. -/
  pointZero : Bool
deriving DecidableEq, Repr

/-- Floats are positional from `10^-4` up to but not including `10^16` and always show a fraction
digit. -/
def valueLayout : FloatLayout := ⟨-4, 16, true⟩

/-- `n` zeros. -/
def zeros (n : Nat) : String := String.ofList (List.replicate n '0')

/-- Lay out the nonzero decimal `d`. -/
def FloatLayout.magnitude (style : FloatLayout) (d : Dec) : String :=
  let ds := (toString d.digits).toList
  let n := ds.length
  -- the first digit stands for `10^lead`
  let lead := d.exp + n - 1
  if style.low ≤ lead && lead < style.high then
    if 0 ≤ d.exp then
      String.ofList ds ++ zeros d.exp.toNat ++ (if style.pointZero then ".0" else "")
    else if 0 ≤ lead then
      let whole := (lead + 1).toNat
      String.ofList (ds.take whole) ++ "." ++ String.ofList (ds.drop whole)
    else
      "0." ++ zeros (-(lead + 1)).toNat ++ String.ofList ds
  else
    let fraction := match ds.drop 1 with
      | [] => ""
      | rest => "." ++ String.ofList rest
    String.ofList (ds.take 1) ++ fraction ++ "e" ++ toString lead

/-- Text of any float: `NaN` and the infinities by name, zero with its sign. -/
def FloatLayout.text (style : FloatLayout) (x : Float) : String :=
  if x.isNaN then "NaN"
  else
    let sign := if Binary64.signBit x then "-" else ""
    if x.isInf then sign ++ "inf"
    else
      let b := Binary64.ofBits x.toBits
      if b.m == 0 then sign ++ "0" ++ (if style.pointZero then ".0" else "")
      else sign ++ style.magnitude b.shortest

/-- Text of a float value. -/
def floatText (x : Float) : String := valueLayout.text x

/-! ## Reading -/

/-- The value of a run of decimal digits. -/
def digitsValue (ds : List Char) : Nat :=
  ds.foldl (fun n c => n * 10 + (c.toNat - '0'.toNat)) 0

/-- The double nearest to `digits · 10^exp`. Exponents far outside the range of doubles are settled
without computing the power. -/
def nearest (digits : Nat) (exp : Int) : Float :=
  if digits == 0 then 0.0
  else
    let lead := exp + (Nat.log2 digits : Int) * 30103 / 100000
    if lead > 400 then 1.0 / 0.0
    else if lead < -400 then 0.0
    else Float.ofScientific digits (decide (exp < 0)) exp.natAbs

/-- Split off an exponent `e…` or `E…`; `none` if one starts and has no digits. -/
def readExponent (cs : List Char) : Option (Int × List Char) :=
  match cs with
  | e :: rest =>
    if e == 'e' || e == 'E' then
      let (negative, rest) := match rest with
        | '-' :: r => (true, r)
        | '+' :: r => (false, r)
        | r => (false, r)
      let ds := rest.takeWhile Char.isDigit
      if ds.isEmpty then none
      else
        let n : Int := digitsValue ds
        some (if negative then -n else n, rest.dropWhile Char.isDigit)
    else some (0, cs)
  | [] => some (0, [])

/-- Read a signed decimal number, `inf`, `infinity` or `nan` in any case. A number needs a digit
before or after its point. -/
def readFloat? (text : String) : Option Float :=
  let (negative, body) := match text.toList with
    | '-' :: r => (true, r)
    | '+' :: r => (false, r)
    | r => (false, r)
  let signed (x : Float) : Float := if negative then -x else x
  let word := String.ofList (body.map Char.toLower)
  if word == "inf" || word == "infinity" then some (signed (1.0 / 0.0))
  else if word == "nan" then some (0.0 / 0.0)
  else
    let whole := body.takeWhile Char.isDigit
    let rest := body.dropWhile Char.isDigit
    let (fraction, rest) := match rest with
      | '.' :: r => (r.takeWhile Char.isDigit, r.dropWhile Char.isDigit)
      | r => ([], r)
    if whole.isEmpty && fraction.isEmpty then none
    else
      match readExponent rest with
      | some (e, []) => some (signed (nearest (digitsValue (whole ++ fraction)) (e - fraction.length)))
      | _ => none

end ScriptMachine.Decimal
