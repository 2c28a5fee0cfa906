import ScriptMachine.Word

/-!
# Binary floating-point numbers as integers

A finite double is `± m · 2^q` for naturals `m` and an integer `q`. This module takes a double apart
into these numbers, puts it together again, and computes the exact remainder of a division.
-/

namespace ScriptMachine.Decimal

/-- A finite magnitude `m · 2^q`. -/
structure Binary64 where
  m : Nat
  q : Int
  /-- The gap to the value below is half the gap to the value above. -/
  narrowBelow : Bool
deriving DecidableEq, Repr

namespace Binary64

/-- The leading bit of a normal mantissa, which the bits of a double leave out: `2^52`. -/
def hiddenBit : Nat := 0x10000000000000

/-- The magnitude with the given bits; infinities and NaN have none and must be excluded first. -/
def ofBits (b : UInt64) : Binary64 :=
  let e := ((b >>> 52) &&& 0x7FF).toNat
  let f := (b &&& 0xFFFFFFFFFFFFF).toNat
  if e == 0 then ⟨f, -1074, false⟩ else ⟨hiddenBit + f, (e : Int) - 1075, f == 0 && e > 1⟩

/-- Whether the sign bit is set; `-0.0` counts as negative. -/
def signBit (x : Float) : Bool := x.toBits >>> 63 == 1

/-- Bits of `m · 2^q` for an `m` below `2^53` and a `q` of at least `-1074`: the mantissa is moved
up until it is normal or the exponent is least. -/
def packBits (negative : Bool) (m : Nat) (q : Int) : UInt64 :=
  let shift := min (52 - m.log2) (q + 1074).toNat
  let m' := m * Nat.pow 2 shift
  let exponent := q - shift
  let magnitude :=
    if m' < hiddenBit then m' else (exponent + 1075).toNat * hiddenBit + (m' - hiddenBit)
  (magnitude + (if negative then Word.limit63 else 0)).toUInt64

end Binary64

/-- Remainder of `x / y` with the sign of `x`, computed exactly: `x = y · n + r` with `n` the
quotient truncated toward zero. An infinite `y` leaves a finite `x` unchanged. -/
def remainder (x y : Float) : Float :=
  if x.isNaN || y.isNaN || x.isInf || y == 0.0 then 0.0 / 0.0
  else if y.isInf then x
  else
    let a := Binary64.ofBits x.toBits
    let b := Binary64.ofBits y.toBits
    let q := min a.q b.q
    let r := (a.m * Nat.pow 2 (a.q - q).toNat) % (b.m * Nat.pow 2 (b.q - q).toNat)
    Float.ofBits (Binary64.packBits (Binary64.signBit x) r q)

end ScriptMachine.Decimal
