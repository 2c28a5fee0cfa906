import ScriptMachine.Decimal.Binary64

/-!
# The fewest digits that read back

Every double stands for an interval of reals: those that round to it. `Binary64.shortest` finds the
decimal with the fewest digits in that interval, and among those the one nearest to the double. It
searches the decimal grids from coarse to fine in exact arithmetic on naturals.
-/

namespace ScriptMachine.Decimal

/-- The decimal `digits · 10^exp`. -/
structure Dec where
  digits : Nat
  exp : Int
deriving DecidableEq, Repr

/-- Compare `a · 10^i` with `n · 2^j`. -/
def compareScaled (a : Nat) (i : Int) (n : Nat) (j : Int) : Ordering :=
  compare (a * Nat.pow 10 i.toNat * Nat.pow 2 (-j).toNat) (n * Nat.pow 2 j.toNat * Nat.pow 10 (-i).toNat)

namespace Binary64

/-- Whether the decimal `d` lies among the reals that round to `x`, ends included iff `x.m` is
even. -/
def readsBack (x : Binary64) (d : Dec) : Bool :=
  let lo := if x.narrowBelow then 4 * x.m - 1 else 4 * x.m - 2
  let hi := 4 * x.m + 2
  let inclusive := x.m % 2 == 0
  let below := compareScaled d.digits d.exp lo (x.q - 2)
  let above := compareScaled d.digits d.exp hi (x.q - 2)
  (below == .gt || (inclusive && below == .eq)) && (above == .lt || (inclusive && above == .eq))

/-- The least `k` with `x < 10^k`: estimated from the binary logarithm, which is off by at most two,
and corrected by exact comparison. -/
def scale (x : Binary64) : Int :=
  let estimate := Int.fdiv (((x.m.log2 : Int) + x.q) * 30103) 100000 - 1
  let candidates := [estimate, estimate + 1, estimate + 2, estimate + 3]
  (candidates.find? fun k => compareScaled 1 k x.m x.q == .gt).getD (estimate + 4)

/-- `⌊x / 10^k⌋`. -/
def gridFloor (x : Binary64) (k : Int) : Nat :=
  (x.m * Nat.pow 2 x.q.toNat * Nat.pow 10 (-k).toNat)
    / (Nat.pow 2 (-x.q).toNat * Nat.pow 10 k.toNat)

/-- The neighbours of `x` on the grid `10^k` that read back; of two, the nearer one, and on a tie the
larger. -/
def onGrid (x : Binary64) (k : Int) : Option Dec :=
  let d := x.gridFloor k
  let low : Dec := ⟨d, k⟩
  let high : Dec := ⟨d + 1, k⟩
  match x.readsBack low, x.readsBack high with
  | true, true =>
    -- twice the value against the sum of both neighbours
    if compareScaled (2 * d + 1) k (2 * x.m) x.q == .gt then some low else some high
  | true, false => some low
  | false, true => some high
  | false, false => none

end Binary64

/-- Move trailing zeros of the digits into the exponent. -/
def Dec.strip (fuel : Nat) (d : Dec) : Dec :=
  match fuel with
  | 0 => d
  | fuel + 1 =>
    if d.digits != 0 && d.digits % 10 == 0 then Dec.strip fuel ⟨d.digits / 10, d.exp + 1⟩ else d

/-- The exact decimal value. -/
def Binary64.exact (x : Binary64) : Dec :=
  ⟨x.m * Nat.pow 2 x.q.toNat * Nat.pow 5 (-x.q).toNat, min x.q 0⟩

/-- The shortest decimal that reads back as the nonzero `x`. Seventeen digits always suffice; the
exact value stands in for what cannot happen. -/
def Binary64.shortest (x : Binary64) : Dec :=
  let k := x.scale
  match (List.range 17).findSome? fun n => x.onGrid (k - (n + 1 : Nat)) with
  | some d => d.strip 20
  | none => x.exact

end ScriptMachine.Decimal
