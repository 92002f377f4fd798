/-! Binary fractions, decimals, and the shortest decimal that reads back as a given
binary fraction. All comparisons are exact, on natural numbers. -/
namespace LoxLang

/-- A finite magnitude `significand * 2 ^ exponent`. -/
structure Binary where
  significand : Nat
  exponent : Int
  /-- The gap to the next smaller magnitude is half the gap to the next larger one. -/
  narrowBelow : Bool
deriving DecidableEq

/-- The number `digits * 10 ^ exponent`. -/
structure Decimal where
  digits : Nat
  exponent : Int
deriving DecidableEq

/-- A 64-bit number taken apart. -/
inductive Parts where
  | notANumber
  | infinite (negative : Bool)
  | finite (negative : Bool) (magnitude : Binary)
deriving DecidableEq

namespace Binary

/-- The magnitude with the given biased exponent (below 2047) and fraction. -/
def ofFields (biased fraction : Nat) : Binary :=
  if biased = 0 then ⟨fraction, -1074, false⟩
  else ⟨Nat.pow 2 52 + fraction, (biased : Int) - 1075, fraction = 0 ∧ 1 < biased⟩

/-- Compares `a * 2 ^ i` with `b * 10 ^ j`. -/
def compareScaled (a : Nat) (i : Int) (b : Nat) (j : Int) : Ordering :=
  compare (a * Nat.pow 2 i.toNat * Nat.pow 10 (-j).toNat)
    (b * Nat.pow 10 j.toNat * Nat.pow 2 (-i).toNat)

def isZero (x : Binary) : Bool := x.significand = 0

/-- The magnitude is below the decimal. -/
def lt (x : Binary) (d : Decimal) : Bool :=
  compareScaled x.significand x.exponent d.digits d.exponent = .lt

/-- The decimal lies among the numbers that round to this magnitude, to nearest with ties
to the even significand: between the two midpoints to its neighbours, which belong to it
exactly when its own significand is even. -/
def readsBack (x : Binary) (d : Decimal) : Bool :=
  let below := if x.narrowBelow then 4 * x.significand - 1 else 4 * x.significand - 2
  let above := 4 * x.significand + 2
  let low := compareScaled below (x.exponent - 2) d.digits d.exponent
  let high := compareScaled above (x.exponent - 2) d.digits d.exponent
  if x.significand % 2 = 0 then low != .gt && high != .lt else low = .lt && high = .gt

/-- How many whole steps of `10 ^ e` the magnitude holds. -/
def steps (x : Binary) (e : Int) : Nat :=
  (x.significand * Nat.pow 2 x.exponent.toNat * Nat.pow 10 (-e).toNat)
    / (Nat.pow 10 e.toNat * Nat.pow 2 (-x.exponent).toNat)

/-- The least `k` with the magnitude below `10 ^ k`, for a magnitude other than zero. The
binary logarithm gives it up to one. -/
def scale (x : Binary) : Int :=
  let guess := (Int.ofNat x.significand.log2 + x.exponent) * 30103 / 100000 + 1
  if x.lt ⟨1, guess⟩ then guess else guess + 1

/-- The decimal of the grid `10 ^ e` nearest to the magnitude among its two neighbours there
that read back; of two equally near ones the even. -/
def onGrid? (x : Binary) (e : Int) : Option Decimal :=
  let n := x.steps e
  let down : Decimal := ⟨n, e⟩
  let up : Decimal := ⟨n + 1, e⟩
  match x.readsBack down, x.readsBack up with
  | false, false => none
  | true, false => some down
  | false, true => some up
  | true, true =>
    match compareScaled (2 * x.significand) x.exponent (2 * n + 1) e with
    | .lt => some down
    | .gt => some up
    | .eq => some (if n % 2 = 0 then down else up)

end Binary

namespace Decimal

/-- The same number without trailing zeros among its digits. -/
def strip (d : Decimal) : Decimal :=
  if h : d.digits ≠ 0 ∧ d.digits % 10 = 0 then strip ⟨d.digits / 10, d.exponent + 1⟩ else d
termination_by d.digits
decreasing_by exact Nat.div_lt_self (Nat.pos_of_ne_zero h.1) (by decide)

end Decimal

/-- The magnitude written out in full. -/
def Binary.exact (x : Binary) : Decimal :=
  ⟨x.significand * Nat.pow 2 x.exponent.toNat * Nat.pow 5 (-x.exponent).toNat,
    -((-x.exponent).toNat : Int)⟩

/-- The decimal with the fewest digits that reads back as the magnitude, the nearest of
those. Seventeen digits always suffice; the exact value stands behind them. -/
def Binary.shortest (x : Binary) : Decimal :=
  if x.isZero then ⟨0, 0⟩
  else
    let k := x.scale
    let found := (List.range 17).findSome? fun (n : Nat) => x.onGrid? (k - n - 1)
    (found.getD x.exact).strip

/-- Takes a 64-bit pattern apart: sign, biased exponent and fraction. -/
def Parts.ofBits (bits : UInt64) : Parts :=
  let n := bits.toNat
  let negative := decide (Nat.pow 2 63 ≤ n)
  let biased := n / Nat.pow 2 52 % Nat.pow 2 11
  let fraction := n % Nat.pow 2 52
  if biased = 2047 then if fraction = 0 then .infinite negative else .notANumber
  else .finite negative (Binary.ofFields biased fraction)

def Parts.ofFloat (x : Float) : Parts := ofBits x.toBits

end LoxLang
