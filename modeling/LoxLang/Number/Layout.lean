import LoxLang.Number.Decimal
/-! Two ways to write a number out: the token form of number tokens, which lays out the shortest
digits, and the display form that programs print, which is made of the token form. -/
namespace LoxLang

namespace Decimal

def digitChars (n : Nat) : List Char := Nat.toDigits 10 n

/-- The digits with a point where the exponent puts it, and without an exponent. An integer
has neither point nor fraction. -/
def positional (d : Decimal) : List Char :=
  let ds := digitChars d.digits
  if 0 ≤ d.exponent then ds ++ List.replicate d.exponent.toNat '0'
  else
    let places := (-d.exponent).toNat
    if places < ds.length then
      ds.take (ds.length - places) ++ '.' :: ds.drop (ds.length - places)
    else '0' :: '.' :: (List.replicate (places - ds.length) '0' ++ ds)

/-- The exponent of the first digit. -/
def order (d : Decimal) : Int := d.exponent + (digitChars d.digits).length - 1

def intChars (i : Int) : List Char :=
  if i < 0 then '-' :: digitChars i.natAbs else digitChars i.natAbs

/-- One digit, a fraction if there are more, `e`, the sign of the exponent and at least two
digits of it. -/
def signedExponent (d : Decimal) : List Char :=
  let size := digitChars d.order.natAbs
  let padded := if size.length < 2 then '0' :: size else size
  let exponent := 'e' :: (if d.order < 0 then '-' else '+') :: padded
  match digitChars d.digits with
  | [] => []
  | c :: rest => c :: ((if rest.isEmpty then [] else '.' :: rest) ++ exponent)

/-- The positional form in which an integer ends in `.0`. -/
def positionalWithPoint (d : Decimal) : List Char :=
  if 0 ≤ d.exponent then d.positional ++ ['.', '0'] else d.positional

end Decimal

def signed (negative : Bool) (cs : List Char) : List Char := if negative then '-' :: cs else cs

/-- The magnitudes that display without an exponent: zero and those from a thousandth up to,
but not including, ten million. -/
def Binary.isPlain (x : Binary) : Bool := x.isZero || (!x.lt ⟨1, -3⟩ && x.lt ⟨1, 7⟩)

/-- The token form: shortest digits, without an exponent when the first digit stands for at
least `10 ^ -4` and less than `10 ^ 16`. -/
def Parts.tokenForm : Parts → List Char
  | .notANumber => "nan".toList
  | .infinite negative => signed negative "inf".toList
  | .finite negative x =>
    let d := x.shortest
    signed negative
      (if -4 ≤ d.order ∧ d.order < 16 then d.positionalWithPoint else d.signedExponent)

/-- A text without the `.0` at its end, if it has one. -/
def withoutPoint (text : List Char) : List Char :=
  if ['.', '0'].isSuffixOf text then text.take (text.length - 2) else text

/-- The sign, the digits without leading zeros, and the exponent of the last digit, of a number
that a text writes. -/
structure DecimalTuple where
  negative : Bool
  digits : List Char
  exponent : Int
deriving DecidableEq

namespace DecimalTuple

def isExponentMark (c : Char) : Bool := c = 'e' || c = 'E'

/-- The exponent that a text ends in, behind its mark. -/
def exponentOf : List Char → Int
  | _ :: '-' :: digits => -(Nat.ofDigitChars 10 digits 0 : Int)
  | _ :: '+' :: digits => Nat.ofDigitChars 10 digits 0
  | _ :: digits => Nat.ofDigitChars 10 digits 0
  | [] => 0

/-- Reads a numeral. The digits behind the point lower the exponent. -/
def ofText (text : List Char) : DecimalTuple :=
  let negative := text.head? = some '-'
  let unsigned := if negative then text.tail else text
  let mantissa := unsigned.takeWhile (!isExponentMark ·)
  let whole := mantissa.takeWhile (· ≠ '.')
  let fraction := (mantissa.dropWhile (· ≠ '.')).tail
  ⟨negative, Decimal.digitChars (Nat.ofDigitChars 10 (whole ++ fraction) 0),
    exponentOf (unsigned.dropWhile (!isExponentMark ·)) - fraction.length⟩

/-- One digit, a point, at least one digit, `E` and the exponent of the first digit. Zeros at the
end of the digits are left out. -/
def scientific (t : DecimalTuple) : List Char :=
  let exponent := t.exponent + t.digits.length - 1
  let digits := (t.digits.reverse.dropWhile (· = '0')).reverse
  let digits := if digits = [] then ['0'] else digits
  let places := if digits.tail = [] then ['0'] else digits.tail
  signed t.negative (digits.take 1 ++ '.' :: (places ++ 'E' :: Decimal.intChars exponent))

end DecimalTuple

/-- The display form: the token form without a `.0` for the plain magnitudes, and its digits with
an exponent for the others. -/
def Parts.display : Parts → List Char
  | .notANumber => "NaN".toList
  | .infinite negative => signed negative "Infinity".toList
  | .finite negative x =>
    let text := (Parts.finite negative x).tokenForm
    if x.isPlain then withoutPoint text else (DecimalTuple.ofText text).scientific

/-- The text a program prints for a number. -/
def displayNumber (x : Float) : String := String.ofList (Parts.ofFloat x).display

/-- The text of a number in a listing of tokens. -/
def tokenNumber (x : Float) : String := String.ofList (Parts.ofFloat x).tokenForm

end LoxLang
