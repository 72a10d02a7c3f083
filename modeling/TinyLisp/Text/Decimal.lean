/-!
# Decimal numbers

Numbers are signed 64-bit words.  They are written in decimal, with a minus sign
in front of a negative one.  A written number is a run of digits that may hold
underscores; it is read as an unbounded natural number first and only then, with
its sign, put into the range of the words.
-/

namespace TinyLisp.Decimal

/-- The decimal form of an integer. -/
def write : Int → List Char
  | .ofNat n => Nat.toDigits 10 n
  | .negSucc n => '-' :: Nat.toDigits 10 (n + 1)

/-- The value of a run of digits; underscores count for nothing. -/
def value (digits : List Char) : Nat :=
  Nat.ofDigitChars 10 (digits.filter (· ≠ '_')) 0

/-- Half the number of words, which is two to the power of 63. -/
def half : Nat := 0x8000000000000000

/-- The word with the given magnitude and sign, if there is one.  The negative
range reaches one further than the positive one. -/
def word? (negative : Bool) (magnitude : Nat) : Option Int64 :=
  if negative then
    if magnitude ≤ half then some (Int64.ofInt (-magnitude)) else none
  else
    if magnitude < half then some (Int64.ofInt magnitude) else none

/-- Reads a run of digits with the sign that stands before it. -/
def read? (negative : Bool) (digits : String) : Option Int64 :=
  word? negative (value digits.toList)

end TinyLisp.Decimal
