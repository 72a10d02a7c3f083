/-!
# Blank lines

White space in the sense of the Unicode property of that name.  It decides which
lines of a conversation are passed over; what separates tokens is a smaller set.
-/

namespace TinyLisp.Blank

/-- The ranges of white space, both ends included. -/
def ranges : List (Nat × Nat) :=
  [(0x09, 0x0D), (0x20, 0x20), (0x85, 0x85), (0xA0, 0xA0), (0x1680, 0x1680), (0x2000, 0x200A),
   (0x2028, 0x2029), (0x202F, 0x202F), (0x205F, 0x205F), (0x3000, 0x3000)]

/-- White space of any kind. -/
def isWhite (c : Char) : Bool :=
  ranges.any fun r => r.1 ≤ c.toNat && c.toNat ≤ r.2

/-- A text of white space only. -/
def isBlank (s : String) : Bool :=
  s.toList.all isWhite

end TinyLisp.Blank
