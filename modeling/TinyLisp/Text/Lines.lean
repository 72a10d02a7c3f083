/-!
# Lines of bytes

A line runs through its newline byte.  Only the last line may lack one.
-/

namespace TinyLisp.Lines

/-- The newline byte. -/
def newline : UInt8 := 0x0A

/-- The lines of `bytes`, the first of them continuing `line`, whose bytes stand
last first. -/
def splitFrom (line : List UInt8) : List UInt8 → List (List UInt8)
  | [] => if line.isEmpty then [] else [line.reverse]
  | b :: rest =>
    if b = newline then (b :: line).reverse :: splitFrom [] rest
    else splitFrom (b :: line) rest

/-- The lines of a byte sequence. -/
def split (bytes : List UInt8) : List (List UInt8) :=
  splitFrom [] bytes

/-- A line without its end: a newline, and a carriage return before it. -/
def chomp (line : String) : String :=
  let cs := line.toList
  if cs.getLast? = some '\n' then
    if cs.dropLast.getLast? = some '\r' then String.ofList cs.dropLast.dropLast
    else String.ofList cs.dropLast
  else line

end TinyLisp.Lines
