/-!
# Sinks

A sink takes the bytes that a program prints.  It may have room for a limited
number of bytes in all: a piece that does not fit is taken as far as it fits, and
the rest of it is refused.  A sink also counts how often it has been flushed.
-/

namespace TinyLisp

/-- How a full sink refuses more bytes. -/
inductive WriteError
  /-- It reports that it is closed. -/
  | closed
  /-- It takes nothing and reports nothing, so that writing makes no progress. -/
  | stalled
  deriving DecidableEq, Repr

/-- The wording of a refusal. -/
def WriteError.message : WriteError → String
  | .closed => "closed"
  | .stalled => "failed to write whole buffer"

/-- A sink for bytes. -/
structure Sink where
  /-- The bytes taken so far. -/
  written : List UInt8 := []
  /-- The number of bytes that are still taken, if there is a limit. -/
  room : Option Nat := none
  /-- What happens when there is no room left. -/
  whenFull : WriteError := .closed
  /-- How often the sink has been flushed. -/
  flushes : Nat := 0
  /-- Whether flushing fails. -/
  flushFails : Bool := false
  deriving DecidableEq, Repr

namespace Sink

/-- Writes a piece, which fails unless the sink takes all of it. -/
def write (out : Sink) (bytes : List UInt8) : Except WriteError Unit × Sink :=
  match out.room with
  | none => (.ok (), { out with written := out.written ++ bytes })
  | some n =>
    (if bytes.length ≤ n then .ok () else .error out.whenFull,
      { out with written := out.written ++ bytes.take n, room := some (n - bytes.length) })

/-- Flushes the sink, and tells whether that worked. -/
def flush (out : Sink) : Bool × Sink :=
  (!out.flushFails, { out with flushes := out.flushes + 1 })

end Sink

end TinyLisp
