import TinyLisp.Command.Program

/-!
# The program on a real console

Reads the command line, the files and standard input, and writes what the commands
come to.  A conversation is held line by line, so that it works on a terminal; since
no line of it depends on another, each is answered on a console of its own.
-/

namespace TinyLisp.Main

/-- Writes out what a console holds. -/
def present (c : Console) : IO Unit := do
  let out ← IO.getStdout
  out.write (ByteArray.mk c.out.written.toArray)
  out.flush
  (← IO.getStderr).putStr c.err

/-- All bytes up to the end of a stream, behind those in `done`. -/
partial def readAll (stream : IO.FS.Stream) (done : ByteArray) : IO ByteArray := do
  let bytes ← stream.read 65536
  if bytes.isEmpty then return done else readAll stream (done ++ bytes)

/-- Opens a file and reads it. -/
def openFile (path : String) : IO (Except ReadError Content) := do
  try
    return .ok (.file (← IO.FS.readBinFile path).toList)
  catch
    | .noFileOrDirectory .. => return .error .missing
    | .inappropriateType _ code _ =>
      return if code = 21 then .ok .directory else .error .notDirectory
    | .invalidArgument _ _ "name too long" => return .error .nameTooLong
    | e => throw e

/-- The bytes up to the next newline or the end of a stream, behind those in `line`,
last first. -/
partial def readLine (stream : IO.FS.Stream) (line : List UInt8) : IO (List UInt8) := do
  match (← stream.read 1).toList with
  | [] => return line.reverse
  | b :: _ => if b = Lines.newline then return (b :: line).reverse else readLine stream (b :: line)

/-- Answers the lines of a stream. -/
partial def converse (stream : IO.FS.Stream) : IO UInt32 := do
  let line ← readLine stream []
  if line.isEmpty then return 0
  let (status, console) := Console.answerAll {} [line]
  present console
  if status = 0 then converse stream else return UInt32.ofNat status

/-- Carries out a command. -/
def perform (cmd : Command) : IO UInt32 := do
  let stdin ← IO.getStdin
  if cmd = .repl then
    present { err := Console.greeting }
    converse stdin
  else
    let input ← match cmd.file? with
      | some path => openFile path
      | none => pure (.ok (.file (← readAll stdin ByteArray.empty).toList))
    let (status, console) := cmd.execute input
    present console
    return UInt32.ofNat status

end TinyLisp.Main

/-- Runs the program. -/
def main (args : List String) : IO UInt32 := do
  match TinyLisp.Command.ofArgs? args with
  | some cmd => TinyLisp.Main.perform cmd
  | none =>
    (← IO.getStderr).putStrLn "usage: [run FILE | lex [FILE] | parse [FILE] | repl]"
    return 2
