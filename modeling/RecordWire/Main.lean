import RecordWire.CommandLine

/-!
The program itself.
-/

namespace RecordWire
namespace CommandLine

def fileError : IO.Error → FileError
  | .noFileOrDirectory .. => .notFound
  | .inappropriateType _ code _ => if code = 21 then .isDirectory else .notDirectory
  | e => .other (toString e)

def attempt {α : Type} (call : IO α) : IO (Except FileError α) := do
  try return .ok (← call)
  catch e => return .error (fileError e)

def succeeds (call : IO Unit) : IO Bool :=
  return (← attempt call).isOk

partial def readStream (stream : IO.FS.Stream) (read : ByteArray) : IO ByteArray := do
  let chunk ← stream.read 65536
  if chunk.isEmpty then pure read else readStream stream (read ++ chunk)

/-- Warnings go to standard error, and other events nowhere. -/
def logWarning (event : Event) : IO Bool := do
  if event.level = .warn then
    let details := event.details.map fun (name, value) => s!" {name}={value}"
    succeeds (IO.eprintln s!"{event.level.word} {event.message}{String.join details}")
  else return true

def machine : Host IO where
  read path := attempt (IO.FS.readBinFile path)
  write path content := attempt (IO.FS.writeBinFile path content)
  readInput := attempt do readStream (← IO.getStdin) .empty
  print content := attempt do
    let stdout ← IO.getStdout
    stdout.write content
    stdout.flush
  report message := succeeds (IO.eprint message)
  log := logWarning

end CommandLine
end RecordWire

def main (args : List String) : IO UInt32 :=
  return UInt32.ofNat (← RecordWire.CommandLine.start RecordWire.CommandLine.machine args)
