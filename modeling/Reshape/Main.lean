import Reshape.CommandLine.Run

/-!
# The command

Files, standard input and output of the process.
-/

namespace Reshape.CommandLine

def readFault : IO.Error → ReadFault
  | .noFileOrDirectory _ _ _ => .notFound
  | .inappropriateType _ code details =>
    if code = 21 then .isDirectory
    else if details = "not a directory" then .notDirectory
    else .system details
  | error => .system (toString error)

def fetchFile (path : String) : IO (Except ReadFault ByteArray) := do
  try return .ok (← IO.FS.readBinFile path)
  catch error => return .error (readFault error)

partial def readToEnd (stream : IO.FS.Stream) (bytes : ByteArray) : IO ByteArray := do
  let more ← stream.read 65536
  if more.isEmpty then return bytes else readToEnd stream (bytes ++ more)

def processWorld : World IO where
  fetch := fetchFile
  standardInput := do readToEnd (← IO.getStdin) .empty

end Reshape.CommandLine

def main (arguments : List String) : IO UInt32 := do
  let outcome ← Reshape.CommandLine.run Reshape.CommandLine.processWorld arguments
  match outcome with
  | .output text notices =>
    for notice in notices do IO.eprintln notice.message
    IO.print text
  | .failure report => for line in report.lines do IO.eprintln line
  | .usage fault => IO.eprintln ("error: " ++ fault.message)
  return outcome.exitCode.toUInt32
