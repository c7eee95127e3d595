import LuaBytecode.Cli.Run

namespace LuaBytecode.Cli

def ReadError.ofIO : IO.Error → ReadError
  | .noFileOrDirectory .. => .notFound
  | .permissionDenied .. => .permissionDenied
  | .inappropriateType _ code _ => if code = 21 then .isADirectory else .notADirectory
  | e => .other (toString e)

def readContents (file : Option String) : IO (Except ReadError (List UInt8)) := do
  let bytes ← EIO.toIO' do
    match file with
    | none => (← IO.getStdin).readBinToEnd
    | some name => IO.FS.readBinFile name
  return match bytes with
    | .ok bytes => .ok bytes.toList
    | .error e => .error (.ofIO e)

end LuaBytecode.Cli

open LuaBytecode.Cli in
def main (arguments : List String) : IO UInt32 := do
  let contents ← match readRequest arguments with
    | .ok (.compile o) => readContents (if o.readsInput then none else some o.file)
    | _ => pure (.ok [])
  let outcome := run arguments fun _ => contents
  (← IO.getStdout).putStr outcome.stdout
  (← IO.getStderr).putStr outcome.stderr
  return UInt32.ofNat outcome.code
