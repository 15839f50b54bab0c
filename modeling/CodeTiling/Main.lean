import CodeTiling.Command.Run

/-!
# The program

Runs the command line on the files of the system.
-/

namespace CodeTiling.Command

/-- Why a file cannot be used. -/
def causeOf (action path : String) : IO.Error → Cause
  | .noFileOrDirectory .. => .noSuchFile path
  | .resourceExhausted .. => .noSpace path
  | _ => .isDirectory action path

/-- The files of the system. An open file keeps its path for errors. -/
instance : Host IO where
  Handle := String × IO.FS.Handle
  read path := do
    try return .ok ⟨(← IO.FS.readBinFile path).toList⟩
    catch e => return .error (causeOf "read" path e)
  create path := do
    try return .ok (path, ← IO.FS.Handle.mk path .write)
    catch e => return .error (causeOf "open" path e)
  write h text := do
    try
      h.2.write ⟨text.octets.toArray⟩
      h.2.flush
      return .ok ()
    catch e => return .error (causeOf "write" h.1 e)
  print text := do
    let out ← IO.getStdout
    out.write ⟨text.octets.toArray⟩
    out.flush

end CodeTiling.Command

/-- Run a command line; an error goes to the error stream and shows in the exit code. -/
def main (args : List String) : IO UInt32 := do
  let result ← (CodeTiling.Command.run args : ExceptT CodeTiling.Error IO Unit).run
  if let some text := CodeTiling.Command.complaint? result then
    (← IO.getStderr).write ⟨(("error: " ++ text ++ "\n" : CodeTiling.Text)).octets.toArray⟩
  return CodeTiling.Command.exitCode result
