import EventSeal.CommandLine.Run
import Std.Time.DateTime.Timestamp

/-!
# The program

The outer layer: arguments, environment, files, standard streams and the
clock. It reads what the command will need, runs it, and prints.
-/

namespace EventSeal.CommandLine

partial def readToEnd (stream : IO.FS.Stream) (acc : ByteArray) : IO ByteArray := do
  let chunk ← stream.read 65536
  if chunk.isEmpty then return acc
  readToEnd stream (acc ++ chunk)

def readFile (path : String) : IO (Except FileFault (List UInt8)) := do
  try
    let content ← IO.FS.readBinFile path
    return .ok content.data.toList
  catch
    | .noFileOrDirectory .. => return .error .missing
    | e => return .error (.other (toString e))

def clock : IO Int64 := do
  let now ← Std.Time.Timestamp.now
  return Int64.ofInt now.toMillisecondsSinceUnixEpoch.val

/-- The world as far as the command will look at it. -/
def observe (c : Command) : IO World := do
  let millis ← clock
  match c.input? with
  | none => return ⟨[], fun _ => .error .missing, millis⟩
  | some none =>
      let stdin ← readToEnd (← IO.getStdin) ByteArray.empty
      return ⟨stdin.data.toList, fun _ => .error .missing, millis⟩
  | some (some path) =>
      let content ← readFile path
      return ⟨[], fun p => if p = path then content else .error .missing, millis⟩

def environment : IO Environment := do
  let values ← settingNames.mapM fun name => do
    let key := variableName name
    return (key, ← IO.getEnv key)
  return fun key => (values.lookup key).join

end EventSeal.CommandLine

open EventSeal.CommandLine in
def main (args : List String) : IO UInt32 := do
  match Invocation.ofArguments? (← environment) args with
  | none =>
      IO.eprintln usage
      return 2
  | some i =>
      let outcome := run (← observe i.command) i
      IO.print outcome.output
      if let some failure := outcome.failure then
        IO.eprintln ("Error: " ++ failure.message)
      return UInt32.ofNat outcome.exitCode
