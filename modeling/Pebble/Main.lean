import Pebble.CommandLine.Task

/-!
# The command

Reads the program and the input, and writes what the library answers. A run proceeds by single
steps, so that input is read only when the program asks for it and output appears at once.
-/

namespace Pebble

/-- Writes what the machine has to say so far. -/
def drain (m : Machine) : IO Machine := do
  if m.output.isEmpty then return m
  let out ← IO.getStdout
  out.putStr m.output
  out.flush
  return { m with output := "" }

/-- Gives the machine a line of input if its next instruction reads one. -/
def supply (m : Machine) : IO Machine := do
  match m.site? with
  | some ⟨_, _, ⟨.read, _⟩⟩ =>
    let input ← IO.getStdin
    readInto input m
  | _ => return m
where
  /-- Reads bytes up to a line feed or the end of the input. -/
  readInto (input : IO.FS.Stream) (m : Machine) : IO Machine := do
    let mut line := #[]
    repeat
      let bytes ← input.read 1
      line := line ++ bytes.toList.toArray
      if bytes.isEmpty || bytes.toList.contains 10 then break
    return { m with input := m.input ++ line.toList }

/-- Runs a machine to its end. -/
partial def runToEnd (m : Machine) : IO Response := do
  let (status, m) := (← supply m).step
  let m ← drain m
  match status with
  | .running => runToEnd m
  | ended => return .ofRun ended m

/-- The text of a file, or why there is none. -/
def readProgram (file : String) : IO (Except String String) := do
  try
    match String.fromUTF8? (← IO.FS.readBinFile file) with
    | some source => return .ok source
    | none => return .error "stream did not contain valid UTF-8"
  catch
    | .noFileOrDirectory .. => return .error "No such file or directory (os error 2)"
    | e => return .error (toString e)

/-- The answer to a request. -/
def respond (request : Request) : IO Response := do
  match request with
  | .version => return .version
  | .help => return .help
  | .refuse => return .refused
  | .invoke i =>
    match i.misnamed? with
    | some r => return r
    | none =>
      match ← readProgram i.file with
      | .error reason => return .unreadable i.file reason
      | .ok source =>
        match i.task source [] with
        | .answer r => return r
        | .execute m => runToEnd m

end Pebble

def main (args : List String) : IO UInt32 := do
  let r ← Pebble.respond (.ofArguments args)
  IO.print r.stdout
  IO.eprint r.stderr
  return r.status.toUInt32
