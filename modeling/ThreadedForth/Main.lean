import ThreadedForth.CommandLine

/-!
# The program

Reads arguments, files and standard input, lets the library do the work, and writes what comes of
it. Standard input is passed on as it arrives. A line that asks for further lines is interpreted
again, from the same machine, as soon as there are more.
-/

set_option autoImplicit false

namespace ThreadedForth.Main

/-- More steps than a run can make. -/
def fuel : Nat := 1000000000000000000

/-- The contents of a file, if it can be read. -/
def readFile? (path : String) : IO (Option (List UInt8)) := do
  try
    return some (← IO.FS.readBinFile path).toList
  catch _ =>
    return none

/-- Whether there is a folder at a path. -/
def isFolder (path : String) : IO Bool := do
  let here ← IO.currentDir
  (path |> (here / ·)).isDir

/-- The files and folders on some paths. -/
def look (paths : List String) : IO Terminal.Files := do
  let mut files : Terminal.Files := {}
  for text in paths do
    if let .ok path := Terminal.Path.ofString? text then
      for place in path.places do
        let name := "/".intercalate place
        if ← isFolder name then
          files := { files with folders := place :: files.folders }
        else if let some bytes ← readFile? name then
          files := files.put place bytes
  return files

/-- The image, if it is there. -/
def image? (host : Terminal) : Option (List UInt8) := (host.files.read host.imagePath).toOption

/-- Writes the output and the messages of a machine, and its image if that has changed. -/
def settle (before : Option (List UInt8)) (m : Machine Terminal) : IO (Machine Terminal) := do
  let host := m.host
  let stdout ← IO.getStdout
  stdout.putStr host.out
  stdout.flush
  (← IO.getStderr).putStr host.err
  if let some bytes := image? host then
    if before != some bytes then
      try
        IO.FS.writeBinFile host.imagePath ⟨bytes.toArray⟩
      catch e =>
        (← IO.getStderr).putStr s!"{e}\n"
  return { m with host := { host with out := "", err := "" } }

/-- The machine with the files that it can see now. -/
def refresh (paths : List String) (m : Machine Terminal) : IO (Machine Terminal) := do
  let files ← look (m.host.imagePath :: paths)
  return { m with host := { m.host with files } }

/-- The machine with another line of the text to read. A line without line feed is the last one. -/
def extend (line : ByteArray) (m : Machine Terminal) : Machine Terminal :=
  let lines := m.host.lines
  let bytes := line.toList
  let origin := .terminal (bytes.getLast? != some 10)
  let lines := { lines with buffer := lines.buffer ++ bytes, origin }
  { m with host := { m.host with lines } }

/-- The next bytes of a stream, up to a line feed or the end. -/
partial def readLine (stream : IO.FS.Stream) (line : ByteArray) : IO ByteArray := do
  let next ← stream.read 1
  if next.isEmpty || next.toList == [10] then return line ++ next
  else readLine stream (line ++ next)

/-- Interprets standard input line by line and returns the exit code. -/
partial def converse (stdin : IO.FS.Stream) (m : Machine Terminal) : IO UInt32 := do
  let m ← refresh [] m
  let (turn, after) := Terminal.turn fuel true m
  if turn == .awaited || after.host.starved then
    converse stdin (extend (← readLine stdin .empty) m)
  else
    let after ← settle (image? m.host) after
    match turn with
    | .again => converse stdin after
    | .endless => return 1
    | _ => return 0

/-- Runs the source files in order, and then what comes from standard input. -/
def runFiles (paths : List String) (m : Machine Terminal) : IO UInt32 := do
  match paths with
  | [] =>
    let lines : Terminal.LineSource := { origin := .terminal false }
    converse (← IO.getStdin) { m with host := { m.host with lines } }
  | path :: rest =>
    let m ← refresh [path] m
    let before := image? m.host
    match CommandLine.runSources fuel [path] m with
    | .quit exitCode m =>
      discard <| settle before m
      return exitCode
    | .done m => runFiles rest (← settle before m)

end ThreadedForth.Main

/-- Runs the program with the arguments of the command line. -/
def main (args : List String) : IO UInt32 := do
  match ThreadedForth.CommandLine.readArgs? {} args with
  | none =>
    (← IO.getStderr).putStr "usage: [--no-prelude] [--image FILE] [--log FILTER] [--] FILE...\n"
    return 2
  | some options =>
    match ThreadedForth.CommandLine.start ThreadedForth.Main.fuel options {} with
    | .error stop m =>
      discard <| ThreadedForth.Main.settle none (ThreadedForth.Terminal.report stop m)
      return 1
    | .ok _ m => ThreadedForth.Main.runFiles options.sources m
