import ThreadedForth.Prelude
import ThreadedForth.Terminal.Session

/-!
# The command line

What the arguments of the program mean, and what the program does with them: it defines the
standard vocabulary and the words of the terminal, runs the source files in order, and then talks
to the user. `bye` ends the program wherever it stands, and a file that cannot be opened does so
with a message.
-/

set_option autoImplicit false

namespace ThreadedForth

/-- What the arguments say. -/
structure Options where
  /-- The source files, in order. -/
  sources : List String := []
  /-- Whether to define the standard vocabulary. -/
  standardWords : Bool := true
  imagePath : String := "flint.img"

/-- What a run of the program leaves behind. -/
structure Outcome where
  out : String
  err : String
  exitCode : UInt32
  files : Terminal.Files

namespace CommandLine

/-- The text after a given beginning. -/
def after? (start text : String) : Option String :=
  if text.startsWith start then some (String.ofList (text.toList.drop start.length)) else none

/-- Reads the arguments after those that were read into `options`. Options may stand anywhere
before two dashes, and after them everything is a file. -/
def readArgs? (options : Options) : List String → Option Options
  | [] => some options
  | "--" :: rest => some { options with sources := options.sources ++ rest }
  | "--no-prelude" :: rest => readArgs? { options with standardWords := false } rest
  | ["--image"] => none
  | ["--log"] => none
  | "--image" :: path :: rest => readArgs? { options with imagePath := path } rest
  | "--log" :: _ :: rest => readArgs? options rest
  | arg :: rest =>
    match after? "--image=" arg, after? "--log=" arg with
    | some path, _ => readArgs? { options with imagePath := path } rest
    | none, some _ => readArgs? options rest
    | none, none =>
      if arg.startsWith "-" && arg != "-" then none
      else readArgs? { options with sources := options.sources ++ [arg] } rest

/-- The machine as it is before the first line. -/
def start (n : Nat) (options : Options) (files : Terminal.Files) :
    EStateM.Result Stop (Machine Terminal) Unit :=
  let vocabulary := if options.standardWords then Prelude.lines else []
  Prelude.interpretLines Terminal.hooks n (vocabulary ++ [Terminal.hostWords])
    (Machine.ofConfig {} { imagePath := options.imagePath, files })

/-- How running the source files ended. -/
inductive Sourced where
  | done (m : Machine Terminal)
  /-- No session follows. -/
  | quit (exitCode : UInt32) (m : Machine Terminal)

/-- The message about a source file that cannot be opened. -/
def openMessage (path : String) (e : Terminal.FileError) : String :=
  "Error: cannot open " ++ path ++ "\n\nCaused by:\n    " ++ e.message ++ "\n"

/-- Runs source files in order. A folder can be opened too, and has no lines. -/
def runSources (n : Nat) : List String → Machine Terminal → Sourced
  | [], m => .done m
  | path :: rest, m =>
    match m.host.files.find path with
    | .error e => .quit 1 { m with host := m.host.complain (openMessage path e) }
    | .ok place =>
      match Terminal.session n false { origin := .file place } m with
      | (.bye, m) => .quit 0 m
      | (.endless, m) => .quit 1 m
      | (_, m) => runSources n rest m

/-- What is left behind when the machine is given up. -/
def outcome (exitCode : UInt32) (m : Machine Terminal) : Outcome :=
  ⟨m.host.out, m.host.err, exitCode, m.host.files⟩

/-- Runs the program on a complete text of input. -/
def run (n : Nat) (options : Options) (files : Terminal.Files) (input : List UInt8) : Outcome :=
  match start n options files with
  | .error stop m => outcome 1 (Terminal.report stop m)
  | .ok _ m =>
    match runSources n options.sources m with
    | .quit exitCode m => outcome exitCode m
    | .done m =>
      match Terminal.session n true { buffer := input } m with
      | (.endless, m) => outcome 1 m
      | (_, m) => outcome 0 m

end CommandLine

end ThreadedForth
