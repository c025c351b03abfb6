import ThreadedForth.Dictionary.Image
import ThreadedForth.Host.Output
import ThreadedForth.Terminal.Files
import ThreadedForth.Terminal.Lines
import ThreadedForth.Terminal.Listing
import ThreadedForth.Terminal.Picture
import ThreadedForth.Text.Trim

/-!
# Sessions

The host that works with lines of text, a terminal and files. A session interprets one line after
the other. An error is reported and the machine made ready for the next line, so a session ends
only with its text or with the word `bye` on a line of its own.
-/

set_option autoImplicit false

namespace ThreadedForth

/-- The state of the terminal host. -/
structure Terminal where
  lines : Terminal.LineSource := {}
  /-- Where images are kept. -/
  imagePath : String
  files : Terminal.Files := {}
  /-- What was written as output. -/
  out : String := ""
  /-- What was written as messages. -/
  err : String := ""
  /-- Whether a line was asked for that is not complete yet. -/
  starved : Bool := false

namespace Terminal

/-- Writes output. -/
def write (h : Terminal) (text : String) : Terminal := { h with out := h.out ++ text }

/-- Writes a message. -/
def complain (h : Terminal) (text : String) : Terminal := { h with err := h.err ++ text }

/-! ## Hooks -/

/-- Puts the next line of the text into the buffer. -/
def refill (_ : Interpreter Terminal) : MachineM Terminal Unit := do
  let host := (← get).host
  match host.lines.next host.files with
  | .line bytes source =>
    Machine.modifyHost fun h => { h with lines := source }
    Machine.onDictionary (Dictionary.loadInput bytes)
  | .ended source =>
    Machine.modifyHost fun h => { h with lines := source }
    Machine.fail .inputExhausted
  | .awaited =>
    Machine.modifyHost fun h => { h with starved := true }
    Machine.fail .inputExhausted

/-- The message about an image that cannot be saved or loaded. -/
def imageMessage (what path : String) (e : FileError) : String :=
  Color.red.paint ("cannot " ++ what) ++ " " ++ path ++ ": " ++ e.message ++ "\n"

/-- Writes the image of the dictionary to its file. -/
def saveImage : MachineM Terminal Unit := do
  let bytes ← Machine.getDictionary (·.image)
  Machine.modifyHost fun h =>
    match h.files.write h.imagePath bytes with
    | .ok files => { h with files }
    | .error e => h.complain (imageMessage "save" h.imagePath e)

/-- Restores the dictionary from the image in its file. -/
def loadImage : MachineM Terminal Unit := do
  let host := (← get).host
  match host.files.read host.imagePath with
  | .ok bytes => Machine.modifyDictionary (·.restore bytes)
  | .error e => Machine.modifyHost fun h => h.complain (imageMessage "load" h.imagePath e)

/-- Lists all words. -/
def listWords : MachineM Terminal Unit := do
  match ← Machine.getDictionary showWords? with
  | some text => Machine.modifyHost (·.write text)
  | none => throw .outOfFuel

/-- Answers a system call. -/
def sys (_ : Interpreter Terminal) (selector : Cell) : MachineM Terminal Unit := do
  match OutputCall.ofSelector? selector with
  | some output =>
    let text ← output.take
    Machine.modifyHost (·.write text)
  | none =>
    if selector = 3 then saveImage
    else if selector = 4 then loadImage
    else if selector = 5 then listWords
    else Machine.fail (.unhandledSys selector)

/-- The hooks of the terminal host. -/
def hooks : Hooks Terminal where
  sys := sys
  refill := refill

/-- The words for the system calls of this host. -/
def hostWords : String := ": save 3 sys ; : load 4 sys ; : words 5 sys ;"

/-! ## Lines -/

/-- The text of a stop. -/
def stopMessage : Stop → String
  | .error e => e.message
  | .exit => "exit"
  | .outOfFuel => "no end"

/-- The picture that goes with a stop, if there is one. -/
def stopPicture (d : Dictionary) : Stop → String
  | .error (.wordNotFound name) =>
    ((Picture.ofUnknownWord? d name).bind (·.render?)).getD ""
  | _ => ""

/-- Reports a stop and makes the machine ready for the next line. -/
def report (stop : Stop) (m : Machine Terminal) : Machine Terminal :=
  let picture := stopPicture m.dictionary stop
  let message := Color.boldRed.paint "error" ++ ": " ++ stopMessage stop ++ "\n" ++ picture
  match m.reset with
  | ⟨d, data, returns, ip, host⟩ =>
    ⟨d, data, returns, ip, (host.write "\n").complain message⟩

/-- Says that a line was interpreted. -/
def acknowledge (m : Machine Terminal) : Machine Terminal :=
  let status := if m.dictionary.compiling then "compiled" else "ok"
  { m with host := m.host.write (" " ++ Color.green.paint status ++ "\n") }

/-- Whether a line is the word `bye`, letters of either case being equal. -/
def isBye (line : List UInt8) : Bool :=
  match Text.decode? line with
  | some text => Text.same (Text.encode (String.ofList (Text.trim text.toList))) (Text.encode "bye")
  | none => false

/-- What follows after a line. -/
inductive Turn where
  /-- The next line. -/
  | again
  /-- The text has ended. -/
  | ended
  /-- The user has taken leave. -/
  | bye
  /-- The next line is not complete yet. -/
  | awaited
  /-- The line does not end within the granted steps. -/
  | endless
deriving DecidableEq

/-- Interprets the next line of the text. In an interactive session success is confirmed. -/
def turn (n : Nat) (interactive : Bool) (m : Machine Terminal) : Turn × Machine Terminal :=
  match m with
  | ⟨d, data, returns, ip, host⟩ =>
    match host.lines.next host.files with
    | .awaited => (.awaited, ⟨d, data, returns, ip, host⟩)
    | .ended source => (.ended, ⟨d, data, returns, ip, { host with lines := source }⟩)
    | .line bytes source =>
      let m : Machine Terminal := ⟨d, data, returns, ip, { host with lines := source }⟩
      if isBye bytes then (.bye, m)
      else
        match Machine.interpretLine hooks n bytes m with
        | .ok _ m => (.again, if interactive then acknowledge m else m)
        | .error .outOfFuel m => (.endless, m)
        | .error stop m => (.again, report stop m)

/-- Interprets at most so many lines of the text. -/
def turns (n : Nat) (interactive : Bool) : Nat → Machine Terminal → Turn × Machine Terminal
  | 0, m => (.ended, m)
  | k + 1, m =>
    match turn n interactive m with
    | (.again, m) => turns n interactive k m
    | last => last

/-- As many turns as a text can take. Each line takes a byte at least. A file that an image is
saved to has no more bytes than there are addresses. One turn more finds the end. -/
def turnLimit (lines : LineSource) (fs : Files) : Nat :=
  match lines.origin with
  | .file place => max (fs.bytesAt place).length 65536 + 1
  | .terminal _ => lines.buffer.length + 1

/-- Interprets a text line by line. -/
def session (n : Nat) (interactive : Bool) (lines : LineSource) (m : Machine Terminal) :
    Turn × Machine Terminal :=
  match m with
  | ⟨d, data, returns, ip, host⟩ =>
    turns n interactive (turnLimit lines host.files)
      ⟨d, data, returns, ip, { host with lines }⟩

end Terminal

end ThreadedForth
