import ThreadedForth.Dictionary.Basic
import ThreadedForth.Text.Ascii

/-!
# Source text

What is interpreted is a stretch of memory: the cell `source` holds its address, `sourceLength`
its length and `cursor` how much of it was read. Usually it is the input buffer, but any part of
memory will do, and all three cells can be changed by the program that is interpreted.

A word is the longest run of bytes that are neither blank nor zero. A zero ends the text before
its length does. Taking a word also takes the byte that ended it.
-/

set_option autoImplicit false

namespace ThreadedForth.Dictionary

/-- Whether a byte can be part of a word. -/
def isWordByte (b : UInt8) : Bool := !Text.isBlank b && b != 0

/-- Puts a line into the input buffer and makes it the text to interpret. -/
def loadInput (line : List UInt8) : DictionaryM Unit := fun d =>
  if line.length ≤ Layout.inputCapacity then
    let d := ((d.setReservedAddr .source Layout.inputBuffer).setReserved .sourceLength
      (Int16.ofNat line.length)).setReserved .cursor 0
    .ok () (d.writeBytes Layout.inputBuffer
      (line ++ List.replicate (Layout.inputCapacity - line.length) 0))
  else
    .error (.inputTooLong line.length) d

/-- Where the unread text begins. -/
def unreadStart (d : Dictionary) : Addr := d.reservedAddr .source + d.reservedAddr .cursor

/-- How many bytes are unread. -/
def unreadLength (d : Dictionary) : Nat :=
  (d.reservedAddr .sourceLength).toNat - (d.reservedAddr .cursor).toNat

/-- The unread text. -/
def unread (d : Dictionary) : List UInt8 := d.memory.bytesFrom d.unreadStart d.unreadLength

/-- The number of blanks before the next word. -/
def leadingBlanks (d : Dictionary) : Nat :=
  d.memory.runLength Text.isBlank d.unreadStart d.unreadLength

/-- Whether there is another word to read. -/
def hasInput (d : Dictionary) : Bool :=
  let blanks := d.leadingBlanks
  blanks < d.unreadLength && d.readByte (d.unreadStart + UInt16.ofNat blanks) != 0

/-- Reads the next word, which is empty if there is none. -/
def nextWord (d : Dictionary) : Span × Dictionary :=
  let blanks := d.leadingBlanks
  let start := d.unreadStart + UInt16.ofNat blanks
  let length := d.memory.runLength isWordByte start (d.unreadLength - blanks)
  let cursor := d.reservedAddr .cursor + UInt16.ofNat blanks + UInt16.ofNat length
  (.ofLength start (UInt16.ofNat length), d.setReservedAddr .cursor (cursor + 1))

/-! ## Words of the unread text -/

/-- There is another word if something other than a zero follows the blanks. -/
theorem hasInput_eq (d : Dictionary) :
    d.hasInput = match d.unread.dropWhile Text.isBlank with
      | [] => false
      | b :: _ => b != 0 := by
  have h := d.memory.bytesFrom_after_runLength Text.isBlank d.unreadStart d.unreadLength
  rw [unread, ← h]
  unfold hasInput leadingBlanks readByte
  generalize d.memory.runLength Text.isBlank d.unreadStart d.unreadLength = blanks
  by_cases hlt : blanks < d.unreadLength
  · obtain ⟨n, hn⟩ : ∃ n, d.unreadLength - blanks = n + 1 := ⟨d.unreadLength - blanks - 1, by omega⟩
    rw [hn, Memory.bytesFrom_succ]
    simp [hlt]
  · rw [show d.unreadLength - blanks = 0 by omega]
    simp [hlt]

theorem unreadLength_lt (d : Dictionary) : d.unreadLength < 65536 :=
  Nat.lt_of_le_of_lt (Nat.sub_le _ _) (d.reservedAddr .sourceLength).toNat_lt

/-- The next word is the longest run of word bytes after the blanks. -/
theorem text_nextWord (d : Dictionary) :
    d.text d.nextWord.1 = (d.unread.dropWhile Text.isBlank).takeWhile isWordByte := by
  have h := d.memory.bytesFrom_after_runLength Text.isBlank d.unreadStart d.unreadLength
  have hlt := d.unreadLength_lt
  have hle := d.memory.runLength_le isWordByte
    (d.unreadStart + UInt16.ofNat d.leadingBlanks) (d.unreadLength - d.leadingBlanks)
  rw [unread, ← h, ← Memory.bytesFrom_runLength]
  simp only [nextWord, text, Span.length_ofLength, Span.start_ofLength]
  rw [UInt16.toNat_ofNat_of_lt' (by change _ < 65536; omega)]
  rfl

end ThreadedForth.Dictionary
