/-!
# Encoded text

The bytes of a string, and the string that bytes spell if they are well-formed UTF-8.
-/

set_option autoImplicit false

namespace ThreadedForth.Text

/-- The bytes of a string in UTF-8. -/
def encode (s : String) : List UInt8 := s.toUTF8.data.toList

/-- The string that is spelled by bytes, if they are well-formed UTF-8. -/
def decode? (bytes : List UInt8) : Option String := String.fromUTF8? ⟨bytes.toArray⟩

end ThreadedForth.Text
