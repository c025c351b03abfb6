/-!
# Colours

Text between the escape sequences of a terminal that switch a colour on and all colours off.
-/

set_option autoImplicit false

namespace ThreadedForth.Terminal

/-- How text stands out. -/
inductive Color where
  | red | green | yellow | cyan | bold | boldRed
deriving DecidableEq

namespace Color

/-- The parameters of the escape sequence. -/
def code : Color → String
  | red => "31"
  | green => "32"
  | yellow => "33"
  | cyan => "36"
  | bold => "1"
  | boldRed => "1;31"

/-- The text in a colour. -/
def paint (c : Color) (text : String) : String :=
  "\x1b[" ++ c.code ++ "m" ++ text ++ "\x1b[0m"

end Color

end ThreadedForth.Terminal
