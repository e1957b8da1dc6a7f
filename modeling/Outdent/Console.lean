/-! # Coloured text

What a terminal shows in colour is the text between two control sequences, one that sets a style
and one that ends it.
-/
namespace Outdent.Console

inductive Style where
  | red
  | green
  | yellow
  | bold
deriving DecidableEq

def Style.opening : Style → String
  | .red => "\x1b[31m"
  | .green => "\x1b[32m"
  | .yellow => "\x1b[33m"
  | .bold => "\x1b[1m"

def Style.closing : Style → String
  | .bold => "\x1b[0m"
  | _ => "\x1b[39m"

def paint (isColored : Bool) (style : Style) (text : String) : String :=
  if isColored then style.opening ++ text ++ style.closing else text

end Outdent.Console
