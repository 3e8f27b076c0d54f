import SqlLayout.Options
import SqlLayout.Vocabulary

/-! The text of a token in the output: its spelling, and the color around it. -/

namespace SqlLayout
set_option autoImplicit false

inductive Color where
  | red | green | yellow | magenta | cyan
deriving DecidableEq, Repr

namespace Color

def digit : Color → Char
  | .red => '1'
  | .green => '2'
  | .yellow => '3'
  | .magenta => '5'
  | .cyan => '6'

def ofKind? : TokenKind → Option Color
  | .function => some .cyan
  | .type => some .green
  | .reserved => some .magenta
  | .string => some .red
  | kind => if kind.isKeyword then some .yellow else none

def reset : List Char := ['\x1b', '[', '0', 'm']

def paint (color : Color) (text : List Char) : List Char :=
  reset ++ ['\x1b', '[', '3', color.digit, 'm'] ++ text ++ reset

def endsEscape (c : Char) : Bool := ('a' ≤ c && c ≤ 'z') || ('A' ≤ c && c ≤ 'Z')

/-- Take escape sequences away, each from ESC and a bracket to the first letter behind them. When
`inside` holds, the text begins inside a sequence. -/
def stripFrom (inside : Bool) : List Char → List Char
  | [] => []
  | '\x1b' :: '[' :: cs => stripFrom true cs
  | c :: cs =>
    if inside then stripFrom (!endsEscape c) cs else c :: stripFrom false cs

def strip (text : List Char) : List Char := stripFrom false text

end Color

namespace Token

/-- The text of a token before coloring. Values have a spelling of their own, and only words of the
language follow the choice of case. -/
def spelling (o : Options) (t : Token) : String :=
  if t.kind.isVerbatim || t.kind = .operator then t.text
  else if t.kind = .reserved then (Vocabulary.canonicalReserved? t.text).getD t.text
  else if o.lowerCased then Text.lower t.text
  else t.text

def render (o : Options) (t : Token) : String :=
  if o.colorized then
    match Color.ofKind? t.kind with
    | some color => String.ofList (color.paint (t.spelling o).toList)
    | none => t.spelling o
  else t.spelling o

end Token
end SqlLayout
