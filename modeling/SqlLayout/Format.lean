import SqlLayout.Failure
import SqlLayout.Render
import SqlLayout.Text.Utf8
import SqlLayout.Tokenize

/-! Formatting: a text is cut into tokens, read as statements, laid out and printed. The result is
given out only when it has the content of the source. -/

namespace SqlLayout
set_option autoImplicit false

def Draft.text (o : Options) (d : Draft) : List Char :=
  (d.pieces.reverse.flatMap fun p => p.gap ++ (p.token.render o).toList) ++ d.pending

def layOut (o : Options) (statements : List Statement) : Except BuildFault (List Char) :=
  match Layout.fault? (statements.flatMap (·.groups)) with
  | some fault => .error fault
  | none => .ok ((Layout.draft o.commaStyle statements).text o)

/-- Put `n` spaces before every line that is not empty. When `atStart` holds, the text begins a
line. -/
def padFrom (n : Nat) (atStart : Bool) : List Char → List Char
  | [] => []
  | c :: cs =>
    if c = '\n' then c :: padFrom n true cs
    else if atStart then List.replicate n ' ' ++ c :: padFrom n false cs
    else c :: padFrom n false cs

def pad (n : Nat) (text : List Char) : List Char := padFrom n true text

/-- The content of a text: no colors, no white space, no difference of case. -/
def content (text : List Char) : List Char :=
  ((Color.strip text).filter (!Text.isWhitespace ·)).flatMap Text.lowerChar

def sameContent (before after : List Char) : Bool := content before == content after

/-- Format a text. The result begins with a newline and has none at its end. -/
def format (o : Options) (source : String) : Except Failure String :=
  match tokenize o.dialect source with
  | .error e => .error (.lex e.position .comment)
  | .ok tokens =>
    match Statement.parse tokens with
    | .error e => .error (.parse e)
    | .ok statements =>
      match layOut o statements with
      | .error fault => .error (.build fault)
      | .ok text =>
        let padded := pad o.distance text
        if sameContent source.toList padded then .ok (String.ofList padded)
        else .error (.safety source)

def formatBytes (o : Options) (source : ByteArray) : Except Failure String :=
  match Text.decode source with
  | .error position => .error (.lex position .invalidUtf8)
  | .ok text => format o text

/-- Lay a formatted text out as a file: no newline at its start and one at its end. A text with
nothing in it is an empty file. -/
def asDocument (formatted : String) : String :=
  let body := match formatted.toList with
    | '\n' :: cs => cs
    | cs => cs
  if body.isEmpty then "" else String.ofList (body ++ ['\n'])

def formatDocument (o : Options) (source : ByteArray) : Except Failure String :=
  (formatBytes o source).map asDocument

end SqlLayout
