import SqlLayout.Lexeme.Operator
import SqlLayout.Lexeme.Quoted
import SqlLayout.Text.Whitespace
import SqlLayout.Token

/-! Lexemes: the pieces that a text is cut into before words are looked up. White space separates
lexemes and is remembered only as far as later stages ask for it. Comments are refused. -/

namespace SqlLayout
set_option autoImplicit false

inductive Shape where
  | word | quoted | operator
  | mark (kind : TokenKind)
deriving DecidableEq, Repr

/-- A piece of the text, with what is known of the white space before it. The first lexeme of a text
counts as spaced. -/
structure Lexeme where
  shape : Shape
  text : String
  afterNewline : Bool
  spaced : Bool
deriving DecidableEq, Repr

structure CommentFound where
  position : Nat
deriving DecidableEq, Repr

namespace Lexeme

def markKind? (c : Char) : Option TokenKind :=
  match c with
  | ',' => some .comma
  | ';' => some .semicolon
  | '(' => some .openParen
  | ')' => some .closeParen
  | '[' => some .openBracket
  | ']' => some .closeBracket
  | '\x7b' => some .openBrace
  | '\x7d' => some .closeBrace
  | _ => none

def isQuote (c : Char) : Bool := c = '\x27' || c = '"'

def isSeparator (c : Char) : Bool :=
  Text.isWhitespace c || isQuote c || (markKind? c).isSome

def startsComment (c : Char) (cs : List Char) : Bool :=
  (c = '-' && cs.head? = some '-') || (c = '/' && cs.head? = some '*')

/-- Whether a word is the head of a number with an exponent, such as `1.5e`: digits, at most one
point among them, and the mark of the exponent. The word is given backwards. -/
def isExponentHead (backwards : List Char) : Bool :=
  match backwards with
  | e :: mantissa =>
    (e = 'e' || e = 'E') && mantissa.all (fun c => c.isDigit || c = '.') &&
      mantissa.count '.' ≤ 1 && mantissa.any Char.isDigit
  | [] => false

/-- Whether a word that has been read so far (backwards, not empty) goes on with `c`, when `cs`
follows. A star belongs to the word behind a point, and a sign inside a number; a comment or an
operator ends the word. -/
def continues (ops : List (List Char)) (backwards : List Char) (c : Char) (cs : List Char) : Bool :=
  if isSeparator c then false
  else if c = '*' && backwards.head? = some '.' then true
  else if (c = '-' || c = '+') && isExponentHead backwards && cs.head?.any Char.isDigit then true
  else !startsComment c cs && Operator.longest ops (c :: cs) == 0

/-- The rest of a word of which `backwards` has been read, and what follows the word. -/
def splitWord (ops : List (List Char)) (backwards : List Char) : List Char → List Char × List Char
  | [] => ([], [])
  | c :: cs =>
    if continues ops backwards c cs then
      let (word, rest) := splitWord ops (c :: backwards) cs
      (c :: word, rest)
    else ([], c :: cs)

/-- Cut the lexeme that begins with `c`: its shape, its text behind `c`, and what follows it. -/
def cut (ops : List (List Char)) (c : Char) (cs : List Char) : Shape × List Char × List Char :=
  if isQuote c then (.quoted, Quoted.split c cs)
  else match markKind? c with
    | some kind => (.mark kind, [], cs)
    | none =>
      match Operator.longest ops (c :: cs) with
      | n + 1 => (.operator, cs.take n, cs.drop n)
      | 0 => (.word, splitWord ops [c] cs)

theorem splitWord_append (ops : List (List Char)) (backwards cs : List Char) :
    (splitWord ops backwards cs).1 ++ (splitWord ops backwards cs).2 = cs := by
  fun_induction splitWord ops backwards cs <;> simp_all

theorem cut_append (ops : List (List Char)) (c : Char) (cs : List Char) :
    (cut ops c cs).2.1 ++ (cut ops c cs).2.2 = cs := by
  unfold cut
  split
  · exact Quoted.split_append c cs
  · split
    · rfl
    · split
      · exact List.take_append_drop _ _
      · exact splitWord_append ops [c] cs

theorem cut_length_le (ops : List (List Char)) (c : Char) (cs : List Char) :
    (cut ops c cs).2.2.length ≤ cs.length := by
  have h := congrArg List.length (cut_append ops c cs)
  simp only [List.length_append] at h
  omega

def byteSize : List Char → Nat
  | [] => 0
  | c :: cs => c.utf8Size + byteSize cs

/-- Cut a text whose first character is at byte `position`, when the white space before it had a
newline, or was there at all. -/
def scanFrom (ops : List (List Char)) (position : Nat) (afterNewline spaced : Bool) :
    List Char → Except CommentFound (List Lexeme)
  | [] => .ok []
  | c :: cs =>
    if Text.isWhitespace c then
      scanFrom ops (position + c.utf8Size) (afterNewline || c = '\n') true cs
    else if startsComment c cs then .error ⟨position⟩
    else
      let piece := cut ops c cs
      match scanFrom ops (position + byteSize (c :: piece.2.1)) false false piece.2.2 with
      | .error e => .error e
      | .ok more =>
        .ok (⟨piece.1, String.ofList (c :: piece.2.1), afterNewline, spaced⟩ :: more)
termination_by cs => cs.length
decreasing_by
  · simp
  · exact Nat.lt_succ_of_le (cut_length_le ops c cs)

def scan (operators : List String) (text : String) : Except CommentFound (List Lexeme) :=
  scanFrom (operators.map String.toList) 0 false true text.toList

end Lexeme
end SqlLayout
