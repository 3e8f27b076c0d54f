import SqlLayout.Tape
import SqlLayout.Tokenize

/-! Lexemes that are cut off a tape. An operator is tried character by character, as long as what has been
read begins some operator; then the tape goes back to the end of the longest operator that has been seen.
Quoted literals are found in the bytes of the text. -/

namespace SqlLayout
set_option autoImplicit false

/-- The byte behind a literal, when `position` is the byte behind its opening quote and `bytes` are those
that follow. -/
def Quoted.closedAt (quote : UInt8) (position : Nat) : List UInt8 → Nat
  | [] => position
  | b :: bytes =>
    if b = quote then
      match bytes with
      | b' :: bytes => if b' = quote then closedAt quote (position + 2) bytes else position + 1
      | [] => position + 1
    else closedAt quote (position + 1) bytes

namespace Reading

/-- Try to read an operator that begins at byte `start`. `count` characters have been read for it, and
`longest` of them are an operator; at most `left` more are read. -/
def tryOperator (d : Dialect) (start : Nat) : Nat → Nat → Nat → Reading (Nat × Nat)
  | 0, count, longest => return (count, longest)
  | left + 1, count, longest => do
    match ← read with
    | none => return (count, longest)
    | some _ =>
      let candidate := String.ofList (← since start)
      if d.isOperatorPrefix candidate then
        tryOperator d start left (count + 1)
          (if d.isOperator candidate then count + 1 else longest)
      else return (count + 1, longest)

/-- Read the longest operator that comes next. Gives the number of its characters. -/
def operator (d : Dialect) : Reading (Option Nat) := do
  let start := (← get).position
  let (count, longest) ← tryOperator d start d.maxOperatorLength 0 0
  rewind (count - longest)
  return if 0 < longest then some longest else none

def wordGoesOn (d : Dialect) (word : List Char) (c : Char) : Reading Bool := do
  if word.isEmpty then return true
  if c = '*' && word.getLast? = some '.' then return true
  let second ← peekSecond
  if (c = '-' || c = '+') && Lexeme.isExponentHead word.reverse && second.any Char.isDigit then
    return true
  if Lexeme.startsComment c second.toList then return false
  match ← operator d with
  | none => return true
  | some n =>
    rewind n
    return false

def word (d : Dialect) (start : Nat) : Nat → Reading Unit
  | 0 => stuck
  | rounds + 1 => do
    match ← peek with
    | none => return
    | some c =>
      if Lexeme.isSeparator c then return
      if ← wordGoesOn d (← since start) c then
        let _ ← read
        word d start rounds

def literal : Reading Unit := do
  let tape ← get
  match (Text.bytes tape.text).drop tape.position with
  | [] => fail .offBoundary
  | quote :: bytes => set (tape.jump (Quoted.closedAt quote (tape.position + 1) bytes))

def shape (d : Dialect) (c : Char) : Reading Shape := do
  if Lexeme.isQuote c then
    literal
    return .quoted
  match Lexeme.markKind? c with
  | some kind =>
    let _ ← read
    return .mark kind
  | none =>
    match ← operator d with
    | some _ => return .operator
    | none =>
      let tape ← get
      word d tape.position (tape.text.length + 1)
      return .word

/-- Read all lexemes that are left, when the white space before the next one had a newline, or was there
at all. A round takes a character of white space or a lexeme. -/
def lexemes (d : Dialect) : Nat → Bool → Bool → Reading (List Lexeme)
  | 0, _, _ => stuck
  | rounds + 1, afterNewline, spaced => do
    match ← peek with
    | none => return []
    | some c =>
      if Text.isWhitespace c then
        let _ ← read
        lexemes d rounds (afterNewline || c = '\n') true
      else
        if Lexeme.startsComment c (← peekSecond).toList then fail .comment
        let start := (← get).position
        let shape ← shape d c
        let text ← since start
        let more ← lexemes d rounds false false
        return ⟨shape, String.ofList text, afterNewline, spaced⟩ :: more

end Reading

/-- The tokens of a text that is read from a tape; no result when reading does not come to an end in as
many rounds as the text has characters, and one. -/
def tokenizeTape (d : Dialect) (text : String) : Option (Except TapeError (List Token)) :=
  match (Reading.lexemes d (text.length + 1) false true).run (Tape.load text d.maxOperatorLength) with
  | none => none
  | some (.error e) => some (.error e)
  | some (.ok (lexemes, _)) =>
    some (.ok (Token.resolve d (Token.classify d lexemes) ++ [Token.eof]))

end SqlLayout
