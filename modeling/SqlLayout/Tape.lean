import SqlLayout.Lexeme

/-! Tapes. A text is read character by character from a byte position. The last characters that have been
read can be put back, as far as the tape remembers their sizes. Positions count bytes, so a position may
miss the start of a character; then nothing can be read there. -/

namespace SqlLayout
set_option autoImplicit false

inductive TapeFault where
  | comment
  /-- More characters are put back than are remembered. -/
  | forgotten
  /-- A position lies inside a character or behind the end of the text. -/
  | offBoundary
deriving DecidableEq, Repr

structure TapeError where
  position : Nat
  fault : TapeFault
deriving DecidableEq, Repr

/-- The characters from the given byte on; `none` when no character begins there. -/
def Text.fromByte? : Nat → List Char → Option (List Char)
  | 0, cs => some cs
  | _ + 1, [] => none
  | n + 1, c :: cs => if c.utf8Size ≤ n + 1 then fromByte? (n + 1 - c.utf8Size) cs else none

def Text.upToByte? : Nat → List Char → Option (List Char)
  | 0, _ => some []
  | _ + 1, [] => none
  | n + 1, c :: cs =>
    if c.utf8Size ≤ n + 1 then (upToByte? (n + 1 - c.utf8Size) cs).map (c :: ·) else none

def Text.bytes (cs : List Char) : List UInt8 := cs.flatMap String.utf8EncodeChar

structure Tape where
  text : List Char
  position : Nat := 0
  /-- The sizes of the characters that were read last, the newest first. -/
  memory : List Nat := []
  depth : Nat
deriving DecidableEq, Repr

/-- Work on a tape. It may fail, and where a loop does not end in the rounds that are allowed there is no
result at all. -/
abbrev Reading (α : Type) : Type := StateT Tape (ExceptT TapeError Option) α

namespace Tape

def minDepth : Nat := 4

def load (text : String) (depth : Nat) : Tape := { text := text.toList, depth := max depth minDepth }

def pass (tape : Tape) (size : Nat) : Tape :=
  let memory := size :: tape.memory
  { tape with
    position := tape.position + size
    memory := if tape.depth < memory.length then memory.dropLast else memory }

/-- Go on at the given byte, or at the end of the text, and forget what has been read. -/
def jump (tape : Tape) (position : Nat) : Tape :=
  { tape with position := min position (Lexeme.byteSize tape.text), memory := [] }

end Tape

namespace Reading

def stuck {α : Type} : Reading α := fun _ => none

def fail {α : Type} (fault : TapeFault) : Reading α := fun tape => throw ⟨tape.position, fault⟩

def between (start stop : Nat) : Reading (List Char) := do
  let part := (Text.fromByte? start (← get).text).bind (Text.upToByte? (stop - start))
  match if start ≤ stop then part else none with
  | some cs => return cs
  | none => fail .offBoundary

def since (start : Nat) : Reading (List Char) := do
  between start (← get).position

def rest : Reading (List Char) := do
  let tape ← get
  match Text.fromByte? tape.position tape.text with
  | some cs => return cs
  | none => fail .offBoundary

def peek : Reading (Option Char) := do
  return (← rest).head?

def peekSecond : Reading (Option Char) := do
  return (← rest)[1]?

def read : Reading (Option Char) := do
  match ← peek with
  | none => return none
  | some c =>
    modify (·.pass c.utf8Size)
    return some c

def unread : Reading Unit := do
  let tape ← get
  match tape.memory with
  | [] => fail .forgotten
  | size :: memory => set { tape with position := tape.position - size, memory := memory }

def rewind : Nat → Reading Unit
  | 0 => return
  | n + 1 => do
    unread
    rewind n

end Reading
end SqlLayout
