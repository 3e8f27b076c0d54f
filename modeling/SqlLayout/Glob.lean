/-! Patterns for names. A question mark stands for one character, a star for any number of them, two
stars for any number of directories, and brackets for one character of a set. -/

namespace SqlLayout
set_option autoImplicit false

namespace Glob

structure Span where
  first : Char
  last : Char
deriving DecidableEq, Repr

def Span.holds (s : Span) (c : Char) : Bool := s.first ≤ c && c ≤ s.last

inductive Part where
  | literal (c : Char)
  | anyChar
  | anyText
  | anyPath
  | oneOf (spans : List Span)
  | noneOf (spans : List Span)
deriving DecidableEq, Repr

def spans : List Char → List Span
  | a :: '-' :: b :: rest => ⟨a, b⟩ :: spans rest
  | a :: rest => ⟨a, a⟩ :: spans rest
  | [] => []

/-- What stands between brackets, and what follows. The first character may be a closing bracket. -/
def bracketed? : List Char → Option (List Char × List Char)
  | [] => none
  | c :: cs =>
    match cs.span (· ≠ ']') with
    | (_, []) => none
    | (inside, _ :: rest) => some (c :: inside, rest)

/-- Read a pattern; `before` is the character before what is left. Two stars must be a whole
component, and three are refused. The fuel is at least the number of characters left. -/
def parseFrom : Nat → Option Char → List Char → Option (List Part)
  | _, _, [] => some []
  | 0, _, _ :: _ => none
  | fuel + 1, before, c :: cs =>
    match c, cs with
    | '?', _ => (parseFrom fuel (some '?') cs).map (.anyChar :: ·)
    | '*', '*' :: '*' :: _ => none
    | '*', '*' :: rest =>
      if before.all (· = '/') then
        match rest with
        | [] => some [.anyPath]
        | '/' :: rest => (parseFrom fuel (some '/') rest).map (.anyPath :: ·)
        | _ => none
      else none
    | '*', _ => (parseFrom fuel (some '*') cs).map (.anyText :: ·)
    | '[', '!' :: rest => (bracketed? rest).bind fun (inside, rest) =>
        (parseFrom fuel (some ']') rest).map (.noneOf (spans inside) :: ·)
    | '[', rest => (bracketed? rest).bind fun (inside, rest) =>
        (parseFrom fuel (some ']') rest).map (.oneOf (spans inside) :: ·)
    | c, cs => (parseFrom fuel (some c) cs).map (.literal c :: ·)

def parse? (pattern : String) : Option (List Part) :=
  parseFrom pattern.length none pattern.toList

def Part.fits (p : Part) (c : Char) : Bool :=
  match p with
  | .literal d => c = d
  | .anyChar => true
  | .oneOf spans => spans.any (·.holds c)
  | .noneOf spans => !spans.any (·.holds c)
  | .anyText | .anyPath => false

/-- Whether a test holds of a text or of what is left of it after some of its characters. -/
def someRest (test : List Char → Bool) : List Char → Bool
  | [] => test []
  | c :: cs => test (c :: cs) || someRest test cs

/-- Whether a test holds of a text, of what follows one of its separators, or of its end. -/
def someComponent (test : List Char → Bool) : List Char → Bool
  | [] => test []
  | c :: cs => test (c :: cs) || afterSeparator (c :: cs)
where
  afterSeparator : List Char → Bool
    | [] => test []
    | c :: cs => (c = '/' && test cs) || afterSeparator cs

def matchParts : List Part → List Char → Bool
  | [], cs => cs.isEmpty
  | .anyText :: ps, cs => someRest (matchParts ps) cs
  | .anyPath :: ps, cs => someComponent (matchParts ps) cs
  | p :: ps, c :: cs => p.fits c && matchParts ps cs
  | _ :: _, [] => false

/-- Whether a name matches a pattern. A pattern that is not well formed matches nothing. -/
def isMatch (pattern name : String) : Bool :=
  (parse? pattern).any fun parts => matchParts parts name.toList

end Glob
end SqlLayout
