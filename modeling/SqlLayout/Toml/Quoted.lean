import SqlLayout.Toml.Scalar

/-! Strings of TOML: on one line or on several, with escapes or literal. -/

namespace SqlLayout.Toml
set_option autoImplicit false

/-- Characters that a string, or a comment, may hold as they are: no control characters but the
tab. -/
def isPlain (c : Char) : Bool := c = '\t' || (0x20 ≤ c.toNat && c.toNat ≠ 0x7F)

def codePoint? (ds : List Char) : Option Char :=
  let n := ofDigits 16 ds
  if ds.all (digitValue · < 16) && n.isValidChar then some (Char.ofNat n) else none

def escaped? : Char → Option Char
  | 'b' => some '\x08'
  | 't' => some '\t'
  | 'n' => some '\n'
  | 'f' => some '\x0c'
  | 'r' => some '\r'
  | '"' => some '"'
  | '\\' => some '\\'
  | _ => none

def consTo (c : Char) (r : Option (List Char × List Char)) : Option (List Char × List Char) :=
  r.map fun (s, rest) => (c :: s, rest)

/-- A string with escapes on one line, behind its opening quote, and what follows it. -/
def basic? : List Char → Option (List Char × List Char)
  | [] => none
  | '"' :: rest => some ([], rest)
  | '\\' :: 'u' :: a :: b :: c :: d :: rest =>
    (codePoint? [a, b, c, d]).bind fun x => consTo x (basic? rest)
  | '\\' :: 'U' :: a :: b :: c :: d :: e :: f :: g :: h :: rest =>
    (codePoint? [a, b, c, d, e, f, g, h]).bind fun x => consTo x (basic? rest)
  | '\\' :: c :: rest => (escaped? c).bind fun x => consTo x (basic? rest)
  | c :: rest => if isPlain c && c ≠ '\\' then consTo c (basic? rest) else none

def literal? : List Char → Option (List Char × List Char)
  | [] => none
  | '\x27' :: rest => some ([], rest)
  | c :: rest => if isPlain c then consTo c (literal? rest) else none

/-- The end of a string on several lines: three quotes, with one or two further quotes before them
that belong to the string. -/
def closing? (q : Char) : List Char → Option (List Char × List Char)
  | a :: b :: c :: d :: e :: rest =>
    if [a, b, c, d, e].all (· = q) then some ([q, q], rest)
    else if [a, b, c, d].all (· = q) then some ([q], e :: rest)
    else if [a, b, c].all (· = q) then some ([], d :: e :: rest)
    else none
  | [a, b, c, d] =>
    if [a, b, c, d].all (· = q) then some ([q], [])
    else if [a, b, c].all (· = q) then some ([], [d])
    else none
  | [a, b, c] => if [a, b, c].all (· = q) then some ([], []) else none
  | _ => none

def isBlank (c : Char) : Bool := c = ' ' || c = '\t'

def startsNewline : List Char → Bool
  | '\n' :: _ => true
  | '\r' :: '\n' :: _ => true
  | _ => false

/-- A string with escapes on several lines, behind its opening, and what follows it. While
`skipping` holds, blanks and ends of lines are passed over, as they are behind a backslash that ends
a line. -/
def multiBasic? (skipping : Bool) : List Char → Option (List Char × List Char)
  | [] => none
  | '\r' :: '\n' :: rest =>
    if skipping then multiBasic? true rest else consTo '\n' (multiBasic? false rest)
  | '\\' :: 'u' :: a :: b :: c :: d :: rest =>
    (codePoint? [a, b, c, d]).bind fun x => consTo x (multiBasic? false rest)
  | '\\' :: 'U' :: a :: b :: c :: d :: e :: f :: g :: h :: rest =>
    (codePoint? [a, b, c, d, e, f, g, h]).bind fun x => consTo x (multiBasic? false rest)
  | '\\' :: c :: rest =>
    if startsNewline ((c :: rest).dropWhile isBlank) then multiBasic? true (c :: rest)
    else (escaped? c).bind fun x => consTo x (multiBasic? false rest)
  | c :: rest =>
    if skipping && (isBlank c || c = '\n') then multiBasic? true rest
    else match closing? '"' (c :: rest) with
      | some done => some done
      | none =>
        if c = '\n' || (isPlain c && c ≠ '\\') then consTo c (multiBasic? false rest) else none

def multiLiteral? : List Char → Option (List Char × List Char)
  | [] => none
  | '\r' :: '\n' :: rest => consTo '\n' (multiLiteral? rest)
  | c :: rest =>
    match closing? '\x27' (c :: rest) with
    | some done => some done
    | none => if c = '\n' || isPlain c then consTo c (multiLiteral? rest) else none

/-- The end of the line that stands right behind the opening of a string of several lines does not
belong to it. -/
def dropNewline : List Char → List Char
  | '\n' :: rest => rest
  | '\r' :: '\n' :: rest => rest
  | cs => cs

def quoted? : List Char → Option (List Char × List Char)
  | '"' :: '"' :: '"' :: rest => multiBasic? false (dropNewline rest)
  | '"' :: rest => basic? rest
  | '\x27' :: '\x27' :: '\x27' :: rest => multiLiteral? (dropNewline rest)
  | '\x27' :: rest => literal? rest
  | _ => none

end SqlLayout.Toml
