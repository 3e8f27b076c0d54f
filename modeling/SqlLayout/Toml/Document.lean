import SqlLayout.Toml.Quoted
import SqlLayout.Toml.Table

/-! Documents of TOML. Whether a text is a document is decided exactly; where a text fails to be one
is not told. -/

namespace SqlLayout.Toml
set_option autoImplicit false

def nestingLimit : Nat := 80

def skipBlanks (cs : List Char) : List Char := cs.dropWhile isBlank

/-- Drop a comment, up to the end of its line. A comment may hold no control characters. -/
def dropComment? : List Char → Option (List Char)
  | '#' :: cs =>
    let (comment, rest) := cs.span fun c => c ≠ '\n' && c ≠ '\r'
    if comment.all isPlain then some rest else none
  | cs => some cs

/-- Drop blanks, comments and ends of lines. The fuel is at least the number of characters. -/
def dropTrivia? : Nat → List Char → Option (List Char)
  | 0, cs => some cs
  | fuel + 1, cs =>
    match cs with
    | ' ' :: rest | '\t' :: rest | '\n' :: rest | '\r' :: '\n' :: rest => dropTrivia? fuel rest
    | '#' :: _ => (dropComment? cs).bind (dropTrivia? fuel)
    | _ => some cs

def dropLineEnd? (cs : List Char) : Option (List Char) :=
  match dropComment? (skipBlanks cs) with
  | some [] => some []
  | some ('\n' :: rest) => some rest
  | some ('\r' :: '\n' :: rest) => some rest
  | _ => none

def isBareKey (c : Char) : Bool := c.isAlphanum || c = '_' || c = '-'

def simpleKey? (cs : List Char) : Option (String × List Char) :=
  match cs with
  | '"' :: rest => (basic? rest).map fun (s, rest) => (String.ofList s, rest)
  | '\x27' :: rest => (literal? rest).map fun (s, rest) => (String.ofList s, rest)
  | cs =>
    match cs.span isBareKey with
    | ([], _) => none
    | (s, rest) => some (String.ofList s, rest)

/-- A key with the blanks around its parts: the parts but the last, the last, and what follows. The
fuel bounds the number of parts. -/
def key? : Nat → List Char → Option (List String × String × List Char)
  | 0, _ => none
  | fuel + 1, cs => do
    let (part, rest) ← simpleKey? (skipBlanks cs)
    match skipBlanks rest with
    | '.' :: rest =>
      let (path, last, rest) ← key? fuel rest
      some (part :: path, last, rest)
    | rest => some ([], part, rest)

mutual

/-- A value, and what follows it. The depth is what is left of the nesting limit; the fuel is more
than twice the number of characters. -/
def value? (depth : Nat) : Nat → List Char → Option (Value × List Char)
  | 0, _ => none
  | fuel + 1, cs =>
    match cs with
    | '"' :: _ | '\x27' :: _ => (quoted? cs).map fun (s, rest) => (.string (String.ofList s), rest)
    | '[' :: rest =>
      if depth ≤ 1 then none
      else (items? (depth - 1) fuel rest).map fun (vs, rest) => (.array vs, rest)
    | '\x7b' :: rest =>
      if depth ≤ 1 then none
      else match skipBlanks rest with
        | '\x7d' :: rest => some (.table [], rest)
        | rest => (fields? (depth - 1) fuel .empty rest).map fun (t, rest) => (t.toValue, rest)
    | cs =>
      let (text, rest) := splitScalar cs
      (scalar? text).map (·, rest)

def items? (depth : Nat) : Nat → List Char → Option (List Value × List Char)
  | 0, _ => none
  | fuel + 1, cs => do
    match ← dropTrivia? cs.length cs with
    | ']' :: rest => some ([], rest)
    | cs =>
      let (v, rest) ← value? depth fuel cs
      match ← dropTrivia? rest.length rest with
      | ',' :: rest =>
        let (vs, rest) ← items? depth fuel rest
        some (v :: vs, rest)
      | ']' :: rest => some ([v], rest)
      | _ => none

def fields? (depth : Nat) : Nat → Draft → List Char → Option (Draft × List Char)
  | 0, _, _ => none
  | fuel + 1, t, cs => do
    let (path, last, rest) ← key? (nestingLimit - 1) cs
    match rest with
    | '=' :: rest =>
      let (v, rest) ← value? depth fuel (skipBlanks rest)
      let t ← t.assign path last v
      match skipBlanks rest with
      | ',' :: rest => fields? depth fuel t rest
      | '\x7d' :: rest => some (t, rest)
      | _ => none
    | _ => none

end

inductive Line where
  | table (path : List String) (last : String)
  | tables (path : List String) (last : String)
  | assign (path : List String) (last : String) (v : Value)

def line? : List Char → Option (Line × List Char)
  | '[' :: '[' :: cs => do
    let (path, last, rest) ← key? (nestingLimit - 1) cs
    match rest with
    | ']' :: ']' :: rest => some (.tables path last, rest)
    | _ => none
  | '[' :: cs => do
    let (path, last, rest) ← key? (nestingLimit - 1) cs
    match rest with
    | ']' :: rest => some (.table path last, rest)
    | _ => none
  | cs => do
    let (path, last, rest) ← key? (nestingLimit - 1) cs
    match rest with
    | '=' :: rest =>
      let rest := skipBlanks rest
      let (v, rest) ← value? nestingLimit (2 * rest.length + 2) rest
      some (.assign path last v, rest)
    | _ => none

def lines? : Nat → List Char → Option (List Line)
  | 0, _ => none
  | fuel + 1, cs => do
    match ← dropTrivia? cs.length cs with
    | [] => some []
    | cs =>
      let (line, rest) ← line? cs
      let rest ← dropLineEnd? rest
      let lines ← lines? fuel rest
      some (line :: lines)

/-- Take a line into the document. The lines behind a header define its table. -/
def applyLine (state : Draft × List String) (line : Line) : Option (Draft × List String) :=
  let (root, current) := state
  match line with
  | .table path last => (root.define path last).map (·, path ++ [last])
  | .tables path last => (root.append path last).map (·, path ++ [last])
  | .assign path last v => (root.change false (Draft.assign path last v) current).map (·, current)

/-- The fields of the table that a document defines; `none` when the text is no document. A byte order
mark at the front is passed over. -/
def parse? (text : String) : Option (List (String × Value)) := do
  let cs := match text.toList with
    | '\uFEFF' :: rest => rest
    | cs => cs
  let lines ← lines? (cs.length + 1) cs
  let (root, _) ← lines.foldlM applyLine (Draft.empty, [])
  fieldsWithMoments? (fieldsOf root.items)

end SqlLayout.Toml
