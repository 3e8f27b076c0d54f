import SqlLayout.Registry.Shipped
import SqlLayout.Token

/-! Dialects: the vocabulary that a text is read with. A dialect starts from the built-in registry
and takes further registries in order; a later word hides an earlier one. Tables are lists with the
newest entry first, so that looking a word up finds the entry that hides the others. -/

namespace SqlLayout
set_option autoImplicit false

inductive WordKind where
  | type | function | reserved
deriving DecidableEq, Repr

def WordKind.tokenKind : WordKind → TokenKind
  | .type => .type
  | .function => .function
  | .reserved => .reserved

structure Dialect where
  /-- The lower-case names of the registries, in order. -/
  names : List String := []
  /-- Upper-case words, newest first. -/
  words : List (String × WordKind) := []
  /-- Upper-case function names with the spelling to print, newest first. -/
  spellings : List (String × String) := []
  operators : List String := []
  /-- The upper-case prefixes of literals, longest first. -/
  literalPrefixes : List String := []
deriving DecidableEq, Repr

namespace Dialect

/-- Insert `p` behind all prefixes that are at least as long. -/
def insertPrefix (p : String) : List String → List String
  | [] => [p]
  | q :: qs => if q.length < p.length then p :: q :: qs else q :: insertPrefix p qs

def addPrefix (known : List String) (raw : String) : List String :=
  let p := Text.upper raw
  if p = "" || known.contains p then known else insertPrefix p known

/-- Take in a registry. One whose name is known already changes nothing. -/
def register (d : Dialect) (r : Registry) : Dialect :=
  let name := Text.asciiLowerText r.name
  if d.names.contains name then d
  else {
    names := d.names ++ [name]
    words :=
      (r.reservedValues.map fun w => (Text.upper w, WordKind.reserved)).reverse ++
      (r.functions.map fun w => (Text.upper w, WordKind.function)).reverse ++
      (r.types.map fun w => (Text.upper w, WordKind.type)).reverse ++ d.words
    spellings := (r.functions.map fun w => (Text.upper w, w)).reverse ++ d.spellings
    operators := d.operators ++ r.operators.filter (· ≠ "")
    literalPrefixes := r.literalPrefixes.foldl addPrefix d.literalPrefixes }

def builtin : Dialect := ({} : Dialect).register .postgres

def ofRegistries (rs : List Registry) : Dialect := rs.foldl register builtin

def wordKind? (d : Dialect) (word : String) : Option WordKind := d.words.lookup word

def functionSpelling? (d : Dialect) (word : String) : Option String := d.spellings.lookup word

def isOperator (d : Dialect) (text : String) : Bool := d.operators.contains text

def isOperatorPrefix (d : Dialect) (text : String) : Bool :=
  text ≠ "" && d.operators.any fun op => text.toList.isPrefixOf op.toList

def maxOperatorLength (d : Dialect) : Nat :=
  d.operators.foldl (fun n op => max n op.length) 0

end Dialect
end SqlLayout
