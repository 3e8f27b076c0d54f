import SqlLayout.Text.Case

/-! Paths. A path is compared by its components and printed as it was spelled: repeated separators,
separators at the end and dots inside a path make no difference. -/

namespace SqlLayout
set_option autoImplicit false

inductive Component where
  | root
  /-- The dot that a relative path may begin with. -/
  | current
  | parent
  | name (s : String)
deriving DecidableEq, Repr

namespace Component

def rank : Component → Nat
  | .root => 0
  | .current => 1
  | .parent => 2
  | .name _ => 3

/-- Components in order: names come last and are ordered by their characters. -/
def compare : Component → Component → Ordering
  | .name a, .name b => Ord.compare a b
  | a, b => Ord.compare a.rank b.rank

end Component

structure Path where
  spelling : String
deriving DecidableEq, Repr

namespace Path

def segments (text : String) : List String := (go text.toList).map String.ofList
where
  go : List Char → List (List Char)
    | [] => [[]]
    | '/' :: cs => [] :: go cs
    | c :: cs => (go cs).modifyHead (c :: ·)

def components (p : Path) : List Component :=
  let absolute := p.spelling.toList.head? = some '/'
  let named (s : String) : Option Component :=
    if s = "" || s = "." then none else if s = ".." then some .parent else some (.name s)
  let rest := (segments p.spelling).filterMap named
  if absolute then .root :: rest
  else if (segments p.spelling).head? = some "." then .current :: rest
  else rest

/-- The order of paths: the first component that differs decides. -/
def compareComponents : List Component → List Component → Ordering
  | [], [] => .eq
  | [], _ :: _ => .lt
  | _ :: _, [] => .gt
  | a :: as, b :: bs => (a.compare b).then (compareComponents as bs)

def compare (p q : Path) : Ordering := compareComponents p.components q.components

def join (p : Path) (name : String) : Path :=
  match p.spelling.toList.getLast? with
  | none => ⟨name⟩
  | some '/' => ⟨p.spelling ++ name⟩
  | some _ => ⟨p.spelling ++ "/" ++ name⟩

/-- Whether the spelling asks for a directory: it ends with a separator, or with a dot behind one. -/
def asksForDirectory (p : Path) : Bool :=
  match (segments p.spelling).getLast? with
  | some "" => p.spelling ≠ ""
  | some "." => true
  | _ => false

def fileName? (p : Path) : Option String :=
  match p.components.getLast? with
  | some (.name s) => some s
  | _ => none

/-- The part of a file name behind its last dot. A name that begins with its only dot has none. -/
def extension? (name : String) : Option String :=
  match name.toList.reverse.span (· ≠ '.') with
  | (_, []) => none
  | (_, [_]) => none
  | (backwards, _ :: _) => some (String.ofList backwards.reverse)

def isSqlName (name : String) : Bool :=
  (extension? name).any fun e => Text.asciiLowerText e = "sql"

/-- A directory and the directories above it, the innermost first, as far as the spelling goes. -/
def ancestors : List Component → List (List Component)
  | cs => go cs.reverse
where
  go : List Component → List (List Component)
    | [] => [[]]
    | [.root] => [[.root]]
    | c :: cs => (c :: cs).reverse :: go cs

end Path
end SqlLayout
