import SqlLayout.Options
import SqlLayout.Statement

/-! The layout of statements. A layout is a draft: the tokens in order, each with the white space
before it. Every kind of group has a manner that says, for each of its tokens, whether a line is
begun or the token follows on the line. The draft depends on the groups and on the comma style
alone; the spelling of the tokens comes later. -/

namespace SqlLayout
set_option autoImplicit false

structure Piece where
  gap : List Char
  token : Token
deriving DecidableEq, Repr

structure Draft where
  /-- The pieces so far, newest first. -/
  pieces : List Piece := []
  pending : List Char := []
  /-- The next token of the line follows without a space. -/
  glue : Bool := false
deriving DecidableEq, Repr

namespace Draft

/-- Begin a line at a level of indent, two spaces each, and `pad` further spaces. -/
def newline (d : Draft) (indent pad : Nat) : Draft :=
  { d with pending := d.pending ++ '\n' :: List.replicate (2 * indent + pad) ' ', glue := false }

/-- Put a token with no space before it. Brackets that open, and casts, hold the next token to
them. -/
def tight (d : Draft) (t : Token) : Draft where
  pieces := ⟨d.pending, t⟩ :: d.pieces
  pending := []
  glue := t.kind.isOpening || t.isCast

def line (d : Draft) (indent pad : Nat) (t : Token) : Draft := (d.newline indent pad).tight t

def spaced (d : Draft) (t : Token) : Draft :=
  if d.glue then d.tight t else { d with pending := d.pending ++ [' '] }.tight t

/-- Tokens that stand directly behind the token before them. -/
def hugsLeft (t : Token) : Bool :=
  match t.kind with
  | .comma | .semicolon | .closeParen | .closeBracket | .closeBrace => true
  | _ => t.isCast

def inline (d : Draft) (t : Token) : Draft := if hugsLeft t then d.tight t else d.spaced t

def columnComma (d : Draft) (style : CommaStyle) (indent : Nat) (t : Token) : Draft :=
  match style with
  | .left => d.line indent 2 t
  | .right => (d.tight t).newline indent 1

end Draft

structure Placement where
  /-- The number of the column that the group belongs to, in a list of columns. -/
  column : Option Nat := none
  afterComma : Bool := false
  /-- Further levels of indent, from subqueries that are columns. -/
  bonus : Nat := 0
deriving DecidableEq, Repr

namespace Layout

inductive Manner where
  | columns
  | caseExpr
  | call
  | parens
  | subquery
  /-- Running text, broken before the tokens that begin lines. -/
  | lock | stream
deriving DecidableEq, Repr

def manner : GroupKind → Manner
  | .select | .update | .setClause | .orderBy | .groupBy | .returning => .columns
  | .caseExpr => .caseExpr
  | .call | .typeCall => .call
  | .parens => .parens
  | .subquery => .subquery
  | .lock => .lock
  | .fromClause | .join | .whereClause | .andLine | .orLine | .having | .limit | .tie | .delete
  | .insert | .values | .withClause => .stream

structure Setting where
  kind : GroupKind
  indent : Nat
  place : Placement
deriving DecidableEq, Repr

structure Cursor where
  index : Nat := 0
  columns : Nat := 0
  depth : Nat := 0
  previous : Option TokenKind := none
deriving DecidableEq, Repr

def depthAfter (depth : Nat) : TokenKind → Nat
  | .openBracket | .openBrace => depth + 1
  | .closeBracket | .closeBrace => depth - 1
  | _ => depth

/-- Lay out a token of a list of columns. Commas inside brackets separate no columns. -/
def putColumnToken (style : CommaStyle) (s : Setting) (c : Cursor) (t : Token) (d : Draft) :
    Draft :=
  if 0 < c.depth then d.inline t
  else if t.kind = .comma then d.columnComma style s.indent t
  else if t.kind.isColumnListKeyword then
    let begins :=
      if s.kind = .select then t.kind = .keyword .SELECT || t.kind = .keyword .INTO
      else t.kind.needsNewlineBefore
    if begins then d.line s.indent 0 t else d.inline t
  else if c.columns = 0 then d.line s.indent 2 t
  else d.inline t

def putCaseToken (s : Setting) (t : Token) (d : Draft) : Draft :=
  let after := s.place.afterComma
  match t.kind with
  | .keyword .CASE => if after then d.spaced t else d.line s.indent 2 t
  | .keyword .WHEN | .keyword .ELSE => d.line s.indent (if after then 6 else 5) t
  | .keyword .END => d.line s.indent (if after then 4 else 2) t
  | _ => d.inline t

def putCallToken (s : Setting) (c : Cursor) (t : Token) (d : Draft) : Draft :=
  match c.index with
  | 0 => if s.place.column = some 0 then d.line s.indent 2 t else d.spaced t
  | 1 => if t.kind = .openParen then d.tight t else d.inline t
  | _ => d.inline t

/-- Lay out a token of a subquery. As a column it ends where it begins, else one level before its
body. -/
def putSubqueryToken (s : Setting) (c : Cursor) (t : Token) (d : Draft) : Draft :=
  if c.index = 0 ∧ s.place.column = some 0 then d.line s.indent 0 t
  else if t.kind = .closeParen then
    d.line (if s.place.column.isSome then s.indent else s.indent - 1) 0 t
  else d.inline t

def putToken (style : CommaStyle) (s : Setting) (c : Cursor) (t : Token) (d : Draft) : Draft :=
  match manner s.kind with
  | .columns => putColumnToken style s c t d
  | .caseExpr => putCaseToken s t d
  | .call => putCallToken s c t d
  | .parens =>
    if c.index = 0 ∧ s.place.column = some 0 then d.line s.indent 2 t else d.inline t
  | .subquery => putSubqueryToken s c t d
  | .lock => if c.index = 0 ∨ t.kind = .keyword .IN then d.line s.indent 0 t else d.inline t
  | .stream =>
    if c.index = 0 || t.kind.needsNewlineBefore || t.kind = .keyword .DO then d.line s.indent 0 t
    else d.inline t

/-- The cursor behind a token. In a list of columns every token counts that is part of one. -/
def Cursor.afterToken (s : Setting) (c : Cursor) (t : Token) : Cursor :=
  let counts :=
    c.depth = 0 && t.kind ≠ .comma &&
      (if t.kind.isColumnListKeyword then s.kind = .select && t.kind = .keyword .EXISTS else true)
  let tracks := 0 < c.depth || (t.kind ≠ .comma && !t.kind.isColumnListKeyword)
  { index := c.index + 1
    columns := if counts then c.columns + 1 else c.columns
    depth := if tracks then depthAfter c.depth t.kind else c.depth
    previous := some t.kind }

def Cursor.afterGroup (c : Cursor) : Cursor :=
  { c with index := c.index + 1, columns := c.columns + 1, previous := none }

def childPlace (s : Setting) (c : Cursor) (kind : GroupKind) : Placement :=
  match manner s.kind with
  | .columns =>
    match kind with
    | .caseExpr => { bonus := s.place.bonus, afterComma := c.previous = some .comma }
    | .subquery =>
      if c.previous = some (.keyword .EXISTS) then { bonus := s.place.bonus }
      else { bonus := s.place.bonus, column := some c.columns }
    | .call | .typeCall | .parens => { bonus := s.place.bonus, column := some c.columns }
    | _ => { bonus := s.place.bonus }
  | .subquery => { bonus := s.place.bonus + (if s.place.column.isSome then 1 else 0) }
  | _ => { bonus := s.place.bonus }

mutual

def putElement (style : CommaStyle) (s : Setting) (c : Cursor) : Element → Draft → Draft
  | .token t, d => putToken style s c t d
  | .group g, d => putGroup style (childPlace s c g.kind) g d

def putGroup (style : CommaStyle) (place : Placement) : Group → Draft → Draft
  | .mk kind elements indent, d =>
    putElements style ⟨kind, indent + place.bonus, place⟩ {} elements d

def putElements (style : CommaStyle) (s : Setting) (c : Cursor) : List Element → Draft → Draft
  | [], d => d
  | e :: es, d =>
    let c' := match e with
      | .token t => c.afterToken s t
      | .group _ => c.afterGroup
    putElements style s c' es (putElement style s c e d)

end

end Layout

inductive BuildFault where
  | emptyGroup (kind : GroupKind)
  | nestedName (kind inner : GroupKind)
deriving DecidableEq, Repr

def BuildFault.message : BuildFault → String
  | .emptyGroup kind => "empty " ++ kind.name ++ " group"
  | .nestedName kind inner => kind.name ++ " group starts with a nested " ++ inner.name

namespace Layout

mutual

def elementFault? : Element → Option BuildFault
  | .token _ => none
  | .group g => groupFault? g

/-- The first fault of a group, in the order of the text: no group may be empty, and a call begins
with its name. -/
def groupFault? : Group → Option BuildFault
  | .mk kind elements _ =>
    match elements with
    | [] => some (.emptyGroup kind)
    | e :: es =>
      match manner kind, e with
      | .call, .group g => some (.nestedName kind g.kind)
      | _, e => (elementFault? e).or (elementsFault? es)

def elementsFault? : List Element → Option BuildFault
  | [] => none
  | e :: es => (elementFault? e).or (elementsFault? es)

end

def putGroups (style : CommaStyle) (groups : List Group) (d : Draft) : Draft :=
  groups.foldl (fun d g => putGroup style {} g d) d

/-- Lay out a statement; its semicolon stands on its last line. -/
def putStatement (style : CommaStyle) (d : Draft) (s : Statement) : Draft :=
  let d := putGroups style s.groups d
  match s.terminator with
  | some t => d.tight t
  | none => d

def draft (style : CommaStyle) (statements : List Statement) : Draft :=
  statements.foldl (putStatement style) {}

def fault? (groups : List Group) : Option BuildFault := groups.findSome? groupFault?

end Layout
end SqlLayout
