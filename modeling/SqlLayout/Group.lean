import SqlLayout.Token

/-! Groups: the tree that a statement is read into. A group is a clause or an expression; its
elements are tokens and nested groups, in the order of the text. -/

namespace SqlLayout
set_option autoImplicit false

inductive GroupKind where
  | select | fromClause | join | whereClause | andLine | orLine | groupBy | having | orderBy
  | limit | tie | update | setClause | returning | delete | insert | values | lock | withClause
  | caseExpr | call | typeCall | parens | subquery
deriving DecidableEq, Repr

namespace GroupKind

def all : List GroupKind := [
  .select, .fromClause, .join, .whereClause, .andLine, .orLine, .groupBy, .having, .orderBy,
  .limit, .tie, .update, .setClause, .returning, .delete, .insert, .values, .lock, .withClause,
  .caseExpr, .call, .typeCall, .parens, .subquery]

def name : GroupKind → String
  | .select => "Select"
  | .fromClause => "From"
  | .join => "Join"
  | .whereClause => "Where"
  | .andLine => "AndGroup"
  | .orLine => "OrGroup"
  | .groupBy => "GroupBy"
  | .having => "Having"
  | .orderBy => "OrderBy"
  | .limit => "LimitClause"
  | .tie => "TieClause"
  | .update => "Update"
  | .setClause => "Set"
  | .returning => "Returning"
  | .delete => "Delete"
  | .insert => "Insert"
  | .values => "Values"
  | .lock => "Lock"
  | .withClause => "With"
  | .caseExpr => "Case"
  | .call => "Function"
  | .typeCall => "TypeCast"
  | .parens => "Parenthesis"
  | .subquery => "Subquery"

/-- The group that a token opens. A parenthesis turns out to be a subquery only when its contents
are known. -/
def ofStart? : TokenKind → Option GroupKind
  | .keyword .SELECT => some .select
  | .keyword .FROM => some .fromClause
  | .keyword .WHERE => some .whereClause
  | .lineAnd => some .andLine
  | .lineOr => some .orLine
  | .keyword .GROUP => some .groupBy
  | .keyword .HAVING => some .having
  | .keyword .ORDER => some .orderBy
  | .keyword .LIMIT | .keyword .OFFSET | .keyword .FETCH => some .limit
  | .keyword .UNION | .keyword .INTERSECT | .keyword .EXCEPT => some .tie
  | .keyword .UPDATE => some .update
  | .keyword .SET => some .setClause
  | .keyword .RETURNING => some .returning
  | .keyword .DELETE => some .delete
  | .keyword .INSERT => some .insert
  | .keyword .VALUES => some .values
  | .keyword .LOCK => some .lock
  | .keyword .WITH => some .withClause
  | .keyword .CASE => some .caseExpr
  | .function => some .call
  | .type => some .typeCall
  | .openParen => some .parens
  | kind => if kind.isJoinStart then some .join else none

def closing? : GroupKind → Option TokenKind
  | .caseExpr => some (.keyword .END)
  | .call | .typeCall | .parens | .subquery => some .closeParen
  | _ => none

/-- Groups in which an AND or OR that begins a line opens a group. -/
def holdsLines : GroupKind → Bool
  | .caseExpr | .call | .typeCall | .parens => false
  | _ => true

/-- The kinds of tokens that end a group. The end of the input ends every group that has no closing
token. -/
def ends : GroupKind → List TokenKind
  | .select => [.keyword .FROM, .keyword .WHERE, .keyword .GROUP, .keyword .HAVING,
      .keyword .ORDER, .keyword .LIMIT, .keyword .OFFSET, .keyword .FETCH, .keyword .UNION,
      .keyword .EXCEPT, .keyword .INTERSECT, .closeParen]
  | .fromClause => [.keyword .WHERE, .keyword .FULL, .keyword .INNER, .keyword .OUTER,
      .keyword .LEFT, .keyword .RIGHT, .keyword .JOIN, .keyword .NATURAL, .keyword .CROSS,
      .keyword .ORDER, .keyword .GROUP, .keyword .HAVING, .keyword .UNION, .keyword .OFFSET,
      .keyword .LIMIT, .keyword .FETCH, .keyword .EXCEPT, .keyword .INTERSECT,
      .keyword .RETURNING, .closeParen]
  | .join => [.keyword .WHERE, .keyword .ORDER, .keyword .GROUP, .keyword .HAVING,
      .keyword .LIMIT, .keyword .OFFSET, .keyword .FETCH, .lineAnd, .lineOr, .keyword .JOIN,
      .keyword .FULL, .keyword .LEFT, .keyword .RIGHT, .keyword .INNER, .keyword .OUTER,
      .keyword .NATURAL, .keyword .CROSS, .keyword .UNION, .keyword .EXCEPT,
      .keyword .INTERSECT, .keyword .RETURNING, .closeParen]
  | .whereClause => [.keyword .GROUP, .keyword .ORDER, .keyword .LIMIT, .keyword .OFFSET,
      .keyword .FETCH, .keyword .HAVING, .lineAnd, .lineOr, .keyword .UNION, .keyword .EXCEPT,
      .keyword .INTERSECT, .keyword .RETURNING, .closeParen]
  | .andLine | .orLine => [.keyword .GROUP, .keyword .ORDER, .keyword .LIMIT, .keyword .OFFSET,
      .keyword .FETCH, .keyword .HAVING, .keyword .UNION, .keyword .EXCEPT, .keyword .INTERSECT,
      .lineAnd, .lineOr, .keyword .RETURNING, .closeParen]
  | .groupBy => [.keyword .ORDER, .keyword .LIMIT, .keyword .FETCH, .keyword .OFFSET,
      .keyword .UNION, .keyword .EXCEPT, .keyword .INTERSECT, .keyword .HAVING, .closeParen]
  | .having => [.keyword .LIMIT, .keyword .OFFSET, .keyword .FETCH, .keyword .ORDER,
      .keyword .UNION, .keyword .EXCEPT, .keyword .INTERSECT, .closeParen]
  | .orderBy => [.keyword .LIMIT, .keyword .FETCH, .keyword .OFFSET, .keyword .UNION,
      .keyword .EXCEPT, .keyword .INTERSECT, .closeParen]
  | .limit => [.keyword .UNION, .keyword .EXCEPT, .keyword .INTERSECT, .closeParen]
  | .tie => [.keyword .SELECT]
  | .update => [.keyword .WHERE, .keyword .SET, .keyword .RETURNING]
  | .setClause => [.keyword .WHERE, .keyword .FROM, .keyword .RETURNING]
  | .returning => [.closeParen]
  | .delete => [.keyword .WHERE, .keyword .FROM]
  | .insert => [.keyword .VALUES, .keyword .SELECT]
  | .values => [.keyword .UPDATE, .keyword .RETURNING, .keyword .SELECT]
  | .lock => []
  | .withClause => [.keyword .SELECT, .keyword .INSERT, .keyword .UPDATE, .keyword .DELETE]
  | .caseExpr => [.keyword .END]
  | .call | .typeCall | .parens | .subquery => [.closeParen]

end GroupKind

mutual

inductive Element where
  | token (t : Token)
  | group (g : Group)

/-- A clause or expression with its elements. The token that closes a group is its last element. The
indent level is the one that its lines start from. -/
inductive Group where
  | mk (kind : GroupKind) (elements : List Element) (indent : Nat)

end

def Group.kind : Group → GroupKind
  | .mk kind _ _ => kind

def Group.elements : Group → List Element
  | .mk _ elements _ => elements

def Group.indent : Group → Nat
  | .mk _ _ indent => indent

mutual

def Element.tokens : Element → List Token
  | .token t => [t]
  | .group g => g.tokens

def Group.tokens : Group → List Token
  | .mk _ elements _ => Element.tokensOf elements

def Element.tokensOf : List Element → List Token
  | [] => []
  | e :: es => e.tokens ++ Element.tokensOf es

end

namespace Element

def isGroup : Element → Bool
  | .token _ => false
  | .group _ => true

def token? : Element → Option Token
  | .token t => some t
  | .group _ => none

theorem tokensOf_eq_flatMap (es : List Element) : tokensOf es = es.flatMap tokens := by
  induction es with
  | nil => rfl
  | cons e es ih => simp [tokensOf, ih]

@[simp] theorem tokensOf_append (es fs : List Element) :
    tokensOf (es ++ fs) = tokensOf es ++ tokensOf fs := by
  simp [tokensOf_eq_flatMap]

end Element

def Group.tokensOf (groups : List Group) : List Token := groups.flatMap Group.tokens

end SqlLayout
