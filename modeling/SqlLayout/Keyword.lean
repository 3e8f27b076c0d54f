/-! The keywords of the language. They are fixed; every other word belongs to a dialect. -/

namespace SqlLayout
set_option autoImplicit false

inductive Keyword where
  | ALL | AND | ANY | AS | ASC | AT | BETWEEN | BY | CASE | COLLATE | CONFLICT | CONTENT | CROSS
  | DELETE | DESC | DISTINCT | DISTINCTROW | DO | DOCUMENT | DOUBLE | ELSE | END | ESCAPE
  | EXCEPT | EXISTS | FETCH | FILTER | FIRST | FOLLOWING | FOR | FROM | FULL | GROUP | HAVING
  | IN | INNER | INSERT | INTERSECT | INTO | IS | JOIN | LAST | LATERAL | LEFT | LIKE | LIMIT
  | LOCK | NATURAL | NOT | NULL | NULLS | OFFSET | ON | OR | ORDER | ORDINALITY | OUTER
  | OVERLAPS | PASSING | PRECEDING | PRECISION | REF | RETURNING | RIGHT | ROW | ROWS | SELECT
  | SET | SIMILAR | SOME | THEN | TIME | TO | UNBOUNDED | UNION | UPDATE | USING | VALUES
  | VARYING | WHEN | WHERE | WINDOW | WITH | WITHIN | XMLNAMESPACES | ZONE
deriving DecidableEq, Repr

namespace Keyword

def all : List Keyword := [
  .ALL, .AND, .ANY, .AS, .ASC, .AT, .BETWEEN, .BY, .CASE, .COLLATE, .CONFLICT, .CONTENT, .CROSS,
  .DELETE, .DESC, .DISTINCT, .DISTINCTROW, .DO, .DOCUMENT, .DOUBLE, .ELSE, .END, .ESCAPE,
  .EXCEPT, .EXISTS, .FETCH, .FILTER, .FIRST, .FOLLOWING, .FOR, .FROM, .FULL, .GROUP, .HAVING,
  .IN, .INNER, .INSERT, .INTERSECT, .INTO, .IS, .JOIN, .LAST, .LATERAL, .LEFT, .LIKE, .LIMIT,
  .LOCK, .NATURAL, .NOT, .NULL, .NULLS, .OFFSET, .ON, .OR, .ORDER, .ORDINALITY, .OUTER,
  .OVERLAPS, .PASSING, .PRECEDING, .PRECISION, .REF, .RETURNING, .RIGHT, .ROW, .ROWS, .SELECT,
  .SET, .SIMILAR, .SOME, .THEN, .TIME, .TO, .UNBOUNDED, .UNION, .UPDATE, .USING, .VALUES,
  .VARYING, .WHEN, .WHERE, .WINDOW, .WITH, .WITHIN, .XMLNAMESPACES, .ZONE]

def spelling : Keyword → String
  | .ALL => "ALL" | .AND => "AND" | .ANY => "ANY" | .AS => "AS" | .ASC => "ASC" | .AT => "AT"
  | .BETWEEN => "BETWEEN" | .BY => "BY" | .CASE => "CASE" | .COLLATE => "COLLATE"
  | .CONFLICT => "CONFLICT" | .CONTENT => "CONTENT" | .CROSS => "CROSS" | .DELETE => "DELETE"
  | .DESC => "DESC" | .DISTINCT => "DISTINCT" | .DISTINCTROW => "DISTINCTROW" | .DO => "DO"
  | .DOCUMENT => "DOCUMENT" | .DOUBLE => "DOUBLE" | .ELSE => "ELSE" | .END => "END"
  | .ESCAPE => "ESCAPE" | .EXCEPT => "EXCEPT" | .EXISTS => "EXISTS" | .FETCH => "FETCH"
  | .FILTER => "FILTER" | .FIRST => "FIRST" | .FOLLOWING => "FOLLOWING" | .FOR => "FOR"
  | .FROM => "FROM" | .FULL => "FULL" | .GROUP => "GROUP" | .HAVING => "HAVING" | .IN => "IN"
  | .INNER => "INNER" | .INSERT => "INSERT" | .INTERSECT => "INTERSECT" | .INTO => "INTO"
  | .IS => "IS" | .JOIN => "JOIN" | .LAST => "LAST" | .LATERAL => "LATERAL" | .LEFT => "LEFT"
  | .LIKE => "LIKE" | .LIMIT => "LIMIT" | .LOCK => "LOCK" | .NATURAL => "NATURAL" | .NOT => "NOT"
  | .NULL => "NULL" | .NULLS => "NULLS" | .OFFSET => "OFFSET" | .ON => "ON" | .OR => "OR"
  | .ORDER => "ORDER" | .ORDINALITY => "ORDINALITY" | .OUTER => "OUTER" | .OVERLAPS => "OVERLAPS"
  | .PASSING => "PASSING" | .PRECEDING => "PRECEDING" | .PRECISION => "PRECISION" | .REF => "REF"
  | .RETURNING => "RETURNING" | .RIGHT => "RIGHT" | .ROW => "ROW" | .ROWS => "ROWS"
  | .SELECT => "SELECT" | .SET => "SET" | .SIMILAR => "SIMILAR" | .SOME => "SOME"
  | .THEN => "THEN" | .TIME => "TIME" | .TO => "TO" | .UNBOUNDED => "UNBOUNDED"
  | .UNION => "UNION" | .UPDATE => "UPDATE" | .USING => "USING" | .VALUES => "VALUES"
  | .VARYING => "VARYING" | .WHEN => "WHEN" | .WHERE => "WHERE" | .WINDOW => "WINDOW"
  | .WITH => "WITH" | .WITHIN => "WITHIN" | .XMLNAMESPACES => "XMLNAMESPACES" | .ZONE => "ZONE"

/-- The keyword that an upper-case word spells. Two words are other spellings of a keyword. -/
def ofUpper? (word : String) : Option Keyword :=
  if word = "ILIKE" then some .LIKE
  else if word = "UNKNOWN" then some .NULL
  else all.find? (·.spelling = word)

/-- The name of the keyword in messages: its spelling with a capital first letter. -/
def name : Keyword → String
  | .DISTINCTROW => "DistinctRow"
  | .XMLNAMESPACES => "XmlNamespaces"
  | k => match k.spelling.toList with
    | c :: cs => String.ofList (c :: cs.map Char.toLower)
    | [] => ""

theorem mem_all (k : Keyword) : k ∈ all := by
  cases k <;> decide

end Keyword
end SqlLayout
