import SqlLayout.Keyword

/-! Tokens: what a piece of text is, and the text itself. The classes of kinds below drive the
grouping of tokens and their layout. -/

namespace SqlLayout
set_option autoImplicit false

/-- What a token is. An AND or OR that begins a line of the input is a kind of its own, because it
opens a line of the output. -/
inductive TokenKind where
  | eof | comma | semicolon
  | openParen | closeParen | openBracket | closeBracket | openBrace | closeBrace
  | keyword (k : Keyword)
  | ident | string | reserved | function | type | operator
  | lineAnd | lineOr
deriving DecidableEq, Repr

namespace TokenKind

def all : List TokenKind :=
  [.eof, .comma, .semicolon, .openParen, .closeParen, .openBracket, .closeBracket, .openBrace,
    .closeBrace] ++ Keyword.all.map .keyword ++
  [.ident, .string, .reserved, .function, .type, .operator, .lineAnd, .lineOr]

def name : TokenKind → String
  | .eof => "Eof"
  | .comma => "Comma"
  | .semicolon => "Semicolon"
  | .openParen => "StartParenthesis"
  | .closeParen => "EndParenthesis"
  | .openBracket => "StartBracket"
  | .closeBracket => "EndBracket"
  | .openBrace => "StartBrace"
  | .closeBrace => "EndBrace"
  | .keyword k => k.name
  | .ident => "Ident"
  | .string => "String"
  | .reserved => "ReservedValue"
  | .function => "Function"
  | .type => "Type"
  | .operator => "Operator"
  | .lineAnd => "AndGroup"
  | .lineOr => "OrGroup"

def isPunctuation : TokenKind → Bool
  | .eof | .comma | .semicolon | .openParen | .closeParen | .openBracket | .closeBracket
  | .openBrace | .closeBrace => true
  | _ => false

def isKeyword : TokenKind → Bool
  | .keyword _ | .lineAnd | .lineOr => true
  | _ => false

/-- Kinds whose text is the text of the source and never changes case. -/
def isVerbatim : TokenKind → Bool
  | .ident | .string => true
  | k => k.isPunctuation

def isJoinStart : TokenKind → Bool
  | .keyword k => match k with
    | .JOIN | .FULL | .INNER | .OUTER | .LEFT | .RIGHT | .NATURAL | .CROSS | .LATERAL => true
    | _ => false
  | _ => false

def isTieStart : TokenKind → Bool
  | .keyword .UNION | .keyword .INTERSECT | .keyword .EXCEPT => true
  | _ => false

def isLimitStart : TokenKind → Bool
  | .keyword .LIMIT | .keyword .FETCH | .keyword .OFFSET => true
  | _ => false

def isLineStart : TokenKind → Bool
  | .lineAnd | .lineOr => true
  | _ => false

/-- Kinds that open a group when they are met inside another group. -/
def isGroupMaker : TokenKind → Bool
  | .lineAnd | .lineOr | .function | .openParen | .type => true
  | .keyword k => match k with
    | .SELECT | .CASE | .FROM | .WHERE | .ORDER | .GROUP | .LIMIT | .OFFSET | .FETCH | .HAVING
    | .UNION | .EXCEPT | .INTERSECT => true
    | k => isJoinStart (.keyword k)
  | _ => false

def needsNewlineBefore : TokenKind → Bool
  | .lineAnd | .lineOr => true
  | .keyword k => match k with
    | .SELECT | .UPDATE | .INSERT | .DELETE | .FROM | .GROUP | .ORDER | .HAVING | .LIMIT | .OFFSET
    | .FETCH | .RETURNING | .SET | .UNION | .INTERSECT | .EXCEPT | .VALUES | .WHERE | .ON
    | .USING => true
    | _ => false
  | _ => false

/-- Keywords that are no part of a column when they stand in a list of columns. -/
def isColumnListKeyword : TokenKind → Bool
  | .keyword k => match k with
    | .SELECT | .EXISTS | .DISTINCT | .DISTINCTROW | .INTO | .AS | .GROUP | .ORDER | .BY | .ON
    | .RETURNING | .SET | .UPDATE => true
    | _ => false
  | _ => false

def isOpening : TokenKind → Bool
  | .openParen | .openBracket | .openBrace => true
  | _ => false

end TokenKind

structure Token where
  kind : TokenKind
  text : String
deriving DecidableEq, Repr

namespace Token

def eof : Token := ⟨.eof, ""⟩

/-- The operator `::`, alone or as the head of a longer operator. -/
def isCast (t : Token) : Bool :=
  t.kind = .operator && [':', ':'].isPrefixOf t.text.toList

def describe (t : Token) : String :=
  if t.kind = .eof then "end of input" else "'" ++ t.text ++ "'"

end Token
end SqlLayout
