import SqlLayout.Group

/-! The ways in which reading a statement fails. -/

namespace SqlLayout
set_option autoImplicit false

inductive ParseFault where
  /-- The tokens stop before the clause ends. -/
  | noEnd (kind : GroupKind)
  | groupNeverClosed (kind : GroupKind)
  /-- No token behind an opener could close it. -/
  | noMatching (opener : Token) (closer : TokenKind)
  | missingOperand (keyword : Token)
  | emptyStatement
  | noEndOfInput
  | unexpectedAfterStatement (t : Token)
  | unrecognizedLeading (t : Token)
  | noClause (t : Token)
  | noQueryAfter (t : Token)
  | neverClosed (t : Token)
  | unmatched (t : Token)
deriving DecidableEq, Repr

structure ParseError where
  position : Nat
  fault : ParseFault
deriving DecidableEq, Repr

def ParseFault.message : ParseFault → String
  | .noEnd kind => kind.name ++ " clause has no end token"
  | .groupNeverClosed kind => kind.name ++ " group is never closed"
  | .noMatching opener closer => opener.describe ++ " has no matching " ++ closer.name
  | .missingOperand keyword => keyword.describe ++ " is missing its operand"
  | .emptyStatement => "empty statement before ';'"
  | .noEndOfInput => "token stream does not end with EOF"
  | .unexpectedAfterStatement t => "unexpected " ++ t.describe ++ " after statement"
  | .unrecognizedLeading t => "unrecognized leading keyword " ++ t.describe
  | .noClause t => t.describe ++ " does not start a clause"
  | .noQueryAfter t => t.describe ++ " must be followed by a query"
  | .neverClosed t => t.describe ++ " is never closed"
  | .unmatched t => "unmatched " ++ t.describe

end SqlLayout
