import SqlLayout.Group.Balance
import SqlLayout.Group.Reader

/-! Statements. A statement is a sequence of groups that follows the grammar of its leading keyword;
where a group ends is not decided here. The grammar is a set of stages: a stage and the kind of the
next token say whether another group is read, and the stage behind it. -/

namespace SqlLayout
set_option autoImplicit false

structure Statement where
  groups : List Group
  terminator : Option Token

structure Slot where
  accepts : TokenKind → Bool
  repeats : Bool := false

namespace Slot

/-- The slots that are left after a clause that opens with `kind`; `none` when no slot takes it. The
first slot that accepts the kind takes it, and the slots before it stay empty. -/
def fill? (kind : TokenKind) : List Slot → Option (List Slot)
  | [] => none
  | s :: rest =>
    if s.accepts kind then some (if s.repeats then s :: rest else rest) else fill? kind rest

def one (k : Keyword) : Slot := { accepts := (· = .keyword k) }

def lines : Slot := { accepts := TokenKind.isLineStart, repeats := true }

def query : List Slot := [
  one .FROM,
  { accepts := fun k => k.isJoinStart || k.isLineStart, repeats := true },
  one .WHERE, lines, one .GROUP, one .HAVING, one .ORDER,
  { accepts := TokenKind.isLimitStart, repeats := true }]

def filter : List Slot := [one .WHERE, lines, one .RETURNING]

end Slot

inductive Stage where
  | start
  /-- Behind the clause that begins with WITH. -/
  | body
  | query (left : List Slot)
  | tied (operator : Token) (position : Nat)
  | update | delete | insert | values
  | tail (left : List Slot)

namespace Stage

/-- The leading clause must hold more than its keyword. -/
def requireOperand (last : Option Group) (position : Nat) : Except ParseError Unit :=
  match last.map Group.elements with
  | some [.token t] => .error ⟨position, .missingOperand t⟩
  | _ => .ok ()

def lead (position : Nat) (t : Token) : Except ParseError (Option Stage) :=
  match t.kind with
  | .keyword .SELECT => .ok (some (.query Slot.query))
  | .keyword .UPDATE => .ok (some .update)
  | .keyword .DELETE => .ok (some .delete)
  | .keyword .INSERT => .ok (some .insert)
  | .keyword .LOCK => .ok (some (.tail []))
  | _ => .error ⟨position, .unrecognizedLeading t⟩

def tailNext (left : List Slot) (t : Token) : Option Stage := (Slot.fill? t.kind left).map .tail

def rowsNext (t : Token) : Option Stage :=
  if t.kind = .keyword .SELECT then some (.query Slot.query)
  else tailNext (Slot.one .UPDATE :: Slot.one .SET :: Slot.filter) t

/-- The stage that follows when the token at index `position` opens the next group; `none` when the
statement ends before it. `last` is the group that was read last. -/
def next (last : Option Group) (position : Nat) (t : Token) :
    Stage → Except ParseError (Option Stage)
  | .start =>
    if t.kind = .eof then .ok none
    else if t.kind = .keyword .WITH then .ok (some .body)
    else lead position t
  | .body => lead position t
  | .query left =>
    match Slot.fill? t.kind left with
    | some left => .ok (some (.query left))
    | none => .ok (if t.kind.isTieStart then some (.tied t position) else none)
  | .tied operator at_ =>
    if t.kind = .keyword .SELECT then .ok (some (.query Slot.query))
    else if last.any (·.elements.any Element.isGroup) then .ok none
    else .error ⟨at_, .noQueryAfter operator⟩
  | .update => do
    requireOperand last position
    .ok (tailNext (Slot.one .SET :: Slot.one .FROM ::
      { accepts := TokenKind.isJoinStart, repeats := true } :: Slot.filter) t)
  | .delete =>
    if t.kind = .keyword .FROM then .ok (some (.tail Slot.filter))
    else do
      requireOperand last position
      .ok (tailNext Slot.filter t)
  | .insert =>
    .ok (if t.kind = .keyword .VALUES then some .values else rowsNext t)
  | .values => .ok (rowsNext t)
  | .tail left => .ok (tailNext left t)

end Stage

namespace Statement

/-- Read groups as long as the grammar asks for them. `groups` holds those that have been read,
newest first, and `position` is the index of the next token. Gives all groups in order, and the
token that follows them with its index. -/
def readGroups (stage : Stage) (groups : List Group) (position : Nat) :
    List Token → Except ParseError (List Group × Nat × Token)
  | [] => .error ⟨position, .noEndOfInput⟩
  | t :: ts =>
    match stage.next groups.head? position t with
    | .error e => .error e
    | .ok none => .ok (groups.reverse, position, t)
    | .ok (some stage) =>
      match _h : Group.retrieve? position 0 (t :: ts) with
      | none => .error ⟨position, .noClause t⟩
      | some (.error e) => .error e
      | some (.ok r) => readGroups stage (r.group :: groups) (position + r.count) r.rest
termination_by tokens => tokens.length
decreasing_by exact Group.retrieve?_length_lt _h

def unbalancedError (base : Nat) (fault : Nat × Token) : ParseError :=
  let (index, t) := fault
  ⟨base + index, if (Balance.closer? t.kind).isSome then .neverClosed t else .unmatched t⟩

def readFrom (base : Nat) (tokens : List Token) : Except ParseError (List Group) :=
  match readGroups .start [] base tokens with
  | .error e => .error e
  | .ok (groups, position, t) =>
    if t.kind ≠ .eof then .error ⟨position, .unexpectedAfterStatement t⟩
    else match Balance.fault? (Group.tokensOf groups) with
      | some fault => .error (unbalancedError base fault)
      | none => .ok groups

def endsWithEof (tokens : List Token) : Bool := tokens.getLast?.any (·.kind = .eof)

/-- Read a single statement. An input that holds no tokens has no groups. -/
def parseSingle (tokens : List Token) : Except ParseError (List Group) :=
  if endsWithEof tokens then readFrom 0 tokens else .error ⟨tokens.length, .noEndOfInput⟩

/-- Read the statements of a script. `body` holds the tokens of the current statement that have been
passed, newest first; the statement starts at index `base`. -/
def parseFrom (base : Nat) (body : List Token) : List Token → Except ParseError (List Statement)
  | [] => .ok []
  | t :: ts =>
    if t.kind = .eof then
      if body.isEmpty then .ok []
      else (readFrom base (body.reverse ++ [Token.eof])).map fun groups => [⟨groups, none⟩]
    else if t.kind = .semicolon then
      if body.isEmpty then .error ⟨base, .emptyStatement⟩
      else
        match readFrom base (body.reverse ++ [Token.eof]) with
        | .error e => .error e
        | .ok groups =>
          (parseFrom (base + body.length + 1) [] ts).map fun rest => ⟨groups, some t⟩ :: rest
    else parseFrom base (t :: body) ts

def parse (tokens : List Token) : Except ParseError (List Statement) :=
  if endsWithEof tokens then parseFrom 0 [] tokens else .error ⟨tokens.length, .noEndOfInput⟩

end Statement
end SqlLayout
