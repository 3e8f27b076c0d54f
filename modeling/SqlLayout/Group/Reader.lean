import SqlLayout.ParseError

/-! Reading one group off the front of a list of tokens. The groups that are open are a list of
frames, the innermost first. Each token is offered to the innermost frame: it ends that frame, opens
a frame inside it, or becomes an element of it. A frame that ends without taking the token hands its
group to the frame below, and the token is offered to that one. -/

namespace SqlLayout
set_option autoImplicit false

/-- How many leading tokens of a join clause may be join keywords without opening a join of their
own, as in `NATURAL LEFT OUTER JOIN`. -/
def joinWindow : Nat := 4

structure Frame where
  start : Nat
  kind : GroupKind
  indent : Nat
  opener : Token
  beforeSelect : Bool
  /-- The elements behind the opening token, newest first. -/
  body : List Element := []
  /-- How many tokens have been read, those of nested groups included. -/
  count : Nat := 1
  joining : Bool

namespace Frame

def begin (start indent : Nat) (kind : GroupKind) (t : Token) (next : List Token) : Frame where
  start := start
  kind := kind
  indent := indent
  opener := t
  beforeSelect := next.head?.any (·.kind = .keyword .SELECT)
  joining := t.kind.isJoinStart

def elements (f : Frame) : List Element := .token f.opener :: f.body.reverse

def position (f : Frame) : Nat := f.start + f.count

def push (f : Frame) (t : Token) : Frame :=
  { f with body := .token t :: f.body, count := f.count + 1,
           joining := f.joining && t.kind.isJoinStart }

def attach (f : Frame) (g : Group) (n : Nat) : Frame :=
  { f with body := .group g :: f.body, count := f.count + n, joining := false }

def isSubquery (f : Frame) : Bool := f.kind = .parens && f.beforeSelect

def inJoinStart (f : Frame) (t : Token) : Bool :=
  f.kind = .join && f.count < joinWindow && f.joining && t.kind.isJoinStart

def endsAt (f : Frame) (t : Token) : Bool :=
  !f.inJoinStart t &&
    match f.kind.closing? with
    | some closer => t.kind = closer
    | none => t.kind = .eof || f.kind.ends.contains t.kind

/-- Tokens that open a group elsewhere and stay plain tokens here. -/
def staysPlain (f : Frame) (t : Token) (next : List Token) : Bool :=
  (match f.kind with
    | .call =>
      t.kind = .keyword .ORDER || t.kind = .keyword .FROM || (f.count = 1 && t.kind = .openParen)
    | .typeCall => f.count = 1 && t.kind = .openParen
    | .parens => t.kind = .keyword .ORDER && !f.isSubquery
    | _ => false) ||
  (t.kind = .type && !next.head?.any (·.kind = .openParen)) ||
  (t.kind.isLineStart && !f.kind.holdsLines && !f.isSubquery)

/-- The frame that the token opens inside this one. A subquery is indented one level deeper. -/
def nested? (f : Frame) (t : Token) (next : List Token) : Option Frame :=
  if !t.kind.isGroupMaker || f.staysPlain t next || f.inJoinStart t then none
  else (GroupKind.ofStart? t.kind).map fun kind =>
    let opensSubquery := t.kind = .openParen && next.head?.any (·.kind = .keyword .SELECT)
    begin f.position (if opensSubquery then f.indent + 1 else f.indent) kind t next

/-- How many leading elements of a group of this kind are its own keywords; `none` when the group
may be bare. -/
def leadingKeywords? (kind : GroupKind) (elements : List Element) : Option Nat :=
  let leading (accepts : TokenKind → Bool) :=
    (elements.takeWhile fun e => e.token?.any fun t => accepts t.kind).length
  match kind with
  | .select | .fromClause | .whereClause | .andLine | .orLine | .having | .limit | .setClause
  | .returning | .values | .lock | .withClause => some 1
  | .groupBy | .orderBy => some <| leading fun k =>
      k = .keyword .GROUP || k = .keyword .ORDER || k = .keyword .BY
  | .join => some (leading TokenKind.isJoinStart)
  | .insert => some <| leading fun k => k = .keyword .INSERT || k = .keyword .INTO
  | _ => none

/-- The kind of the finished group: a parenthesis around a query is a subquery. -/
def finalKind (f : Frame) : GroupKind :=
  match f.kind, f.body.getLast? with
  | .parens, some (.group g) => if g.kind = .select then .subquery else .parens
  | kind, _ => kind

def finish (f : Frame) : Except ParseError Group :=
  let elements := f.elements
  match leadingKeywords? f.finalKind elements with
  | some n =>
    if elements.length ≤ n then .error ⟨f.start + elements.length, .missingOperand f.opener⟩
    else .ok (.mk f.finalKind elements f.indent)
  | none => .ok (.mk f.finalKind elements f.indent)

inductive Reaction where
  | takes (f : Frame)
  | opens (child : Frame)
  | ends (g : Group) (count : Nat) (taken : Bool)

/-- Offer a token to a frame. A nested group that needs a closing token is opened only when such a
token follows somewhere. -/
def react (f : Frame) (t : Token) (next : List Token) : Except ParseError Reaction :=
  if f.endsAt t then
    if f.kind.closing? = some t.kind then
      (f.push t).finish.map fun g => .ends g (f.count + 1) true
    else f.finish.map fun g => .ends g f.count false
  else if f.kind.closing?.isSome && t.kind = .eof then
    .error ⟨f.position, .groupNeverClosed f.kind⟩
  else
    match f.nested? t next with
    | none => .ok (.takes (f.push t))
    | some child =>
      match child.kind.closing? with
      | none => .ok (.opens child)
      | some closer =>
        if next.any (·.kind = closer) then .ok (.opens child)
        else .error ⟨f.position, .noMatching t closer⟩

inductive Outcome where
  | pending (top : Frame) (below : List Frame)
  | finished (g : Group) (count : Nat) (taken : Bool)

/-- Offer a token to the innermost frame, and to the frames below as long as frames end at it. -/
def offer (t : Token) (next : List Token) : Frame → List Frame → Except ParseError Outcome
  | f, [] =>
    (f.react t next).map fun
      | .takes f => .pending f []
      | .opens child => .pending child [f]
      | .ends g count taken => .finished g count taken
  | f, parent :: rest =>
    match f.react t next with
    | .error e => .error e
    | .ok (.takes f) => .ok (.pending f (parent :: rest))
    | .ok (.opens child) => .ok (.pending child (f :: parent :: rest))
    | .ok (.ends g count true) => .ok (.pending (parent.attach g count) rest)
    | .ok (.ends g count false) => offer t next (parent.attach g count) rest

end Frame

structure Retrieved where
  group : Group
  count : Nat
  rest : List Token

def Frame.readOn (top : Frame) (below : List Frame) : List Token → Except ParseError Retrieved
  | [] => .error ⟨top.position, .noEnd top.kind⟩
  | t :: next =>
    match Frame.offer t next top below with
    | .error e => .error e
    | .ok (.pending top below) => readOn top below next
    | .ok (.finished g count taken) => .ok ⟨g, count, if taken then next else t :: next⟩

/-- Read the group that the first token opens, when that token is at index `position` and the lines
of the group start at level `indent`. There is none when the first token opens no group. -/
def Group.retrieve? (position indent : Nat) : List Token → Option (Except ParseError Retrieved)
  | [] => none
  | t :: next =>
    (GroupKind.ofStart? t.kind).map fun kind =>
      (Frame.begin position indent kind t next).readOn [] next

theorem Frame.readOn_length_le {top : Frame} {below : List Frame} {tokens : List Token}
    {r : Retrieved} (h : top.readOn below tokens = .ok r) : r.rest.length ≤ tokens.length := by
  induction tokens generalizing top below with
  | nil => simp [readOn] at h
  | cons t next ih =>
    simp only [readOn] at h
    split at h
    · cases h
    · exact Nat.le_succ_of_le (ih h)
    · cases h
      split <;> simp

theorem Group.retrieve?_length_lt {position indent : Nat} {tokens : List Token} {r : Retrieved}
    (h : retrieve? position indent tokens = some (.ok r)) : r.rest.length < tokens.length := by
  cases tokens with
  | nil => simp [retrieve?] at h
  | cons t next =>
    obtain ⟨kind, _, hr⟩ := Option.map_eq_some_iff.mp h
    exact Nat.lt_succ_of_le (Frame.readOn_length_le hr)

end SqlLayout
