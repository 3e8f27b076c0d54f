import SqlLayout.Dialect
import SqlLayout.Lexeme
import SqlLayout.Vocabulary

/-! From lexemes to tokens. Words are looked up, the words of a compound type become one token, and
then the neighbours decide: a prefix joins its literal, AND and OR that begin a line are marked, and
LEFT before a parenthesis is a function. -/

namespace SqlLayout
set_option autoImplicit false

namespace Token

structure Spaced where
  token : Token
  afterNewline : Bool
  spaced : Bool
deriving DecidableEq, Repr

def dropWords? : List String → List Lexeme → Option (List Lexeme)
  | [], ls => some ls
  | _ :: _, [] => none
  | w :: ws, l :: ls =>
    if l.shape = .word && Text.spells w l.text then dropWords? ws ls else none

def compoundType? (ls : List Lexeme) : Option (String × List Lexeme) :=
  Vocabulary.compoundTypes.findSome? fun words =>
    (dropWords? words ls).map fun rest => (" ".intercalate words, rest)

/-- The token of a word. Functions and types are told by the parenthesis behind them. -/
def ofWord (d : Dialect) (word : String) (beforeParen : Bool) : Token :=
  let spelled := Text.upper word
  match Keyword.ofUpper? spelled with
  | some k => ⟨.keyword k, spelled⟩
  | none =>
    match d.wordKind? spelled, beforeParen with
    | some .function, true => ⟨.function, (d.functionSpelling? spelled).getD spelled⟩
    | some .type, true => ⟨.type, spelled⟩
    | some .reserved, _ => ⟨.reserved, spelled⟩
    | _, _ => ⟨.ident, word⟩

def startsWithParen (ls : List Lexeme) : Bool :=
  ls.head?.any fun l => l.shape = .mark .openParen

def ofLexeme (d : Dialect) (l : Lexeme) (rest : List Lexeme) : Token :=
  match l.shape with
  | .quoted => ⟨.string, l.text⟩
  | .operator => ⟨.operator, l.text⟩
  | .mark kind => ⟨kind, l.text⟩
  | .word => ofWord d l.text (startsWithParen rest)

theorem dropWords?_length {ws : List String} {ls rest : List Lexeme}
    (h : dropWords? ws ls = some rest) : rest.length + ws.length = ls.length := by
  fun_induction dropWords? ws ls <;> simp_all
  omega

theorem compoundType?_length_lt {ls rest : List Lexeme} {name : String}
    (h : compoundType? ls = some (name, rest)) : rest.length < ls.length := by
  obtain ⟨words, hmem, h⟩ := List.exists_of_findSome?_eq_some h
  obtain ⟨r, hr, he⟩ := Option.map_eq_some_iff.mp h
  have hlen := dropWords?_length hr
  have hpos : ∀ ws ∈ Vocabulary.compoundTypes, 0 < ws.length := by decide
  have hlt := hpos words hmem
  simp only [Prod.mk.injEq] at he
  rw [← he.2]
  omega

def classify (d : Dialect) : List Lexeme → List Spaced
  | [] => []
  | l :: ls =>
    match _h : if l.shape = .word then compoundType? (l :: ls) else none with
    | some (name, rest) => ⟨⟨.type, name⟩, l.afterNewline, l.spaced⟩ :: classify d rest
    | none => ⟨ofLexeme d l ls, l.afterNewline, l.spaced⟩ :: classify d ls
termination_by ls => ls.length
decreasing_by
  · split at _h
    · exact compoundType?_length_lt _h
    · simp at _h
  · simp

/-- Join the literal prefix `wanted` to the literal behind it. `joined` is the text that has been
read for the prefix; it may come from several tokens with nothing between them. -/
def joinPrefix? (wanted joined : String) (first : Bool) :
    List Spaced → Option (Token × List Spaced)
  | [] => none
  | s :: rest =>
    if (s.spaced && !first) || !(s.token.kind = .ident || s.token.kind = .operator) then none
    else
      let joined := joined ++ s.token.text
      if joined.utf8ByteSize < wanted.utf8ByteSize then joinPrefix? wanted joined false rest
      else if Text.upper joined ≠ wanted then none
      else match rest with
        | literal :: rest =>
          if literal.token.kind = .string && !literal.spaced then
            some (⟨.string, joined ++ literal.token.text⟩, rest)
          else none
        | [] => none

def prefixedLiteral? (d : Dialect) (items : List Spaced) : Option (Token × List Spaced) :=
  d.literalPrefixes.findSome? fun p => joinPrefix? p "" true items

def kindInContext (s : Spaced) (rest : List Spaced) : TokenKind :=
  match s.token.kind with
  | .keyword .AND => if s.afterNewline then .lineAnd else .keyword .AND
  | .keyword .OR => if s.afterNewline then .lineOr else .keyword .OR
  | .keyword .LEFT =>
    if rest.head?.any (·.token.kind = .openParen) then .function else .keyword .LEFT
  | kind => kind

theorem joinPrefix?_length_lt {wanted joined : String} {first : Bool} {items rest : List Spaced}
    {t : Token} (h : joinPrefix? wanted joined first items = some (t, rest)) :
    rest.length < items.length := by
  fun_induction joinPrefix? wanted joined first items <;> grind

theorem prefixedLiteral?_length_lt {d : Dialect} {items rest : List Spaced} {t : Token}
    (h : prefixedLiteral? d items = some (t, rest)) : rest.length < items.length := by
  obtain ⟨_, _, h⟩ := List.exists_of_findSome?_eq_some h
  exact joinPrefix?_length_lt h

def resolve (d : Dialect) : List Spaced → List Token
  | [] => []
  | s :: items =>
    match _h : prefixedLiteral? d (s :: items) with
    | some (t, rest) => t :: resolve d rest
    | none => ⟨kindInContext s items, s.token.text⟩ :: resolve d items
termination_by items => items.length
decreasing_by
  · exact prefixedLiteral?_length_lt _h
  · simp

end Token

/-- The tokens of a text, the last of them the end of the input. The text must have no comments. -/
def tokenize (d : Dialect) (text : String) : Except CommentFound (List Token) :=
  match Lexeme.scan d.operators text with
  | .error e => .error e
  | .ok lexemes => .ok (Token.resolve d (Token.classify d lexemes) ++ [Token.eof])

end SqlLayout
