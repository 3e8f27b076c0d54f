import SqlLayout.Group

/-! Balance of brackets. Four pairs of tokens enclose: the three kinds of brackets, and CASE with its
END. Openers wait on a stack for the token that closes them. -/

namespace SqlLayout.Balance
set_option autoImplicit false

def closer? : TokenKind → Option TokenKind
  | .openParen => some .closeParen
  | .openBracket => some .closeBracket
  | .openBrace => some .closeBrace
  | .keyword .CASE => some (.keyword .END)
  | _ => none

def isCloser : TokenKind → Bool
  | .closeParen | .closeBracket | .closeBrace | .keyword .END => true
  | _ => false

structure Waiting where
  index : Nat
  token : Token
  closer : TokenKind

/-- Read tokens, the first of them at `index`, and report the first closer that does not match the
innermost opener, or else the innermost opener that stays open. -/
def faultFrom (index : Nat) (open_ : List Waiting) : List Token → Option (Nat × Token)
  | [] => open_.head?.map fun w => (w.index, w.token)
  | t :: ts =>
    match closer? t.kind with
    | some closer => faultFrom (index + 1) (⟨index, t, closer⟩ :: open_) ts
    | none =>
      if isCloser t.kind then
        match open_ with
        | w :: rest =>
          if w.closer = t.kind then faultFrom (index + 1) rest ts else some (index, t)
        | [] => some (index, t)
      else faultFrom (index + 1) open_ ts

def fault? (tokens : List Token) : Option (Nat × Token) := faultFrom 0 [] tokens

def unbalanced? (groups : List Group) : Option Nat := (fault? (Group.tokensOf groups)).map (·.1)

end SqlLayout.Balance
