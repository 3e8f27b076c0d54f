import SqlLayout.Proofs.Drafting
import SqlLayout.Proofs.Joining

/-! From the pieces of a layout back to the items that its tokens were made of. A token with a prefix
comes apart into the items that were joined; every other token is one item. Laid out again, these
items are joined as they were, and only AND and OR look at the newlines of the layout. -/

namespace SqlLayout
set_option autoImplicit false

/-- The shape of the lexeme that a token of the kind is read from. -/
def TokenKind.shape : TokenKind → Shape
  | .string => .quoted
  | .operator => .operator
  | kind => if kind.isPunctuation then .mark kind else .word

theorem TokenKind.shape_mark {kind : TokenKind} (h : kind.isPunctuation = true) :
    kind.shape = .mark kind ∧ kind.isVerbatim = true := by
  revert h
  cases kind <;> simp [isPunctuation, shape, isVerbatim]

namespace Token

theorem isCast_eq (t : Token) :
    t.isCast = (decide (t.kind.shape = .operator) && [':', ':'].isPrefixOf t.text.toList) := by
  obtain ⟨kind, text⟩ := t
  cases kind <;> simp [isCast, TokenKind.shape, TokenKind.isPunctuation]

theorem not_isCast {t : Token} (h : ':' ∉ t.text.toList) : t.isCast = false := by
  rw [Bool.eq_false_iff]
  intro hcast
  simp only [isCast, Bool.and_eq_true, List.isPrefixOf_iff_prefix] at hcast
  exact h (hcast.2.subset (by simp))

theorem holds_congr {t u : Token} (hshape : t.kind.shape = u.kind.shape) (htext : t.text = u.text) :
    t.holds = u.holds := by
  have h : ∀ t : Token, t.holds = (t.kind.shape ∈ [.mark .openParen, .mark .openBracket,
      .mark .openBrace] || t.isCast) := by
    rintro ⟨kind, text⟩
    cases kind <;> simp [holds, TokenKind.shape, TokenKind.isPunctuation, TokenKind.isOpening]
  rw [h t, h u, isCast_eq, isCast_eq, hshape, htext]

theorem hugs_congr {t u : Token} (hshape : t.kind.shape = u.kind.shape) (htext : t.text = u.text) :
    t.hugs = u.hugs := by
  have h : ∀ t : Token, t.hugs = (t.kind.shape ∈ [.mark .comma, .mark .semicolon,
      .mark .closeParen, .mark .closeBracket, .mark .closeBrace, .mark .openParen] || t.isCast) := by
    rintro ⟨kind, text⟩
    cases kind <;>
      simp [hugs, Draft.hugsLeft, TokenKind.shape, TokenKind.isPunctuation, isCast]
  rw [h t, h u, isCast_eq, isCast_eq, hshape, htext]

theorem isCast_congr {t u : Token} (hshape : t.kind.shape = u.kind.shape)
    (htext : t.text = u.text) : t.isCast = u.isCast := by
  rw [isCast_eq, isCast_eq, hshape, htext]

/-- Only AND, OR and LEFT are of another kind in their context than on their own. -/
theorem kindInContext_cases (s : Spaced) (rest : List Spaced) :
    kindInContext s rest = s.token.kind ∨
      (s.token.kind = .keyword .AND ∧ kindInContext s rest = .lineAnd) ∨
      (s.token.kind = .keyword .OR ∧ kindInContext s rest = .lineOr) ∨
      (s.token.kind = .keyword .LEFT ∧ kindInContext s rest = .function) := by
  unfold kindInContext
  split
  · rename_i h
    rw [h]
    split <;> simp
  · rename_i h
    rw [h]
    split <;> simp
  · rename_i h
    rw [h]
    split <;> simp
  · exact Or.inl rfl

theorem shape_kindInContext (s : Spaced) (rest : List Spaced) :
    (kindInContext s rest).shape = s.token.kind.shape ∧
      (kindInContext s rest = .ident ↔ s.token.kind = .ident) := by
  rcases kindInContext_cases s rest with h | ⟨hkind, h⟩ | ⟨hkind, h⟩ | ⟨hkind, h⟩
  · rw [h]
    exact ⟨rfl, Iff.rfl⟩
  all_goals
    rw [h, hkind]
    simp [TokenKind.shape, TokenKind.isPunctuation]

theorem kindInContext_string (s : Spaced) (rest : List Spaced) :
    kindInContext s rest = .string ↔ s.token.kind = .string := by
  rcases kindInContext_cases s rest with h | ⟨hkind, h⟩ | ⟨hkind, h⟩ | ⟨hkind, h⟩
  · rw [h]
  all_goals simp [h, hkind]

theorem spelling_kindInContext (o : Options) (s : Spaced) (rest : List Spaced) :
    (Token.mk (kindInContext s rest) s.token.text).spelling o = s.token.spelling o := by
  unfold spelling
  rcases kindInContext_cases s rest with h | ⟨hkind, h⟩ | ⟨hkind, h⟩ | ⟨hkind, h⟩
  · rw [h]
  all_goals
    rw [h, hkind]
    simp [TokenKind.isVerbatim, TokenKind.isPunctuation]

/-- The token when its line begins with it, or does not. -/
def reline (begins : Bool) (t : Token) : Token :=
  match t.kind with
  | .keyword .AND | .lineAnd => ⟨if begins then .lineAnd else .keyword .AND, t.text⟩
  | .keyword .OR | .lineOr => ⟨if begins then .lineOr else .keyword .OR, t.text⟩
  | _ => t

/-- Of the context of an item, only the newline before it is told by the layout. -/
theorem reline_kindInContext {s s' : Spaced} {rest rest' : List Spaced}
    (htoken : s'.token = s.token)
    (hrest : rest'.head?.map Spaced.token = rest.head?.map Spaced.token)
    (hraw : s.token.kind ≠ .lineAnd ∧ s.token.kind ≠ .lineOr) :
    (⟨kindInContext s' rest', s'.token.text⟩ : Token) =
      reline s'.afterNewline ⟨kindInContext s rest, s.token.text⟩ := by
  have hparen : rest'.head?.any (·.token.kind = .openParen) =
      rest.head?.any (·.token.kind = .openParen) := by
    cases rest' <;> cases rest <;> simp_all
  unfold kindInContext
  rw [htoken, hparen]
  split
  · rename_i h
    cases s.afterNewline <;> simp [reline]
  · rename_i h
    cases s.afterNewline <;> simp [reline]
  · rename_i h
    split <;> simp [reline]
  · unfold reline
    grind

end Token

namespace Piece
open Token

def flat (o : Options) (pieces : List Piece) : List Char :=
  pieces.flatMap fun p => p.gap ++ (p.token.spelling o).toList

@[simp] theorem flat_nil (o : Options) : flat o [] = [] := rfl

@[simp] theorem flat_cons (o : Options) (p : Piece) (pieces : List Piece) :
    flat o (p :: pieces) = p.gap ++ (p.token.spelling o).toList ++ flat o pieces := by
  simp [flat]

@[simp] theorem flat_append (o : Options) (ps qs : List Piece) :
    flat o (ps ++ qs) = flat o ps ++ flat o qs := by
  simp [flat]

/-- The items of a list of pieces, when what is known of the white space before the first of them
is put in front. -/
def items (afterNewline spaced : Bool) : List Piece → List Spaced
  | [] => []
  | p :: pieces =>
    ⟨p.token, afterNewline || p.gap.contains '\n', spaced || !p.gap.isEmpty⟩ ::
      items false false pieces

def relined (afterNewline : Bool) : List Piece → List Token
  | [] => []
  | p :: pieces => p.token.reline (afterNewline || p.gap.contains '\n') :: relined false pieces

/-- Two pieces touch only where their tokens may. -/
def Apart (p q : Piece) : Prop := q.gap = [] → p.token.holds = true ∨ q.token.hugs = true

/-- An identifier that ends with a colon stands before a cast. -/
def Stray (p q : Piece) : Prop :=
  p.token.kind = .ident ∧ p.token.text.toList.getLast? = some ':' ∧ q.token.isCast = true

/-- Two pieces are parts of one token with a prefix. -/
def Glued (p q : Piece) : Prop :=
  p.token.isPrefixPart = true ∧ (q.token.kind = .string ∨
    (q.token.isPrefixPart = true ∧ (p.token.text = "U" ∨ p.token.text = "u") ∧
      q.token.text = "&"))

/-- The pieces of items touch where tokens may, and inside a token with a prefix. -/
def Bound (p q : Piece) : Prop :=
  q.gap = [] → p.token.holds = true ∨ q.token.hugs = true ∨ Glued p q

theorem items_head (afterNewline spaced : Bool) (pieces : List Piece) :
    (items afterNewline spaced pieces).head?.map Spaced.token =
      pieces.head?.map Piece.token := by
  cases pieces <;> rfl

/-- The pieces of tokens that follow one another without a gap. -/
def tight (tokens : List Token) : List Piece := tokens.map (⟨[], ·⟩)

theorem items_tight_append (tokens : List Token) (pieces : List Piece) :
    items false false (tight tokens ++ pieces) =
      tokens.map (⟨·, false, false⟩) ++ items false false pieces := by
  induction tokens with
  | nil => rfl
  | cons t tokens ih =>
    simp only [tight, List.map_cons, List.cons_append, items] at ih ⊢
    rw [ih]
    simp

/-- The first piece of the items begins as the first piece of the tokens does. -/
def BeginsAlike (pieces parts : List Piece) : Prop :=
  ∀ q ∈ parts.head?, ∃ p ∈ pieces.head?, q.gap = p.gap ∧ q.token.hugs = p.token.hugs ∧
    q.token.isCast = p.token.isCast ∧ (q.token.kind = .string → p.token.kind = .string)

end Piece

namespace Token

/-- The token is a literal without a closing quote. -/
def isOpen (t : Token) : Bool :=
  t.kind = .string && !Lexeme.isClosed (t.text.toList.dropWhile (!Lexeme.isQuote ·))

/-- What items have in common that come of lexemes. -/
structure Raw (t : Token) : Prop where
  text : t.text ≠ ""
  kind : t.kind ≠ .lineAnd ∧ t.kind ≠ .lineOr
  quote : t.kind = .string → t.text.toList.head?.any Lexeme.isQuote = true

end Token

/-- The pieces `parts` are those of the items that the tokens of `pieces` were made of. -/
structure Unjoined (o : Options) (d : Dialect) (items : List Token.Spaced)
    (pieces parts : List Piece) : Prop where
  tokens : parts.map Piece.token = items.map Token.Spaced.token
  text : Piece.flat o parts = Piece.flat o pieces
  blank : (∀ p ∈ pieces, Scrap.isBlank p.gap) → ∀ q ∈ parts, Scrap.isBlank q.gap
  bound : parts.IsChain Piece.Bound
  unstray : parts.IsChain fun p q => ¬Piece.Stray p q
  begins : Piece.BeginsAlike pieces parts
  last : ∀ q ∈ parts.getLast?, ∃ p ∈ pieces.getLast?, q.token.isOpen = p.token.isOpen
  reads : ∀ afterNewline spaced, Token.resolve d (Piece.items afterNewline spaced parts) =
    Piece.relined afterNewline pieces

namespace Unjoined
open Token Piece
variable {o : Options} {d : Dialect}

theorem getLast_cons {α : Type} {a x : α} {l : List α} (h : x ∈ (a :: l).getLast?) :
    (l = [] ∧ x = a) ∨ x ∈ l.getLast? := by
  cases l with
  | nil => exact Or.inl ⟨rfl, by simpa [eq_comm] using h⟩
  | cons b l => exact Or.inr (by simpa [List.getLast?_cons_cons] using h)

theorem of_nil {rest : List Spaced} {pieces : List Piece} (h : Unjoined o d rest pieces []) :
    rest = [] ∧ pieces = [] := by
  refine ⟨by simpa using h.tokens.symm, ?_⟩
  have hrelined := h.reads false false
  rw [items, resolve.eq_def] at hrelined
  cases pieces with
  | nil => rfl
  | cons q qs => simp [relined] at hrelined

/-- In the layout no literal takes the item before it as its prefix, unless it did so before. -/
theorem not_prefixes (tame : d.Tame) {s : Spaced} {p : Piece} {pieces parts : List Piece}
    {afterNewline spaced : Bool} (hp : p.token.kind.shape = s.token.kind.shape)
    (htext : p.token.text = s.token.text) (hapart : ∀ q ∈ pieces.head?, Apart p q)
    (hbegins : BeginsAlike pieces parts) :
    prefixedLiteral? d (items afterNewline spaced (⟨p.gap, s.token⟩ :: parts)) = none := by
  cases hfound : prefixedLiteral? d (items afterNewline spaced (⟨p.gap, s.token⟩ :: parts)) with
  | none => rfl
  | some r =>
    exfalso
    obtain ⟨t, rest⟩ := r
    obtain ⟨chain, literal, hitems, hprefixes, -⟩ := prefixedLiteral?_eq_some_iff.mp hfound
    obtain ⟨w, -, hchain⟩ := hprefixes.completes
    obtain ⟨s', chain, rfl⟩ := List.exists_cons_of_ne_nil hchain.ne_nil
    rw [items, List.cons_append] at hitems
    obtain ⟨rfl, hmore⟩ := List.cons.inj hitems
    -- a prefix holds no colon, so neither its first item nor the one behind that is a cast
    have hno := hprefixes.not_mem tame (Or.inl rfl)
    have hscast := not_isCast (hno _ List.mem_cons_self)
    have hspart := hchain.parts _ List.mem_cons_self
    have hholds : p.token.holds = false := by
      rw [holds_congr hp htext]
      simp only [isPrefixPart, Bool.or_eq_true, decide_eq_true_eq] at hspart
      rcases hspart with h | h <;> simp [holds, h, TokenKind.isOpening, hscast]
    cases parts with
    | nil => simp [items] at hmore
    | cons q parts =>
      obtain ⟨p', hp', hgap, hhugs, -, -⟩ := hbegins q rfl
      rw [items] at hmore
      have hnext : q.gap = [] → q.token.hugs = true := by
        intro hnil
        rcases hapart p' hp' (hgap ▸ hnil) with h | h
        · rw [hholds] at h
          cases h
        · rw [hhugs]
          exact h
      cases chain with
      | nil =>
        obtain ⟨rfl, -⟩ := List.cons.inj hmore
        have hgapnil : q.gap = [] := by simpa using hprefixes.spaced
        have hkind : q.token.kind = .string := hprefixes.kind
        have hhug := hnext hgapnil
        simp [hugs, Draft.hugsLeft, hkind, isCast] at hhug
      | cons r chain =>
        obtain ⟨rfl, -⟩ := List.cons.inj hmore
        have hgapnil : q.gap = [] := by
          have hspaced := hchain.unspaced _ (show _ ∈ _ from List.mem_cons_self)
          simpa using hspaced
        have hqcast : q.token.isCast = false :=
          not_isCast (hno _ (List.mem_cons_of_mem _ List.mem_cons_self))
        have hqpart : q.token.isPrefixPart = true :=
          hchain.parts _ (List.mem_cons_of_mem _ List.mem_cons_self)
        have hhug := hnext hgapnil
        simp only [isPrefixPart, Bool.or_eq_true, decide_eq_true_eq] at hqpart
        rcases hqpart with h | h <;> simp [hugs, Draft.hugsLeft, h, hqcast] at hhug

theorem single (tame : d.Tame) {s : Spaced} {rest : List Spaced} {p : Piece}
    {pieces parts : List Piece} (hraw : s.token.Raw)
    (hp : p.token = ⟨kindInContext s rest, s.token.text⟩) (hapart : ∀ q ∈ pieces.head?, Apart p q)
    (hstray : ∀ q ∈ pieces.head?, ¬Stray p q) (h : Unjoined o d rest pieces parts) :
    Unjoined o d (s :: rest) (p :: pieces) (⟨p.gap, s.token⟩ :: parts) := by
  have hshape : p.token.kind.shape = s.token.kind.shape := by
    rw [hp]
    exact (shape_kindInContext s rest).1
  have htext : p.token.text = s.token.text := by rw [hp]
  have hident : p.token.kind = .ident ↔ s.token.kind = .ident := by
    rw [hp]
    exact (shape_kindInContext s rest).2
  have hbound : ∀ q ∈ parts.head?, Bound ⟨p.gap, s.token⟩ q := by
    intro q hq hgap
    obtain ⟨p', hp', hgap', hhugs, -, -⟩ := h.begins q hq
    rcases hapart p' hp' (hgap' ▸ hgap) with h' | h'
    · exact Or.inl ((holds_congr hshape htext).symm.trans h')
    · exact Or.inr (Or.inl (hhugs.trans h'))
  have hunstray : ∀ q ∈ parts.head?, ¬Stray ⟨p.gap, s.token⟩ q := by
    rintro q hq ⟨hkind, hlast, hcast⟩
    obtain ⟨p', hp', -, -, hcast', -⟩ := h.begins q hq
    exact hstray p' hp' ⟨hident.mpr hkind, by rw [htext]; exact hlast, hcast' ▸ hcast⟩
  constructor
  case tokens => simp [h.tokens]
  case text => rw [flat_cons, flat_cons, h.text, hp, spelling_kindInContext]
  case blank =>
    intro hblank
    obtain ⟨hgap, hmore⟩ := List.forall_mem_cons.mp hblank
    exact List.forall_mem_cons.mpr ⟨hgap, h.blank hmore⟩
  case bound => exact List.isChain_cons.mpr ⟨hbound, h.bound⟩
  case unstray => exact List.isChain_cons.mpr ⟨hunstray, h.unstray⟩
  case begins =>
    intro q hq
    obtain rfl : ⟨p.gap, s.token⟩ = q := by simpa using hq
    refine ⟨p, rfl, rfl, (hugs_congr hshape htext).symm, (isCast_congr hshape htext).symm, ?_⟩
    intro hkind
    rw [hp]
    exact (kindInContext_string s rest).mpr hkind
  case last =>
    intro q hq
    rcases getLast_cons hq with ⟨rfl, rfl⟩ | hq
    · obtain ⟨rfl, rfl⟩ := h.of_nil
      refine ⟨p, rfl, ?_⟩
      rw [hp]
      simp [isOpen, kindInContext_string]
    · obtain ⟨p', hp', hopen⟩ := h.last q hq
      exact ⟨p', List.mem_getLast?_cons hp', hopen⟩
  case reads =>
    intro afterNewline spaced
    have hnone := @not_prefixes d tame s p pieces parts afterNewline spaced hshape htext hapart h.begins
    rw [items] at hnone ⊢
    rw [resolve_none hnone, relined, h.reads false false]
    congr 1
    rw [hp]
    refine reline_kindInContext (s := s) rfl ?_ hraw.kind
    rw [items_head, ← List.head?_map, h.tokens, List.head?_map]

theorem toList_joinedText (joined : String) (chain : List Spaced) :
    (joinedText joined chain).toList =
      joined.toList ++ chain.flatMap (·.token.text.toList) := by
  induction chain generalizing joined with
  | nil => simp [joinedText]
  | cons s chain ih =>
    rw [joinedText, List.foldl_cons]
    exact (ih _).trans (by simp)

theorem spelling_part {t : Token} (h : t.isPrefixPart = true ∨ t.kind = .string) :
    t.spelling o = t.text := by
  simp only [isPrefixPart, Bool.or_eq_true, decide_eq_true_eq] at h
  rcases h with (h | h) | h <;> simp [spelling, h, TokenKind.isVerbatim]

theorem flat_tight {tokens : List Token}
    (h : ∀ t ∈ tokens, t.isPrefixPart = true ∨ t.kind = .string) :
    flat o (tight tokens) = tokens.flatMap (·.text.toList) := by
  induction tokens with
  | nil => rfl
  | cons t tokens ih =>
    rw [Piece.tight, List.map_cons, flat_cons, spelling_part (h t List.mem_cons_self),
      List.flatMap_cons]
    exact congrArg _ (ih fun u hu => h u (List.mem_cons_of_mem t hu))

/-- What follows a literal follows it as it followed the whole token. -/
theorem literal_chain {rest : List Spaced} {p : Piece} {pieces parts : List Piece} {t : Token}
    (ht : t.kind = .string) (hp : p.token.kind = .string) (hapart : ∀ q ∈ pieces.head?, Apart p q)
    (h : Unjoined o d rest pieces parts) :
    ((⟨[], t⟩ : Piece) :: parts).IsChain Bound ∧
      ((⟨[], t⟩ : Piece) :: parts).IsChain fun p q => ¬Stray p q := by
  constructor
  · rw [List.isChain_cons]
    refine ⟨?_, h.bound⟩
    intro q hq hgap
    obtain ⟨p', hp', hgap', hhugs, -, -⟩ := h.begins q hq
    rcases hapart p' hp' (hgap' ▸ hgap) with h' | h'
    · simp [holds, hp, TokenKind.isOpening, isCast] at h'
    · exact Or.inr (Or.inl (by rw [hhugs]; exact h'))
  · rw [List.isChain_cons]
    refine ⟨?_, h.unstray⟩
    rintro q - ⟨hkind, -⟩
    rw [ht] at hkind
    cases hkind

section Prefixed
variable {s literal : Spaced} {chain rest : List Spaced} {p : Piece} {pieces parts : List Piece}

/-- The items of a prefix are glued to one another and to the literal. -/
theorem glued_chain (tame : d.Tame) (h : Prefixes d (s :: chain) literal)
    (hne : ∀ r ∈ s :: chain, r.token.text ≠ "") (gap : List Char)
    (hbound : ((⟨[], literal.token⟩ : Piece) :: parts).IsChain Bound)
    (hunstray : ((⟨[], literal.token⟩ : Piece) :: parts).IsChain fun p q => ¬Stray p q) :
    (⟨gap, s.token⟩ :: (tight (chain.map Spaced.token ++ [literal.token]) ++ parts)).IsChain Bound ∧
      (⟨gap, s.token⟩ :: (tight (chain.map Spaced.token ++ [literal.token]) ++ parts)).IsChain
        fun p q => ¬Stray p q := by
  obtain ⟨w, -, hchain⟩ := h.completes
  have hparts := hchain.parts
  have hnotstray : ∀ r ∈ s :: chain, ∀ (gap : List Char) (q : Piece), ¬Stray ⟨gap, r.token⟩ q := by
    rintro r hr gap q ⟨-, hlast, -⟩
    exact h.not_mem tame (Or.inl rfl) r hr (List.mem_of_getLast? hlast)
  rcases h.shape tame hne with ⟨s', hone⟩ | ⟨u, a, htwo, hu, ha⟩
  · obtain ⟨rfl, rfl⟩ := List.cons.inj hone
    have hglued : Glued ⟨gap, s.token⟩ ⟨[], literal.token⟩ := ⟨hparts s (by simp), Or.inl h.kind⟩
    constructor
    · exact List.isChain_cons_cons.mpr ⟨fun _ => Or.inr (Or.inr hglued), hbound⟩
    · exact List.isChain_cons_cons.mpr ⟨hnotstray s (by simp) _ _, hunstray⟩
  · obtain ⟨rfl, rfl⟩ := List.cons.inj htwo
    have hfirst : Glued ⟨gap, s.token⟩ ⟨[], a.token⟩ :=
      ⟨hparts s (by simp), Or.inr ⟨hparts a (by simp), hu, ha⟩⟩
    have hsecond : Glued ⟨[], a.token⟩ ⟨[], literal.token⟩ := ⟨hparts a (by simp), Or.inl h.kind⟩
    constructor
    · exact List.isChain_cons_cons.mpr ⟨fun _ => Or.inr (Or.inr hfirst),
        List.isChain_cons_cons.mpr ⟨fun _ => Or.inr (Or.inr hsecond), hbound⟩⟩
    · exact List.isChain_cons_cons.mpr ⟨hnotstray s (by simp) _ _,
        List.isChain_cons_cons.mpr ⟨hnotstray a (by simp) _ _, hunstray⟩⟩

theorem isOpen_joined (tame : d.Tame) (h : Prefixes d chain literal) :
    (⟨.string, joinedText "" chain ++ literal.token.text⟩ : Token).isOpen = literal.token.isOpen := by
  unfold isOpen
  rw [h.kind, String.toList_append, List.dropWhile_append_of_pos]
  intro c hc
  rw [toList_joinedText, show ("" : String).toList = [] from rfl, List.nil_append] at hc
  obtain ⟨r, hr, hmem⟩ := List.mem_flatMap.mp hc
  cases hquote : Lexeme.isQuote c with
  | false => rfl
  | true => exact absurd hmem (h.not_mem tame (Or.inr hquote) r hr)

/-- Laid out without gaps, a prefix and its literal are joined again. -/
theorem prefixedLiteral?_items (h : Prefixes d (s :: chain) literal) (gap : List Char)
    (parts : List Piece) (afterNewline spaced : Bool) :
    prefixedLiteral? d (items afterNewline spaced
        (⟨gap, s.token⟩ :: (tight (chain.map Spaced.token ++ [literal.token]) ++ parts))) =
      some (⟨.string, joinedText "" (s :: chain) ++ literal.token.text⟩, items false false parts) := by
  obtain ⟨w, hw, hchain⟩ := h.completes
  rw [prefixedLiteral?_eq_some_iff]
  refine ⟨⟨s.token, afterNewline || gap.contains '\n', spaced || !gap.isEmpty⟩ ::
    chain.map (fun r => ⟨r.token, false, false⟩), ⟨literal.token, false, false⟩, ?_, ?_, ?_⟩
  · rw [items, items_tight_append]
    simp [Function.comp_def]
  · refine ⟨⟨w, hw, hchain.congr ?_ ?_⟩, h.kind, rfl⟩
    · simp [Function.comp_def]
    · intro r hr
      obtain ⟨r', -, rfl⟩ := List.mem_map.mp hr
      rfl
  · congr 2
    apply String.toList_injective
    simp [toList_joinedText, List.flatMap_map]

theorem prefixed (tame : d.Tame) (hprefixes : Prefixes d (s :: chain) literal)
    (hraw : ∀ r ∈ (s :: chain) ++ literal :: rest, r.token.Raw)
    (hp : p.token = ⟨.string, joinedText "" (s :: chain) ++ literal.token.text⟩)
    (hapart : ∀ q ∈ pieces.head?, Apart p q) (h : Unjoined o d rest pieces parts) :
    Unjoined o d ((s :: chain) ++ literal :: rest) (p :: pieces)
      (⟨p.gap, s.token⟩ :: (tight (chain.map Spaced.token ++ [literal.token]) ++ parts)) := by
  obtain ⟨w, -, hchain⟩ := hprefixes.completes
  have hparts := hchain.parts
  have hspart := hparts s List.mem_cons_self
  have hcast := not_isCast (hprefixes.not_mem tame (Or.inl rfl) s List.mem_cons_self)
  have hpkind : p.token.kind = .string := by rw [hp]
  obtain ⟨hbound, hunstray⟩ := literal_chain hprefixes.kind hpkind hapart h
  have hglued := glued_chain tame hprefixes
    (fun r hr => (hraw r (List.mem_append_left _ hr)).text) p.gap hbound hunstray
  constructor
  case tokens => simp [tight, h.tokens, Function.comp_def]
  case text =>
    have htight : ∀ t ∈ chain.map Spaced.token ++ [literal.token],
        t.isPrefixPart = true ∨ t.kind = .string := by
      rw [List.forall_mem_append, List.forall_mem_map, List.forall_mem_singleton]
      exact ⟨fun r hr => Or.inl (hparts r (List.mem_cons_of_mem s hr)), Or.inr hprefixes.kind⟩
    rw [flat_cons, flat_append, flat_cons, h.text, hp, flat_tight htight]
    dsimp only
    rw [spelling_part (Or.inl hspart), spelling_part (Or.inr rfl)]
    simp [toList_joinedText, List.flatMap_map]
  case blank =>
    intro hblank
    obtain ⟨hgap, hmore⟩ := List.forall_mem_cons.mp hblank
    refine List.forall_mem_cons.mpr ⟨hgap, List.forall_mem_append.mpr ⟨?_, h.blank hmore⟩⟩
    rw [tight, List.forall_mem_map]
    exact fun t _ => by simp [Scrap.isBlank]
  case bound => exact hglued.1
  case unstray => exact hglued.2
  case begins =>
    intro q hq
    obtain rfl : ⟨p.gap, s.token⟩ = q := by simpa using hq
    have hpcast : p.token.isCast = false := by simp [isCast, hpkind]
    refine ⟨p, rfl, rfl, ?_, by rw [hcast, hpcast], fun _ => hpkind⟩
    simp only [isPrefixPart, Bool.or_eq_true, decide_eq_true_eq] at hspart
    rcases hspart with hk | hk <;> simp [hugs, Draft.hugsLeft, hk, hpkind, hcast, hpcast]
  case last =>
    intro q hq
    have hq : q ∈ ((⟨[], literal.token⟩ : Piece) :: parts).getLast? := by
      rcases getLast_cons hq with ⟨hnil, -⟩ | hq
      · simp [tight] at hnil
      · rw [tight, List.map_append, List.append_assoc] at hq
        simpa [List.getLast?_append] using hq
    rcases getLast_cons hq with ⟨rfl, rfl⟩ | hq
    · obtain ⟨rfl, rfl⟩ := h.of_nil
      exact ⟨p, rfl, by rw [hp, isOpen_joined tame hprefixes]⟩
    · obtain ⟨p', hp', hopen⟩ := h.last q hq
      exact ⟨p', List.mem_getLast?_cons hp', hopen⟩
  case reads =>
    intro afterNewline spaced
    have hfound := prefixedLiteral?_items hprefixes p.gap parts afterNewline spaced
    rw [← hp, items] at hfound
    rw [items, resolve_some hfound, h.reads false false, relined]
    congr 1
    simp [reline, hpkind]

end Prefixed

/-- The tokens of a layout come apart into the items that they were made of. -/
theorem exists_parts (tame : d.Tame) {items : List Spaced} (hraw : ∀ s ∈ items, s.token.Raw)
    {pieces : List Piece} (hpieces : pieces.map Piece.token = Token.resolve d items)
    (hapart : pieces.IsChain Apart) (hstray : pieces.IsChain fun p q => ¬Stray p q) :
    ∃ parts, Unjoined o d items pieces parts := by
  induction items using Token.resolve_induction d generalizing pieces with
  | nil =>
    obtain rfl : pieces = [] := by simpa [Token.resolve] using hpieces
    refine ⟨[], rfl, rfl, by simp, .nil, .nil, by simp [BeginsAlike], by simp, ?_⟩
    intro afterNewline spaced
    rw [Piece.items, Token.resolve.eq_def, relined]
  | joined chain literal rest hprefixes hresolve ih =>
    obtain ⟨p, pieces, rfl, hp, hmore⟩ := List.map_eq_cons_iff.mp (hpieces.trans hresolve)
    obtain ⟨w, -, hchain⟩ := hprefixes.completes
    obtain ⟨s', chain, rfl⟩ := List.exists_cons_of_ne_nil hchain.ne_nil
    rw [List.isChain_cons] at hapart hstray
    obtain ⟨parts, h⟩ := ih (fun r hr => hraw r (by simp [hr])) hmore hapart.2 hstray.2
    exact ⟨_, h.prefixed tame hprefixes hraw hp hapart.1⟩
  | lone s items hnone hresolve ih =>
    obtain ⟨p, pieces, rfl, hp, hmore⟩ := List.map_eq_cons_iff.mp (hpieces.trans hresolve)
    rw [List.isChain_cons] at hapart hstray
    obtain ⟨parts, h⟩ := ih (fun r hr => hraw r (List.mem_cons_of_mem s hr)) hmore hapart.2
      hstray.2
    exact ⟨_, h.single tame (hraw s List.mem_cons_self) hp hapart.1 hstray.1⟩

end Unjoined
end SqlLayout
