import SqlLayout.Proofs.Comments
import SqlLayout.Proofs.Formatting
import SqlLayout.Proofs.Visible

/-! Texts that differ in white space. A text is read by its lexemes: of the white space between them
only three things count, whether there is any, whether it follows a word that could go on behind it, and
whether it holds a newline before AND or OR. The lexemes stand before any other white space as they did,
become the same tokens, and have the same visible characters. -/

namespace SqlLayout
set_option autoImplicit false

namespace Quoted

/-- What follows a literal does not go on with its quote. -/
theorem head_split (q : Char) (cs : List Char) : (split q cs).2.head? ≠ some q := by
  induction cs using steps (q := q) with
  | nil => simp [split]
  | other c cs hc ih => rwa [split_other hc]
  | double cs ih => rwa [split_double]
  | close cs hcs => rwa [split_close hcs]

end Quoted

namespace Lexeme
variable {ops : List (List Char)}

/-- The text begins with a character that ends every lexeme before it. -/
def Severs (rest : List Char) : Prop :=
  ∃ c cs, rest = c :: cs ∧ isSeparator c = true ∧ isQuote c = false

/-- Both texts are empty, or both end the lexeme before them. -/
def EndAlike (rest rest' : List Char) : Prop :=
  rest = [] ∧ rest' = [] ∨ Severs rest ∧ Severs rest'

theorem EndAlike.clean {rest rest' : List Char} (h : EndAlike rest rest') (before : List Char) :
    Clean before rest ∧ Clean before rest' := by
  rcases h with ⟨rfl, rfl⟩ | ⟨⟨c, cs, rfl, hc, -⟩, ⟨d, ds, rfl, hd, -⟩⟩
  · exact ⟨Or.inl rfl, Or.inl rfl⟩
  · exact ⟨.of_separator hc, .of_separator hd⟩

/-- What follows a lexeme that is no literal may be changed from a separator on. -/
theorem cut_end (tame : Operator.Tame ops) {c : Char} {word between rest rest' : List Char}
    {shape : Shape} (hend : EndAlike rest rest') (hshape : shape ≠ .quoted)
    (h : cut ops c (word ++ between ++ rest) = (shape, word, between ++ rest)) :
    cut ops c (word ++ between ++ rest') = (shape, word, between ++ rest') := by
  obtain ⟨hclean, hclean'⟩ := hend.clean (c :: (word ++ between))
  have hquote : isQuote c = false := by
    rcases cut_cases h with ⟨-, hquoted, -⟩ | ⟨hc, -⟩ | ⟨hc, -⟩ | ⟨hc, -⟩
    · exact absurd hquoted hshape
    all_goals exact hc
  obtain ⟨⟨shape₀, word₀, between₀⟩, hcut⟩ :
      ∃ piece, cut ops c (word ++ between) = piece := ⟨_, rfl⟩
  have hnot : shape₀ ≠ .quoted := by
    rintro rfl
    rcases cut_cases hcut with ⟨hc, -⟩ | ⟨-, kind, -, hc, -⟩ | ⟨-, -, hc, -⟩ | ⟨-, -, hc, -⟩
    · rw [hquote] at hc
      cases hc
    all_goals cases hc
  -- without the separators the lexeme is cut as it is, since they would change nothing
  have hsame := cut_extend tame hcut hclean fun hq => absurd hq hnot
  rw [h] at hsame
  obtain ⟨rfl, rfl, hbetween⟩ : shape = shape₀ ∧ word = word₀ ∧
      between ++ rest = between₀ ++ rest := by simpa using hsame
  obtain rfl := List.append_cancel_right hbetween
  exact cut_extend tame hcut hclean' fun hq => absurd hq hnot

/-- A literal that is closed stands before all that does not go on with its quote. -/
theorem Stands.quoted_end {text rest rest' : List Char} (h : Stands ops .quoted text rest)
    (hne : rest ≠ []) (hhead : rest'.head? = rest.head? ∨ ∃ c ∈ rest'.head?, isQuote c = false) :
    Stands ops .quoted text rest' := by
  have hclosed := h.closed hne
  obtain ⟨c, word, rfl, hwhite, -, hcut⟩ := h
  rcases cut_cases hcut with ⟨hc, -, hsplit⟩ | ⟨-, kind, -, hquoted, -⟩ | ⟨-, -, hquoted, -⟩ |
    ⟨-, -, hquoted, -⟩
  · have hbody := (Quoted.split_body c (word ++ rest)).1
    have hstop := Quoted.head_split c (word ++ rest)
    rw [hsplit] at hbody hstop
    have hstop' : rest'.head? ≠ some c := by
      rcases hhead with hsame | ⟨d, hd, hquote⟩
      · rwa [hsame]
      · rw [Option.mem_def.mp hd]
        rintro ⟨rfl⟩
        rw [hc] at hquote
        cases hquote
    refine ⟨c, word, rfl, hwhite, ?_, cut_quoted hc ?_⟩
    · simp only [isQuote, Bool.or_eq_true, decide_eq_true_eq] at hc
      rcases hc with rfl | rfl <;> rfl
    · rw [Quoted.split_extend hclosed fun _ => hstop', hbody, List.nil_append]
  all_goals cases hquoted

/-- A lexeme stands before what follows it up to a separator, whatever is behind. -/
theorem Stands.end (tame : Operator.Tame ops) {shape : Shape} {text between rest rest' : List Char}
    (h : Stands ops shape text (between ++ rest)) (hend : EndAlike rest rest') :
    Stands ops shape text (between ++ rest') := by
  by_cases hshape : shape = .quoted
  · subst hshape
    rcases hend with ⟨rfl, rfl⟩ | ⟨⟨c, cs, rfl, -⟩, ⟨d, ds, rfl, -, hd⟩⟩
    · exact h
    · refine h.quoted_end (by simp) ?_
      cases between with
      | nil => exact Or.inr ⟨d, rfl, hd⟩
      | cons e es => exact Or.inl rfl
  · obtain ⟨c, word, rfl, hwhite, hcomment, hcut⟩ := h
    rw [← List.append_assoc] at hcomment hcut
    obtain ⟨hclean, hclean'⟩ := hend.clean (c :: (word ++ between))
    refine ⟨c, word, rfl, hwhite, ?_, ?_⟩
    · rwa [← List.append_assoc, startsComment_extend hclean', ← startsComment_extend hclean]
    · rw [← List.append_assoc]
      exact cut_end tame hend hshape hcut

end Lexeme

def isLinkWord (text : String) : Bool := Text.upper text = "AND" || Text.upper text = "OR"

namespace Scrap
open Lexeme
variable {ops : List (List Char)}

/-- A scrap with other white space before it. The newlines before AND and OR are kept. -/
structure Regaps (a b : Scrap) : Prop where
  shape : b.shape = a.shape
  text : b.text = a.text
  blank : isBlank b.gap
  newline : a.shape = .word → isLinkWord (String.ofList a.text) = true →
    ('\n' ∈ b.gap ↔ '\n' ∈ a.gap)

/-- There is white space before both scraps, or before none. -/
def SpacedAlike (a b : Scrap) : Prop := b.gap = [] ↔ a.gap = []

/-- Scraps with other white space before each of them, and behind the last. Between two lexemes and
behind the last of them there is white space where there was some. -/
structure Regapped (scraps : List Scrap) (tail : List Char) (scraps' : List Scrap)
    (tail' : List Char) : Prop where
  regaps : List.Forall₂ Regaps scraps scraps'
  between : List.Forall₂ SpacedAlike scraps.tail scraps'.tail
  blank : isBlank tail'
  behind : scraps ≠ [] → (tail' = [] ↔ tail = [])

theorem severs_blank {gap rest : List Char} (hgap : isBlank gap) (hne : gap ≠ []) :
    Severs (gap ++ rest) := by
  obtain ⟨c, cs, rfl⟩ := List.exists_cons_of_ne_nil hne
  have hc := hgap c List.mem_cons_self
  exact ⟨c, cs ++ rest, rfl, by simp [isSeparator, hc], isQuote_of_isWhitespace hc⟩

/-- Scraps and the same scraps with other white space begin alike, up to the first white space. -/
theorem exists_endAlike {scraps scraps' : List Scrap} {tail tail' : List Char}
    (hscraps : List.Forall₂ Regaps scraps scraps')
    (hspaced : List.Forall₂ SpacedAlike scraps scraps') (hgaps : ∀ s ∈ scraps, isBlank s.gap)
    (htail : isBlank tail) (htail' : isBlank tail') (hbehind : tail' = [] ↔ tail = []) :
    ∃ between rest rest', flat scraps ++ tail = between ++ rest ∧
      flat scraps' ++ tail' = between ++ rest' ∧ EndAlike rest rest' := by
  induction hscraps with
  | nil =>
    refine ⟨[], tail, tail', rfl, rfl, ?_⟩
    by_cases hnil : tail = []
    · exact Or.inl ⟨hnil, hbehind.mpr hnil⟩
    · have hsevers := @severs_blank _ [] htail hnil
      have hsevers' := @severs_blank _ [] htail' (mt hbehind.mp hnil)
      rw [List.append_nil] at hsevers hsevers'
      exact Or.inr ⟨hsevers, hsevers'⟩
  | @cons a b scraps scraps' hab _ ih =>
    obtain ⟨ha, hgaps⟩ := List.forall_mem_cons.mp hgaps
    cases hspaced with
    | cons hgap hspaced =>
      by_cases hnil : a.gap = []
      · obtain ⟨between, rest, rest', hrest, hrest', hend⟩ := ih hspaced hgaps
        refine ⟨a.text ++ between, rest, rest', ?_, ?_, hend⟩
        · rw [flat_cons, hnil, List.nil_append, List.append_assoc, hrest, List.append_assoc]
        · rw [flat_cons, hgap.mpr hnil, hab.text, List.nil_append, List.append_assoc, hrest',
            List.append_assoc]
      · refine ⟨[], _, _, (List.nil_append _).symm, (List.nil_append _).symm, Or.inr ⟨?_, ?_⟩⟩
        · rw [flat_cons, List.append_assoc, List.append_assoc]
          exact severs_blank ha hnil
        · rw [flat_cons, List.append_assoc, List.append_assoc]
          exact severs_blank hab.blank (mt hgap.mp hnil)

theorem Legible.gaps {scraps : List Scrap} {tail : List Char} (h : Legible ops scraps tail) :
    (∀ s ∈ scraps, isBlank s.gap) ∧ isBlank tail := by
  induction h with
  | nil htail => exact ⟨by simp, htail⟩
  | cons hgap _ _ ih => exact ⟨List.forall_mem_cons.mpr ⟨hgap, ih.1⟩, ih.2⟩

/-- Every lexeme stands before other white space as it did. -/
theorem Legible.regapped (tame : Operator.Tame ops) {scraps scraps' : List Scrap}
    {tail tail' : List Char} (h : Legible ops scraps tail)
    (hregapped : Regapped scraps tail scraps' tail') : Legible ops scraps' tail' := by
  obtain ⟨hregaps, hbetween, hblank, hbehind⟩ := hregapped
  induction h generalizing scraps' with
  | nil =>
    cases hregaps
    exact .nil hblank
  | @cons a scraps tail hgap hstands hmore ih =>
    cases hregaps with
    | @cons _ b _ scraps' hab hregaps =>
      have hbehind := hbehind (List.cons_ne_nil a scraps)
      obtain ⟨between, rest, rest', hrest, hrest', hend⟩ :=
        exists_endAlike hregaps hbetween hmore.gaps.1 hmore.gaps.2 hblank hbehind
      refine .cons hab.blank ?_ (ih hregaps ?_ fun _ => hbehind)
      swap
      · simpa using List.forall₂_drop 1 hbetween
      rw [hab.shape, hab.text, hrest']
      rw [hrest] at hstands
      exact hstands.end tame hend

theorem blank_append_inj {gap gap' rest rest' : List Char} {c d : Char} (hgap : isBlank gap)
    (hgap' : isBlank gap') (hc : Text.isWhitespace c = false) (hd : Text.isWhitespace d = false)
    (h : gap ++ c :: rest = gap' ++ d :: rest') : gap = gap' ∧ c :: rest = d :: rest' := by
  have htake : ∀ {gap rest : List Char} {c : Char}, isBlank gap → Text.isWhitespace c = false →
      (gap ++ c :: rest).takeWhile Text.isWhitespace = gap := by
    intro gap rest c hgap hc
    rw [List.takeWhile_append_of_pos hgap, List.takeWhile_cons_of_neg (by simp [hc]),
      List.append_nil]
  have hsame := congrArg (List.takeWhile Text.isWhitespace) h
  rw [htake hgap hc, htake hgap' hd] at hsame
  subst hsame
  exact ⟨rfl, List.append_cancel_left h⟩

/-- There is one way to cut a text into lexemes and white space between them. -/
theorem Legible.unique {scraps scraps' : List Scrap} {tail tail' : List Char}
    {afterNewline spaced : Bool} (h : Legible ops scraps tail)
    (hlexemes : lexemes afterNewline spaced scraps' = lexemes afterNewline spaced scraps)
    (htext : flat scraps' ++ tail' = flat scraps ++ tail) (hgaps : ∀ s ∈ scraps', isBlank s.gap) :
    scraps' = scraps ∧ tail' = tail := by
  induction h generalizing afterNewline spaced scraps' with
  | nil =>
    cases scraps' with
    | nil => exact ⟨rfl, htext⟩
    | cons => cases hlexemes
  | @cons a scraps tail hgap hstands hmore ih =>
    cases scraps' with
    | nil => cases hlexemes
    | cons b scraps' =>
      obtain ⟨hb, hgaps⟩ := List.forall_mem_cons.mp hgaps
      obtain ⟨hhead, hlexemes⟩ := List.cons.inj hlexemes
      have hshape : b.shape = a.shape := congrArg Lexeme.shape hhead
      have hsame : b.text = a.text := String.ofList_injective (congrArg Lexeme.text hhead)
      obtain ⟨c, word, hword, hwhite, -, -⟩ := hstands
      rw [flat_cons, flat_cons, hsame, hword] at htext
      simp only [List.append_assoc, List.cons_append] at htext
      obtain ⟨hgaps', hrest⟩ := blank_append_inj hb hgap hwhite hwhite htext
      obtain ⟨rfl, rfl⟩ := ih hlexemes (List.append_cancel_left (List.cons.inj hrest).2) hgaps
      refine ⟨?_, rfl⟩
      obtain ⟨gap, shape, text⟩ := a
      obtain ⟨gap', shape', text'⟩ := b
      dsimp only at hshape hsame hgaps'
      rw [hshape, hsame, hgaps']

theorem legible_of_scan {operators : List String} {source : String} {scraps : List Scrap}
    {tail : List Char} (hscan : Lexeme.scan operators source = .ok (lexemes false true scraps))
    (hsource : source.toList = flat scraps ++ tail) (hgaps : ∀ s ∈ scraps, isBlank s.gap) :
    Legible (operators.map String.toList) scraps tail := by
  obtain ⟨scraps', tail', hlegible, htext, hlexemes⟩ := scan_iff.mp hscan
  obtain ⟨rfl, rfl⟩ := hlegible.unique hlexemes (hsource.symm.trans htext) hgaps
  exact hlegible

end Scrap

/-- A lexeme with another newline before it, unless it is AND or OR. -/
structure Lexeme.Regapped (l l' : Lexeme) : Prop where
  shape : l'.shape = l.shape
  text : l'.text = l.text
  spaced : l'.spaced = l.spaced
  newline : l.shape = .word → isLinkWord l.text = true → l'.afterNewline = l.afterNewline

theorem Scrap.lexemes_regapped {scraps scraps' : List Scrap}
    (hregaps : List.Forall₂ Regaps scraps scraps')
    (hbetween : List.Forall₂ SpacedAlike scraps.tail scraps'.tail) :
    List.Forall₂ Lexeme.Regapped (lexemes false true scraps) (lexemes false true scraps') := by
  have hlexeme : ∀ {a b : Scrap} (spaced : Bool), Regaps a b → (spaced = true ∨ SpacedAlike a b) →
      Lexeme.Regapped
        ⟨a.shape, String.ofList a.text, false || a.gap.contains '\n', spaced || !a.gap.isEmpty⟩
        ⟨b.shape, String.ofList b.text, false || b.gap.contains '\n', spaced || !b.gap.isEmpty⟩ := by
    intro a b spaced hab hspaced
    refine ⟨hab.shape, congrArg String.ofList hab.text, ?_, fun hword hlink => ?_⟩
    · rcases hspaced with rfl | hspaced
      · rfl
      · have hempty : b.gap.isEmpty = a.gap.isEmpty := by
          rw [Bool.eq_iff_iff, List.isEmpty_iff, List.isEmpty_iff]
          exact hspaced
        rw [hempty]
    · rw [Bool.false_or, Bool.false_or, Bool.eq_iff_iff, List.contains_iff_mem,
        List.contains_iff_mem]
      exact hab.newline hword hlink
  have hmore : ∀ {scraps scraps' : List Scrap}, List.Forall₂ Regaps scraps scraps' →
      List.Forall₂ SpacedAlike scraps scraps' →
      List.Forall₂ Lexeme.Regapped (lexemes false false scraps) (lexemes false false scraps') := by
    intro scraps scraps' hregaps hspaced
    induction hregaps with
    | nil => exact .nil
    | cons hab _ ih =>
      cases hspaced with
      | cons hgap hspaced => exact .cons (hlexeme false hab (Or.inr hgap)) (ih hspaced)
  cases hregaps with
  | nil => exact .nil
  | cons hab hregaps => exact .cons (hlexeme true hab (Or.inl rfl)) (hmore hregaps hbetween)

namespace Token

/-- An item with another newline before it, unless it is AND or OR. -/
structure Spaced.Regapped (s s' : Spaced) : Prop where
  token : s'.token = s.token
  spaced : s'.spaced = s.spaced
  newline : s.token.kind = .keyword .AND ∨ s.token.kind = .keyword .OR →
    s'.afterNewline = s.afterNewline

theorem isLinkWord_of_ofLexeme {d : Dialect} {l : Lexeme} {rest : List Lexeme}
    (hmark : ∀ kind, l.shape = .mark kind → kind.isPunctuation = true)
    (h : (ofLexeme d l rest).kind = .keyword .AND ∨ (ofLexeme d l rest).kind = .keyword .OR) :
    l.shape = .word ∧ isLinkWord l.text = true := by
  unfold ofLexeme at h
  cases hshape : l.shape with
  | quoted => simp [hshape] at h
  | operator => simp [hshape] at h
  | mark kind =>
    have hpunctuation := hmark kind hshape
    rw [hshape] at h
    rcases h with rfl | rfl <;> cases hpunctuation
  | word =>
    refine ⟨rfl, ?_⟩
    rw [hshape] at h
    unfold ofWord at h
    dsimp only at h
    cases hkeyword : Keyword.ofUpper? (Text.upper l.text) with
    | some k =>
      rw [hkeyword] at h
      have hk : k = .AND ∨ k = .OR := by simpa using h
      rcases Keyword.spelling_of_ofUpper? hkeyword with ⟨-, rfl⟩ | ⟨-, rfl⟩ | hspelling
      · simp at hk
      · simp at hk
      · rcases hk with rfl | rfl <;> simp [isLinkWord, ← hspelling, Keyword.spelling]
    | none =>
      rw [hkeyword] at h
      dsimp only at h
      split at h <;> simp at h

section Tokens
variable {d : Dialect}

theorem classify_regapped {ls ls' : List Lexeme}
    (hmark : ∀ l ∈ ls, ∀ kind, l.shape = .mark kind → kind.isPunctuation = true)
    (h : List.Forall₂ Lexeme.Regapped ls ls') :
    List.Forall₂ Spaced.Regapped (classify d ls) (classify d ls') := by
  have hfound (ls ls' : List Lexeme) (h : List.Forall₂ Lexeme.Regapped ls ls') :=
    compoundType?_congr (h.imp fun l l' (hl : Lexeme.Regapped l l') =>
      (⟨hl.shape, fun _ => by rw [hl.text]⟩ : Alike l l'))
  induction ls using classify_induction generalizing ls' with
  | nil =>
    cases h
    rw [classify.eq_def]
    exact .nil
  | compound l ls words taken rest hword hname _ htaken _ ih =>
    have hdrop := List.forall₂_drop taken.length h
    rw [htaken, List.drop_left] at hdrop
    have hname' := hfound _ _ h
    rw [hname, Option.map_some, htaken, List.length_append, Nat.add_sub_cancel] at hname'
    cases h with
    | @cons _ l' _ ls' hl hls =>
      rw [classify_some hword hname, classify_some (hl.shape.trans hword) hname']
      refine .cons ⟨rfl, hl.spaced, by simp⟩ (ih ?_ hdrop)
      intro k hk
      exact hmark k (htaken ▸ List.mem_append_right taken hk)
  | lone l ls hnone ih =>
    have hname := hfound _ _ h
    obtain ⟨hl, hls⟩ := List.forall_mem_cons.mp hmark
    cases h with
    | @cons _ l' _ ls' hll' hlls' =>
      have hnone' : l'.shape = .word → compoundType? (l' :: ls') = none := by
        intro hword
        rw [hname, hnone (hll'.shape.symm.trans hword)]
        rfl
      have hparen : startsWithParen ls' = startsWithParen ls := by
        cases hlls' with
        | nil => rfl
        | cons hk _ => simp [startsWithParen, hk.shape]
      have htoken : ofLexeme d l' ls' = ofLexeme d l ls :=
        Respelled.ofLexeme_congr hll'.shape hparen (Or.inl hll'.text)
      rw [classify_none hnone, classify_none hnone']
      refine .cons ⟨htoken, hll'.spaced, fun hkind => ?_⟩ (ih hls hlls')
      obtain ⟨hword, hlink⟩ := isLinkWord_of_ofLexeme hl hkind
      exact hll'.newline hword hlink

theorem kindInContext_regapped {s s' : Spaced} {items items' : List Spaced}
    (hs : Spaced.Regapped s s') (hitems : List.Forall₂ Spaced.Regapped items items') :
    kindInContext s' items' = kindInContext s items := by
  have hhead : items'.head?.any (·.token.kind = .openParen) =
      items.head?.any (·.token.kind = .openParen) := by
    cases hitems with
    | nil => rfl
    | cons hr _ => simp [hr.token]
  unfold kindInContext
  rw [hs.token, hhead]
  split
  · rename_i hkind
    rw [hs.newline (Or.inl hkind)]
  · rename_i hkind
    rw [hs.newline (Or.inr hkind)]
  · rfl
  · rfl

theorem Spaced.Regapped.symm {s s' : Spaced} (h : Spaced.Regapped s s') : Spaced.Regapped s' s where
  token := h.token.symm
  spaced := h.spaced.symm
  newline := fun hkind => (h.newline (by rwa [← h.token])).symm

theorem map_regapped {items items' : List Spaced} (h : List.Forall₂ Spaced.Regapped items items') :
    items'.map Spaced.token = items.map Spaced.token ∧
      items'.map Spaced.spaced = items.map Spaced.spaced := by
  induction h with
  | nil => exact ⟨rfl, rfl⟩
  | cons hs _ ih => simp [hs.token, hs.spaced, ih.1, ih.2]

theorem joinedText_eq (joined : String) (chain : List Spaced) :
    joinedText joined chain =
      (chain.map Spaced.token).foldl (fun text t => text ++ t.text) joined := by
  rw [List.foldl_map, joinedText]

theorem Prefixes.regapped {chain chain' : List Spaced} {literal literal' : Spaced}
    (h : Prefixes d chain literal) (hchain : List.Forall₂ Spaced.Regapped chain chain')
    (hliteral : Spaced.Regapped literal literal') : Prefixes d chain' literal' := by
  obtain ⟨htokens, hspaced⟩ := map_regapped hchain
  obtain ⟨p, hp, hcompletes⟩ := h.completes
  refine ⟨⟨p, hp, hcompletes.congr htokens fun s hs => ?_⟩, ?_, ?_⟩
  · have hmem : s.spaced ∈ chain.tail.map Spaced.spaced := by
      rw [List.map_tail, ← hspaced, ← List.map_tail]
      exact List.mem_map_of_mem hs
    obtain ⟨r, hr, hsame⟩ := List.mem_map.mp hmem
    rw [← hsame]
    exact hcompletes.unspaced r hr
  · rw [hliteral.token]
    exact h.kind
  · rw [hliteral.spaced]
    exact h.spaced

theorem prefixedLiteral?_regapped {items items' rest : List Spaced} {t : Token}
    (h : List.Forall₂ Spaced.Regapped items items')
    (hfound : prefixedLiteral? d items = some (t, rest)) :
    ∃ rest', prefixedLiteral? d items' = some (t, rest') ∧
      List.Forall₂ Spaced.Regapped rest rest' := by
  obtain ⟨chain, literal, rfl, hprefixes, rfl⟩ := prefixedLiteral?_eq_some_iff.mp hfound
  have hchain := List.forall₂_take chain.length h
  have hliteral := List.forall₂_drop chain.length h
  rw [List.take_left] at hchain
  rw [List.drop_left] at hliteral
  obtain ⟨literal', rest', hl, hrest, hdrop⟩ := List.forall₂_cons_left_iff.mp hliteral
  refine ⟨rest', prefixedLiteral?_eq_some_iff.mpr ⟨items'.take chain.length, literal', ?_,
    hprefixes.regapped hchain hl, ?_⟩, hrest⟩
  · rw [← hdrop, List.take_append_drop]
  · rw [joinedText_eq, joinedText_eq, (map_regapped hchain).1, hl.token]

theorem resolve_regapped {items items' : List Spaced} (h : List.Forall₂ Spaced.Regapped items items') :
    resolve d items' = resolve d items := by
  fun_induction resolve d items generalizing items' with
  | case1 =>
    cases h
    rw [resolve.eq_def]
  | case2 s items t rest hfound ih =>
    obtain ⟨rest', hfound', hrest⟩ := prefixedLiteral?_regapped h hfound
    cases h with
    | cons hs hitems => rw [resolve_some hfound', ih hrest]
  | case3 s items hnone ih =>
    cases h with
    | @cons _ s' _ items' hs hitems =>
      have hnone' : prefixedLiteral? d (s' :: items') = none := by
        cases hfound : prefixedLiteral? d (s' :: items') with
        | none => rfl
        | some found =>
          have hback := (List.Forall₂.cons hs hitems).flip.imp fun _ _ => Spaced.Regapped.symm
          obtain ⟨rest, hfound, -⟩ := prefixedLiteral?_regapped hback hfound
          rw [hnone] at hfound
          cases hfound
      rw [resolve_none hnone', ih hitems, kindInContext_regapped hs hitems, hs.token]

end Tokens
end Token

section Visible
variable {rest rest' : List Char}

/-- Behind the same text, texts that look alike look alike. An escape sequence may begin with the last
character of the one and the first of the other. -/
theorem visible_append_congr (hvisible : ∀ inside, visible inside rest' = visible inside rest)
    (hhead : rest'.head? = some '[' ↔ rest.head? = some '[') (inside : Bool) (text : List Char) :
    visible inside (text ++ rest') = visible inside (text ++ rest) := by
  induction hlength : text.length using Nat.strongRecOn generalizing text inside with
  | ind length ih =>
    cases text with
    | nil => exact hvisible inside
    | cons c cs =>
      rw [List.length_cons] at hlength
      have hnext : (cs ++ rest').head? = some '[' ↔ (cs ++ rest).head? = some '[' := by
        cases cs with
        | nil => exact hhead
        | cons d ds => exact Iff.rfl
      rw [List.cons_append, List.cons_append]
      by_cases hopens : opensEscape c (cs ++ rest)
      · obtain ⟨rfl, hbracket⟩ := hopens
        cases cs with
        | nil =>
          obtain ⟨more, rfl⟩ := bracket_of_head hbracket
          obtain ⟨more', rfl⟩ := bracket_of_head (hhead.mpr rfl)
          have hinside := hvisible true
          rw [visible_true (by simp [opensEscape]), visible_true (by simp [opensEscape])] at hinside
          rw [List.nil_append, List.nil_append, visible_escape, visible_escape]
          exact hinside
        | cons d ds =>
          obtain rfl : d = '[' := by simpa using hbracket
          rw [List.cons_append, List.cons_append, visible_escape, visible_escape]
          exact ih ds.length (by rw [List.length_cons] at hlength; omega) true ds rfl
      · have hopens' : ¬opensEscape c (cs ++ rest') := fun h => hopens ⟨h.1, hnext.mp h.2⟩
        cases inside with
        | true =>
          rw [visible_true hopens, visible_true hopens']
          exact ih cs.length (by omega) _ cs rfl
        | false =>
          rw [visible_false hopens, visible_false hopens', ih cs.length (by omega) false cs rfl]

end Visible

namespace Scrap
variable {scraps scraps' : List Scrap} {tail tail' : List Char}

theorem visible_regaps (hregaps : List.Forall₂ Regaps scraps scraps')
    (hspaced : List.Forall₂ SpacedAlike scraps scraps') (hgaps : ∀ s ∈ scraps, isBlank s.gap)
    (htail : isBlank tail) (htail' : isBlank tail') (hbehind : tail' = [] ↔ tail = []) :
    (∀ inside, visible inside (flat scraps' ++ tail') = visible inside (flat scraps ++ tail)) ∧
      ((flat scraps' ++ tail').head? = some '[' ↔ (flat scraps ++ tail).head? = some '[') := by
  have hplain : ∀ {gap : List Char} (inside : Bool), isBlank gap →
      visible inside gap = visible inside [] := by
    intro gap inside hgap
    simpa using visible_blank hgap inside []
  induction hregaps with
  | nil =>
    refine ⟨fun inside => ?_, ?_⟩
    · rw [flat_nil, List.nil_append, List.nil_append, hplain inside htail, hplain inside htail']
    · by_cases hnil : tail = []
      · rw [hnil, hbehind.mpr hnil]
      · have hhead := @head_blank tail [] htail hnil
        have hhead' := @head_blank tail' [] htail' (mt hbehind.mp hnil)
        rw [List.append_nil] at hhead hhead'
        exact iff_of_false hhead' hhead
  | @cons a b scraps scraps' hab _ ih =>
    obtain ⟨ha, hgaps⟩ := List.forall_mem_cons.mp hgaps
    cases hspaced with
    | cons hgap hspaced =>
      obtain ⟨hvisible, hhead⟩ := ih hspaced hgaps
      simp only [flat_cons, List.append_assoc, hab.text]
      refine ⟨fun inside => ?_, ?_⟩
      · rw [visible_blank ha, visible_blank hab.blank]
        exact visible_append_congr hvisible hhead inside a.text
      · by_cases hnil : a.gap = []
        · rw [hnil, hgap.mpr hnil, List.nil_append, List.nil_append]
          cases a.text with
          | nil => exact hhead
          | cons c cs => exact Iff.rfl
        · exact iff_of_false (head_blank hab.blank (mt hgap.mp hnil)) (head_blank ha hnil)

theorem Regapped.visible (h : Regapped scraps tail scraps' tail')
    (hgaps : ∀ s ∈ scraps, isBlank s.gap) (htail : isBlank tail) (inside : Bool) :
    visible inside (flat scraps' ++ tail') = visible inside (flat scraps ++ tail) := by
  obtain ⟨hregaps, hbetween, hblank, hbehind⟩ := h
  cases hregaps with
  | nil =>
    have hnone := visible_blank htail inside []
    have hnone' := visible_blank hblank inside []
    rw [List.append_nil] at hnone hnone'
    rw [flat_nil, List.nil_append, List.nil_append, hnone, hnone']
  | @cons a b scraps scraps' hab hregaps =>
    obtain ⟨ha, hgaps⟩ := List.forall_mem_cons.mp hgaps
    obtain ⟨hvisible, hhead⟩ :=
      visible_regaps hregaps hbetween hgaps htail hblank (hbehind (List.cons_ne_nil a scraps))
    simp only [flat_cons, List.append_assoc, hab.text]
    rw [visible_blank ha, visible_blank hab.blank]
    exact visible_append_congr hvisible hhead inside a.text

end Scrap

/-- The failure, with another source to show. -/
def Failure.showing (source : String) : Failure → Failure
  | .safety _ => .safety source
  | e => e

/-- What becomes of a text depends on its tokens and on its content. -/
theorem format_congr {o : Options} {source other : String}
    (htokens : tokenize o.dialect other = tokenize o.dialect source)
    (hcontent : content other.toList = content source.toList) :
    format o other = (format o source).mapError (Failure.showing other) := by
  unfold format
  rw [htokens]
  cases tokenize o.dialect source with
  | error e => rfl
  | ok ts =>
    dsimp only
    cases Statement.parse ts with
    | error e => rfl
    | ok statements =>
      dsimp only
      cases layOut o statements with
      | error fault => rfl
      | ok text =>
        dsimp only
        rw [sameContent, sameContent, hcontent]
        split <;> rfl

open Scrap in
/-- Of the white space in a text only this counts: whether there is any between two lexemes and behind
the last, and whether there is a newline in it before AND or OR. Any other white space gives the same
tokens and the same result. -/
theorem format_ignores_white_space {o : Options}
    (hdialects : ∀ r ∈ o.dialects, r = .postgres ∨ r = .postgis) {source other : String}
    {scraps scraps' : List Scrap} {tail tail' : List Char}
    (hscan : Lexeme.scan o.dialect.operators source = .ok (lexemes false true scraps))
    (hsource : source.toList = flat scraps ++ tail)
    (hgaps : ∀ s ∈ scraps, isBlank s.gap) (htail : isBlank tail)
    (hother : other.toList = flat scraps' ++ tail')
    (hregapped : Regapped scraps tail scraps' tail') :
    tokenize o.dialect other = tokenize o.dialect source ∧
      format o other = (format o source).mapError (Failure.showing other) := by
  have tame : o.dialect.Tame := (Dialect.shipped_strict hdialects).1.tame
  have hlegible := legible_of_scan hscan hsource hgaps
  have hscan' : Lexeme.scan o.dialect.operators other = .ok (lexemes false true scraps') :=
    scan_iff.mpr ⟨scraps', tail', hlegible.regapped tame.operators hregapped, hother, rfl⟩
  have htokens : tokenize o.dialect other = tokenize o.dialect source := by
    have hitems := Token.classify_regapped (d := o.dialect) (hlegible.isPunctuation false true)
      (lexemes_regapped hregapped.regaps hregapped.between)
    rw [tokenize, tokenize, hscan, hscan']
    dsimp only
    rw [Token.resolve_regapped hitems]
  refine ⟨htokens, format_congr htokens ?_⟩
  rw [content_eq, content_eq, hother, hsource, hregapped.visible hgaps htail]

open Scrap in
theorem format_ignores_white_space_before_and :
    format {} " select\nb \nAND c" =
      (format {} "select b\nAND  c").mapError (Failure.showing " select\nb \nAND c") := by
  have hother : ∀ word : String, isLinkWord word = false → ∀ p : Prop,
      isLinkWord word = true → p := by
    intro word hword p h
    rw [hword] at h
    cases h
  refine (@format_ignores_white_space {} (by simp) "select b\nAND  c" " select\nb \nAND c"
    [⟨[], .word, "select".toList⟩, ⟨[' '], .word, ['b']⟩, ⟨['\n'], .word, "AND".toList⟩,
      ⟨[' ', ' '], .word, ['c']⟩]
    [⟨[' '], .word, "select".toList⟩, ⟨['\n'], .word, ['b']⟩, ⟨[' ', '\n'], .word, "AND".toList⟩,
      ⟨[' '], .word, ['c']⟩] [] []
    (by decide +kernel) rfl ?_ (by simp [isBlank]) rfl ?_).2
  · intro s hs
    apply isBlank_of_spaces
    revert s
    simp
  · constructor
    · refine .cons ⟨rfl, rfl, ?_, fun _ => hother _ (by decide +kernel) _⟩
        (.cons ⟨rfl, rfl, ?_, fun _ => hother _ (by decide +kernel) _⟩
        (.cons ⟨rfl, rfl, ?_, fun _ _ => by decide +kernel⟩
        (.cons ⟨rfl, rfl, ?_, fun _ => hother _ (by decide +kernel) _⟩ .nil))) <;>
        exact isBlank_of_spaces (by simp)
    · exact .cons (by simp [SpacedAlike]) (.cons (by simp [SpacedAlike])
        (.cons (by simp [SpacedAlike]) .nil))
    · simp [isBlank]
    · exact fun _ => Iff.rfl

end SqlLayout
