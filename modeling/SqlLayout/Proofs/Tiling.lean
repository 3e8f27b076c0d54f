import SqlLayout.Proofs.Formatting

/-! Lexemes and tokens as tilings. A text that can be scanned consists of its lexemes and the white space
between them, and no word could have been longer. The tokens stand for blocks of lexemes, one behind
the other, and what a token says is what its block says. -/

namespace SqlLayout
set_option autoImplicit false

namespace Lexeme

/-- The head of a number with an exponent: digits, at most one point among them, and the mark of the
exponent. -/
def ExponentHead (word : List Char) : Prop :=
  ∃ mantissa e, word = mantissa ++ [e] ∧ (e = 'e' ∨ e = 'E') ∧
    (∀ c ∈ mantissa, c.isDigit = true ∨ c = '.') ∧ mantissa.count '.' ≤ 1 ∧
    ∃ c ∈ mantissa, c.isDigit = true

/-- A star behind a point and a sign inside a number belong to the word. -/
def Belongs (word : List Char) (c : Char) (cs : List Char) : Prop :=
  (c = '*' ∧ word.getLast? = some '.') ∨
    ((c = '+' ∨ c = '-') ∧ ExponentHead word ∧ ∃ d ∈ cs.head?, d.isDigit = true)

/-- What stands behind a word can end it: nothing, a separator, a comment, or an operator. -/
def Ends (ops : List (List Char)) (word : List Char) : List Char → Prop
  | [] => True
  | c :: cs => isSeparator c = true ∨ ¬Belongs word c cs ∧
      (startsComment c cs = true ∨ ∃ op ∈ ops, op ≠ [] ∧ op <+: c :: cs)

/-- A lexeme with the text behind it. A word holds no separator and stops at its first end. -/
structure Fits (ops : List (List Char)) (l : Lexeme) (rest : List Char) : Prop where
  nonempty : l.text ≠ ""
  mark : ∀ kind, l.shape = .mark kind → ∃ c, l.text.toList = [c] ∧ markKind? c = some kind
  bare : l.shape = .word → ∀ c ∈ l.text.toList, isSeparator c = false
  ends : l.shape = .word → Ends ops l.text.toList rest
  first : l.shape = .word → ∀ before after, l.text.toList = before ++ after → before ≠ [] →
    after ≠ [] → ¬Ends ops before (after ++ rest)

/-- The text consists of the lexemes, with white space before, between and behind them. `first` says
whether the next lexeme is the first one. -/
inductive Tiled (ops : List (List Char)) : Bool → List Char → List Lexeme → Prop
  | nil {first : Bool} {gap : List Char} (hgap : Scrap.isBlank gap) : Tiled ops first gap []
  | cons {first : Bool} {gap rest : List Char} {l : Lexeme} {ls : List Lexeme}
      (hgap : Scrap.isBlank gap) (hfits : Fits ops l rest)
      (hnewline : l.afterNewline = true ↔ '\n' ∈ gap)
      (hspaced : l.spaced = true ↔ gap ≠ [] ∨ first = true) (h : Tiled ops false rest ls) :
      Tiled ops first (gap ++ l.text.toList ++ rest) (l :: ls)

section Words
variable {ops : List (List Char)}

theorem isExponentHead_iff {backwards : List Char} :
    isExponentHead backwards = true ↔ ExponentHead backwards.reverse := by
  cases backwards with
  | nil => simp [isExponentHead, ExponentHead]
  | cons e mantissa =>
    constructor
    · intro h
      refine ⟨mantissa.reverse, e, List.reverse_cons, ?_⟩
      simpa [isExponentHead, and_assoc] using h
    · rintro ⟨mantissa', e', heq, h⟩
      rw [List.reverse_cons] at heq
      obtain ⟨rfl, he⟩ := List.append_inj' heq rfl
      obtain rfl : e = e' := by simpa using he
      simpa [isExponentHead, and_assoc] using h

theorem belongs_iff {backwards : List Char} {c : Char} {cs : List Char} :
    Belongs backwards.reverse c cs ↔
      (c = '*' && backwards.head? = some '.') = true ∨
        ((c = '-' || c = '+') && isExponentHead backwards && cs.head?.any Char.isDigit) = true := by
  rw [Belongs, ← isExponentHead_iff, List.getLast?_reverse]
  cases cs.head? <;> simp [or_comm, and_assoc]

theorem continues_iff {backwards : List Char} {c : Char} {cs : List Char} :
    continues ops backwards c cs = true ↔ ¬Ends ops backwards.reverse (c :: cs) := by
  have hoperator : (Operator.longest ops (c :: cs) == 0) = true ↔
      ¬∃ op ∈ ops, op ≠ [] ∧ op <+: c :: cs := by
    rw [beq_iff_eq, Operator.longest_eq_zero_iff]
    grind
  change _ ↔ ¬(isSeparator c = true ∨ ¬Belongs backwards.reverse c cs ∧
    (startsComment c cs = true ∨ ∃ op ∈ ops, op ≠ [] ∧ op <+: c :: cs))
  rw [belongs_iff, ← not_iff_not.mpr hoperator |>.trans not_not]
  unfold continues
  grind

/-- A word is read up to its first end. -/
theorem splitWord_first {backwards cs word rest : List Char}
    (h : splitWord ops backwards cs = (word, rest)) :
    (∀ c ∈ word, isSeparator c = false) ∧ Ends ops (backwards.reverse ++ word) rest ∧
      ∀ before after, word = before ++ after → after ≠ [] →
        ¬Ends ops (backwards.reverse ++ before) (after ++ rest) := by
  induction cs generalizing backwards word with
  | nil =>
    obtain ⟨rfl, rfl⟩ := Prod.mk.inj h
    exact ⟨by simp, trivial, by simp⟩
  | cons c cs ih =>
    have happend := splitWord_append ops backwards (c :: cs)
    rw [h] at happend
    rw [splitWord] at h
    by_cases hgo : continues ops backwards c cs = true
    · rw [if_pos hgo] at h
      obtain ⟨rfl, hrest⟩ := Prod.mk.inj h
      obtain ⟨hbare, hends, hfirst⟩ := ih (Prod.ext rfl hrest)
      have hnot := continues_iff.mp hgo
      rw [List.reverse_cons, List.append_assoc, List.singleton_append] at hends
      refine ⟨?_, hends, fun before after hword hafter => ?_⟩
      · intro d hd
        rcases List.mem_cons.mp hd with rfl | hd
        · exact Bool.eq_false_iff.mpr fun hsep => hnot (Or.inl hsep)
        · exact hbare d hd
      · -- before `c` the word goes on; behind `c` it is the rest of the word that goes on
        cases before with
        | nil =>
          rw [List.nil_append] at hword
          rwa [← hword, List.append_nil, happend]
        | cons d before =>
          obtain ⟨rfl, hmore⟩ := List.cons.inj hword
          have hlater := hfirst before after hmore hafter
          rwa [List.reverse_cons, List.append_assoc, List.singleton_append] at hlater
    · rw [if_neg hgo] at h
      obtain ⟨rfl, rfl⟩ := Prod.mk.inj h
      refine ⟨by simp, ?_, by simp⟩
      rw [List.append_nil]
      exact not_not.mp fun hnot => hgo (continues_iff.mpr hnot)

theorem Stands.fits {shape : Shape} {text rest : List Char} (h : Stands ops shape text rest)
    (afterNewline spaced : Bool) :
    Fits ops ⟨shape, String.ofList text, afterNewline, spaced⟩ rest := by
  obtain ⟨c, word, rfl, hwhite, -, hcut⟩ := h
  have hne : String.ofList (c :: word) ≠ "" := fun hnil => by
    have := congrArg String.toList hnil
    simp at this
  rcases cut_cases hcut with ⟨-, rfl, -⟩ | ⟨-, kind, hmark, rfl, rfl, -⟩ | ⟨-, -, rfl, -⟩ |
    ⟨hquote, hmark, rfl, -, hsplit⟩
  · exact ⟨hne, by simp, by simp, by simp, by simp⟩
  · refine ⟨hne, fun k hk => ?_, by simp, by simp, by simp⟩
    cases hk
    exact ⟨c, String.toList_ofList, hmark⟩
  · exact ⟨hne, by simp, by simp, by simp, by simp⟩
  · obtain ⟨hbare, hends, hfirst⟩ := splitWord_first hsplit
    refine ⟨hne, by simp, fun _ d hd => ?_, fun _ => ?_, fun _ before after htext hbefore hafter => ?_⟩
    · rcases List.mem_cons.mp (String.toList_ofList ▸ hd) with rfl | hd
      · simp [isSeparator, hwhite, hquote, hmark]
      · exact hbare d hd
    · rw [String.toList_ofList]
      exact hends
    · rw [String.toList_ofList] at htext
      obtain ⟨d, before, rfl⟩ := List.exists_cons_of_ne_nil hbefore
      obtain ⟨rfl, hword⟩ := List.cons.inj htext
      exact hfirst before after hword hafter

end Words
end Lexeme

open Lexeme in
theorem Scrap.Legible.tiled {ops : List (List Char)} {scraps : List Scrap} {tail : List Char}
    (h : Legible ops scraps tail) (first : Bool) :
    Tiled ops first (flat scraps ++ tail) (lexemes false first scraps) := by
  induction h generalizing first with
  | nil hblank => exact .nil hblank
  | @cons s scraps tail hgap hstands _ ih =>
    have hfits := hstands.fits (s.gap.contains '\n') (first || !s.gap.isEmpty)
    have htext : flat (s :: scraps) ++ tail =
        s.gap ++ (String.ofList s.text).toList ++ (flat scraps ++ tail) := by
      rw [String.toList_ofList, flat_cons, List.append_assoc]
    rw [htext, lexemes, Bool.false_or]
    exact @Tiled.cons ops first s.gap _ ⟨s.shape, String.ofList s.text, _, _⟩ _ hgap hfits
      (by simp) (by simp [or_comm]) (ih false)

namespace Dialect

/-- Every function is kept with the spelling of a registry, which has the letters of its word. -/
structure Spelt (d : Dialect) : Prop where
  functions : ∀ w, (w, WordKind.function) ∈ d.words → ∃ f, (w, f) ∈ d.spellings
  letters : ∀ e ∈ d.spellings, Text.upper e.2 = e.1

theorem Spelt.register {d : Dialect} (h : d.Spelt) (r : Registry) : (d.register r).Spelt := by
  unfold Dialect.register
  dsimp only
  split
  · exact h
  · refine ⟨fun w hw => ?_, fun e he => ?_⟩
    · simp only [List.mem_append, List.mem_reverse, List.mem_map, Prod.mk.injEq] at hw ⊢
      rcases hw with ((⟨_, _, _, hkind⟩ | ⟨f, hf, rfl, -⟩) | ⟨_, _, _, hkind⟩) | hold
      · cases hkind
      · exact ⟨f, Or.inl ⟨f, hf, rfl, rfl⟩⟩
      · cases hkind
      · obtain ⟨f, hf⟩ := h.functions w hold
        exact ⟨f, Or.inr hf⟩
    · simp only [List.mem_append, List.mem_reverse, List.mem_map] at he
      rcases he with ⟨f, -, rfl⟩ | he
      · rfl
      · exact h.letters e he

theorem ofRegistries_spelt (rs : List Registry) : (ofRegistries rs).Spelt := by
  have hfold : ∀ (d : Dialect), d.Spelt → (rs.foldl Dialect.register d).Spelt := by
    induction rs with
    | nil => exact fun _ h => h
    | cons r rs ih => exact fun d h => ih _ (h.register r)
  have hempty : ({} : Dialect).Spelt := ⟨by simp, by simp⟩
  rw [ofRegistries, builtin]
  exact hfold _ (hempty.register .postgres)

theorem Spelt.functionSpelling? {d : Dialect} (h : d.Spelt) {word : String}
    (hword : d.wordKind? word = some .function) :
    ∃ f, d.functionSpelling? word = some f ∧ Text.upper f = word := by
  obtain ⟨f, hf⟩ := h.functions word (Token.mem_of_lookup hword)
  cases hfound : d.functionSpelling? word with
  | none => simpa using List.lookup_eq_none_iff.mp hfound _ hf
  | some f => exact ⟨f, rfl, h.letters (word, f) (Token.mem_of_lookup hfound)⟩

end Dialect

namespace Token
variable {d : Dialect}

/-- The text of a token, told from the lexemes that it stands for. -/
structure Written (d : Dialect) (t : Token) (block : List Lexeme) : Prop where
  nonempty : block ≠ []
  verbatim : t.kind.isVerbatim = true ∨ t.kind = .operator →
    t.text = String.join (block.map (·.text)) ∧ ∀ l ∈ block.tail, l.spaced = false
  upper : t.kind.isKeyword = true ∨ t.kind = .type ∨ t.kind = .reserved →
    t.text = " ".intercalate (block.map fun l => Text.upper l.text)
  function : t.kind = .function → ∃ l, block = [l] ∧ Text.upper t.text = Text.upper l.text ∧
    if Text.upper l.text = "LEFT" then t.text = "LEFT"
    else d.functionSpelling? (Text.upper l.text) = some t.text
  single : t.kind ≠ .string → (∃ l, block = [l]) ∨
    t.kind = .type ∧ (block.map fun l => Text.upper l.text) ∈ Vocabulary.compoundTypes

/-- A token that still knows the white space before it, told from its lexemes. -/
structure Spaced.Written (d : Dialect) (s : Spaced) (block : List Lexeme) : Prop where
  written : Token.Written d s.token block
  lone : isPrefixPart s.token = true ∨ s.token.kind = .string →
    ∃ l, block = [l] ∧ l.text = s.token.text ∧ l.spaced = s.spaced
  left : s.token.kind = .keyword .LEFT → s.token.text = "LEFT"

theorem written_verbatim {kind : TokenKind} (hkind : kind.isVerbatim = true ∨ kind = .operator)
    (l : Lexeme) : Written d ⟨kind, l.text⟩ [l] where
  nonempty := List.cons_ne_nil l []
  verbatim _ := ⟨by simp [String.join], by simp⟩
  upper h := by
    cases kind <;> simp_all [TokenKind.isVerbatim, TokenKind.isPunctuation, TokenKind.isKeyword]
  function h := by
    cases kind <;> simp_all [TokenKind.isVerbatim, TokenKind.isPunctuation]
  single _ := Or.inl ⟨l, rfl⟩

theorem written_upper {kind : TokenKind}
    (hkind : kind.isKeyword = true ∨ kind = .type ∨ kind = .reserved) (l : Lexeme) :
    Written d ⟨kind, Text.upper l.text⟩ [l] where
  nonempty := List.cons_ne_nil l []
  verbatim h := by
    cases kind <;> simp_all [TokenKind.isVerbatim, TokenKind.isPunctuation, TokenKind.isKeyword]
  upper _ := by simp
  function h := by
    cases kind <;> simp_all [TokenKind.isKeyword]
  single _ := Or.inl ⟨l, rfl⟩

theorem written_function {text : String} {l : Lexeme} (hletters : Text.upper text = Text.upper l.text)
    (hspelling : if Text.upper l.text = "LEFT" then text = "LEFT"
      else d.functionSpelling? (Text.upper l.text) = some text) : Written d ⟨.function, text⟩ [l] where
  nonempty := List.cons_ne_nil l []
  verbatim h := by simp [TokenKind.isVerbatim, TokenKind.isPunctuation] at h
  upper h := by simp [TokenKind.isKeyword] at h
  function _ := ⟨l, rfl, hletters, hspelling⟩
  single _ := Or.inl ⟨l, rfl⟩

theorem written_ofWord (hd : d.Spelt) {l : Lexeme} (beforeParen : Bool) :
    Spaced.Written d ⟨ofWord d l.text beforeParen, l.afterNewline, l.spaced⟩ [l] := by
  rcases ofWord_eq_cases d l.text beforeParen with he | ⟨k, hk, he⟩ | ⟨hk, hkind, he⟩ |
    ⟨kind, hfunction, -, he⟩ <;> rw [he]
  · exact ⟨written_verbatim (by decide) l, fun _ => ⟨l, rfl, rfl, rfl⟩, by simp⟩
  · refine ⟨written_upper (Or.inl rfl) l, by simp [isPrefixPart], ?_⟩
    rintro ⟨⟩
    rcases Keyword.spelling_of_ofUpper? hk with ⟨-, h⟩ | ⟨-, h⟩ | hspelling
    · cases h
    · cases h
    · exact hspelling.symm
  · obtain ⟨f, hf, hletters⟩ := hd.functionSpelling? hkind
    have hleft : Text.upper l.text ≠ "LEFT" := by
      intro h
      rw [h] at hk
      revert hk
      decide
    rw [hf, Option.getD_some]
    refine ⟨written_function hletters ?_, by simp [isPrefixPart], by simp⟩
    rw [if_neg hleft, hf]
  · cases kind with
    | type =>
      exact ⟨written_upper (by decide) l, by simp [isPrefixPart, WordKind.tokenKind],
        by simp [WordKind.tokenKind]⟩
    | function => exact absurd rfl hfunction
    | reserved =>
      exact ⟨written_upper (by decide) l, by simp [isPrefixPart, WordKind.tokenKind],
        by simp [WordKind.tokenKind]⟩

theorem written_ofLexeme (hd : d.Spelt) {l : Lexeme} (ls : List Lexeme)
    (hmark : ∀ kind, l.shape = .mark kind → kind.isPunctuation = true) :
    Spaced.Written d ⟨ofLexeme d l ls, l.afterNewline, l.spaced⟩ [l] := by
  unfold ofLexeme
  split
  · exact ⟨written_verbatim (by decide) l, fun _ => ⟨l, rfl, rfl, rfl⟩, by simp⟩
  · exact ⟨written_verbatim (by decide) l, fun _ => ⟨l, rfl, rfl, rfl⟩, by simp⟩
  · rename_i kind hshape
    have hkind := hmark kind hshape
    refine ⟨written_verbatim (Or.inl ?_) l, fun _ => ⟨l, rfl, rfl, rfl⟩, ?_⟩
    · cases kind <;> simp_all [TokenKind.isVerbatim, TokenKind.isPunctuation]
    · rintro rfl
      cases hkind
  · exact written_ofWord hd _

theorem upper_of_spelled {words : List String} {taken : List Lexeme}
    (h : List.Forall₂ Spells words taken) (hwords : ∀ w ∈ words, isVocabulary w = true) :
    taken.map (fun l => Text.upper l.text) = words := by
  induction h with
  | nil => rfl
  | cons hl _ ih =>
    rw [List.map_cons, upper_of_spells (hwords _ List.mem_cons_self) hl.2,
      ih fun w hw => hwords w (List.mem_cons_of_mem _ hw)]

theorem written_compound {l : Lexeme} {taken : List Lexeme} {words : List String}
    (hwords : words ∈ Vocabulary.compoundTypes) (h : List.Forall₂ Spells words taken) :
    Spaced.Written d ⟨⟨.type, " ".intercalate words⟩, l.afterNewline, l.spaced⟩ taken := by
  have hall : ∀ ws ∈ Vocabulary.compoundTypes, ws ≠ [] ∧ ∀ w ∈ ws, isVocabulary w = true := by
    decide +kernel
  obtain ⟨hne, hvocabulary⟩ := hall words hwords
  have hupper := upper_of_spelled h hvocabulary
  refine ⟨⟨?_, by simp [TokenKind.isVerbatim, TokenKind.isPunctuation], fun _ => by rw [hupper],
    by simp, fun _ => Or.inr ⟨rfl, hupper ▸ hwords⟩⟩, by simp [isPrefixPart], by simp⟩
  rintro rfl
  exact hne hupper.symm

theorem classify_written (hd : d.Spelt) {ls : List Lexeme}
    (hmarks : ∀ l ∈ ls, ∀ kind, l.shape = .mark kind → kind.isPunctuation = true) :
    ∃ blocks, blocks.flatten = ls ∧ List.Forall₂ (Spaced.Written d) (classify d ls) blocks := by
  induction ls using classify_induction with
  | nil =>
    rw [classify]
    exact ⟨[], rfl, .nil⟩
  | compound l ls words taken rest hword hfound hwords htaken hspells ih =>
    rw [classify_some hword hfound]
    rw [htaken] at hmarks ⊢
    obtain ⟨blocks, rfl, hblocks⟩ := ih fun k hk => hmarks k (List.mem_append_right taken hk)
    exact ⟨taken :: blocks, rfl, .cons (written_compound hwords hspells) hblocks⟩
  | lone l ls hnone ih =>
    rw [classify_none hnone]
    obtain ⟨blocks, rfl, hblocks⟩ := ih fun k hk => hmarks k (List.mem_cons_of_mem l hk)
    exact ⟨[l] :: blocks, rfl, .cons (written_ofLexeme hd _ (hmarks l List.mem_cons_self)) hblocks⟩

theorem written_inContext {s : Spaced} {block : List Lexeme} (h : s.Written d block)
    (rest : List Spaced) : Written d ⟨kindInContext s rest, s.token.text⟩ block := by
  -- a keyword stands for one word, in upper case, and its new kind is again one for such words
  have hkeyword : ∀ {k}, s.token.kind = .keyword k →
      ∃ l, block = [l] ∧ s.token.text = Text.upper l.text := by
    intro k hk
    obtain ⟨l, rfl⟩ := (h.written.single (by simp [hk])).resolve_right (by simp [hk])
    exact ⟨l, rfl, by simpa using h.written.upper (Or.inl (by rw [hk]; rfl))⟩
  rcases kindInContext_cases s rest with hk | ⟨hk, h'⟩ | ⟨hk, h'⟩ | ⟨hk, h'⟩
  · rw [hk]
    exact h.written
  · obtain ⟨l, rfl, htext⟩ := hkeyword hk
    rw [h', htext]
    exact written_upper (Or.inl rfl) l
  · obtain ⟨l, rfl, htext⟩ := hkeyword hk
    rw [h', htext]
    exact written_upper (Or.inl rfl) l
  · obtain ⟨l, rfl, htext⟩ := hkeyword hk
    rw [h.left hk] at htext
    rw [h', h.left hk]
    refine written_function (htext ▸ by decide) ?_
    rw [if_pos htext.symm]

section Literal
variable {items : List Spaced} {blocks : List (List Lexeme)}

theorem join_texts (items : List Spaced) :
    joinedText "" items = String.join (items.map (·.token.text)) := by
  rw [joinedText, String.join, List.foldl_map]

/-- Items that can be part of a literal stand for one lexeme each. -/
theorem flatten_of_lone (h : List.Forall₂ (Spaced.Written d) items blocks)
    (hparts : ∀ s ∈ items, isPrefixPart s.token = true ∨ s.token.kind = .string) :
    blocks.flatten.map (·.text) = items.map (·.token.text) ∧
      blocks.flatten.map (·.spaced) = items.map (·.spaced) := by
  induction h with
  | nil => exact ⟨rfl, rfl⟩
  | @cons s block items blocks hs _ ih =>
    obtain ⟨l, rfl, htext, hspaced⟩ := hs.lone (hparts s List.mem_cons_self)
    obtain ⟨htexts, hspaceds⟩ := ih fun r hr => hparts r (List.mem_cons_of_mem s hr)
    simp [htext, hspaced, htexts, hspaceds]

theorem written_literal {chain : List Spaced} {literal : Spaced} (h : Prefixes d chain literal)
    (hblocks : List.Forall₂ (Spaced.Written d) (chain ++ [literal]) blocks) :
    Written d ⟨.string, joinedText "" chain ++ literal.token.text⟩ blocks.flatten := by
  obtain ⟨p, -, hcompletes⟩ := h.completes
  have hparts : ∀ s ∈ chain ++ [literal], isPrefixPart s.token = true ∨ s.token.kind = .string := by
    intro s hs
    rcases List.mem_append.mp hs with hs | hs
    · exact Or.inl (hcompletes.parts s hs)
    · exact Or.inr (List.mem_singleton.mp hs ▸ h.kind)
  obtain ⟨htexts, hspaceds⟩ := flatten_of_lone hblocks hparts
  refine ⟨?_, fun _ => ⟨?_, fun l hl => ?_⟩, by simp [TokenKind.isKeyword], by simp, by simp⟩
  · intro hnil
    simp [hnil] at htexts
  · rw [htexts, ← join_texts, joinedText, joinedText, List.foldl_append]
    rfl
  · have hmem : l.spaced ∈ (chain.tail ++ [literal]).map (·.spaced) := by
      rw [← List.tail_append_of_ne_nil hcompletes.ne_nil, List.map_tail, ← hspaceds,
        ← List.map_tail]
      exact List.mem_map_of_mem hl
    obtain ⟨s, hs, hspaced⟩ := List.mem_map.mp hmem
    rw [← hspaced]
    rcases List.mem_append.mp hs with hs | hs
    · exact hcompletes.unspaced s hs
    · exact List.mem_singleton.mp hs ▸ h.spaced

/-- The tokens of a text stand for the blocks of its items, some of them joined. -/
theorem resolve_written (h : List.Forall₂ (Spaced.Written d) items blocks) :
    ∃ blocks', blocks'.flatten = blocks.flatten ∧
      List.Forall₂ (Written d) (resolve d items) blocks' := by
  induction items using resolve_induction d generalizing blocks with
  | nil =>
    cases h
    rw [resolve.eq_def]
    exact ⟨[], rfl, .nil⟩
  | joined chain literal rest hprefixes hresolve ih =>
    -- the blocks of the prefix and of its literal become one
    rw [List.append_cons] at h
    have hhead := (List.forall₂_take_append _ _ _ h.flip).flip
    have htail := (List.forall₂_drop_append _ _ _ h.flip).flip
    obtain ⟨blocks', hflatten, hblocks'⟩ := ih htail
    rw [hresolve]
    refine ⟨_ :: blocks', ?_, .cons (written_literal hprefixes hhead) hblocks'⟩
    rw [List.flatten_cons, hflatten, ← List.flatten_append, List.take_append_drop]
  | lone s items hnone hresolve ih =>
    obtain ⟨block, blocks, hs, hmore, rfl⟩ := List.forall₂_cons_left_iff.mp h
    obtain ⟨blocks', hflatten, hblocks'⟩ := ih hmore
    rw [hresolve]
    refine ⟨block :: blocks', ?_, .cons (written_inContext hs items) hblocks'⟩
    rw [List.flatten_cons, List.flatten_cons, hflatten]

end Literal
end Token

/-- A text that can be scanned is tiled by its lexemes, and these are tiled by the blocks of its tokens,
which say what their blocks say. -/
theorem tokenize_tiles (rs : List Registry) {source : String} {ls : List Lexeme}
    (h : Lexeme.scan (Dialect.ofRegistries rs).operators source = .ok ls) :
    Lexeme.Tiled ((Dialect.ofRegistries rs).operators.map String.toList) true source.toList ls ∧
      ∃ ts blocks, tokenize (Dialect.ofRegistries rs) source = .ok (ts ++ [Token.eof]) ∧
        blocks.flatten = ls ∧
        List.Forall₂ (Token.Written (Dialect.ofRegistries rs)) ts blocks := by
  obtain ⟨scraps, tail, hlegible, htext, rfl⟩ := Scrap.scan_iff.mp h
  have htiled := hlegible.tiled true
  rw [← htext] at htiled
  obtain ⟨blocks, hblocks, hitems⟩ := Token.classify_written (Dialect.ofRegistries_spelt rs)
    (hlegible.isPunctuation false true)
  obtain ⟨blocks', hflatten, htokens⟩ := Token.resolve_written hitems
  refine ⟨htiled, _, blocks', ?_, hflatten.trans hblocks, htokens⟩
  rw [tokenize, h]

theorem tokenize_tiles_of_call :
    let d := Dialect.ofRegistries []
    let source := "double\n precision u&'a' left(1e-3)"
    ∃ ls blocks, Lexeme.scan d.operators source = .ok ls ∧
      Lexeme.Tiled (d.operators.map String.toList) true source.toList ls ∧
      ls.map (·.text) = ["double", "precision", "u", "&", "'a'", "left", "(", "1e-3", ")"] ∧
      blocks.flatten = ls ∧
      List.Forall₂ (Token.Written d) [⟨.type, "DOUBLE PRECISION"⟩, ⟨.string, "u&'a'"⟩,
        ⟨.function, "LEFT"⟩, ⟨.openParen, "("⟩, ⟨.ident, "1e-3"⟩, ⟨.closeParen, ")"⟩] blocks := by
  intro d source
  have hscan : Lexeme.scan d.operators source = .ok
      [⟨.word, "double", false, true⟩, ⟨.word, "precision", true, true⟩, ⟨.word, "u", false, true⟩,
        ⟨.operator, "&", false, false⟩, ⟨.quoted, "'a'", false, false⟩, ⟨.word, "left", false, true⟩,
        ⟨.mark .openParen, "(", false, false⟩, ⟨.word, "1e-3", false, false⟩,
        ⟨.mark .closeParen, ")", false, false⟩] := by decide +kernel
  have htokens : tokenize d source = .ok ([⟨.type, "DOUBLE PRECISION"⟩, ⟨.string, "u&'a'"⟩,
      ⟨.function, "LEFT"⟩, ⟨.openParen, "("⟩, ⟨.ident, "1e-3"⟩, ⟨.closeParen, ")"⟩] ++
      [Token.eof]) := by decide +kernel
  obtain ⟨htiled, ts, blocks, hts, hblocks, hwritten⟩ := tokenize_tiles [] hscan
  rw [htokens] at hts
  obtain rfl := List.append_cancel_right (Except.ok.inj hts)
  exact ⟨_, blocks, hscan, htiled, rfl, hblocks, hwritten⟩

end SqlLayout
