import Mathlib.Data.List.TakeWhile
import SqlLayout.Proofs.Formatting
import SqlLayout.Proofs.Padding

/-! Text between literals. Such a text is always scanned when no comment begins in it, whatever
lexemes it falls into. Only its end matters to the literal behind it. There a fresh lexeme begins
behind white space, behind a mark, and behind an even number of colons. -/

namespace SqlLayout
set_option autoImplicit false

def Uncommented (text : List Char) : Prop :=
  text.IsChain fun a b => ¬(a = '-' ∧ b = '-') ∧ ¬(a = '/' ∧ b = '*')

def Unquoted (text : List Char) : Prop := ∀ c ∈ text, Lexeme.isQuote c = false

/-- The number of colons that end a text. -/
def colonRun (text : List Char) : Nat := (text.reverse.takeWhile (· = ':')).length

section Colons
variable {text : List Char}

theorem exists_colons (text : List Char) :
    ∃ before, text = before ++ List.replicate (colonRun text) ':' ∧
      before.getLast? ≠ some ':' := by
  refine ⟨(text.reverse.dropWhile (· = ':')).reverse, ?_, ?_⟩
  · have hrun : text.reverse.takeWhile (· = ':') = List.replicate (colonRun text) ':' := by
      rw [List.eq_replicate_iff]
      refine ⟨rfl, ?_⟩
      intro c hc
      simpa using List.mem_takeWhile_imp hc
    have hsplit := @List.takeWhile_append_dropWhile _ (· = ':') text.reverse
    rw [hrun] at hsplit
    have hback := congrArg List.reverse hsplit
    rw [List.reverse_append, List.reverse_replicate, List.reverse_reverse] at hback
    exact hback.symm
  · rw [List.getLast?_reverse]
    intro hhead
    have hnot := List.head?_dropWhile_not (· = ':') text.reverse
    simp [hhead] at hnot

theorem colonRun_append {before : List Char} (h : before.getLast? ≠ some ':') (text : List Char) :
    colonRun (before ++ text) = colonRun text := by
  have hstop : before.reverse.takeWhile (fun c => decide (c = ':')) = [] := by
    rw [← List.head?_reverse] at h
    cases hreverse : before.reverse with
    | nil => rfl
    | cons c cs =>
      rw [hreverse] at h
      have hc : c ≠ ':' := by simpa using h
      simp [hc]
  unfold colonRun
  rw [List.reverse_append, List.takeWhile_append, hstop]
  split
  · rename_i hall
    rw [List.append_nil, hall]
  · rfl

theorem colonRun_eq_zero (h : text.getLast? ≠ some ':') : colonRun text = 0 := by
  have hrun := colonRun_append h []
  rwa [List.append_nil] at hrun

theorem colonRun_concat (text : List Char) (c : Char) :
    colonRun (text ++ [c]) = if c = ':' then colonRun text + 1 else 0 := by
  unfold colonRun
  rw [List.reverse_concat, List.takeWhile_cons]
  by_cases hc : c = ':' <;> simp [hc]

/-- The spaces before lines stand behind no colon. -/
theorem colonRun_padFrom (n : Nat) (atStart : Bool) (text : List Char) :
    colonRun (padFrom n atStart text ++ if startsLine atStart text then List.replicate n ' ' else []) =
      colonRun text := by
  have hspaces : ∀ start : Bool, ':' ∉ if start then List.replicate n ' ' else [] := by
    intro start hmem
    split at hmem
    · cases List.eq_of_mem_replicate hmem
    · cases hmem
  induction text using List.reverseRecOn with
  | nil =>
    apply colonRun_eq_zero
    exact fun h => hspaces _ (List.mem_of_getLast? h)
  | append_singleton text c ih =>
    have hstart : startsLine atStart (text ++ [c]) = decide (c = '\n') := by simp [startsLine]
    rw [padFrom_append, hstart]
    by_cases hc : c = '\n'
    · have hline : padFrom n (startsLine atStart text) ['\n'] = ['\n'] := by simp [padFrom]
      rw [hc, hline, colonRun_append (by simp), colonRun_concat]
      exact colonRun_eq_zero fun h => hspaces _ (List.mem_of_getLast? h)
    · have hline : padFrom n (startsLine atStart text) [c] =
          (if startsLine atStart text then List.replicate n ' ' else []) ++ [c] := by
        cases startsLine atStart text <;> simp [padFrom, hc]
      simp only [hline, hc, decide_false, Bool.false_eq_true, if_false, List.append_nil]
      rw [← List.append_assoc, colonRun_concat, colonRun_concat, ih]

theorem colonRun_replicate {before : List Char} (h : before.getLast? ≠ some ':') (n : Nat) :
    colonRun (before ++ List.replicate n ':') = n := by
  rw [colonRun_append h, colonRun, List.reverse_replicate, List.takeWhile_replicate]
  simp

end Colons

namespace Scrap
open Lexeme
variable {ops : List (List Char)}

theorem exists_lexemes {text : List Char} (h : Uncommented text) (position : Nat)
    (afterNewline spaced : Bool) :
    ∃ ls, Lexeme.scanFrom ops position afterNewline spaced text = .ok ls := by
  fun_induction Lexeme.scanFrom ops position afterNewline spaced text with
  | case1 => exact ⟨[], rfl⟩
  | case2 position afterNewline spaced c cs hc ih => exact ih h.tail
  | case3 position afterNewline spaced c cs hc hcomment =>
    exfalso
    have hpair := (List.isChain_cons.mp h).1
    simp only [startsComment, Bool.or_eq_true, Bool.and_eq_true, decide_eq_true_eq] at hcomment
    rcases hcomment with ⟨rfl, hhead⟩ | ⟨rfl, hhead⟩
    · exact (hpair '-' hhead).1 ⟨rfl, rfl⟩
    · exact (hpair '*' hhead).2 ⟨rfl, rfl⟩
  | case4 position afterNewline spaced c cs hc hcomment piece e herror ih =>
    have happend := cut_append ops c cs
    have hrest : Uncommented piece.2.2 := by
      have hcs : Uncommented cs := h.tail
      rw [← happend] at hcs
      exact hcs.right_of_append
    obtain ⟨ls, hls⟩ := ih hrest
    rw [hls] at herror
    cases herror
  | case5 position afterNewline spaced c cs hc hcomment piece more hmore ih => exact ⟨_, rfl⟩

theorem exists_legible_of_uncommented (ops : List (List Char)) {text : List Char} (hcomment : Uncommented text)
    (hquote : Unquoted text) :
    ∃ scraps tail, Legible ops scraps tail ∧ text = flat scraps ++ tail ∧
      ∀ s ∈ scraps, s.shape ≠ .quoted := by
  obtain ⟨ls, hls⟩ := @exists_lexemes ops text hcomment 0 false true
  obtain ⟨scraps, tail, hlegible, rfl, -⟩ := exists_legible hls
  refine ⟨scraps, tail, hlegible, rfl, ?_⟩
  clear hls hcomment
  induction hlegible with
  | nil => simp
  | @cons s scraps tail _ hstands _ ih =>
    intro a ha hquoted
    rcases List.mem_cons.mp ha with rfl | ha
    · obtain ⟨c, cs, htext, hc, -⟩ := stands_head hstands
      have hfree := hquote c (by simp [htext])
      rw [hc hquoted] at hfree
      cases hfree
    · refine ih ?_ a ha hquoted
      intro c hc
      apply hquote
      rw [flat_cons, List.append_assoc]
      exact List.mem_append_right _ hc

theorem Clean.of_append {x y rest : List Char} (h : Clean (x ++ y) rest) : Clean y rest := by
  induction x with
  | nil => exact h
  | cons c x ih => exact ih h.tail

theorem Stands.append (tame : Operator.Tame ops) {shape : Shape} {text rest more : List Char}
    (h : Stands ops shape text rest) (hshape : shape ≠ .quoted) (hclean : Clean (text ++ rest) more) :
    Stands ops shape text (rest ++ more) := by
  obtain ⟨c, word, rfl, hwhite, hcomment, hcut⟩ := h
  rw [List.cons_append] at hclean
  refine ⟨c, word, rfl, hwhite, ?_, ?_⟩
  · rw [← List.append_assoc, startsComment_extend hclean, hcomment]
  · rw [← List.append_assoc]
    exact cut_extend tame hcut hclean fun hquoted => absurd hquoted hshape

theorem Legible.append (tame : Operator.Tame ops) {scraps more : List Scrap} {s : Scrap}
    {gap tail : List Char} (h : Legible ops scraps gap) (hplain : ∀ a ∈ scraps, a.shape ≠ .quoted)
    (hmore : Legible ops (s :: more) tail)
    (hclean : Clean (flat scraps ++ gap) (flat (s :: more) ++ tail)) :
    Legible ops (scraps ++ { s with gap := gap ++ s.gap } :: more) tail := by
  induction h with
  | nil hgap =>
    cases hmore with
    | cons hgap' hstands hmore => exact .cons (isBlank_append hgap hgap') hstands hmore
  | @cons a scraps gap hgap hstands _ ih =>
    rw [flat_cons, List.append_assoc, List.append_assoc] at hclean
    have hclean := Clean.of_append hclean
    refine .cons hgap ?_ (ih (fun b hb => hplain b (List.mem_cons_of_mem a hb))
      (Clean.of_append hclean))
    have happend := Stands.append tame hstands (hplain a List.mem_cons_self) hclean
    simpa [flat, List.append_assoc] using happend

/-- Casts that stand side by side. -/
def casts (k : Nat) : List Scrap := List.replicate k ⟨[], .operator, [':', ':']⟩

theorem casts_succ (k : Nat) : casts (k + 1) = ⟨[], .operator, [':', ':']⟩ :: casts k := rfl

theorem flat_casts (k : Nat) : flat (casts k) = List.replicate (2 * k) ':' := by
  induction k with
  | zero => rfl
  | succ k ih =>
    rw [casts_succ, flat_cons, ih, Nat.mul_succ, List.replicate_succ,
      List.replicate_succ]
    rfl

theorem legible_casts (tame : Operator.Tame ops) {scraps : List Scrap} {tail : List Char}
    (h : Legible ops scraps tail) (k : Nat) : Legible ops (casts k ++ scraps) tail := by
  induction k with
  | zero => exact h
  | succ k ih =>
    rw [casts_succ, List.cons_append]
    exact .cons (by simp [isBlank]) (Stands.cast tame _) ih

/-- A lexeme begins behind the text, whatever follows. -/
def Fresh (text : List Char) : Prop :=
  text = [] ∨ (∃ c ∈ text.getLast?, isSeparator c = true) ∨
    (colonRun text % 2 = 0 ∧ colonRun text ≠ 0)

/-- What is legible stays so behind text where a lexeme begins. -/
theorem Legible.after (tame : Operator.Tame ops) {text : List Char} (hcomment : Uncommented text)
    (hquote : Unquoted text) (hfresh : Fresh text) {s : Scrap} {more : List Scrap}
    {tail : List Char} (hmore : Legible ops (s :: more) tail) (hgap : s.gap = []) :
    ∃ scraps gap, flat scraps ++ gap = text ∧ (∀ a ∈ scraps, a.shape ≠ .quoted) ∧
      Legible ops (scraps ++ { s with gap := gap } :: more) tail := by
  have hsame : { s with gap := [] } = s := by rw [← hgap]
  rcases hfresh with rfl | ⟨c, hlast, hc⟩ | ⟨heven, hne⟩
  · exact ⟨[], [], rfl, by simp, by rw [hsame]; exact hmore⟩
  · obtain ⟨before, rfl⟩ := List.getLast?_eq_some_iff.mp hlast
    obtain ⟨scraps, gap, hlegible, rfl, hplain⟩ := exists_legible_of_uncommented ops
      hcomment.left_of_append fun e he => hquote e (List.mem_append_left _ he)
    have hcquote : isQuote c = false := hquote c (by simp)
    by_cases hwhite : Text.isWhitespace c = true
    · have hspaced : Legible ops ({ s with gap := [c] } :: more) tail := by
        cases hmore with
        | cons _ hstands hmore => exact .cons (by simpa [isBlank] using hwhite) hstands hmore
      have happend := hlegible.append tame hplain hspaced
        (by simpa using Clean.of_separator hc)
      exact ⟨scraps, gap ++ [c], by simp, hplain, happend⟩
    · obtain ⟨kind, hkind⟩ : ∃ kind, markKind? c = some kind := by
        simp only [isSeparator, hcquote, Bool.or_eq_true] at hc
        simpa [hwhite, Option.isSome_iff_exists] using hc
      have hmark : Legible ops (⟨[], .mark kind, [c]⟩ :: s :: more) tail := by
        refine .cons (by simp [isBlank]) ?_ hmore
        apply Stands.mark
        refine ⟨c, [], rfl, by simpa using hwhite, by simp [startsComment], ?_⟩
        exact cut_mark hcquote hkind []
      have happend := hlegible.append tame hplain hmark
        (by simpa using Clean.of_separator hc)
      refine ⟨scraps ++ [⟨gap, .mark kind, [c]⟩], [], by simp [flat], ?_, ?_⟩
      · intro a ha
        rcases List.mem_append.mp ha with ha | ha
        · exact hplain a ha
        · rw [List.mem_singleton.mp ha]
          simp
      · rw [hsame]
        simpa using happend
  · obtain ⟨before, htext, hlast⟩ := exists_colons text
    obtain ⟨k, hk⟩ : ∃ k, colonRun text = 2 * (k + 1) := ⟨colonRun text / 2 - 1, by omega⟩
    rw [htext] at hcomment hquote
    obtain ⟨scraps, gap, hlegible, hbefore, hplain⟩ := exists_legible_of_uncommented ops
      hcomment.left_of_append fun e he => hquote e (List.mem_append_left _ he)
    have hcasts := legible_casts tame hmore (k + 1)
    rw [casts_succ, List.cons_append] at hcasts
    have happend := hlegible.append tame hplain hcasts
      (Or.inr (Or.inr ⟨flat (casts k ++ s :: more) ++ tail, by simp, by rwa [← hbefore]⟩))
    refine ⟨scraps ++ ⟨gap, .operator, [':', ':']⟩ :: casts k, [], ?_, ?_, ?_⟩
    · rw [htext, hk, hbefore, ← flat_casts (k + 1), casts_succ]
      simp [flat]
    · intro a ha
      rcases List.mem_append.mp ha with ha | ha
      · exact hplain a ha
      · rcases List.mem_cons.mp ha with rfl | ha
        · simp
        · rw [List.eq_of_mem_replicate ha]
          simp
    · rw [hsame]
      simpa using happend

end Scrap

namespace Token
variable {d : Dialect}

def literals (ts : List Token) : List String := (ts.filter (·.kind = .string)).map Token.text

theorem literals_cons {t : Token} (h : t.kind ≠ .string) (ts : List Token) :
    literals (t :: ts) = literals ts := by
  simp [literals, h]

theorem literals_cons_string {t : Token} (h : t.kind = .string) (ts : List Token) :
    literals (t :: ts) = t.text :: literals ts := by
  simp [literals, h]

/-- The lexeme is no word of a compound type. -/
def Single (l : Lexeme) : Prop := ∀ words ∈ Vocabulary.compoundTypes, ∀ w ∈ words, ¬Spells w l

section Classify
variable {l : Lexeme} {ls : List Lexeme}

theorem dropWords?_append {ws : List String} (h : ∀ w ∈ ws, ¬Spells w l) (ks : List Lexeme) :
    dropWords? ws (ks ++ l :: ls) = (dropWords? ws ks).map (· ++ l :: ls) := by
  induction ws generalizing ks with
  | nil => simp [dropWords?]
  | cons w ws ih =>
    cases ks with
    | nil =>
      have hw : ¬(l.shape = .word ∧ Text.spells w l.text = true) := h w List.mem_cons_self
      simp [dropWords?, hw]
    | cons k ks =>
      rw [List.cons_append, dropWords?, dropWords?]
      split
      · exact ih (fun v hv => h v (List.mem_cons_of_mem w hv)) ks
      · rfl

theorem compoundType?_append (h : Single l) (ks ls : List Lexeme) :
    compoundType? (ks ++ l :: ls) =
      (compoundType? ks).map fun found => (found.1, found.2 ++ l :: ls) := by
  unfold compoundType?
  unfold Single at h
  generalize Vocabulary.compoundTypes = types at h
  induction types with
  | nil => rfl
  | cons words more ih =>
    rw [List.findSome?_cons, List.findSome?_cons,
      dropWords?_append (h words List.mem_cons_self) ks,
      ih fun ws hws => h ws (List.mem_cons_of_mem words hws)]
    cases dropWords? words ks <;> rfl

/-- A lexeme that is no part of a compound type begins an item. -/
theorem classify_append (h : Single l) (ks : List Lexeme) :
    ∃ items, classify d (ks ++ l :: ls) = items ++ classify d (l :: ls) ∧
      ∀ s ∈ items, Made d ks s := by
  induction ks using classify_induction with
  | nil => exact ⟨[], rfl, by simp⟩
  | compound k ks words taken rest hword hfound hwords htaken _ ih =>
    have happend := compoundType?_append h (k :: ks) ls
    rw [hfound] at happend
    obtain ⟨items, hitems, hmade⟩ := ih
    rw [List.cons_append] at happend ⊢
    refine ⟨_, by rw [classify_some hword happend, hitems, List.cons_append], ?_⟩
    intro s hs
    rcases List.mem_cons.mp hs with rfl | hs
    · exact Or.inl ⟨words, hwords, rfl⟩
    · rw [htaken]
      exact (hmade s hs).mono (List.subset_append_right taken rest)
  | lone k ks hnone ih =>
    have happend := compoundType?_append h (k :: ks) ls
    obtain ⟨items, hitems, hmade⟩ := ih
    have hnone : k.shape = .word → compoundType? (k :: (ks ++ l :: ls)) = none := by
      intro hword
      rw [← List.cons_append, happend, hnone hword]
      rfl
    refine ⟨_, by rw [List.cons_append, classify_none hnone, hitems, List.cons_append], ?_⟩
    intro s hs
    rcases List.mem_cons.mp hs with rfl | hs
    · exact Or.inr ⟨k, List.mem_cons_self, _, rfl⟩
    · exact (hmade s hs).mono (List.subset_cons_self k ks)

/-- Without quoted lexemes there are no literals. -/
theorem Made.not_string {ops : List (List Char)} {s : Spaced} (hs : Made d ls s)
    (hstands : ∀ k ∈ ls, ∃ rest, Lexeme.Stands ops k.shape k.text.toList rest)
    (h : ∀ k ∈ ls, k.shape ≠ .quoted) : s.token.kind ≠ .string := by
  intro hkind
  rcases hs with ⟨words, -, htype⟩ | ⟨k, hk, rest, hs⟩
  · rw [htype] at hkind
    cases hkind
  · rw [hs] at hkind
    unfold ofLexeme at hkind
    split at hkind
    · rename_i hquoted
      exact h k hk hquoted
    · cases hkind
    · rename_i kind hmark
      obtain ⟨rest, hstands⟩ := hstands k hk
      rw [hmark] at hstands
      obtain rfl : kind = .string := hkind
      cases hstands.isPunctuation.1
    · have hshape := ofWord_shape d k.text (startsWithParen rest)
      rw [hkind] at hshape
      cases hshape

end Classify

section Resolve

theorem prefixedLiteral?_eq_none {items : List Spaced} {q : Spaced}
    (hitems : ∀ s ∈ items, s.token.kind ≠ .string) (hq : q.token.kind = .string)
    (h : ¬Prefixes d items q) (rest : List Spaced) :
    prefixedLiteral? d (items ++ q :: rest) = none := by
  cases hfound : prefixedLiteral? d (items ++ q :: rest) with
  | none => rfl
  | some r =>
    obtain ⟨t, more⟩ := r
    obtain ⟨chain, literal, heq, hprefixes, -⟩ := prefixedLiteral?_eq_some_iff.mp hfound
    obtain ⟨p, -, hcompletes⟩ := hprefixes.completes
    obtain ⟨rfl, rfl, -⟩ := chain_unique hitems hcompletes.not_string hq hprefixes.kind heq
    exact absurd hprefixes h

/-- A literal without a prefix before it stands for itself. -/
theorem literals_resolve_bare {items : List Spaced} {q : Spaced}
    (hitems : ∀ s ∈ items, s.token.kind ≠ .string) (hq : q.token.kind = .string)
    (h : ∀ chain, chain <:+ items → ¬Prefixes d chain q) (rest : List Spaced) :
    literals (resolve d (items ++ q :: rest)) = q.token.text :: literals (resolve d rest) := by
  induction items with
  | nil =>
    have hnone := prefixedLiteral?_eq_none hitems hq (h [] List.suffix_rfl) rest
    rw [List.nil_append] at hnone ⊢
    rw [resolve_none hnone]
    exact literals_cons_string ((kindInContext_string q rest).mpr hq) _
  | cons s items ih =>
    have hnone := prefixedLiteral?_eq_none hitems hq (h _ List.suffix_rfl) rest
    rw [List.cons_append] at hnone ⊢
    rw [resolve_none hnone, literals_cons]
    · exact ih (fun r hr => hitems r (List.mem_cons_of_mem s hr))
        fun chain hchain => h chain (hchain.trans (List.suffix_cons s items))
    · exact fun hkind => hitems s List.mem_cons_self ((kindInContext_string s _).mp hkind)

theorem literals_resolve_nil {items : List Spaced} (h : ∀ s ∈ items, s.token.kind ≠ .string) :
    literals (resolve d items) = [] := by
  induction items using resolve_induction d with
  | nil => simp [resolve, literals]
  | joined chain literal rest hprefixes hresolve ih =>
    exact absurd hprefixes.kind (h literal (by simp))
  | lone s items hnone hresolve ih =>
    rw [hresolve, literals_cons, ih fun r hr => h r (List.mem_cons_of_mem s hr)]
    exact fun hkind => h s List.mem_cons_self ((kindInContext_string s items).mp hkind)

/-- The sign of an ampersand alone is no prefix. -/
theorem not_prefixes_ampersand (tame : d.Tame) {a q : Spaced} (ha : a.token.text = "&") :
    ¬Prefixes d [a] q := by
  intro h
  obtain ⟨p, hp, hcompletes⟩ := h.completes
  have hupper : Text.upper (joinedText "" [a]) = p := hcompletes.upper
  have hjoined : joinedText "" [a] = "&" := by simp [joinedText, ha]
  rw [hjoined, show Text.upper "&" = "&" by decide] at hupper
  subst hupper
  rcases tame.literalPrefixes _ hp with h | ⟨-, h⟩
  · revert h
    decide
  · revert h
    decide

theorem literals_resolve_prefixed (tame : d.Tame) {items chain : List Spaced} {q : Spaced}
    (hitems : ∀ s ∈ items, s.token.kind ≠ .string)
    (hne : ∀ s ∈ items ++ chain, isPrefixPart s.token = true → s.token.text ≠ "")
    (h : Prefixes d chain q) (rest : List Spaced) :
    literals (resolve d (items ++ (chain ++ q :: rest))) =
      (joinedText "" chain ++ q.token.text) :: literals (resolve d rest) := by
  obtain ⟨p, -, hcompletes⟩ := h.completes
  induction items with
  | nil =>
    obtain ⟨s, chain, rfl⟩ := List.exists_cons_of_ne_nil hcompletes.ne_nil
    have hfound : prefixedLiteral? d (s :: (chain ++ q :: rest)) = some (_, rest) :=
      prefixedLiteral?_eq_some_iff.mpr ⟨s :: chain, q, rfl, h, rfl⟩
    rw [List.nil_append, List.cons_append, resolve_some hfound]
    exact literals_cons_string rfl _
  | cons s items ih =>
    -- a longer chain would end with the ampersand, which is no prefix of its own
    have hnot : ¬Prefixes d (s :: items ++ chain) q := by
      intro hlonger
      have hnil := hcompletes.ne_nil
      obtain ⟨p', -, hcompletes'⟩ := hlonger.completes
      have hne : ∀ r ∈ s :: items ++ chain, r.token.text ≠ "" :=
        fun r hr => hne r hr (hcompletes'.parts r hr)
      rcases hlonger.shape tame hne with ⟨r, hone⟩ | ⟨u, a, htwo, -, ha⟩
      · obtain ⟨-, hchain⟩ := List.append_eq_nil_iff.mp (List.cons.inj hone).2
        exact hnil hchain
      · have hmore : items ++ chain = [a] := (List.cons.inj htwo).2
        rcases List.append_eq_singleton_iff.mp hmore with ⟨-, rfl⟩ | ⟨-, hchain⟩
        · exact not_prefixes_ampersand tame ha h
        · exact hnil hchain
    have hplain : ∀ r ∈ s :: items ++ chain, r.token.kind ≠ .string :=
      fun r hr => (List.mem_append.mp hr).elim (hitems r) (hcompletes.not_string r)
    have hnone := prefixedLiteral?_eq_none hplain h.kind hnot rest
    rw [List.append_assoc, List.cons_append] at hnone
    rw [List.cons_append, resolve_none hnone, literals_cons]
    · exact ih (fun r hr => hitems r (List.mem_cons_of_mem s hr))
        fun r hr => hne r (List.mem_cons_of_mem s hr)
    · exact fun hkind => hitems s List.mem_cons_self ((kindInContext_string s _).mp hkind)

end Resolve

end Token
end SqlLayout
