import SqlLayout.Proofs.Spelling

/-! Comments in texts that are read. A comment is looked for where a lexeme begins and inside words, but
not where two lexemes meet: an operator may end with the first character of a comment opener, and the
second character is then read as something else. Five operators of the shipped vocabulary do so, and
apart from them an opener is only found inside quotes. -/

namespace SqlLayout
set_option autoImplicit false

/-- The two characters open a comment. -/
def OpensComment (a b : Char) : Prop := (a = '-' ∧ b = '-') ∨ (a = '/' ∧ b = '*')

theorem OpensComment.first {a b : Char} (h : OpensComment a b) :
    a ∈ ['-', '/', '*', '&', '='] ∧ a ≠ '*' ∧ Text.isWhitespace a = false ∧
      Lexeme.isSeparator a = false := by
  rcases h with ⟨rfl, -⟩ | ⟨rfl, -⟩ <;> decide

theorem OpensComment.startsComment {a b : Char} (h : OpensComment a b) {cs : List Char}
    (hb : cs.head? = some b) : Lexeme.startsComment a cs = true := by
  rcases h with ⟨rfl, rfl⟩ | ⟨rfl, rfl⟩ <;> simp [Lexeme.startsComment, hb]

theorem Uncommented.not_opensComment {u v : List Char} {a b : Char}
    (h : Uncommented (u ++ a :: b :: v)) : ¬OpensComment a b := by
  have hpair := (List.isChain_cons_cons.mp h.right_of_append).1
  rintro (hminus | hslash)
  · exact hpair.1 hminus
  · exact hpair.2 hslash

namespace Lexeme
variable {ops : List (List Char)}

theorem splitWord_getLast {backwards word : List Char} {a : Char}
    (h : splitWord ops backwards (word ++ [a]) = (word ++ [a], [])) (hop : [a] ∈ ops) : a = '*' := by
  induction word generalizing backwards with
  | nil =>
    rw [List.nil_append, splitWord] at h
    split at h
    · rename_i hgo
      have hlongest := Operator.length_le_longest hop (List.prefix_refl [a])
      unfold continues at hgo
      split at hgo
      · cases hgo
      · split at hgo
        · rename_i hstar
          simpa using (Bool.and_eq_true_iff.mp hstar).1
        · simp only [List.length_cons, List.length_nil] at hlongest
          have hpos : Operator.longest ops [a] ≠ 0 := by omega
          simp [hpos] at hgo
    · simp at h
  | cons c word ih =>
    rw [List.cons_append, splitWord] at h
    split at h
    · exact @ih (c :: backwards) (by simpa [Prod.ext_iff] using h)
    · simp at h

theorem Stands.getLast_word (tame : Operator.Tame ops) {text rest : List Char}
    (h : Stands ops .word text rest) {a : Char} (ha : text.getLast? = some a) (hop : [a] ∈ ops) :
    a = '*' := by
  obtain ⟨c, word, rfl, -, -, hcut⟩ := h.alone tame
  rw [List.append_nil] at hcut
  rcases cut_cases hcut with ⟨_, h, _⟩ | ⟨_, _, _, h, _⟩ | ⟨_, _, h, _⟩ | ⟨_, _, _, hzero, hsplit⟩
  · cases h
  · cases h
  · cases h
  · rcases List.eq_nil_or_concat word with rfl | ⟨word, e, rfl⟩
    · obtain rfl : c = a := by simpa using ha
      have hnil := Operator.longest_eq_zero_iff.mp hzero _ hop (List.prefix_refl _)
      cases hnil
    · obtain rfl : e = a := by simpa [List.getLast?_cons] using ha
      exact splitWord_getLast (by simpa using hsplit) hop

section Opener
variable {d : Dialect} {u v rest : List Char} {a b : Char}

/-- A literal that is closed ends with its quote, so an opener does not reach beyond it. -/
theorem Stands.hides_quoted (strict : d.Strict) (h : Stands d.ops .quoted (u ++ a :: v) rest)
    (hb : (v ++ rest).head? = some b) (hcomment : OpensComment a b) : ∃ w, v = b :: w := by
  cases v with
  | cons e w =>
    obtain rfl : e = b := by simpa using hb
    exact ⟨w, rfl⟩
  | nil =>
    exfalso
    have hrest : rest ≠ [] := by
      rintro rfl
      simp at hb
    obtain ⟨q, hq, hquote⟩ :=
      (h.alone strict.tame.operators).getLast_quoted (h.closed hrest)
    obtain rfl : a = q := by simpa using hq
    have hseparator := hcomment.first.2.2.2
    simp [isSeparator, hquote] at hseparator

theorem Stands.not_mem_mark {kind : TokenKind} {ops : List (List Char)} {text : List Char}
    (h : Stands ops (.mark kind) text rest) (ha : isSeparator a = false) : a ∉ text := by
  obtain ⟨c, word, rfl, -, -, hcut⟩ := h
  rcases cut_cases hcut with ⟨_, h, _⟩ | ⟨_, _, hmark, _, hword, _⟩ | ⟨_, _, h, _⟩ | ⟨_, _, h, _⟩
  · cases h
  · intro hmem
    rw [hword, List.mem_singleton] at hmem
    rw [hmem, isSeparator, hmark] at ha
    simp at ha
  · cases h
  · cases h

/-- An opener at the start of an operator is noticed, and none lies inside one; what is left is the
opener whose first character ends the operator. -/
theorem Stands.hides_operator (strict : d.Strict) (h : Stands d.ops .operator (u ++ a :: v) rest)
    (hb : (v ++ rest).head? = some b) (hcomment : OpensComment a b) : v = [] ∧ u ≠ [] := by
  have hcalm : Uncommented (u ++ a :: v) := by
    obtain ⟨op, hmem, hlist⟩ := List.mem_map.mp h.mem_operators
    rw [← hlist]
    exact strict.uncommented op hmem
  constructor
  · cases v with
    | nil => rfl
    | cons e w =>
      obtain rfl : e = b := by simpa using hb
      exact absurd hcomment hcalm.not_opensComment
  · rintro rfl
    obtain ⟨c, word, htext, -, hstart, -⟩ := h
    obtain ⟨rfl, rfl⟩ := List.cons.inj htext
    rw [hcomment.startsComment hb] at hstart
    cases hstart

/-- Words look for an opener at every character, and end before one that begins with an operator. -/
theorem Stands.word_hides_none (strict : d.Strict) (h : Stands d.ops .word (u ++ a :: v) rest)
    (hb : (v ++ rest).head? = some b) : ¬OpensComment a b := by
  intro hcomment
  cases v with
  | nil =>
    have hop : [a] ∈ d.ops := strict.sign hcomment.first.1
    exact hcomment.first.2.1 (h.getLast_word strict.tame.operators (by simp) hop)
  | cons e w =>
    obtain rfl : e = b := by simpa using hb
    exact (inert_of_word strict h).1.uncommented.not_opensComment hcomment

/-- A comment opener that begins in a lexeme lies inside it, and the lexeme is a literal, or else the
lexeme is an operator that ends with the first character of the opener. -/
theorem Stands.hides (strict : d.Strict) {shape : Shape} (h : Stands d.ops shape (u ++ a :: v) rest)
    (hb : (v ++ rest).head? = some b) (hcomment : OpensComment a b) :
    (shape = .quoted ∧ ∃ w, v = b :: w) ∨
      (shape = .operator ∧ v = [] ∧ u ++ [a] ∈ d.ops ∧ u ≠ []) := by
  cases shape with
  | quoted => exact Or.inl ⟨rfl, h.hides_quoted strict hb hcomment⟩
  | mark kind =>
    have hmem : a ∈ u ++ a :: v := by simp
    exact absurd hmem (h.not_mem_mark hcomment.first.2.2.2)
  | operator =>
    obtain ⟨rfl, hne⟩ := h.hides_operator strict hb hcomment
    exact Or.inr ⟨rfl, rfl, h.mem_operators, hne⟩
  | word => exact absurd hcomment (h.word_hides_none strict hb)

end Opener

end Lexeme

namespace Scrap

theorem append_eq_append_cons {α : Type} {xs ys before after : List α} {a : α}
    (h : xs ++ ys = before ++ a :: after) :
    (∃ v, xs = before ++ a :: v ∧ after = v ++ ys) ∨
      ∃ u, before = xs ++ u ∧ ys = u ++ a :: after := by
  rcases List.append_eq_append_iff.mp h with ⟨u, hu, hys⟩ | ⟨v, hv, hys⟩
  · exact Or.inr ⟨u, hu, hys⟩
  · cases v with
    | nil => exact Or.inr ⟨[], by simpa using hv.symm, hys.symm⟩
    | cons e v =>
      obtain ⟨rfl, hafter⟩ := List.cons.inj hys
      exact Or.inl ⟨v, hv, hafter⟩

/-- A comment opener in a text that is legible begins in one of its lexemes. -/
theorem Legible.opener {ops : List (List Char)} {scraps : List Scrap} {tail : List Char}
    (h : Legible ops scraps tail) {before after : List Char} {a b : Char}
    (htext : flat scraps ++ tail = before ++ a :: b :: after) (hcomment : OpensComment a b) :
    ∃ first s rest u v, scraps = first ++ s :: rest ∧ s.text = u ++ a :: v ∧
      before = flat first ++ s.gap ++ u ∧ Lexeme.Stands ops s.shape s.text (flat rest ++ tail) ∧
      (v ++ (flat rest ++ tail)).head? = some b := by
  have hblank : ∀ {gap : List Char}, isBlank gap → a ∉ gap := by
    intro gap hgap hmem
    have hwhite := hcomment.first.2.2.1
    rw [hgap a hmem] at hwhite
    cases hwhite
  induction h generalizing before with
  | nil htail =>
    exfalso
    apply hblank htail
    rw [flat_nil, List.nil_append] at htext
    simp [htext]
  | @cons s scraps tail hgap hstands _ ih =>
    rw [flat_cons, List.append_assoc, List.append_assoc] at htext
    rcases append_eq_append_cons htext with ⟨v, hgap', -⟩ | ⟨u, rfl, hmore⟩
    · exfalso
      apply hblank hgap
      simp [hgap']
    · rcases append_eq_append_cons hmore with ⟨v, hs, hrest⟩ | ⟨w, rfl, hrest⟩
      · exact ⟨[], s, scraps, u, v, rfl, hs, rfl, hstands, by rw [← hrest]; rfl⟩
      · obtain ⟨first, s', rest, u, v, rfl, hs', rfl, hstands', hhead⟩ := ih hrest
        exact ⟨s :: first, s', rest, u, v, rfl, hs', by simp, hstands', hhead⟩

/-- The operators of the shipped vocabulary that end with the first character of a comment opener and
do not consist of it. -/
def halfOpeners : List String := ["#-", "?-", "-|-", "|/", "||/"]

/-- Where a comment opener behind the text `before` hides: inside a literal, or half in an operator
and half behind it. -/
inductive Hides (scraps : List Scrap) (before : List Char) (a b : Char) : Prop
  | literal {first rest : List Scrap} {s : Scrap} {u v : List Char}
      (hscraps : scraps = first ++ s :: rest) (hbefore : before = flat first ++ s.gap ++ u)
      (hshape : s.shape = .quoted) (htext : s.text = u ++ a :: b :: v)
  | operator {first rest : List Scrap} {s : Scrap} {u : List Char}
      (hscraps : scraps = first ++ s :: rest) (hbefore : before = flat first ++ s.gap ++ u)
      (hshape : s.shape = .operator) (htext : s.text = u ++ [a])
      (hhalf : String.ofList s.text ∈ halfOpeners)

end Scrap

namespace Dialect

theorem register_of_mem {d : Dialect} {r : Registry} (h : Text.asciiLowerText r.name ∈ d.names) :
    d.register r = d := if_pos (by simpa using h)

/-- The shipped registries make two dialects. -/
theorem ofRegistries_shipped {rs : List Registry} (hrs : ∀ r ∈ rs, r = .postgres ∨ r = .postgis) :
    ofRegistries rs = builtin ∨ ofRegistries rs = builtin.register .postgis := by
  have hfold : ∀ d : Dialect, d = builtin ∨ d = builtin.register .postgis →
      rs.foldl register d = builtin ∨ rs.foldl register d = builtin.register .postgis := by
    induction rs with
    | nil => exact fun d hd => hd
    | cons r rs ih =>
      intro d hd
      apply ih fun r hr => hrs r (List.mem_cons_of_mem _ hr)
      rcases hrs r List.mem_cons_self with rfl | rfl <;> rcases hd with rfl | rfl
      · exact Or.inl (register_of_mem (by decide +kernel))
      · exact Or.inr (register_of_mem (by decide +kernel))
      · exact Or.inr rfl
      · exact Or.inr (register_of_mem (by decide +kernel))
  exact hfold builtin (Or.inl rfl)

theorem postgis_strict : (builtin.register .postgis).Strict where
  tame := @ofRegistries_tame [.postgis] (by simp [postgis_tame])
  signs := by decide +kernel
  uncommented := by decide +kernel
  colons := by decide +kernel
  prefixes := by decide +kernel

theorem halfOpeners_of_all {ops : List String}
    (h : (ops.all fun op => op.toList.getLast?.all fun c =>
      !(c == '-' || c == '/') || (op.toList == [c] || Scrap.halfOpeners.contains op)) = true) :
    ∀ op ∈ ops, ∀ c ∈ op.toList.getLast?,
      c = '-' ∨ c = '/' → op.toList = [c] ∨ op ∈ Scrap.halfOpeners := by
  intro op hop c hc hopens
  have hlast := List.all_eq_true.mp h op hop
  rw [Option.mem_def.mp hc] at hlast
  rcases hopens with rfl | rfl <;> simpa using hlast

/-- The shipped dialects leave comments and colons alone, and few of their operators end with the
first character of a comment opener. -/
theorem shipped_strict {rs : List Registry} (hrs : ∀ r ∈ rs, r = .postgres ∨ r = .postgis) :
    (ofRegistries rs).Strict ∧ ∀ op ∈ (ofRegistries rs).operators, ∀ c ∈ op.toList.getLast?,
      c = '-' ∨ c = '/' → op.toList = [c] ∨ op ∈ Scrap.halfOpeners := by
  rcases ofRegistries_shipped hrs with hd | hd
  · rw [hd]
    exact ⟨builtin_strict, halfOpeners_of_all (by decide +kernel)⟩
  · rw [hd]
    exact ⟨postgis_strict, halfOpeners_of_all (by decide +kernel)⟩

end Dialect

/-- In a text that is read in a shipped dialect, every comment opener lies inside a literal, or begins
with the last character of one of five operators. -/
theorem tokenize_hides_comments {rs : List Registry}
    (hrs : ∀ r ∈ rs, r = .postgres ∨ r = .postgis) {text : String} {ts : List Token}
    (h : tokenize (Dialect.ofRegistries rs) text = .ok ts) :
    ∃ scraps tail,
      Lexeme.scan (Dialect.ofRegistries rs).operators text =
        .ok (Scrap.lexemes false true scraps) ∧
      text.toList = Scrap.flat scraps ++ tail ∧
      ∀ before a b after, text.toList = before ++ a :: b :: after → OpensComment a b →
        Scrap.Hides scraps before a b := by
  obtain ⟨strict, hhalf⟩ := Dialect.shipped_strict hrs
  obtain ⟨scraps, tail, hlegible, htext, -⟩ := tokenize_ok h
  refine ⟨scraps, tail, Scrap.scan_iff.mpr ⟨scraps, tail, hlegible, htext, rfl⟩, htext, ?_⟩
  intro before a b after hbefore hcomment
  obtain ⟨first, s, rest, u, v, hscraps, hs, hu, hstands, hhead⟩ :=
    hlegible.opener (htext.symm.trans hbefore) hcomment
  rw [hs] at hstands
  rcases hstands.hides strict hhead hcomment with ⟨hshape, w, rfl⟩ | ⟨hshape, rfl, hop, hne⟩
  · exact .literal hscraps hu hshape hs
  · refine .operator hscraps hu hshape hs ?_
    obtain ⟨op, hmem, hlist⟩ := List.mem_map.mp hop
    have hlast : a = '-' ∨ a = '/' := hcomment.imp And.left And.left
    have hop' := hhalf op hmem a (by simp [hlist]) hlast
    rw [hlist] at hop'
    rw [hs, ← hlist, String.ofList_toList]
    refine hop'.resolve_left ?_
    simpa using hne

/-- A comment that is read as operators. -/
theorem tokenize_hides_comments_behind_operator :
    tokenize (Dialect.ofRegistries [.postgis]) "a #-- b" =
        .ok [⟨.ident, "a"⟩, ⟨.operator, "#-"⟩, ⟨.operator, "-"⟩, ⟨.ident, "b"⟩, Token.eof] ∧
      ∃ scraps, Scrap.Hides scraps "a #".toList '-' '-' := by
  have h : tokenize (Dialect.ofRegistries [.postgis]) "a #-- b" =
      .ok [⟨.ident, "a"⟩, ⟨.operator, "#-"⟩, ⟨.operator, "-"⟩, ⟨.ident, "b"⟩, Token.eof] := by
    decide +kernel
  obtain ⟨scraps, -, -, -, hhides⟩ := tokenize_hides_comments (by simp) h
  exact ⟨h, scraps, hhides _ '-' '-' " b".toList (by decide) (Or.inl ⟨rfl, rfl⟩)⟩

end SqlLayout
