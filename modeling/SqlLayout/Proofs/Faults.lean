import SqlLayout.Proofs.Brackets

/-! The fault that the check of the nesting reports. Of the tokens only the eight kinds that enclose
matter, and these must form a word over the four pairs. If they do not, the fault is the first closer
behind which no such word can follow any more; and if there is none, so that closers at the end would
mend the nesting, it is the last opener that no closer matches. -/

namespace SqlLayout.Balance
set_option autoImplicit false

/-- The four pairs. -/
inductive Pair : TokenKind → TokenKind → Prop
  | parentheses : Pair .openParen .closeParen
  | brackets : Pair .openBracket .closeBracket
  | braces : Pair .openBrace .closeBrace
  | cases : Pair (.keyword .CASE) (.keyword .END)

/-- The well-bracketed words over the four pairs. -/
inductive Word : List TokenKind → Prop
  | nil : Word []
  | pair {o c : TokenKind} {inner rest : List TokenKind} (hpair : Pair o c) (hinner : Word inner)
      (hrest : Word rest) : Word (o :: (inner ++ c :: rest))

def isOpener (k : TokenKind) : Bool := (closer? k).isSome

/-- The eight kinds that the pairs are made of. -/
def encloses (k : TokenKind) : Bool := isOpener k || isCloser k

/-- The kinds of the tokens that enclose, in order. -/
def marks (ts : List Token) : List TokenKind := (ts.map Token.kind).filter encloses

/-- The tokens can be continued to a well-bracketed word. -/
def Extends (ts : List Token) : Prop := ∃ more, Word (marks ts ++ more)

/-- The token at the index is a closer, and it is the first token that no continuation can mend. -/
def Misplaced (ts : List Token) (i : Nat) : Prop :=
  ∃ before t after, ts = before ++ t :: after ∧ before.length = i ∧ isCloser t.kind = true ∧
    Extends before ∧ ¬Extends (before ++ [t])

/-- The token at the index is an opener that no closer matches. -/
def StaysOpen (ts : List Token) (i : Nat) : Prop :=
  ∃ before t after, ts = before ++ t :: after ∧ before.length = i ∧ isOpener t.kind = true ∧
    ∀ j, ¬Matching ts i j

/-- The token at the index is to blame: it is misplaced, or the tokens can be continued and it is the last
that stays open. -/
def Culprit (ts : List Token) (i : Nat) : Prop :=
  Misplaced ts i ∨ (Extends ts ∧ StaysOpen ts i ∧ ∀ j, i < j → ¬StaysOpen ts j)

section Words
variable {ks awaited rest : List TokenKind} {o c k : TokenKind}

theorem pair_iff : Pair o c ↔ closer? o = some c := by
  constructor
  · intro h
    cases h <;> rfl
  · intro h
    unfold closer? at h
    split at h <;> cases h
    · exact .parentheses
    · exact .brackets
    · exact .braces
    · exact .cases

theorem encloses_of_closer? (h : closer? o = some c) : encloses o = true ∧ encloses c = true := by
  obtain ⟨-, hcloser⟩ := isCloser_of_closer? h
  simp [encloses, isOpener, h, hcloser]

theorem encloses_eq_false_iff : encloses k = false ↔ closer? k = none ∧ isCloser k = false := by
  simp [encloses, isOpener]

theorem Word.wellBracketed (h : Word ks) : WellBracketed ks := by
  induction h with
  | nil => exact .nil
  | pair hpair _ _ ih ih' => exact .pair (pair_iff.mp hpair) ih ih'

theorem WellBracketed.word (h : WellBracketed ks) : Word (ks.filter encloses) := by
  induction h with
  | nil => exact .nil
  | plain hopener hcloser _ ih =>
    rwa [List.filter_cons_of_neg (by simp [encloses_eq_false_iff.mpr ⟨hopener, hcloser⟩])]
  | pair hpair _ _ ih ih' =>
    obtain ⟨ho, hc⟩ := encloses_of_closer? hpair
    rw [List.filter_cons_of_pos ho, List.filter_append, List.filter_cons_of_pos hc]
    exact .pair (pair_iff.mpr hpair) ih ih'

theorem settle_filter : settle awaited (ks.filter encloses) = settle awaited ks := by
  induction ks generalizing awaited with
  | nil => rfl
  | cons k ks ih =>
    cases hk : encloses k with
    | false =>
      obtain ⟨hopener, hcloser⟩ := encloses_eq_false_iff.mp hk
      rw [List.filter_cons_of_neg (by simp [hk]), ih, settle_plain hopener hcloser]
    | true =>
      rw [List.filter_cons_of_pos hk]
      cases hopener : closer? k with
      | some c => rw [settle_opener hopener, settle_opener hopener, ih]
      | none =>
        have hcloser : isCloser k = true := by simpa [encloses, isOpener, hopener] using hk
        rw [settle_closer hopener hcloser, settle_closer hopener hcloser]
        cases awaited with
        | nil => rfl
        | cons c awaited => simp only [ih]

theorem word_filter_iff : Word (ks.filter encloses) ↔ WellBracketed ks := by
  refine ⟨fun h => ?_, WellBracketed.word⟩
  rw [wellBracketed_iff, ← settle_filter]
  exact h.wellBracketed.settle

theorem closers_of_settle (hclosers : ∀ c ∈ awaited, closer? c = none ∧ isCloser c = true)
    (h : settle awaited ks = some rest) : ∀ c ∈ rest, closer? c = none ∧ isCloser c = true := by
  induction ks generalizing awaited with
  | nil =>
    cases h
    exact hclosers
  | cons k ks ih =>
    cases hopener : closer? k with
    | some c =>
      rw [settle_opener hopener] at h
      exact ih (List.forall_mem_cons.mpr ⟨isCloser_of_closer? hopener, hclosers⟩) h
    | none =>
      cases hcloser : isCloser k with
      | false =>
        rw [settle_plain hopener hcloser] at h
        exact ih hclosers h
      | true =>
        rw [settle_closer hopener hcloser] at h
        cases awaited with
        | nil => cases h
        | cons c awaited =>
          simp only [Option.ite_none_right_eq_some] at h
          exact ih (List.forall_mem_cons.mp hclosers).2 h.2

theorem settle_awaited (hclosers : ∀ c ∈ awaited, closer? c = none ∧ isCloser c = true) :
    settle awaited awaited = some [] := by
  induction awaited with
  | nil => rfl
  | cons c awaited ih =>
    obtain ⟨⟨hopener, hcloser⟩, hmore⟩ := List.forall_mem_cons.mp hclosers
    rw [settle_closer hopener hcloser]
    simpa using ih hmore

end Words

section Extending
variable {ts us : List Token} {i j : Nat}

/-- Tokens can be continued as long as no closer comes that is not awaited. -/
theorem extends_iff : Extends ts ↔ ∃ awaited, settle [] (ts.map Token.kind) = some awaited := by
  constructor
  · rintro ⟨more, hword⟩
    have hsettle := wellBracketed_iff.mp hword.wellBracketed
    rw [settle_append, marks, settle_filter, Option.bind_eq_some_iff] at hsettle
    obtain ⟨awaited, hawaited, -⟩ := hsettle
    exact ⟨awaited, hawaited⟩
  · rintro ⟨awaited, hawaited⟩
    have hclosers := closers_of_settle (by simp) hawaited
    have hwell : WellBracketed (ts.map Token.kind ++ awaited) := by
      rw [wellBracketed_iff, settle_append, hawaited, Option.bind_some, settle_awaited hclosers]
    have hfilter : awaited.filter encloses = awaited :=
      List.filter_eq_self.mpr fun c hc => by simp [encloses, (hclosers c hc).2]
    refine ⟨awaited, ?_⟩
    rw [marks, ← hfilter, ← List.filter_append]
    exact hwell.word

theorem Extends.of_append (h : Extends (ts ++ us)) : Extends ts := by
  rw [extends_iff] at h ⊢
  obtain ⟨awaited, h⟩ := h
  rw [List.map_append, settle_append, Option.bind_eq_some_iff] at h
  exact h.imp fun _ => And.left

theorem extends_of_wellBracketed (h : WellBracketed (ts.map Token.kind)) : Extends ts :=
  extends_iff.mpr ⟨[], h.settle⟩

/-- What follows an opener, once all that is awaited has come, begins with what it encloses. -/
theorem matching_of_settle {before after : List Token} {o : Token} {c : TokenKind}
    {awaited : List TokenKind} (hopener : closer? o.kind = some c)
    (h : settle (c :: awaited) (after.map Token.kind) = some []) :
    ∃ j, Matching (before ++ o :: after) before.length j := by
  obtain ⟨inner, rest, hafter, hinner, -⟩ := closes_of_settle h
  obtain ⟨inner', after', rfl, rfl, hrest⟩ := List.map_eq_append_iff.mp hafter
  obtain ⟨u, rest', rfl, rfl, -⟩ := List.map_eq_cons_iff.mp hrest
  exact ⟨_, before, o, inner', u, rest', rfl, rfl, rfl, hopener, hinner⟩

/-- In well-bracketed tokens every opener is matched, also behind other tokens. -/
theorem not_staysOpen_of_wellBracketed (h : WellBracketed (us.map Token.kind)) (hi : ts.length ≤ i) :
    ¬StaysOpen (ts ++ us) i := by
  rintro ⟨before, o, after, hsplit, rfl, hopener, hnone⟩
  obtain ⟨c, hc⟩ := Option.isSome_iff_exists.mp hopener
  obtain ⟨first, rfl⟩ : ∃ first, before = ts ++ first := by
    obtain ⟨first, hfirst⟩ := List.prefix_of_prefix_length_le (List.prefix_append ts us)
      (hsplit ▸ List.prefix_append before (o :: after)) hi
    exact ⟨first, hfirst.symm⟩
  obtain rfl : us = first ++ o :: after := by simpa using hsplit
  have hsettle : settle [] ((first ++ o :: after).map Token.kind) = some [] := h.settle
  rw [List.map_append, settle_append, Option.bind_eq_some_iff] at hsettle
  obtain ⟨awaited, -, hsettle⟩ := hsettle
  rw [List.map_cons, settle_opener hc] at hsettle
  obtain ⟨j, hj⟩ := @matching_of_settle (ts ++ first) _ _ _ _ hc hsettle
  rw [← hsplit] at hj
  exact hnone j hj

/-- An opener behind which all is well bracketed is not matched. -/
theorem staysOpen_of_wellBracketed {before after : List Token} {o : Token}
    (hopener : isOpener o.kind = true) (h : WellBracketed (after.map Token.kind)) :
    StaysOpen (before ++ o :: after) before.length := by
  refine ⟨before, o, after, rfl, rfl, hopener, ?_⟩
  rintro j ⟨before', o', inner, u, rest, hts, hlength, -, hclosing, hinner⟩
  obtain ⟨rfl, hcons⟩ := List.append_inj hts hlength.symm
  obtain ⟨rfl, rfl⟩ := List.cons.inj hcons
  obtain ⟨hnone, hcloser⟩ := isCloser_of_closer? hclosing
  -- the closer would not be awaited
  have hsettle : settle [] ((inner ++ u :: rest).map Token.kind) = some [] := h.settle
  rw [List.map_append, List.map_cons, settle_append, hinner.settle, Option.bind_some,
    settle_closer hnone hcloser] at hsettle
  cases hsettle

end Extending

/-- The token behind the first `n` tokens breaks the nesting when openers are waiting: a closer that is
not awaited, or an opener behind which all is well bracketed. -/
def Breaks (waiting : List Waiting) (ts : List Token) (t : Token) (n : Nat) : Prop :=
  ∃ before after awaited, ts = before ++ t :: after ∧ before.length = n ∧
    settle (waiting.map Waiting.closer) (before.map Token.kind) = some awaited ∧
    (isCloser t.kind = true ∧ settle awaited [t.kind] = none ∨
      isOpener t.kind = true ∧ WellBracketed (after.map Token.kind))

section Fault
variable {index i j n : Nat} {waiting waiting' : List Waiting} {ts : List Token} {t u : Token}

theorem Breaks.cons (h : Breaks waiting' ts t n)
    (hstep : ∀ ks, settle (waiting.map Waiting.closer) (u.kind :: ks) =
      settle (waiting'.map Waiting.closer) ks) : Breaks waiting (u :: ts) t (n + 1) := by
  obtain ⟨before, after, awaited, rfl, rfl, hbefore, hbreaks⟩ := h
  exact ⟨u :: before, after, awaited, rfl, rfl, (hstep _).trans hbefore, hbreaks⟩

/-- The check ends at a token that breaks the nesting, or at an opener that has been waiting, when those
above it are matched. -/
theorem faultFrom_cases (h : faultFrom index waiting ts = some (i, t)) :
    (∃ n, i = index + n ∧ Breaks waiting ts t n) ∨
      ∃ above w below, waiting = above ++ w :: below ∧ w.index = i ∧ w.token = t ∧
        Closes (above.map Waiting.closer) (ts.map Token.kind) := by
  -- along the tokens, with the openers that wait before each of them
  induction ts generalizing index waiting with
  | nil =>
    rw [faultFrom, Option.map_eq_some_iff] at h
    obtain ⟨w, hw, hwt⟩ := h
    obtain ⟨below, rfl⟩ := List.head?_eq_some_iff.mp hw
    obtain ⟨hindex, htoken⟩ := Prod.mk.inj hwt
    exact Or.inr ⟨[], w, below, rfl, hindex, htoken, .nil⟩
  | cons u ts ih =>
    rw [faultFrom.eq_def] at h
    cases hopener : closer? u.kind with
    | some c =>
      simp only [hopener] at h
      obtain ⟨n, rfl, hbreaks⟩ | ⟨above, w, below, hwaiting, hindex, htoken, hcloses⟩ := ih h
      · exact Or.inl ⟨n + 1, by omega, hbreaks.cons fun ks => settle_opener hopener⟩
      · cases above with
        | nil =>
          obtain ⟨rfl, rfl⟩ := List.cons.inj hwaiting
          refine Or.inl ⟨0, hindex.symm, [], ts, _, ?_, rfl, rfl, Or.inr ⟨?_, hcloses⟩⟩
          · rw [← htoken, List.nil_append]
          · rw [← htoken, isOpener, hopener, Option.isSome_some]
        | cons a above =>
          obtain ⟨rfl, rfl⟩ := List.cons.inj hwaiting
          exact Or.inr ⟨above, w, below, rfl, hindex, htoken, hcloses.opener hopener⟩
    | none =>
      cases hcloser : isCloser u.kind with
      | false =>
        simp only [hopener, hcloser] at h
        obtain ⟨n, rfl, hbreaks⟩ | ⟨above, w, below, hwaiting, hindex, htoken, hcloses⟩ := ih h
        · exact Or.inl ⟨n + 1, by omega, hbreaks.cons fun ks => settle_plain hopener hcloser⟩
        · exact Or.inr ⟨above, w, below, hwaiting, hindex, htoken, hcloses.plain hopener hcloser⟩
      | true =>
        simp only [hopener, hcloser, if_true] at h
        have hstop (hfails : settle (waiting.map Waiting.closer) [u.kind] = none)
            (h : some (index, u) = some (i, t)) : ∃ n, i = index + n ∧ Breaks waiting (u :: ts) t n := by
          obtain ⟨rfl, rfl⟩ := Prod.mk.inj (Option.some.inj h)
          exact ⟨0, rfl, [], ts, _, rfl, rfl, rfl, Or.inl ⟨hcloser, hfails⟩⟩
        cases waiting with
        | nil => exact Or.inl (hstop (by rw [List.map_nil, settle_closer hopener hcloser]) h)
        | cons w waiting =>
          have hsettle (ks : List TokenKind) :
              settle ((w :: waiting).map Waiting.closer) (u.kind :: ks) =
                if w.closer = u.kind then settle (waiting.map Waiting.closer) ks else none := by
            rw [List.map_cons, settle_closer hopener hcloser]
          dsimp only at h
          split at h
          · rename_i hmatches
            obtain ⟨n, rfl, hbreaks⟩ | ⟨above, w', below, rfl, hindex, htoken, hcloses⟩ := ih h
            · refine Or.inl ⟨n + 1, by omega, hbreaks.cons fun ks => ?_⟩
              rw [hsettle, if_pos hmatches]
            · refine Or.inr ⟨w :: above, w', below, rfl, hindex, htoken, ?_⟩
              exact ⟨[], ts.map Token.kind, by simp [hmatches], .nil, hcloses⟩
          · rename_i hdiffers
            exact Or.inl (hstop (by rw [hsettle, if_neg hdiffers]) h)

theorem culprit_of_fault? (h : fault? ts = some (i, t)) : Culprit ts i := by
  obtain ⟨n, rfl, hbreaks⟩ | ⟨above, w, below, hnil, -⟩ := faultFrom_cases h
  · rw [Nat.zero_add]
    obtain ⟨before, after, awaited, rfl, rfl, hbefore, hbreaks⟩ := hbreaks
    rw [List.map_nil] at hbefore
    obtain ⟨hcloser, hfails⟩ | ⟨hopener, hafter⟩ := hbreaks
    · refine Or.inl ⟨before, t, after, rfl, rfl, hcloser, extends_iff.mpr ⟨_, hbefore⟩, ?_⟩
      rw [extends_iff, List.map_append, settle_append, hbefore, Option.bind_some, List.map_singleton,
        hfails]
      simp
    · obtain ⟨c, hc⟩ := Option.isSome_iff_exists.mp hopener
      refine Or.inr ⟨?_, staysOpen_of_wellBracketed hopener hafter, fun j hj => ?_⟩
      · rw [extends_iff, List.map_append, List.map_cons, settle_append, hbefore, Option.bind_some,
          settle_opener hc, hafter.settle]
        exact ⟨_, rfl⟩
      · rw [List.append_cons]
        exact not_staysOpen_of_wellBracketed hafter (by rw [List.length_append]; exact hj)
  · simp at hnil

theorem Misplaced.lt_length (h : Misplaced ts i) : i < ts.length := by
  obtain ⟨before, t, after, rfl, rfl, -⟩ := h
  simp

theorem Misplaced.not_extends {first rest : List Token} (h : Misplaced (first ++ rest) i)
    (hi : i < first.length) : ¬Extends first := by
  obtain ⟨before, t, after, hsplit, rfl, -, -, hstuck⟩ := h
  rw [List.append_cons] at hsplit
  obtain ⟨more, rfl⟩ := List.prefix_of_prefix_length_le
    (hsplit ▸ List.prefix_append (before ++ [t]) after) (List.prefix_append first rest)
    (by rw [List.length_append]; exact hi)
  exact fun hfirst => hstuck hfirst.of_append

theorem Misplaced.le (hi : Misplaced ts i) (hj : Misplaced ts j) : j ≤ i := by
  obtain ⟨before, t, after, rfl, rfl, -, hextends, -⟩ := hj
  exact Nat.not_lt.mp fun hlt => hi.not_extends hlt hextends

theorem Misplaced.not_extends_all (h : Misplaced ts i) : ¬Extends ts := by
  rw [← List.append_nil ts] at h
  exact h.not_extends (by simpa using h.lt_length)

/-- Only one token is to blame. -/
theorem Culprit.unique (hi : Culprit ts i) (hj : Culprit ts j) : i = j := by
  obtain hi | ⟨hextends, hi, hlast⟩ := hi <;> obtain hj | ⟨hextends', hj, hlast'⟩ := hj
  · exact Nat.le_antisymm (hj.le hi) (hi.le hj)
  · exact absurd hextends' hi.not_extends_all
  · exact absurd hextends hj.not_extends_all
  · obtain hlt | heq | hgt := Nat.lt_trichotomy i j
    · exact absurd hj (hlast j hlt)
    · exact heq
    · exact absurd hi (hlast' i hgt)

theorem Culprit.not_wellBracketed (h : Culprit ts i) : ¬WellBracketed (ts.map Token.kind) := by
  intro hwell
  obtain hmisplaced | ⟨-, hopen, -⟩ := h
  · exact hmisplaced.not_extends_all (extends_of_wellBracketed hwell)
  · exact @not_staysOpen_of_wellBracketed [] _ _ hwell (Nat.zero_le i) hopen

end Fault

/-- The check of the nesting finds no fault exactly when the tokens that enclose form a word over the four
pairs, and otherwise it points at the token that is to blame: the first closer behind which no
continuation is such a word or, when the tokens have a continuation, the last opener that no closer
matches. -/
theorem unbalanced?_blames (groups : List Group) :
    (unbalanced? groups = none ↔ Word (marks (Group.tokensOf groups))) ∧
    ∀ i, unbalanced? groups = some i ↔ Culprit (Group.tokensOf groups) i := by
  have hnone : unbalanced? groups = none ↔ WellBracketed ((Group.tokensOf groups).map Token.kind) := by
    rw [unbalanced?, Option.map_eq_none_iff, fault?_eq_none_iff]
  have hsome : ∀ i, unbalanced? groups = some i → Culprit (Group.tokensOf groups) i := by
    intro i h
    obtain ⟨⟨_, t⟩, hfault, rfl⟩ := Option.map_eq_some_iff.mp h
    exact culprit_of_fault? hfault
  refine ⟨hnone.trans word_filter_iff.symm, fun i => ⟨hsome i, fun h => ?_⟩⟩
  cases hfault : unbalanced? groups with
  | none => exact absurd (hnone.mp hfault) h.not_wellBracketed
  | some j => rw [h.unique (hsome j hfault)]

/-- Of `[ (` and `( ]` in one group and the next, the closer is to blame, not the openers before it. -/
example : unbalanced? [.mk .select [.token ⟨.openBracket, "["⟩, .token ⟨.openParen, "("⟩] 0,
    .mk .fromClause [.token ⟨.openParen, "("⟩, .token ⟨.closeBracket, "]"⟩] 0] = some 3 := by
  decide

end SqlLayout.Balance
