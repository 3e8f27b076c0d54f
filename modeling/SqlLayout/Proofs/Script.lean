import SqlLayout.Proofs.Reading

/-! Scripts and their statements. The tokens of a script fall into statements at the semicolons: the
groups of a statement hold the tokens up to its semicolon, and every statement but the last has one. So
nothing is lost, doubled or moved. -/

namespace SqlLayout.Statement
set_option autoImplicit false

/-- How the tokens of a script fall into statements. No group holds a semicolon or the end of the
input, and no statement is empty. -/
inductive Falls : List Statement → List Token → Prop
  | nil : Falls [] []
  | last {groups : List Group} (hne : groups ≠ [])
      (hinside : ∀ t ∈ Group.tokensOf groups, t.kind ≠ .eof ∧ t.kind ≠ .semicolon) :
      Falls [⟨groups, none⟩] (Group.tokensOf groups)
  | cons {groups : List Group} {semicolon : Token} {statements : List Statement} {ts : List Token}
      (hne : groups ≠ [])
      (hinside : ∀ t ∈ Group.tokensOf groups, t.kind ≠ .eof ∧ t.kind ≠ .semicolon)
      (hmore : Falls statements ts) :
      Falls (⟨groups, some semicolon⟩ :: statements) (Group.tokensOf groups ++ semicolon :: ts)

section Falls
variable {statements : List Statement} {ts : List Token}

theorem Falls.flatMap_tokens (h : Falls statements ts) : statements.flatMap tokens = ts := by
  induction h with
  | nil => rfl
  | last => simp [tokens]
  | cons _ _ _ ih => simp [tokens, ih]

/-- Only the last statement may lack its semicolon. -/
theorem Falls.terminated (h : Falls statements ts) :
    ∀ s ∈ statements.dropLast, s.terminator ≠ none := by
  induction h with
  | nil => simp
  | last => simp
  | @cons groups semicolon statements ts _ _ hmore ih =>
    intro s hs
    cases statements with
    | nil => simp at hs
    | cons s' statements =>
      rw [List.dropLast_cons_cons] at hs
      rcases List.mem_cons.mp hs with rfl | hs
      · simp
      · exact ih s hs

theorem Falls.whole (h : Falls statements ts) :
    ∀ s ∈ statements, s.groups ≠ [] ∧
      ∀ t ∈ Group.tokensOf s.groups, t.kind ≠ .eof ∧ t.kind ≠ .semicolon := by
  induction h with
  | nil => simp
  | last hne hinside =>
    intro s hs
    obtain rfl := List.mem_singleton.mp hs
    exact ⟨hne, hinside⟩
  | cons hne hinside _ ih =>
    intro s hs
    rcases List.mem_cons.mp hs with rfl | hs
    · exact ⟨hne, hinside⟩
    · exact ih s hs

end Falls

theorem exists_of_isOk {ε α : Type} {x : Except ε α} (h : x.isOk = true) : ∃ a, x = .ok a := by
  cases x with
  | error e => cases h
  | ok a => exact ⟨a, rfl⟩

/-- The groups of a statement that is not empty hold its tokens, and there is at least one. -/
theorem readFrom_body {base : Nat} {body : List Token} {groups : List Group}
    (h : readFrom base (body ++ [Token.eof]) = .ok groups) (hne : body ≠ [])
    (hbody : ∀ t ∈ body, t.kind ≠ .eof ∧ t.kind ≠ .semicolon) :
    groups ≠ [] ∧ Group.tokensOf groups = body ∧
      ∀ t ∈ Group.tokensOf groups, t.kind ≠ .eof ∧ t.kind ≠ .semicolon := by
  have htokens := readFrom_tokens h fun t ht => (hbody t ht).1
  refine ⟨?_, htokens, by rwa [htokens]⟩
  rintro rfl
  exact hne htokens.symm

/-- Tokens, the first of them at index `base`, are read statement by statement. -/
inductive Parses : Nat → List Token → List Statement → Prop
  | nil {base : Nat} : Parses base [] []
  | last {base : Nat} {body : List Token} {groups : List Group} (hne : body ≠ [])
      (hbody : ∀ t ∈ body, t.kind ≠ .eof ∧ t.kind ≠ .semicolon)
      (hread : readFrom base (body ++ [Token.eof]) = .ok groups) :
      Parses base body [⟨groups, none⟩]
  | cons {base : Nat} {body ts : List Token} {groups : List Group} {semicolon : Token}
      {ss : List Statement} (hne : body ≠ [])
      (hbody : ∀ t ∈ body, t.kind ≠ .eof ∧ t.kind ≠ .semicolon)
      (hread : readFrom base (body ++ [Token.eof]) = .ok groups)
      (hsemicolon : semicolon.kind = .semicolon) (hmore : Parses (base + body.length + 1) ts ss) :
      Parses base (body ++ semicolon :: ts) (⟨groups, some semicolon⟩ :: ss)

/-- The tokens that are passed before a semicolon or the end of the input. -/
theorem parseFrom_append {base : Nat} {body ts rest : List Token}
    (hts : ∀ t ∈ ts, t.kind ≠ .eof ∧ t.kind ≠ .semicolon) :
    parseFrom base body (ts ++ rest) = parseFrom base (ts.reverse ++ body) rest := by
  induction ts generalizing body with
  | nil => rfl
  | cons t ts ih =>
    obtain ⟨ht, hts⟩ := List.forall_mem_cons.mp hts
    rw [List.cons_append, parseFrom, if_neg ht.1, if_neg ht.2, ih hts]
    simp

/-- The statements that are read when `body` has been passed, newest first, and the input ends. -/
theorem parses_of_parseFrom {base : Nat} {body tokens : List Token} {ss : List Statement}
    (h : parseFrom base body tokens = .ok ss) (hend : ∃ e ∈ tokens, e.kind = .eof)
    (hbody : ∀ t ∈ body, t.kind ≠ .eof ∧ t.kind ≠ .semicolon) :
    Parses base (body.reverse ++ tokens.takeWhile (·.kind ≠ .eof)) ss := by
  have hrev : ∀ t ∈ body.reverse, t.kind ≠ .eof ∧ t.kind ≠ .semicolon :=
    fun t ht => hbody t (List.mem_reverse.mp ht)
  induction tokens generalizing base body ss with
  | nil => simp at hend
  | cons t ts ih =>
    unfold parseFrom at h
    by_cases heof : t.kind = .eof
    · rw [if_pos heof] at h
      rw [List.takeWhile_cons_of_neg (by simpa using heof), List.append_nil]
      split at h
      · rename_i hempty
        cases h
        rw [List.isEmpty_iff.mp hempty]
        exact .nil
      · rename_i hempty
        obtain ⟨groups, hgroups, rfl⟩ := Frame.map_ok h
        exact .last (by simpa using hempty) hrev hgroups
    · rw [if_neg heof] at h
      rw [List.takeWhile_cons_of_pos (by simpa using heof)]
      have hend' : ∃ e ∈ ts, e.kind = .eof := by
        obtain ⟨e, he, hkind⟩ := hend
        rcases List.mem_cons.mp he with rfl | he
        · exact absurd hkind heof
        · exact ⟨e, he, hkind⟩
      by_cases hsemi : t.kind = .semicolon
      · rw [if_pos hsemi] at h
        split at h
        · cases h
        · rename_i hempty
          split at h
          · cases h
          · rename_i groups hgroups
            obtain ⟨rest, hrest, rfl⟩ := Frame.map_ok h
            have hmore := ih hrest hend' (by simp) (by simp)
            exact .cons (by simpa using hempty) hrev hgroups hsemi (by simpa using hmore)
      · rw [if_neg hsemi] at h
        have hbody' : ∀ u ∈ t :: body, u.kind ≠ .eof ∧ u.kind ≠ .semicolon :=
          List.forall_mem_cons.mpr ⟨⟨heof, hsemi⟩, hbody⟩
        have hparses := ih h hend' hbody' fun u hu => hbody' u (List.mem_reverse.mp hu)
        simpa using hparses

theorem Parses.parseFrom {base : Nat} {ts : List Token} {e : Token} {ss : List Statement}
    (h : Parses base ts ss) (he : e.kind = .eof) : parseFrom base [] (ts ++ [e]) = .ok ss := by
  induction h with
  | nil => simp [Statement.parseFrom, he]
  | last hne hbody hread =>
    rw [parseFrom_append hbody, Statement.parseFrom, if_pos he]
    simp [hne, hread, Except.map]
  | cons hne hbody hread hsemicolon _ ih =>
    rw [List.append_assoc, parseFrom_append hbody, List.cons_append, Statement.parseFrom,
      if_neg (by rw [hsemicolon]; simp), if_pos hsemicolon]
    simp [hne, hread, ih, Except.map]

theorem Parses.parse {ts : List Token} {e : Token} {ss : List Statement} (h : Parses 0 ts ss)
    (he : e.kind = .eof) : parse (ts ++ [e]) = .ok ss := by
  rw [Statement.parse, if_pos (by simp [endsWithEof, he])]
  exact h.parseFrom he

theorem parses_of_parse {tokens : List Token} {ss : List Statement} (h : parse tokens = .ok ss) :
    Parses 0 (tokens.takeWhile (·.kind ≠ .eof)) ss := by
  unfold parse at h
  split at h
  · rename_i hend
    rw [endsWithEof, Option.any_eq_true] at hend
    obtain ⟨e, he, hkind⟩ := hend
    exact parses_of_parseFrom h ⟨e, List.mem_of_getLast? he, by simpa using hkind⟩ (by simp)
  · cases h

/-- A script is read when its statements are, one after the other. -/
theorem parse_ok_iff {ts : List Token} {e : Token} {ss : List Statement} (he : e.kind = .eof)
    (hts : ∀ t ∈ ts, t.kind ≠ .eof) : parse (ts ++ [e]) = .ok ss ↔ Parses 0 ts ss := by
  constructor
  · intro h
    have hparses := parses_of_parse h
    rw [List.takeWhile_append_of_pos (by simpa using hts)] at hparses
    simpa [he] using hparses
  · exact fun h => h.parse he

theorem Parses.falls {base : Nat} {ts : List Token} {ss : List Statement} (h : Parses base ts ss) :
    Falls ss ts := by
  induction h with
  | nil => exact .nil
  | last hne hbody hread =>
    obtain ⟨hgroups, htokens, hinside⟩ := readFrom_body hread hne hbody
    rw [← htokens]
    exact .last hgroups hinside
  | cons hne hbody hread _ _ ih =>
    obtain ⟨hgroups, htokens, hinside⟩ := readFrom_body hread hne hbody
    rw [← htokens]
    exact .cons hgroups hinside ih

theorem parse_falls {ts : List Token} {e : Token} {ss : List Statement} (he : e.kind = .eof)
    (hts : ∀ t ∈ ts, t.kind ≠ .eof) (h : parse (ts ++ [e]) = .ok ss) : Falls ss ts :=
  ((parse_ok_iff he hts).mp h).falls

/-- Where a statement of a script comes from: some tokens, not none, that are read as one statement,
and a semicolon or the end of the input behind them. -/
structure Parsed (s : Statement) : Prop where
  read : ∃ (base : Nat) (body : List Token), body ≠ [] ∧ (∀ t ∈ body, t.kind ≠ .eof) ∧
    readFrom base (body ++ [Token.eof]) = .ok s.groups
  terminator : ∀ t ∈ s.terminator, t.kind = .semicolon

theorem Parses.parsed {base : Nat} {ts : List Token} {ss : List Statement} (h : Parses base ts ss) :
    ∀ s ∈ ss, Parsed s := by
  induction h with
  | nil => simp
  | last hne hbody hread =>
    intro s hs
    obtain rfl := List.mem_singleton.mp hs
    exact ⟨⟨_, _, hne, fun t ht => (hbody t ht).1, hread⟩, by simp⟩
  | cons hne hbody hread hsemicolon _ ih =>
    intro s hs
    rcases List.mem_cons.mp hs with rfl | hs
    · exact ⟨⟨_, _, hne, fun t ht => (hbody t ht).1, hread⟩, by simpa using hsemicolon⟩
    · exact ih s hs

theorem parse_parsed {tokens : List Token} {ss : List Statement} (h : parse tokens = .ok ss) :
    ∀ s ∈ ss, Parsed s := (parses_of_parse h).parsed

theorem parse_tokens {ts : List Token} {ss : List Statement}
    (h : parse (ts ++ [Token.eof]) = .ok ss) (hts : ∀ t ∈ ts, t.kind ≠ .eof) :
    ss.flatMap tokens = ts := (parse_falls rfl hts h).flatMap_tokens

/-- What is read from a script can be laid out. -/
theorem parse_faultless {tokens : List Token} {ss : List Statement} (h : parse tokens = .ok ss) :
    Layout.fault? (ss.flatMap (·.groups)) = none := by
  rw [Layout.fault?, List.findSome?_eq_none_iff]
  intro g hg
  obtain ⟨s, hs, hg⟩ := List.mem_flatMap.mp hg
  obtain ⟨base, body, _, _, hread⟩ := (parse_parsed h s hs).read
  have hgroups : ∀ g ∈ s.groups, Layout.groupFault? g = none :=
    readFrom_forall (fun _ _ _ => Layout.keeps_faultless.retrieve?) hread
  exact hgroups g hg

/-- The statements of a script hold its tokens in their order, and nothing else. Only the last may
lack its semicolon, none is empty, and no group holds a semicolon or the end of the input. -/
theorem parse_loses_nothing {ts : List Token} {e : Token} {statements : List Statement}
    (he : e.kind = .eof) (hts : ∀ t ∈ ts, t.kind ≠ .eof)
    (h : parse (ts ++ [e]) = .ok statements) :
    statements.flatMap (fun s => s.groups.flatMap Group.tokens ++ s.terminator.toList) = ts ∧
      (∀ s ∈ statements.dropLast, s.terminator ≠ none) ∧
      ∀ s ∈ statements, s.groups ≠ [] ∧
        ∀ g ∈ s.groups, ∀ t ∈ g.tokens, t.kind ≠ .eof ∧ t.kind ≠ .semicolon := by
  have hfalls := parse_falls he hts h
  refine ⟨hfalls.flatMap_tokens, hfalls.terminated, fun s hs => ?_⟩
  obtain ⟨hne, hinside⟩ := hfalls.whole s hs
  exact ⟨hne, fun g hg t ht => hinside t (List.mem_flatMap.mpr ⟨g, hg, ht⟩)⟩

theorem parse_loses_nothing_of_two :
    ∃ statements,
      parse ([⟨.keyword .SELECT, "SELECT"⟩, ⟨.openParen, "("⟩, ⟨.ident, "a"⟩, ⟨.closeParen, ")"⟩,
        ⟨.semicolon, ";"⟩, ⟨.keyword .SELECT, "SELECT"⟩, ⟨.ident, "b"⟩] ++ [Token.eof]) =
          .ok statements ∧
      (∀ s ∈ statements.dropLast, s.terminator ≠ none) ∧ ∀ s ∈ statements, s.groups ≠ [] :=
  (exists_of_isOk (by decide +kernel)).imp fun _ h =>
    have hkept := parse_loses_nothing rfl (by decide) h
    ⟨h, hkept.2.1, fun s hs => (hkept.2.2 s hs).1⟩

end SqlLayout.Statement
