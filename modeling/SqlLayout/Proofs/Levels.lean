import SqlLayout.Proofs.Nesting

/-! The indent level of a group is the number of subqueries on the way down to it. Whether a parenthesis
is a subquery is settled twice: one token ahead when it is opened, for the level, and from its first
element when it is finished, for the kind. Both agree, since SELECT opens a group wherever it stands. -/

namespace SqlLayout
set_option autoImplicit false

/-- The list leads from a group that stands in the groups at some depth outwards to one of them. -/
inductive Group.Lineage (groups : List Group) : List Group → Prop
  | top {g : Group} (h : g ∈ groups) : Lineage groups [g]
  | inner {g outer : Group} {above : List Group} (h : .group g ∈ outer.elements)
      (hlineage : Lineage groups (outer :: above)) : Lineage groups (g :: outer :: above)

/-- The group stands in lines of the given level, and it and all groups in it have the levels of their
depth in subqueries. -/
inductive Group.Leveled : Nat → Group → Prop
  | mk {level indent : Nat} {kind : GroupKind} {t : Token} {es : List Element}
      (hopened : kind.OpenedBy t.kind) (hplain : ∀ u, .token u ∈ es → u.kind ≠ .keyword .SELECT)
      (hparen : t.kind = .openParen →
        es ≠ [] ∧ (kind = .subquery ↔ ∃ q, es.head? = some (.group q) ∧ q.kind = .select))
      (hindent : indent = level + if kind = .subquery then 1 else 0)
      (hinner : ∀ g, .group g ∈ es → Leveled indent g) :
      Leveled level (.mk kind (.token t :: es) indent)

/-- Only a parenthesis opens a parenthesis, and nothing a subquery. -/
theorem GroupKind.parens_of_start :
    ∀ k, ∀ kind ∈ ofStart? k, (k = .openParen ↔ kind = .parens) ∧ kind ≠ .subquery := by
  decide +kernel

def Token.isSelect (t : Token) : Bool := t.kind = .keyword .SELECT

namespace Group
variable {level : Nat} {g : Group} {es : List Element}

theorem Leveled.begins (h : g.Leveled level) :
    ∃ t, g.tokens.head? = some t ∧ (t.isSelect = true ↔ g.kind = .select) := by
  obtain ⟨hopened, -, -, -, -⟩ := h
  exact ⟨_, rfl, decide_eq_true_iff.trans (hopened.eq_opener_iff .select rfl)⟩

theorem head?_tokensOf (hes : es ≠ []) (hplain : ∀ u, .token u ∈ es → u.kind ≠ .keyword .SELECT)
    (hinner : ∀ g, .group g ∈ es → g.Leveled level) :
    ∃ t, (Element.tokensOf es).head? = some t ∧
      (t.isSelect = true ↔ ∃ q, es.head? = some (.group q) ∧ q.kind = .select) := by
  obtain ⟨e, es, rfl⟩ := List.exists_cons_of_ne_nil hes
  cases e with
  | token t =>
    refine ⟨t, rfl, ?_⟩
    simpa [Token.isSelect] using hplain t List.mem_cons_self
  | group q =>
    obtain ⟨t, ht, hselect⟩ := (hinner q List.mem_cons_self).begins
    refine ⟨t, ?_, by simpa using hselect⟩
    rw [Element.tokensOf, Element.tokens, List.head?_append, ht, Option.some_or]

end Group

namespace Frame
open GroupKind

/-- The frame stands in lines of the given level, and it has looked ahead at the tokens rightly. -/
structure Levels (level : Nat) (f : Frame) (tokens : List Token) : Prop where
  start : ofStart? f.opener.kind = some f.kind
  indent : f.indent = level + if f.isSubquery then 1 else 0
  ahead : f.beforeSelect = (Element.tokensOf f.body.reverse ++ tokens).head?.any Token.isSelect
  plain : ∀ u, .token u ∈ f.body.reverse → u.kind ≠ .keyword .SELECT
  inner : ∀ g, .group g ∈ f.body.reverse → g.Leveled f.indent

section Levels
variable {f : Frame} {t : Token} {next tokens : List Token} {level : Nat}

theorem levels_begin {start indent : Nat} {kind : GroupKind} (hstart : ofStart? t.kind = some kind)
    (hindent : indent = level + if kind = .parens ∧ next.head?.any Token.isSelect then 1 else 0) :
    (begin start indent kind t next).Levels level next where
  start := hstart
  indent := by
    rw [begin, hindent]
    simp only [isSubquery, Bool.and_eq_true, decide_eq_true_eq]
    rfl
  ahead := rfl
  plain := by simp [begin]
  inner := by simp [begin]

theorem exists_select (next : List Token) (hselect : t.kind = .keyword .SELECT) :
    ∃ child, f.nested? t next = some child := by
  have hstays : f.staysPlain t next = false := by
    unfold staysPlain
    split <;> simp [hselect, TokenKind.isLineStart]
  have hjoin : f.inJoinStart t = false := by
    simp [inJoinStart, hselect, TokenKind.isJoinStart]
  simp [nested?, hstays, hjoin, hselect, TokenKind.isGroupMaker, ofStart?]

theorem Levels.push (h : f.Levels level (t :: next)) (ht : t.kind ≠ .keyword .SELECT) :
    (f.push t).Levels level next where
  start := h.start
  indent := h.indent
  ahead := by
    rw [Frame.push, h.ahead]
    simp [Element.tokensOf, Element.tokens]
  plain := by
    intro u hu
    simp only [Frame.push, List.reverse_cons, List.mem_append, List.mem_singleton,
      Element.token.injEq] at hu
    obtain hu | rfl := hu
    · exact h.plain u hu
    · exact ht
  inner := by
    intro g hg
    simp only [Frame.push, List.reverse_cons, List.mem_append, List.mem_singleton, reduceCtorEq,
      or_false] at hg
    exact h.inner g hg

theorem Levels.attach {g : Group} {m : Nat} {left : List Token} (h : f.Levels level tokens)
    (hg : g.Leveled f.indent) (htokens : tokens = g.tokens ++ left) :
    (f.attach g m).Levels level left where
  start := h.start
  indent := h.indent
  ahead := by
    rw [Frame.attach, h.ahead, htokens]
    simp [Element.tokensOf, Element.tokens]
  plain := by
    intro u hu
    simp only [Frame.attach, List.reverse_cons, List.mem_append, List.mem_singleton, reduceCtorEq,
      or_false] at hu
    exact h.plain u hu
  inner := by
    intro g' hg'
    simp only [Frame.attach, List.reverse_cons, List.mem_append, List.mem_singleton,
      Element.group.injEq] at hg'
    obtain hg' | rfl := hg'
    · exact h.inner g' hg'
    · exact hg

theorem finalKind_eq_subquery_iff (hkind : f.kind ≠ .subquery) : f.finalKind = .subquery ↔
    f.kind = .parens ∧ ∃ q, f.body.reverse.head? = some (.group q) ∧ q.kind = .select := by
  rw [List.head?_reverse]
  unfold finalKind
  split
  · rename_i q hparens hlast
    simp [hparens, hlast]
  · rename_i hother
    refine iff_of_false hkind ?_
    rintro ⟨hparens, q, hlast, -⟩
    exact hother q hparens hlast

/-- The parenthesis that was opened before SELECT becomes the subquery. -/
theorem Levels.finish {g : Group} (h : f.Levels level tokens) (hbody : f.kind = .parens → f.body ≠ [])
    (hfinish : f.finish = .ok g) : g.Leveled level := by
  obtain ⟨hparens, hkind⟩ := parens_of_start _ _ h.start
  have hfinal := finalKind_eq_subquery_iff hkind
  have hsubquery : f.isSubquery = true ↔ f.finalKind = .subquery := by
    rw [hfinal, isSubquery, Bool.and_eq_true, decide_eq_true_eq]
    refine and_congr_right fun hopen => ?_
    obtain ⟨t, ht, hselect⟩ :=
      Group.head?_tokensOf (List.reverse_ne_nil_iff.mpr (hbody hopen)) h.plain h.inner
    rw [h.ahead, List.head?_append, ht, Option.some_or, Option.any_some, hselect]
  rw [finish_eq hfinish]
  refine .mk ?_ h.plain (fun hopen => ?_) ?_ h.inner
  · obtain heq | ⟨hopen, heq⟩ := f.finalKind_cases
    · exact Or.inl (heq ▸ h.start)
    · exact Or.inr ⟨hopen ▸ h.start, heq⟩
  · have hopen := hparens.mp hopen
    exact ⟨List.reverse_ne_nil_iff.mpr (hbody hopen), by rw [hfinal, and_iff_right hopen]⟩
  · rw [h.indent]
    simp only [hsubquery]

/-- The groups that a frame reads have the levels of their depth. -/
theorem Reads.leveled {g : Group} {n : Nat} {rest : List Token} (h : f.Reads tokens g n rest)
    (hlevels : f.Levels level tokens) : g.Leveled level := by
  induction h generalizing level with
  | @close f t next g hend hclosing hfinish =>
    have hselect : t.kind ≠ .keyword .SELECT := by
      have hclosers : ∀ kind : GroupKind, kind.closing? ≠ some (.keyword .SELECT) := by decide
      rintro hselect
      exact hclosers _ (hclosing.trans (congrArg some hselect))
    exact (hlevels.push hselect).finish (fun _ => List.cons_ne_nil _ _) hfinish
  | @stop f t next g hend hclosing hfinish =>
    refine hlevels.finish (fun hparens => ?_) hfinish
    have hnone := closing?_of_stop hend hclosing
    simp [hparens, closing?] at hnone
  | @take f t next rest g n hend hlasts hplain _ ih =>
    refine ih (hlevels.push fun hselect => ?_)
    obtain ⟨child, hchild⟩ := exists_select (f := f) next hselect
    simp [hchild] at hplain
  | @nest f child t next left rest inner g m n hend hlasts hnested hclosable hinner hmore ih ih' =>
    obtain ⟨kind, hstart, rfl⟩ := nested?_eq hnested
    have htokens : t :: next = inner.tokens ++ left := readOn_tokens hinner.readOn_nil
    refine ih' (hlevels.attach (ih (levels_begin hstart ?_)) htokens)
    simp only [(parens_of_start _ _ hstart).1, Bool.and_eq_true, decide_eq_true_eq]
    split
    · rw [if_pos ‹_›]
    · rw [if_neg ‹_›, Nat.add_zero]

end Levels

end Frame

namespace Statement

theorem readGroups_leveled {stage : Stage} {all : List Group} {position p : Nat} {tokens : List Token}
    {t : Token} (horderly : stage.Orderly)
    (h : readGroups stage [] position tokens = .ok (all, p, t)) : ∀ g ∈ all, g.Leveled 0 := by
  refine readGroups_clauses (P := fun _ => True) (fun _ h => h) ?_ horderly h trivial (by simp)
  intro position n kind u next rest g _ hstart hclosing hreads
  -- no clause is a parenthesis
  have hparens : kind ≠ .parens := by
    rintro rfl
    cases hclosing
  exact hreads.leveled (Frame.levels_begin hstart (by simp [hparens]))

end Statement

namespace Group
variable {groups above : List Group} {g : Group} {level : Nat}

theorem Leveled.indent_eq (h : g.Leveled level) :
    g.indent = level + if g.kind = .subquery then 1 else 0 := by
  obtain ⟨-, -, -, hindent, -⟩ := h
  exact hindent

theorem Leveled.inner {inner : Group} (h : g.Leveled level) (hinner : .group inner ∈ g.elements) :
    inner.Leveled g.indent := by
  obtain ⟨-, -, -, -, hgroups⟩ := h
  obtain hnot | hinner := List.mem_cons.mp hinner
  · cases hnot
  · exact hgroups inner hinner

/-- The level of a group counts the subqueries around it. -/
theorem Lineage.leveled (hgroups : ∀ g ∈ groups, g.Leveled 0) (h : Lineage groups (g :: above)) :
    g.Leveled (above.countP fun outer => outer.kind = .subquery) := by
  generalize hpath : g :: above = path at h
  induction h generalizing g above with
  | top hg =>
    obtain ⟨rfl, rfl⟩ := List.cons.inj hpath
    exact hgroups g hg
  | inner hg _ ih =>
    obtain ⟨rfl, rfl⟩ := List.cons.inj hpath
    have houter := ih rfl
    have hlevel := houter.indent_eq
    have hinner := houter.inner hg
    rw [List.countP_cons]
    simp only [decide_eq_true_eq]
    rwa [hlevel] at hinner

theorem tokens_infix {inner : Group} (h : .group inner ∈ g.elements) : inner.tokens <:+: g.tokens := by
  obtain ⟨kind, es, indent⟩ := g
  obtain ⟨before, after, rfl⟩ := List.append_of_mem h
  refine ⟨Element.tokensOf before, Element.tokensOf after, ?_⟩
  simp [tokens, Element.tokensOf, Element.tokens]

/-- The tokens of a group stand together in the text. -/
theorem Lineage.tokens_infix (h : Lineage groups (g :: above)) : g.tokens <:+: tokensOf groups := by
  generalize hpath : g :: above = path at h
  induction h generalizing g above with
  | top hg =>
    obtain ⟨rfl, rfl⟩ := List.cons.inj hpath
    obtain ⟨before, after, rfl⟩ := List.append_of_mem hg
    exact ⟨tokensOf before, tokensOf after, by simp [tokensOf]⟩
  | inner hg _ ih =>
    obtain ⟨rfl, rfl⟩ := List.cons.inj hpath
    exact (Group.tokens_infix hg).trans (ih rfl)

/-- A parenthesis tells by the token behind it whether it is a subquery. -/
theorem Leveled.paren {t : Token} (h : g.Leveled level) (ht : g.elements.head? = some (.token t))
    (hopen : t.kind = .openParen) :
    ∃ u, g.tokens[1]? = some u ∧ (g.kind = .subquery ↔ u.kind = .keyword .SELECT) ∧
      (g.kind = .subquery ↔ ∃ q, g.elements[1]? = some (.group q) ∧ q.kind = .select) := by
  obtain ⟨-, hplain, hparen, -, hinner⟩ := h
  cases ht
  obtain ⟨hes, hkind⟩ := hparen hopen
  obtain ⟨u, hu, hselect⟩ := head?_tokensOf hes hplain hinner
  rw [List.head?_eq_getElem?] at hu hkind hselect
  exact ⟨u, hu, hkind.trans (hselect.symm.trans decide_eq_true_iff), hkind⟩

end Group

namespace Statement

theorem leveled_of_parseSingle {ts : List Token} {groups : List Group}
    (h : parseSingle ts = .ok groups) :
    (∀ g ∈ groups, g.Leveled 0) ∧ Group.tokensOf groups <+: ts := by
  unfold parseSingle at h
  split at h
  · obtain ⟨⟨p, e, hread, -⟩, -⟩ := readFrom_ok_iff.mp h
    obtain ⟨rest, hrest⟩ := readGroups_tokens hread
    have hstart : Stage.start.Orderly := trivial
    exact ⟨readGroups_leveled hstart hread, e :: rest, hrest.symm⟩
  · cases h

/-- In what is read from a statement, the indent level of a group is the number of subqueries from the
top down to it; and what a parenthesis opens is a subquery exactly when its second element is a SELECT
clause, which is when the token right behind the parenthesis is SELECT. -/
theorem indent_counts_subqueries {ts : List Token} {groups above : List Group} {g : Group}
    (h : parseSingle ts = .ok groups) (hlineage : Group.Lineage groups (g :: above)) :
    g.tokens <:+: ts ∧
    g.indent = (g :: above).countP (fun outer => outer.kind = .subquery) ∧
    ∀ t, g.elements.head? = some (.token t) → t.kind = .openParen →
      ∃ u, g.tokens[1]? = some u ∧ (g.kind = .subquery ↔ u.kind = .keyword .SELECT) ∧
        (g.kind = .subquery ↔ ∃ q, g.elements[1]? = some (.group q) ∧ q.kind = .select) := by
  obtain ⟨hgroups, hprefix⟩ := leveled_of_parseSingle h
  have hleveled := hlineage.leveled hgroups
  refine ⟨hlineage.tokens_infix.trans hprefix.isInfix, ?_, fun t => hleveled.paren⟩
  rw [hleveled.indent_eq, List.countP_cons]
  simp only [decide_eq_true_eq]

theorem indent_counts_subqueries_of_select :
    let ts : List Token := [⟨.keyword .SELECT, "SELECT"⟩, ⟨.openParen, "("⟩,
      ⟨.keyword .SELECT, "SELECT"⟩, ⟨.ident, "a"⟩, ⟨.closeParen, ")"⟩, Token.eof]
    let inner : Group := .mk .select [.token ⟨.keyword .SELECT, "SELECT"⟩, .token ⟨.ident, "a"⟩] 1
    let query : Group :=
      .mk .subquery [.token ⟨.openParen, "("⟩, .group inner, .token ⟨.closeParen, ")"⟩] 1
    let outer : Group := .mk .select [.token ⟨.keyword .SELECT, "SELECT"⟩, .group query] 0
    parseSingle ts = .ok [outer] ∧ Group.Lineage [outer] [query, outer] ∧
      query.indent = [query, outer].countP (fun g => g.kind = .subquery) ∧
      ∃ u, query.tokens[1]? = some u ∧ (query.kind = .subquery ↔ u.kind = .keyword .SELECT) := by
  intro ts inner query outer
  have hread : parseSingle ts = .ok [outer] := by cbv
  have hlineage : Group.Lineage [outer] [query, outer] :=
    .inner (by simp [outer, Group.elements]) (.top List.mem_cons_self)
  obtain ⟨-, hindent, hparen⟩ := indent_counts_subqueries hread hlineage
  obtain ⟨u, hu, hkind, -⟩ := hparen ⟨.openParen, "("⟩ rfl rfl
  exact ⟨hread, hlineage, hindent, u, hu, hkind⟩

end Statement
end SqlLayout
