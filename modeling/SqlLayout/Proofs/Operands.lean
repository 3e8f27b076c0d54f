import SqlLayout.Proofs.Levels
import SqlLayout.Proofs.Weaving

/-! The queries that set operators join. Behind a set operator the grammar allows only SELECT, unless the
statement ends there; then the operator must hold its query itself. What is checked is weaker, namely that
it holds some group. A query it holds exactly when one of its tokens is SELECT or VALUES. -/

namespace SqlLayout
set_option autoImplicit false

namespace Group

/-- The group holds a SELECT clause or a list of rows at some depth. -/
def HoldsQuery (g : Group) : Prop :=
  (∃ q : Group, q.Inside g.elements ∧ q.kind = .select) ∨ ∃ t ∈ g.tokens, t.kind = .keyword .VALUES

/-- SELECT opens a clause at every depth. -/
theorem Leveled.exists_select_iff {g : Group} {level : Nat} (h : g.Leveled level) :
    (∃ t ∈ g.tokens, t.kind = .keyword .SELECT) ↔
      g.kind = .select ∨ ∃ q : Group, q.Inside g.elements ∧ q.kind = .select := by
  induction h with
  | @mk level indent kind t es hopened hplain hparen hindent hinner ih =>
    have hfront : t.kind = .keyword .SELECT ↔ kind = .select := hopened.eq_opener_iff .select rfl
    have hbehind : (∃ u ∈ Element.tokensOf es, u.kind = .keyword .SELECT) ↔
        ∃ q : Group, q.Inside (.token t :: es) ∧ q.kind = .select := by
      rw [Element.tokensOf_eq_flatMap]
      constructor
      · rintro ⟨u, hu, hselect⟩
        obtain ⟨e, he, hu⟩ := List.mem_flatMap.mp hu
        cases e with
        | token v =>
          obtain rfl := List.mem_singleton.mp hu
          exact absurd hselect (hplain u he)
        | group g =>
          have hg := List.mem_cons_of_mem (.token t) he
          obtain hk | ⟨q, hq, hk⟩ := (ih g he).mp ⟨u, hu, hselect⟩
          · exact ⟨g, .here hg, hk⟩
          · exact ⟨q, .deeper hg hq, hk⟩
      · rintro ⟨q, hq, hk⟩
        obtain ⟨g, hg, hgk⟩ : ∃ g, .group g ∈ es ∧
            (g.kind = .select ∨ ∃ q : Group, q.Inside g.elements ∧ q.kind = .select) := by
          obtain hq | ⟨g, hg, hq⟩ := inside_iff.mp hq
          · exact ⟨q, by simpa using hq, Or.inl hk⟩
          · exact ⟨g, by simpa using hg, Or.inr ⟨q, hq, hk⟩⟩
        obtain ⟨u, hu, hselect⟩ := (ih g hg).mpr hgk
        exact ⟨u, List.mem_flatMap.mpr ⟨_, hg, hu⟩, hselect⟩
    rw [elements, ← hbehind, Group.kind, ← hfront]
    simp only [tokens, Element.tokensOf, Element.tokens, List.singleton_append, List.mem_cons,
      exists_eq_or_imp]

theorem Leveled.holdsQuery_iff {g : Group} {level : Nat} (h : g.Leveled level) (hkind : g.kind = .tie) :
    g.HoldsQuery ↔ ∃ t ∈ g.tokens, t.kind = .keyword .SELECT ∨ t.kind = .keyword .VALUES := by
  have hselect := h.exists_select_iff
  rw [hkind, or_iff_right (by decide)] at hselect
  rw [HoldsQuery, ← hselect, ← exists_or]
  simp only [and_or_left]

end Group

namespace Stage

theorem isChain_of_mem_language {stage : Stage} {w : List GroupKind} (horderly : stage.Orderly)
    (h : w ∈ stage.language) : w.IsChain fun kind kind' => kind = .tie → kind' = .select := by
  have hopener : ∀ kind : GroupKind, kind.OpenedBy kind.opener := by decide
  induction w generalizing stage with
  | nil => exact .nil
  | cons kind w ih =>
    have hkind : kind.OpenedBy (Token.mk kind.opener "").kind := hopener kind
    obtain ⟨stage', hnext, hw⟩ := (@cons_mem_language _ _ 0 _ _ horderly hkind).mp h
    have hfollows := follows_of_next horderly hkind hnext
    cases w with
    | nil => exact .singleton kind
    | cons kind' w =>
      refine .cons_cons ?_ (ih hfollows.orderly hw)
      rintro rfl
      cases hfollows with
      | opening hwith => cases hwith
      | leading _ hlead => cases hlead
      | tying => exact (cons_mem_query.mp ((or_iff_right cons_notMem_one).mp hw)).1
      | clause _ hclause => exact absurd rfl hclause.ne_tie

end Stage

namespace Statement

/-- Every set operator stands before a SELECT clause or holds its query itself. -/
def HasOperands (groups : List Group) : Prop :=
  ∀ before tie after, groups = before ++ tie :: after → tie.kind = .tie →
    (∃ q, after.head? = some q ∧ q.kind = .select) ∨ tie.HoldsQuery

theorem kinds_of_parseSingle {ts : List Token} {groups : List Group} (h : parseSingle ts = .ok groups) :
    groups.map Group.kind ∈ Stage.start.language ∧ Stage.TieHolds groups := by
  unfold parseSingle at h
  split at h
  · obtain ⟨⟨p, e, hread, he⟩, -⟩ := readFrom_ok_iff.mp h
    have hstart : Stage.start.Orderly := trivial
    obtain ⟨gs, -, hallows, rfl⟩ := retrieves_of_readGroups hstart hread he
    exact ⟨hallows.kinds, hallows.tie⟩
  · cases h

/-- The set operators of a statement that is read have their queries exactly when the last clause, if it
is a set operator, has a token SELECT or VALUES. Such a clause always holds a group, which need not hold a
query. -/
theorem operands_iff_last {ts : List Token} {groups : List Group} (h : parseSingle ts = .ok groups) :
    (HasOperands groups ↔ ∀ tie ∈ groups.getLast?, tie.kind = .tie →
      ∃ t ∈ tie.tokens, t.kind = .keyword .SELECT ∨ t.kind = .keyword .VALUES) ∧
    ∀ tie ∈ groups.getLast?, tie.kind = .tie → tie.holdsGroup = true := by
  obtain ⟨hleveled, -⟩ := leveled_of_parseSingle h
  obtain ⟨hkinds, hties⟩ := kinds_of_parseSingle h
  refine ⟨⟨fun hoperands tie htie hkind => ?_, fun hlast before tie after hsplit hkind => ?_⟩, hties⟩
  · obtain ⟨before, rfl⟩ := List.getLast?_eq_some_iff.mp htie
    have hholds := hoperands before tie [] rfl hkind
    simp only [List.head?_nil, reduceCtorEq, false_and, exists_false, false_or] at hholds
    exact ((hleveled tie (by simp)).holdsQuery_iff hkind).mp hholds
  · subst hsplit
    cases after with
    | nil =>
      have hquery := hlast tie (by simp) hkind
      exact Or.inr (((hleveled tie (by simp)).holdsQuery_iff hkind).mpr hquery)
    | cons q after =>
      refine Or.inl ⟨q, rfl, ?_⟩
      have hstart : Stage.start.Orderly := trivial
      have hchain := Stage.isChain_of_mem_language hstart hkinds
      rw [List.map_append, List.map_cons, List.map_cons] at hchain
      exact (List.isChain_cons_cons.mp hchain.right_of_append).1 hkind

/-- `SELECT a UNION (b)` is read, although the set operator has no query behind it. -/
theorem operands_iff_last_of_parenthesis :
    let select : Group := .mk .select [.token ⟨.keyword .SELECT, "SELECT"⟩, .token ⟨.ident, "a"⟩] 0
    let parens : Group :=
      .mk .parens [.token ⟨.openParen, "("⟩, .token ⟨.ident, "b"⟩, .token ⟨.closeParen, ")"⟩] 0
    let tie : Group := .mk .tie [.token ⟨.keyword .UNION, "UNION"⟩, .group parens] 0
    parseSingle [⟨.keyword .SELECT, "SELECT"⟩, ⟨.ident, "a"⟩, ⟨.keyword .UNION, "UNION"⟩,
        ⟨.openParen, "("⟩, ⟨.ident, "b"⟩, ⟨.closeParen, ")"⟩, Token.eof] = .ok [select, tie] ∧
      ¬HasOperands [select, tie] := by
  intro select parens tie
  have hread : parseSingle [⟨.keyword .SELECT, "SELECT"⟩, ⟨.ident, "a"⟩, ⟨.keyword .UNION, "UNION"⟩,
      ⟨.openParen, "("⟩, ⟨.ident, "b"⟩, ⟨.closeParen, ")"⟩, Token.eof] = .ok [select, tie] := by
    cbv
  refine ⟨hread, fun hoperands => ?_⟩
  obtain ⟨t, ht, hkind⟩ := (operands_iff_last hread).1.mp hoperands tie rfl rfl
  revert t
  decide

end Statement
end SqlLayout
