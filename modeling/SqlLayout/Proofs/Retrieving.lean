import SqlLayout.Proofs.Enclosing
import SqlLayout.Proofs.Weaving

/-! Reading one group off the front of any tokens. The stack of frames does what a recursive descent does,
and the descent comes to its end since every round takes a token. What is read are the first tokens, none of
them the end of the input; each group begins with a token that opens its kind, takes its closing token last,
and without one stops before the first token that ends it. -/

namespace SqlLayout
set_option autoImplicit false

namespace Frame

/-- Read the group of a frame, and first, where a token opens a group inside, that group. No result when the
descent takes more rounds than are allowed. -/
def descend : Nat → Frame → List Token → Option (Except ParseError Retrieved)
  | 0, _, _ => none
  | _ + 1, f, [] => some (.error ⟨f.position, .noEnd f.kind⟩)
  | rounds + 1, f, t :: next =>
    match f.react t next with
    | .error e => some (.error e)
    | .ok (.takes f) => descend rounds f next
    | .ok (.ends g count taken) => some (.ok ⟨g, count, if taken then next else t :: next⟩)
    | .ok (.opens child) =>
      match descend rounds child next with
      | some (.ok r) => descend rounds (f.attach r.group r.count) r.rest
      | result => result

/-- What becomes of the innermost frame does not depend on the frames below it, be it a group or an
error. -/
theorem readOn_above (child parent : Frame) (below : List Frame) (tokens : List Token) :
    child.readOn (parent :: below) tokens =
      match child.readOn [] tokens with
      | .error e => .error e
      | .ok r => (parent.attach r.group r.count).readOn below r.rest := by
  -- the tokens that a nested group leaves are fewer, so the induction is on their number
  induction hlength : tokens.length using Nat.strongRecOn generalizing child parent below tokens with
  | _ length ih =>
    cases tokens with
    | nil => rfl
    | cons t next =>
      rw [List.length_cons] at hlength
      rw [readOn_cons, readOn_nil]
      cases hreact : child.react t next with
      | error e => rfl
      | ok reaction =>
        cases reaction with
        | takes f => exact ih next.length (by omega) f parent below next rfl
        | ends g n taken => cases taken <;> rfl
        | opens inner =>
          dsimp only
          rw [ih next.length (by omega) inner child (parent :: below) next rfl,
            ih next.length (by omega) inner child [] next rfl]
          cases hinner : inner.readOn [] next with
          | error e => rfl
          | ok r =>
            have hle := readOn_length_le hinner
            exact ih r.rest.length (by omega) (child.attach r.group r.count) parent below r.rest rfl

/-- The descent ends within one round more than there are tokens, and gives what the frames give. -/
theorem descend_eq {rounds : Nat} {f : Frame} {tokens : List Token} (h : tokens.length < rounds) :
    f.descend rounds tokens = some (f.readOn [] tokens) := by
  induction rounds generalizing f tokens with
  | zero => exact absurd h (Nat.not_lt_zero _)
  | succ rounds ih =>
    cases tokens with
    | nil => rfl
    | cons t next =>
      have hnext : next.length < rounds := Nat.lt_of_succ_lt_succ h
      rw [descend, readOn_nil]
      cases hreact : f.react t next with
      | error e => rfl
      | ok reaction =>
        cases reaction with
        | takes f => exact ih hnext
        | ends g n taken => rfl
        | opens child =>
          dsimp only
          rw [ih hnext, readOn_above]
          cases hchild : child.readOn [] next with
          | error e => rfl
          | ok r => exact ih (Nat.lt_of_le_of_lt (readOn_length_le hchild) hnext)

end Frame

namespace Group

/-- The group begins with a token that opens its kind. With a closing token it has this token last and
nowhere else; without one it has no token behind the first that ends it, but for the keywords that a join
begins with. -/
structure Bounded (g : Group) : Prop where
  opened : ∃ t, g.elements.head? = some (.token t) ∧ g.kind.OpenedBy t.kind
  closed : ∀ c, g.kind.closing? = some c → ∃ es u, g.elements = es ++ [.token u] ∧ u.kind = c ∧
    ∀ v, .token v ∈ es → v.kind ≠ c
  unended : g.kind.closing? = none → ∀ i u, g.elements[i + 1]? = some (.token u) →
    u.kind ∈ g.kind.ends → g.kind = .join ∧ i + 1 < joinWindow ∧ u.kind.isJoinStart = true

/-- The group has the property, and so have all groups in it. -/
def Everywhere (P : Group → Prop) (g : Group) : Prop :=
  P g ∧ ∀ inner : Group, inner.Inside g.elements → P inner

theorem everywhere_of_elements {P : Group → Prop} {g : Group} (hg : P g)
    (h : ∀ inner, .group inner ∈ g.elements → inner.Everywhere P) : g.Everywhere P := by
  refine ⟨hg, fun inner hinner => ?_⟩
  obtain hinner | ⟨outer, houter, hinner⟩ := inside_iff.mp hinner
  · exact (h inner hinner).1
  · exact (h outer houter).2 inner hinner

end Group

/-- No token closes the group that it opens. -/
theorem GroupKind.closing?_ne_start : ∀ k, ∀ kind ∈ ofStart? k, kind.closing? ≠ some k := by
  decide +kernel

namespace Frame
variable {f : Frame} {t : Token} {next tokens rest : List Token} {g : Group} {n : Nat}

/-- A frame holds no token that would have ended it, and the groups in it are bounded. -/
structure Bounded (f : Frame) : Prop where
  start : GroupKind.ofStart? f.opener.kind = some f.kind
  counted : f.Counted
  unclosed : ∀ c, f.kind.closing? = some c → ∀ u, .token u ∈ f.body → u.kind ≠ c
  unended : f.kind.closing? = none → ∀ i u, f.body.reverse[i]? = some (.token u) →
    u.kind ∈ f.kind.ends → f.kind = .join ∧ i + 1 < joinWindow ∧ u.kind.isJoinStart = true
  inner : ∀ g, .group g ∈ f.body → g.Everywhere Group.Bounded

theorem bounded_begin {start indent : Nat} {kind : GroupKind}
    (hstart : GroupKind.ofStart? t.kind = some kind) : (begin start indent kind t next).Bounded where
  start := hstart
  counted := counted_begin ..
  unclosed := by simp [begin]
  unended := by simp [begin]
  inner := by simp [begin]

/-- Only the keywords that a join begins with do not end it. -/
theorem inJoinStart_of_mem_ends (hend : f.endsAt t = false) (hclause : f.kind.closing? = none)
    (hmem : t.kind ∈ f.kind.ends) : f.inJoinStart t = true := by
  by_contra hjoin
  simp [endsAt, hclause, hjoin, hmem] at hend

theorem kind_ne_of_not_endsAt {c : TokenKind} (hend : f.endsAt t = false)
    (hclosing : f.kind.closing? = some c) : t.kind ≠ c := by
  have hjoin : f.inJoinStart t = false := by
    have hkind : f.kind ≠ .join := by
      intro hkind
      rw [hkind] at hclosing
      cases hclosing
    simp [inJoinStart, hkind]
  intro heq
  simp [endsAt, hclosing, hjoin, heq] at hend

theorem Bounded.push (h : f.Bounded) (hend : f.endsAt t = false) : (f.push t).Bounded where
  start := h.start
  counted := h.counted.push t
  unclosed := by
    intro c hclosing u hu
    obtain hu | hu := List.mem_cons.mp hu
    · cases hu
      exact kind_ne_of_not_endsAt hend hclosing
    · exact h.unclosed c hclosing u hu
  unended := by
    intro hclause i u hu hmem
    rw [Frame.push, List.reverse_cons] at hu
    obtain ⟨hlt, -⟩ := List.getElem?_eq_some_iff.mp hu
    rw [List.length_append, List.length_reverse, List.length_singleton] at hlt
    rcases Nat.lt_or_ge i f.body.reverse.length with hi | hi
    · rw [List.getElem?_append_left hi] at hu
      exact h.unended hclause i u hu hmem
    · -- the new token stands behind the others, of which there are no more than have been counted
      rw [List.getElem?_append_right hi] at hu
      cases List.mem_singleton.mp (List.mem_of_getElem? hu)
      have hjoin := inJoinStart_of_mem_ends hend hclause hmem
      simp only [inJoinStart, Bool.and_eq_true, decide_eq_true_eq] at hjoin
      obtain ⟨⟨⟨hkind, hwindow⟩, -⟩, hstart⟩ := hjoin
      have hcounted := h.counted
      simp only [Counted, elements, List.length_cons, List.length_reverse] at hcounted
      exact ⟨hkind, by omega, hstart⟩
  inner := by
    intro g hg
    obtain hg | hg := List.mem_cons.mp hg
    · cases hg
    · exact h.inner g hg

theorem Bounded.attach {m : Nat} (h : f.Bounded) (hg : g.Everywhere Group.Bounded) (hm : 0 < m) :
    (f.attach g m).Bounded where
  start := h.start
  counted := h.counted.attach g hm
  unclosed := by
    intro c hclosing u hu
    obtain hu | hu := List.mem_cons.mp hu
    · cases hu
    · exact h.unclosed c hclosing u hu
  unended := by
    intro hclause i u hu hmem
    rw [Frame.attach, List.reverse_cons] at hu
    rcases Nat.lt_or_ge i f.body.reverse.length with hi | hi
    · rw [List.getElem?_append_left hi] at hu
      exact h.unended hclause i u hu hmem
    · rw [List.getElem?_append_right hi] at hu
      cases List.mem_singleton.mp (List.mem_of_getElem? hu)
  inner := by
    intro g' hg'
    obtain hg' | hg' := List.mem_cons.mp hg'
    · cases hg'
      exact hg
    · exact h.inner g' hg'

theorem openedBy_of_start (h : GroupKind.ofStart? f.opener.kind = some f.kind) :
    f.finalKind.OpenedBy f.opener.kind := by
  obtain heq | ⟨hparens, heq⟩ := f.finalKind_cases
  · exact Or.inl (heq ▸ h)
  · exact Or.inr ⟨hparens ▸ h, heq⟩

theorem Bounded.elements_inner (h : f.Bounded) :
    ∀ g, .group g ∈ f.elements → g.Everywhere Group.Bounded := by
  intro g hg
  obtain hg | hg := List.mem_cons.mp hg
  · cases hg
  · exact h.inner g (List.mem_reverse.mp hg)

theorem Bounded.elements_unclosed {c : TokenKind} (h : f.Bounded) (hclosing : f.kind.closing? = some c) :
    ∀ u, .token u ∈ f.elements → u.kind ≠ c := by
  intro u hu
  obtain hu | hu := List.mem_cons.mp hu
  · cases hu
    rintro rfl
    exact GroupKind.closing?_ne_start _ _ h.start hclosing
  · exact h.unclosed c hclosing u (List.mem_reverse.mp hu)

/-- The token that closes the frame comes last, and it has not been there before. -/
theorem Bounded.close (h : f.Bounded) (hclosing : f.kind.closing? = some t.kind)
    (hfinish : (f.push t).finish = .ok g) : g.Everywhere Group.Bounded := by
  have hkind : (f.push t).finalKind.closing? = some t.kind := (f.push t).closing?_finalKind.trans hclosing
  rw [finish_eq hfinish]
  refine Group.everywhere_of_elements ⟨⟨f.opener, rfl, openedBy_of_start h.start⟩, fun c hc => ?_,
    fun hclause => ?_⟩ fun inner hinner => ?_
  · obtain rfl : t.kind = c := Option.some.inj (hkind.symm.trans hc)
    exact ⟨f.elements, t, elements_push f t, rfl, h.elements_unclosed hclosing⟩
  · cases hkind.symm.trans hclause
  · rw [Group.elements, elements_push, List.mem_append] at hinner
    obtain hinner | hinner := hinner
    · exact h.elements_inner inner hinner
    · cases List.mem_singleton.mp hinner

/-- A frame without a closing token that ends at a token has met none before that ends it. -/
theorem Bounded.stop (h : f.Bounded) (hclause : f.kind.closing? = none) (hfinish : f.finish = .ok g) :
    g.Everywhere Group.Bounded := by
  have hkind : f.finalKind = f.kind := by
    obtain heq | ⟨hparens, -⟩ := f.finalKind_cases
    · exact heq
    · rw [hparens] at hclause
      cases hclause
  rw [finish_eq hfinish]
  refine Group.everywhere_of_elements ⟨⟨f.opener, rfl, openedBy_of_start h.start⟩, fun c hc => ?_,
    fun _ => ?_⟩ h.elements_inner
  · cases hclause.symm.trans (hkind ▸ hc)
  · rw [Group.kind, hkind]
    exact h.unended hclause

theorem Reads.count_pos (h : f.Reads tokens g n rest) (hcounted : f.Counted) : 0 < n := by
  have hadd := h.count_add
  have hle := h.suffix.length_le
  have hpos := hcounted.pos
  omega

/-- What a bounded frame reads is bounded everywhere. -/
theorem Reads.bounded (h : f.Reads tokens g n rest) (hf : f.Bounded) : g.Everywhere Group.Bounded := by
  induction h with
  | close _ hclosing hfinish => exact hf.close hclosing hfinish
  | stop hend hclosing hfinish => exact hf.stop (closing?_of_stop hend hclosing) hfinish
  | take hend _ _ _ ih => exact ih (hf.push hend)
  | nest _ _ hnested _ hinner _ ih ih' =>
    obtain ⟨kind, hstart, rfl⟩ := nested?_eq hnested
    exact ih' (hf.attach (ih (bounded_begin hstart)) (hinner.count_pos (counted_begin ..)))

/-- The end of the input is no part of a group. -/
theorem Reads.ne_eof (h : f.Reads tokens g n rest) (hf : ∀ u ∈ f.tokens, u.kind ≠ .eof) :
    ∀ u ∈ g.tokens, u.kind ≠ .eof := by
  have htakes : ∀ (f : Frame) (t : Token), (∀ u ∈ f.tokens, u.kind ≠ .eof) → t.kind ≠ .eof →
      ∀ u ∈ (f.push t).tokens, u.kind ≠ .eof := by
    intro f t hf ht
    rw [tokens_push]
    exact List.forall_mem_append.mpr ⟨hf, by simpa using ht⟩
  induction h with
  | @close f t next g hend hclosing hfinish =>
    rw [finish_tokens hfinish]
    exact htakes f t hf fun heof => f.kind.closing?_ne_eof (heof ▸ hclosing)
  | stop _ _ hfinish =>
    rw [finish_tokens hfinish]
    exact hf
  | @take f t next rest g n hend hlasts _ _ ih => exact ih (htakes f t hf (ne_eof_of_lasts hend hlasts))
  | nest hend hlasts hnested _ _ _ ih ih' =>
    refine ih' ?_
    rw [tokens_attach]
    refine List.forall_mem_append.mpr ⟨hf, ih ?_⟩
    rw [nested?_tokens hnested]
    simpa using ne_eof_of_lasts hend hlasts

/-- A frame without a closing token leaves the token at which it ends. -/
theorem Reads.stops (h : f.Reads tokens g n rest) (hclause : f.kind.closing? = none) :
    ∃ u left, rest = u :: left ∧ (u.kind = .eof ∨ u.kind ∈ f.kind.ends) := by
  induction h with
  | close _ hclosing _ => cases hclause.symm.trans hclosing
  | @stop f t next g hend _ _ =>
    refine ⟨t, next, rfl, ?_⟩
    rw [endsAt, hclause] at hend
    simpa using (Bool.and_eq_true_iff.mp hend).2
  | take _ _ _ _ ih => exact ih hclause
  | nest _ _ _ _ _ _ _ ih' => exact ih' hclause

end Frame

/-- Where the first of some tokens opens a group, the descent that reads it comes to its end, with a group
or an error. The group takes the first tokens of the list, as many as are counted, one at least and the end
of the input not among them. It and all groups in it are bounded by the tokens that open, close and end
their kinds, and behind a group without a closing token stands one that ends it. -/
theorem Group.retrieve?_reads_front {position indent : Nat} {t : Token} {next : List Token}
    {kind : GroupKind} (hstart : GroupKind.ofStart? t.kind = some kind) :
    ∃ result, retrieve? position indent (t :: next) = some result ∧
      (Frame.begin position indent kind t next).descend (next.length + 1) next = some result ∧
      ∀ r, result = .ok r →
        1 ≤ r.count ∧ r.count ≤ (t :: next).length ∧
        r.group.tokens = (t :: next).take r.count ∧ (∀ u ∈ r.group.tokens, u.kind ≠ .eof) ∧
        r.group.Everywhere Bounded ∧
        (r.group.kind.closing? = none → ∃ u, (t :: next)[r.count]? = some u ∧
          (u.kind = .eof ∨ u.kind ∈ r.group.kind.ends)) := by
  have hretrieves : retrieve? position indent (t :: next) =
      some ((Frame.begin position indent kind t next).readOn [] next) :=
    Option.map_eq_some_iff.mpr ⟨kind, hstart, rfl⟩
  refine ⟨_, hretrieves, Frame.descend_eq (Nat.lt_succ_self _), ?_⟩
  intro r hread
  have hreads := Frame.readOn_nil_iff.mp hread
  have hretrieve := hretrieves.trans (congrArg some hread)
  have htokens := retrieve?_tokens hretrieve
  have hcount := retrieve?_count hretrieve
  have hlength : r.group.tokens.length = r.count := by
    have := congrArg List.length htokens
    rw [List.length_append] at this
    omega
  refine ⟨hreads.count_pos (Frame.counted_begin ..), by omega, ?_, ?_, ?_, ?_⟩
  · rw [htokens, ← hlength, List.take_left]
  · refine hreads.ne_eof ?_
    rw [Frame.tokens_begin]
    simpa using GroupKind.OpenedBy.ne_eof (Or.inl hstart)
  · exact hreads.bounded (Frame.bounded_begin hstart)
  · intro hclause
    have hkind : r.group.kind = kind := by
      obtain ⟨-, hkind | ⟨-, hsubquery⟩⟩ := hreads.opened
      · exact hkind
      · rw [hsubquery] at hclause
        cases hclause
    obtain ⟨u, left, hrest, hu⟩ := hreads.stops (hkind ▸ hclause)
    refine ⟨u, ?_, hkind ▸ hu⟩
    rw [htokens, ← hlength, hrest, List.getElem?_append_right (Nat.le_refl _), Nat.sub_self]
    rfl

theorem Group.retrieve?_reads_front_of_join :
    let ts : List Token := [⟨.keyword .LEFT, "LEFT"⟩, ⟨.keyword .JOIN, "JOIN"⟩,
      ⟨.keyword .CASE, "CASE"⟩, ⟨.ident, "a"⟩, ⟨.keyword .END, "END"⟩, ⟨.keyword .WHERE, "WHERE"⟩]
    ∃ r, retrieve? 0 0 ts = some (.ok r) ∧ r.group.tokens = ts.take 5 ∧ r.group.Everywhere Bounded ∧
      ts[5]? = some ⟨.keyword .WHERE, "WHERE"⟩ := by
  intro ts
  have hstart : GroupKind.ofStart? (.keyword .LEFT) = some .join := rfl
  obtain ⟨result, hresult, -, hfront⟩ :=
    @retrieve?_reads_front 0 0 ⟨.keyword .LEFT, "LEFT"⟩ ts.tail .join hstart
  have hread : retrieve? 0 0 ts = some (.ok ⟨.mk .join [.token ⟨.keyword .LEFT, "LEFT"⟩,
      .token ⟨.keyword .JOIN, "JOIN"⟩, .group (.mk .caseExpr [.token ⟨.keyword .CASE, "CASE"⟩,
        .token ⟨.ident, "a"⟩, .token ⟨.keyword .END, "END"⟩] 0)] 0, 5,
      [⟨.keyword .WHERE, "WHERE"⟩]⟩) := by
    cbv
  obtain rfl := Option.some.inj (hresult.symm.trans hread)
  obtain ⟨-, -, htokens, -, hbounded, -⟩ := hfront _ rfl
  exact ⟨_, hread, htokens, hbounded, rfl⟩

end SqlLayout
