import SqlLayout.Proofs.Brackets
import SqlLayout.Proofs.Descent
import SqlLayout.Proofs.RoundTrip
import SqlLayout.Proofs.Script

/-! Reading again what no longer begins a line. An AND or OR that begins a line is marked, but where it
is taken as a plain element the mark has no use. When these marks are taken away, the tokens are read as
the same groups without them; only a clause that such a mark has ended would go on. -/

namespace SqlLayout
set_option autoImplicit false
open Token

/-- AND and OR, at the start of a line or inside it. -/
def TokenKind.isLink : TokenKind → Bool
  | .keyword .AND | .keyword .OR | .lineAnd | .lineOr => true
  | _ => false

theorem TokenKind.isLink_iff {k : TokenKind} :
    k.isLink = true ↔ k = .keyword .AND ∨ k = .keyword .OR ∨ k = .lineAnd ∨ k = .lineOr := by
  unfold isLink
  split <;> simp_all

theorem GroupKind.isLink_of_closing? {kind : GroupKind} {k : TokenKind} (h : kind.closing? = some k) :
    k.isLink = false := by
  unfold closing? at h
  split at h <;> cases h <;> rfl

namespace Token

/-- What does not tell the start of a line from its inside. -/
theorem SameUpToLines.congr {α : Type} {p : TokenKind → α} {t u : Token} (h : t.SameUpToLines u)
    (hand : p .lineAnd = p (.keyword .AND)) (hor : p .lineOr = p (.keyword .OR)) :
    p u.kind = p t.kind := by
  have hunlined : ∀ k : TokenKind, p k = p k.unlined := by
    intro k
    cases k <;> first | rfl | exact hand | exact hor
  rw [hunlined u.kind, hunlined t.kind, h.2]

theorem SameUpToLines.kind_iff {t u : Token} (h : t.SameUpToLines u) {k : TokenKind}
    (hk : k.isLink = false) : u.kind = k ↔ t.kind = k := by
  have hne : ∀ l : TokenKind, l.isLink = true → decide (l = k) = false := by
    intro l hl
    rw [decide_eq_false_iff_not]
    rintro rfl
    rw [hk] at hl
    cases hl
  have hkind : decide (u.kind = k) = decide (t.kind = k) := h.congr (p := fun l => decide (l = k))
    ((hne _ rfl).trans (hne _ rfl).symm) ((hne _ rfl).trans (hne _ rfl).symm)
  simpa using hkind

theorem SameUpToLines.kind_eq_or {t u : Token} (h : t.SameUpToLines u) :
    u.kind = t.kind ∨ (t.kind.isLink = true ∧ u.kind.isLink = true) := by
  cases hlink : t.kind.isLink with
  | false => exact Or.inl ((h.kind_iff hlink).mpr rfl)
  | true => exact Or.inr ⟨rfl, (h.congr (p := TokenKind.isLink) rfl rfl).trans hlink⟩

theorem sameUpToLines_refl (t : Token) : t.SameUpToLines t := ⟨rfl, rfl⟩

theorem reline_eq_self {t : Token} (h : t.kind.isLink = false) (begins : Bool) :
    t.reline begins = t := by
  unfold reline
  split <;> simp_all [TokenKind.isLink]

theorem reline_false_eq_self {t : Token} (h : t.kind.isLineStart = false) : t.reline false = t := by
  obtain ⟨kind, text⟩ := t
  unfold reline
  split <;> simp_all [TokenKind.isLineStart]

theorem reline_false_of_isLink {t : Token} (h : t.kind.isLink = true) :
    (t.reline false).kind = .keyword .AND ∨ (t.reline false).kind = .keyword .OR := by
  rcases TokenKind.isLink_iff.mp h with h | h | h | h <;> simp [reline, h]

theorem reline_of_isLineStart {t : Token} (h : t.kind.isLineStart = true) : t.reline true = t := by
  obtain ⟨kind, text⟩ := t
  cases kind <;> first | rfl | cases h

end Token

theorem exists_concat_same {ts us : List Token} {e : Token}
    (h : List.Forall₂ SameUpToLines (ts ++ [e]) us) :
    ∃ us' e', us = us' ++ [e'] ∧ List.Forall₂ SameUpToLines ts us' ∧ e.SameUpToLines e' := by
  induction ts generalizing us with
  | nil =>
    obtain ⟨e', us, he, hnil, rfl⟩ := List.forall₂_cons_left_iff.mp h
    cases hnil
    exact ⟨[], e', rfl, .nil, he⟩
  | cons t ts ih =>
    obtain ⟨u, us, hu, hus, rfl⟩ := List.forall₂_cons_left_iff.mp h
    obtain ⟨us', e', rfl, hus', he⟩ := ih hus
    exact ⟨u :: us', e', rfl, .cons hu hus', he⟩

theorem ne_of_same {ts us : List Token} {k : TokenKind} (hk : k.isLink = false)
    (h : List.Forall₂ SameUpToLines ts us) (hts : ∀ t ∈ ts, t.kind ≠ k) : ∀ u ∈ us, u.kind ≠ k := by
  induction h with
  | nil => simp
  | cons hhead _ ih =>
    obtain ⟨ht, hts⟩ := List.forall_mem_cons.mp hts
    exact List.forall_mem_cons.mpr ⟨fun hu => ht ((hhead.kind_iff hk).mp hu), ih hts⟩

theorem Balance.fault?_same {ts us : List Token} (h : List.Forall₂ SameUpToLines ts us) :
    fault? us = none ↔ fault? ts = none := by
  have hplain : ∀ k : TokenKind, k.isLink = true → closer? k = none ∧ isCloser k = false := by
    intro k hk
    rcases TokenKind.isLink_iff.mp hk with rfl | rfl | rfl | rfl <;> exact ⟨rfl, rfl⟩
  have hsettle : ∀ awaited, settle awaited (us.map Token.kind) = settle awaited (ts.map Token.kind) := by
    induction h with
    | nil => exact fun _ => rfl
    | @cons t u ts us hhead _ ih =>
      intro awaited
      rw [List.map_cons, List.map_cons]
      rcases hhead.kind_eq_or with hkind | ⟨ht, hu⟩
      · rw [hkind, ← List.singleton_append, ← @List.singleton_append _ t.kind (ts.map Token.kind),
          settle_append, settle_append]
        simp only [ih]
      · rw [settle_plain (hplain _ ht).1 (hplain _ ht).2, settle_plain (hplain _ hu).1 (hplain _ hu).2, ih]
  rw [fault?_eq_none_iff, fault?_eq_none_iff, wellBracketed_iff, wellBracketed_iff, hsettle]

mutual

/-- The element with AND and OR inside their lines, unless they open a group. -/
def Element.faded : Element → Element
  | .token t => .token (t.reline false)
  | .group g => .group g.faded

/-- The group with AND and OR inside their lines, unless they open it or a group in it. -/
def Group.faded : Group → Group
  | .mk kind [] indent => .mk kind [] indent
  | .mk kind (e :: es) indent => .mk kind (e :: Element.fadedAll es) indent

def Element.fadedAll : List Element → List Element
  | [] => []
  | e :: es => e.faded :: Element.fadedAll es

end

mutual

/-- No clause in the group is ended by an AND or OR that opens no group. -/
def Group.uncut : Group → Bool
  | .mk _ elements _ => Element.uncutAll false elements

/-- The same for a list of elements, which stands behind a clause or does not. -/
def Element.uncutAll (behindClause : Bool) : List Element → Bool
  | [] => true
  | .token t :: es => !(behindClause && t.kind.isLineStart) && Element.uncutAll false es
  | .group g :: es => g.uncut && Element.uncutAll g.kind.closing?.isNone es

end

theorem Element.fadedAll_eq_map (es : List Element) : fadedAll es = es.map faded := by
  induction es with
  | nil => rfl
  | cons e es ih => rw [fadedAll, ih, List.map_cons]

theorem Group.faded_cons (kind : GroupKind) (e : Element) (es : List Element) (indent : Nat) :
    (Group.mk kind (e :: es) indent).faded = .mk kind (e :: es.map Element.faded) indent := by
  rw [Group.faded, Element.fadedAll_eq_map]

@[simp] theorem Group.kind_faded (g : Group) : g.faded.kind = g.kind := by
  obtain ⟨kind, _ | ⟨e, es⟩, indent⟩ := g <;> rfl

@[simp] theorem Element.isGroup_faded (e : Element) : e.faded.isGroup = e.isGroup := by
  cases e <;> rfl

theorem Element.uncutAll_append {es fs : List Element} {behindClause : Bool}
    (h : uncutAll behindClause (es ++ fs) = true) : ∃ b, uncutAll b fs = true := by
  induction es generalizing behindClause with
  | nil => exact ⟨behindClause, h⟩
  | cons e es ih =>
    cases e <;> simp only [List.cons_append, uncutAll, Bool.and_eq_true] at h <;> exact ih h.2

theorem Group.uncut_of_mem {g inner : Group} (h : g.uncut = true)
    (hmem : .group inner ∈ g.elements) : inner.uncut = true := by
  obtain ⟨kind, elements, indent⟩ := g
  obtain ⟨es, fs, rfl⟩ := List.append_of_mem hmem
  obtain ⟨b, h⟩ := Element.uncutAll_append h
  rw [Element.uncutAll, Bool.and_eq_true] at h
  exact h.1

/-- An AND or OR directly behind a clause opens a group. -/
theorem Group.uncut_of_infix {g inner : Group} {t : Token} (h : g.uncut = true)
    (hpair : [.group inner, .token t] <:+: g.elements) (hclause : inner.kind.closing? = none) :
    t.kind.isLineStart = false := by
  obtain ⟨kind, elements, indent⟩ := g
  obtain ⟨es, fs, rfl⟩ := hpair
  rw [Group.uncut, List.append_assoc] at h
  obtain ⟨b, h⟩ := Element.uncutAll_append h
  simp only [List.cons_append, List.nil_append, Element.uncutAll, hclause, Option.isNone_none,
    Bool.true_and, Bool.and_eq_true, Bool.not_eq_true'] at h
  exact h.2.1

namespace Frame

/-- The frame with the faded elements. -/
def faded (f : Frame) : Frame := { f with body := f.body.map Element.faded }

variable {f : Frame} {t : Token} {next next' : List Token}

theorem elements_faded (f : Frame) :
    f.faded.elements = .token f.opener :: f.body.reverse.map Element.faded := by
  simp [elements, faded]

theorem faded_push (f : Frame) (t : Token) : (f.push t).faded = f.faded.push (t.reline false) := by
  have hjoin : (t.reline false).kind.isJoinStart = t.kind.isJoinStart :=
    (reline_sameUpToLines false t).congr rfl rfl
  simp [faded, push, hjoin, Element.faded]

theorem faded_attach (f : Frame) (g : Group) (n : Nat) :
    (f.attach g n).faded = f.faded.attach g.faded n := by
  simp [faded, attach, Element.faded]

theorem finalKind_faded (f : Frame) : f.faded.finalKind = f.finalKind := by
  unfold finalKind
  cases hlast : f.body.getLast? with
  | none => simp [faded, hlast]
  | some e =>
    cases e with
    | token t => simp [faded, hlast, Element.faded]
    | group g =>
      have hkind := g.kind_faded
      cases hf : f.kind <;> simp [faded, hlast, hf, Element.faded, hkind]

/-- Fading does not change how many leading elements are keywords of the clause. -/
theorem leadingKeywords?_faded (kind : GroupKind) (t : Token) (es : List Element) :
    leadingKeywords? kind (.token t :: es.map Element.faded) =
      leadingKeywords? kind (.token t :: es) := by
  have hleading : ∀ accepts : TokenKind → Bool, accepts .lineAnd = accepts (.keyword .AND) →
      accepts .lineOr = accepts (.keyword .OR) →
      ((.token t :: es.map Element.faded).takeWhile fun e =>
          e.token?.any fun t => accepts t.kind).length =
        ((.token t :: es).takeWhile fun e => e.token?.any fun t => accepts t.kind).length := by
    intro accepts hand hor
    have hsame : ((fun e : Element => e.token?.any fun t => accepts t.kind) ∘ Element.faded) =
        fun e => e.token?.any fun t => accepts t.kind := by
      funext e
      cases e with
      | token t =>
        simpa [Element.faded, Element.token?] using
          (reline_sameUpToLines false t).congr (p := accepts) hand hor
      | group g => rfl
    rw [List.takeWhile_cons, List.takeWhile_cons, List.takeWhile_map, hsame]
    split <;> simp
  have hby := hleading (fun k => k = .keyword .GROUP || k = .keyword .ORDER || k = .keyword .BY) rfl rfl
  cases kind with
  | groupBy => exact congrArg some hby
  | orderBy => exact congrArg some hby
  | join => exact congrArg some (hleading TokenKind.isJoinStart rfl rfl)
  | insert =>
    exact congrArg some (hleading (fun k => k = .keyword .INSERT || k = .keyword .INTO) rfl rfl)
  | _ => rfl

theorem finish_faded {g : Group} (h : f.finish = .ok g) : f.faded.finish = .ok g.faded := by
  have hkeywords : leadingKeywords? f.faded.finalKind f.faded.elements =
      leadingKeywords? f.finalKind f.elements := by
    rw [finalKind_faded, elements_faded, leadingKeywords?_faded]
    rfl
  have hlength : f.faded.elements.length = f.elements.length := by
    simp [elements, faded]
  have hgroup : Group.mk f.faded.finalKind f.faded.elements f.faded.indent = g.faded := by
    rw [finish_eq h, finalKind_faded, elements_faded, elements, Group.faded_cons]
    rfl
  unfold finish at h ⊢
  dsimp only at h ⊢
  rw [hkeywords, hlength, hgroup]
  split at h
  · split at h
    · cases h
    · rename_i hlt
      simp [hlt]
  · rfl

theorem any_head_same (hsame : List.Forall₂ SameUpToLines next next') {k : TokenKind}
    (hk : k.isLink = false) :
    next'.head?.any (·.kind = k) = next.head?.any (·.kind = k) := by
  cases hsame with
  | nil => rfl
  | cons hhead _ => simp [hhead.kind_iff hk]

/-- What a frame makes of a token depends on the kind of the next token, but not on AND and OR. -/
theorem nested?_faded (hsame : List.Forall₂ SameUpToLines next next') (f : Frame) (t : Token) :
    f.faded.nested? t next' = f.nested? t next := by
  unfold nested? staysPlain begin
  rw [any_head_same hsame rfl, any_head_same hsame rfl]
  rfl

/-- An AND or OR inside its line is taken by every frame. -/
theorem takes_link (f : Frame) (next : List Token)
    (h : t.kind = .keyword .AND ∨ t.kind = .keyword .OR) :
    f.endsAt t = false ∧ f.Lasts t ∧ f.nested? t next = none := by
  refine ⟨?_, ?_, ?_⟩
  · unfold endsAt
    rcases h with h | h <;> cases hkind : f.kind <;> simp [h, GroupKind.closing?, GroupKind.ends]
  · rcases h with h | h <;> simp [Lasts, h]
  · rcases h with h | h <;> simp [nested?, h, TokenKind.isGroupMaker, TokenKind.isJoinStart]

theorem faded_nested {child : Frame} (h : f.nested? t next = some child) : child.faded = child := by
  obtain ⟨kind, -, rfl⟩ := nested?_eq h
  rfl

theorem take_faded (hend : f.endsAt t = false) (hlasts : f.Lasts t) (hplain : f.nested? t next = none)
    (hsame : List.Forall₂ SameUpToLines next next') : f.faded.endsAt (t.reline false) = false ∧
      f.faded.Lasts (t.reline false) ∧ f.faded.nested? (t.reline false) next' = none := by
  cases hlink : t.kind.isLink with
  | false =>
    rw [reline_eq_self hlink, nested?_faded hsame]
    exact ⟨hend, hlasts, hplain⟩
  | true => exact f.faded.takes_link next' (reline_false_of_isLink hlink)

theorem Closable.same {child : Frame} (h : child.Closable next)
    (hsame : List.Forall₂ SameUpToLines next next') : child.Closable next' := by
  intro closer hclosing
  have hlink := GroupKind.isLink_of_closing? hclosing
  rw [← h closer hclosing]
  clear h
  induction hsame with
  | nil => rfl
  | cons hhead _ ih => simp [hhead.kind_iff hlink, ih]

/-- The elements of a frame are the first of its group. -/
theorem Reads.elements_extends {tokens rest : List Token} {g : Group} {n : Nat}
    (h : f.Reads tokens g n rest) : f.elements <+: g.elements := by
  induction h with
  | @close f t next g _ _ hfinish =>
    rw [finish_eq hfinish]
    exact ⟨[.token t], (f.elements_push t).symm⟩
  | stop _ _ hfinish =>
    rw [finish_eq hfinish]
    exact List.prefix_rfl
  | @take f t _ _ _ _ _ _ _ _ ih =>
    rw [elements_push] at ih
    exact (List.prefix_append _ _).trans ih
  | nest _ _ _ _ _ _ _ ih =>
    rw [elements_attach] at ih
    exact (List.prefix_append _ _).trans ih

/-- When the marks of lines that open no group are taken away, the same group is read without them. The
first token changes only if the frame takes it as an element. -/
theorem Reads.faded {tokens rest rest' : List Token} {g : Group} {n : Nat}
    (h : f.Reads tokens g n rest) (huncut : g.uncut = true)
    (hrest : List.Forall₂ SameUpToLines rest rest')
    (hhead : g.kind.closing? = none → rest'.head? = rest.head?) :
    ∃ tokens', f.faded.Reads tokens' g.faded n rest' ∧
      List.Forall₂ SameUpToLines tokens tokens' ∧
      (tokens'.head? = tokens.head? ∨ ∃ t ∈ tokens.head?, t.kind.isLineStart = true ∧
        f.elements ++ [.token t] <+: g.elements) := by
  -- the tokens are found from the end, because what is left decides on the group before it
  induction h generalizing rest' with
  | @close f t next g hend hclosing hfinish =>
    have hfaded := finish_faded hfinish
    rw [faded_push, reline_eq_self (GroupKind.isLink_of_closing? hclosing)] at hfaded
    exact ⟨t :: rest', .close hend hclosing hfaded, .cons (sameUpToLines_refl t) hrest, Or.inl rfl⟩
  | @stop f t next g hend hclosing hfinish =>
    have hclause : g.kind.closing? = none := by
      rw [finish_eq hfinish]
      exact f.closing?_finalKind.trans (closing?_of_stop hend hclosing)
    have hsome := hhead hclause
    obtain ⟨u, next', rfl⟩ := List.exists_cons_of_ne_nil (l := rest') (by rintro rfl; cases hsome)
    obtain rfl : u = t := Option.some.inj hsome
    exact ⟨_, .stop hend hclosing (finish_faded hfinish), hrest, Or.inl rfl⟩
  | @take f t next rest g n hend hlasts hplain hmore ih =>
    obtain ⟨next', hreads, hsame, -⟩ := ih huncut hrest hhead
    rw [faded_push] at hreads
    obtain ⟨hend', hlasts', hplain'⟩ := take_faded hend hlasts hplain hsame
    refine ⟨_, .take hend' hlasts' hplain' hreads, .cons (reline_sameUpToLines false t) hsame, ?_⟩
    cases hline : t.kind.isLineStart with
    | true =>
      have hstart := hmore.elements_extends
      rw [elements_push] at hstart
      exact Or.inr ⟨t, rfl, hline, hstart⟩
    | false =>
      left
      rw [List.head?_cons, List.head?_cons, reline_false_eq_self hline]
  | @nest f child t next left rest inner g m n hend hlasts hnested hclosable hinner hmore ih ih' =>
    obtain ⟨left', hreads, hsame, hleft⟩ := ih' huncut hrest hhead
    have hstart := hmore.elements_extends
    rw [elements_attach] at hstart hleft
    have hmem : .group inner ∈ g.elements := hstart.subset (by simp)
    -- the token that ends a clause is not taken by the frame, so it is still the same
    have hstill : inner.kind.closing? = none → left'.head? = left.head? := by
      intro hclause
      refine hleft.resolve_right ?_
      rintro ⟨u, -, hline, hstart⟩
      have hpair : [.group inner, .token u] <:+: g.elements := by
        rw [List.append_assoc] at hstart
        exact (List.infix_append' f.elements _ []).trans (by simpa using hstart.isInfix)
      rw [Group.uncut_of_infix huncut hpair hclause] at hline
      cases hline
    obtain ⟨next', hreads', hsame', -⟩ := ih (Group.uncut_of_mem huncut hmem) hsame hstill
    rw [faded_attach] at hreads
    rw [faded_nested hnested] at hreads'
    exact ⟨t :: next', .nest hend hlasts ((nested?_faded hsame' f t).trans hnested)
      (hclosable.same hsame') hreads' hreads, .cons (sameUpToLines_refl t) hsame', Or.inl rfl⟩

end Frame

theorem Group.elements_faded (g : Group) :
    g.faded.elements.map Element.isGroup = g.elements.map Element.isGroup ∧
      ∀ t, g.faded.elements = [.token t] ↔ g.elements = [.token t] := by
  obtain ⟨kind, _ | ⟨e, es⟩, indent⟩ := g
  · exact ⟨rfl, fun t => Iff.rfl⟩
  · rw [Group.faded_cons]
    refine ⟨?_, fun t => ?_⟩
    · simp [elements]
    · cases es <;> simp [elements]

theorem Group.retrieve?_faded {position indent : Nat} {tokens rest' : List Token} {r : Retrieved}
    (h : retrieve? position indent tokens = some (.ok r)) (huncut : r.group.uncut = true)
    (hrest : List.Forall₂ SameUpToLines r.rest rest') (hhead : rest'.head? = r.rest.head?) :
    ∃ tokens', retrieve? position indent tokens' = some (.ok ⟨r.group.faded, r.count, rest'⟩) ∧
      List.Forall₂ SameUpToLines tokens tokens' ∧ tokens'.head? = tokens.head? := by
  obtain ⟨t, next, kind, rfl, hstart, hreads⟩ := retrieve?_ok_iff.mp h
  obtain ⟨next', hreads', hsame, -⟩ := hreads.faded huncut hrest fun _ => hhead
  refine ⟨t :: next', retrieve?_ok_iff.mpr ⟨t, next', kind, rfl, hstart, ?_⟩,
    .cons (sameUpToLines_refl t) hsame, rfl⟩
  have hbegin : Frame.begin position indent kind t next' = Frame.begin position indent kind t next := by
    unfold Frame.begin
    rw [Frame.any_head_same hsame rfl]
  rw [hbegin]
  exact hreads'

theorem Stage.next_faded (last : Option Group) (position : Nat) (t : Token) (stage : Stage) :
    stage.next (last.map Group.faded) position t = stage.next last position t := by
  cases last with
  | none => rfl
  | some g =>
    obtain ⟨hgroups, hbare⟩ := g.elements_faded
    have hany : g.faded.elements.any Element.isGroup = g.elements.any Element.isGroup := by
      simpa [List.any_map] using congrArg (List.any · id) hgroups
    have hoperand : requireOperand (some g.faded) position = requireOperand (some g) position := by
      unfold requireOperand
      simp only [Option.map_some]
      split
      · rename_i t ht
        rw [(hbare t).mp (Option.some.inj ht)]
      · rename_i hnot
        split
        · rename_i t ht
          exact absurd (congrArg some ((hbare t).mpr (Option.some.inj ht))) (hnot t)
        · rfl
    cases stage <;> simp [next, hany, hoperand]

namespace Statement

theorem readGroups_extends {stage : Stage} {groups all : List Group} {position p : Nat}
    {tokens : List Token} {e : Token} (h : readGroups stage groups position tokens = .ok (all, p, e)) :
    groups.reverse <+: all := by
  induction stage, groups, position, tokens, h using readGroups_induction with
  | ends stage groups ts h hnext hall => exact hall ▸ List.prefix_rfl
  | reads stage groups position u ts stage' r h hnext hr hmore ih =>
    rw [List.reverse_cons] at ih
    exact (List.prefix_append _ _).trans ih

theorem readGroups_faded {stage : Stage} {groups all : List Group} {position p : Nat}
    {tokens : List Token} {e : Token} (h : readGroups stage groups position tokens = .ok (all, p, e))
    (huncut : ∀ g ∈ all, g.uncut = true) :
    ∃ tokens', readGroups stage (groups.map Group.faded) position tokens' =
        .ok (all.map Group.faded, p, e) ∧
      List.Forall₂ SameUpToLines tokens tokens' ∧ tokens'.head? = tokens.head? := by
  induction stage, groups, position, tokens, h using readGroups_induction with
  | ends stage groups ts h hnext hall =>
    refine ⟨e :: ts, ?_, List.forall₂_same.mpr fun t _ => sameUpToLines_refl t, rfl⟩
    rw [readGroups, List.head?_map, Stage.next_faded, hnext, hall]
    simp
  | reads stage groups position t ts stage' r h hnext hr hmore ih =>
    obtain ⟨rest', hread, hsame, hhead⟩ := ih
    have hmem : r.group ∈ all := (readGroups_extends hmore).subset (by simp)
    obtain ⟨tokens', hr', hsame', hhead'⟩ := Group.retrieve?_faded hr (huncut _ hmem) hsame hhead
    obtain ⟨u, ts', rfl⟩ := List.exists_cons_of_ne_nil (l := tokens') (by rintro rfl; cases hhead')
    obtain rfl : u = t := Option.some.inj hhead'
    refine ⟨u :: ts', ?_, hsame', rfl⟩
    have hnext' : stage.next (groups.map Group.faded).head? position u = .ok (some stage') := by
      rw [List.head?_map, Stage.next_faded, hnext]
    rw [readGroups_cons hnext' hr']
    exact hread

theorem readFrom_faded {base : Nat} {body : List Token} {groups : List Group}
    (h : readFrom base (body ++ [Token.eof]) = .ok groups) (hbody : ∀ t ∈ body, t.kind ≠ .eof)
    (huncut : ∀ g ∈ groups, g.uncut = true) :
    List.Forall₂ SameUpToLines body (Group.tokensOf (groups.map Group.faded)) ∧
      readFrom base (Group.tokensOf (groups.map Group.faded) ++ [Token.eof]) =
        .ok (groups.map Group.faded) := by
  obtain ⟨⟨p, e, hread, heof⟩, hfault⟩ := readFrom_ok_iff.mp h
  obtain ⟨tokens', hread', hsame, -⟩ := readGroups_faded hread huncut
  obtain ⟨body', last, rfl, hbody', hlast⟩ := exists_concat_same hsame
  obtain rfl : last = Token.eof := by
    obtain ⟨kind, text⟩ := last
    have hkind := (hlast.kind_iff (k := .eof) rfl).mpr rfl
    have htext := hlast.1
    dsimp only at hkind htext
    rw [hkind, htext]
    rfl
  have htokens := readGroups_body hread' heof (ne_of_same rfl hbody' hbody)
  rw [readGroups_body hread heof hbody] at hfault
  rw [htokens]
  refine ⟨hbody', readFrom_ok_iff.mpr ⟨⟨p, e, hread', heof⟩, ?_⟩⟩
  rw [htokens]
  exact (Balance.fault?_same hbody').mpr hfault

def faded (s : Statement) : Statement := ⟨s.groups.map Group.faded, s.terminator⟩

/-- The tokens of faded statements are read as these statements. -/
theorem Parses.faded {base : Nat} {ts : List Token} {ss : List Statement} (h : Parses base ts ss)
    (huncut : ∀ s ∈ ss, ∀ g ∈ s.groups, g.uncut = true) :
    Parses base ((ss.map Statement.faded).flatMap tokens) (ss.map Statement.faded) := by
  have hinside : ∀ {body body' : List Token}, List.Forall₂ SameUpToLines body body' → body ≠ [] →
      (∀ t ∈ body, t.kind ≠ .eof ∧ t.kind ≠ .semicolon) →
      body' ≠ [] ∧ ∀ t ∈ body', t.kind ≠ .eof ∧ t.kind ≠ .semicolon := by
    intro body body' hsame hne hbody
    refine ⟨?_, fun t ht => ⟨ne_of_same rfl hsame (fun t ht => (hbody t ht).1) t ht,
      ne_of_same rfl hsame (fun t ht => (hbody t ht).2) t ht⟩⟩
    rintro rfl
    exact hne (List.forall₂_nil_right_iff.mp hsame)
  induction h with
  | nil => exact .nil
  | last hne hbody hread =>
    obtain ⟨hsame, hread'⟩ := readFrom_faded hread (fun t ht => (hbody t ht).1)
      (huncut _ List.mem_cons_self)
    obtain ⟨hne', hbody'⟩ := hinside hsame hne hbody
    simpa [tokens, Statement.faded] using Parses.last hne' hbody' hread'
  | cons hne hbody hread hsemicolon _ ih =>
    obtain ⟨hgroups, hss⟩ := List.forall_mem_cons.mp huncut
    obtain ⟨hsame, hread'⟩ := readFrom_faded hread (fun t ht => (hbody t ht).1) hgroups
    obtain ⟨hne', hbody'⟩ := hinside hsame hne hbody
    have hmore := ih hss
    rw [hsame.length_eq] at hmore
    simpa [tokens, Statement.faded] using Parses.cons hne' hbody' hread' hsemicolon hmore

end Statement
end SqlLayout
