import SqlLayout.Proofs.Fading

/-! The layout of faded groups. In a group that is read, an AND or OR that begins a line opens the group
or stands between brackets. Openers begin a line of the layout, and between brackets AND and OR follow
on the line. So the layout of the faded groups has the same gaps, and its tokens are marked as its lines
begin, as long as no plain AND or OR begins a line. -/

namespace SqlLayout
set_option autoImplicit false
open Token

theorem GroupKind.isLink_of_ofStart? {k : TokenKind} {kind : GroupKind} (h : ofStart? k = some kind) :
    k.isLink = false ∨ (k.isLineStart = true ∧ Layout.manner kind = .stream) := by
  cases hlink : k.isLink with
  | false => exact Or.inl rfl
  | true =>
    right
    rcases TokenKind.isLink_iff.mp hlink with rfl | rfl | rfl | rfl
    · cases h
    · cases h
    · cases h
      exact ⟨rfl, rfl⟩
    · cases h
      exact ⟨rfl, rfl⟩

/-- Where the marks of lines stand in a group that is read: at the token that opens it, when the group
is running text, and at plain tokens, when the group has a closing token. -/
inductive Group.Marked : Group → Prop
  | mk {kind : GroupKind} {opener : Token} {es : List Element} {indent : Nat}
      (hopener : opener.kind.isLink = false ∨
        (opener.kind.isLineStart = true ∧ Layout.manner kind = .stream))
      (hplain : ∀ t, .token t ∈ es → t.kind.isLineStart = true → kind.closing?.isSome = true)
      (hlast : kind.closing?.isSome = true → ∃ t, es.getLast? = some (.token t))
      (hinner : ∀ g, .group g ∈ es → g.Marked) :
      Marked (.mk kind (.token opener :: es) indent)

namespace Frame

structure Marked (f : Frame) : Prop where
  opener : GroupKind.ofStart? f.opener.kind = some f.kind
  plain : ∀ t, .token t ∈ f.body → t.kind.isLineStart = true → f.kind.closing?.isSome = true
  inner : ∀ g, .group g ∈ f.body → g.Marked

variable {f : Frame} {t : Token} {next : List Token}

/-- An AND or OR at the start of a line is taken as a plain token only between brackets. -/
theorem closing?_of_plain (hline : t.kind.isLineStart = true) (hplain : f.nested? t next = none) :
    f.kind.closing?.isSome = true := by
  have hkind : t.kind = .lineAnd ∨ t.kind = .lineOr := by
    unfold TokenKind.isLineStart at hline
    split at hline <;> simp_all
  rcases hkind with hkind | hkind <;> cases hf : f.kind <;>
    simp [nested?, staysPlain, inJoinStart, hkind, hf, TokenKind.isGroupMaker, TokenKind.isLineStart,
      TokenKind.isJoinStart, GroupKind.holdsLines, GroupKind.ofStart?, GroupKind.closing?] at hplain ⊢

theorem Marked.finish {g : Group} (hf : f.Marked) (h : f.finish = .ok g)
    (hlast : f.kind.closing?.isSome = true → ∃ t, f.body.head? = some (.token t)) : g.Marked := by
  have hclosing := f.closing?_finalKind
  rw [finish_eq h]
  refine .mk ?_ ?_ ?_ ?_
  · rcases f.finalKind_cases with hkind | ⟨hparens, -⟩
    · rw [hkind]
      exact GroupKind.isLink_of_ofStart? hf.opener
    · refine Or.inl ((GroupKind.isLink_of_ofStart? hf.opener).resolve_right ?_)
      rw [hparens]
      rintro ⟨-, ⟨⟩⟩
  · intro t ht
    rw [hclosing]
    exact hf.plain t (List.mem_reverse.mp ht)
  · rw [hclosing, List.getLast?_reverse]
    exact hlast
  · exact fun g hg => hf.inner g (List.mem_reverse.mp hg)

theorem Marked.push (hf : f.Marked)
    (ht : t.kind.isLineStart = true → f.kind.closing?.isSome = true) : (f.push t).Marked where
  opener := hf.opener
  plain := by
    intro u hu
    rcases List.mem_cons.mp hu with hu | hu
    · cases hu
      exact ht
    · exact hf.plain u hu
  inner := by
    intro g hg
    rcases List.mem_cons.mp hg with hg | hg
    · cases hg
    · exact hf.inner g hg

theorem Marked.attach {g : Group} (hf : f.Marked) (hg : g.Marked) (n : Nat) :
    (f.attach g n).Marked where
  opener := hf.opener
  plain := by
    intro u hu
    rcases List.mem_cons.mp hu with hu | hu
    · cases hu
    · exact hf.plain u hu
  inner := by
    intro g' hg'
    rcases List.mem_cons.mp hg' with hg' | hg'
    · cases hg'
      exact hg
    · exact hf.inner g' hg'

theorem marked_begin {start indent : Nat} {kind : GroupKind}
    (h : GroupKind.ofStart? t.kind = some kind) : (begin start indent kind t next).Marked :=
  ⟨h, by simp [begin], by simp [begin]⟩

theorem Reads.marked {tokens rest : List Token} {g : Group} {n : Nat}
    (h : f.Reads tokens g n rest) (hf : f.Marked) : g.Marked := by
  induction h with
  | @close f t next g hend hclosing hfinish =>
    refine (hf.push fun _ => ?_).finish hfinish fun _ => ⟨t, rfl⟩
    rw [hclosing]
    rfl
  | stop hend hclosing hfinish =>
    refine hf.finish hfinish fun hsome => ?_
    rw [closing?_of_stop hend hclosing] at hsome
    cases hsome
  | take _ _ hplain _ ih => exact ih (hf.push fun hline => closing?_of_plain hline hplain)
  | nest _ _ hnested _ _ _ ih ih' =>
    obtain ⟨kind, hkind, rfl⟩ := nested?_eq hnested
    exact ih' (hf.attach (ih (marked_begin hkind)) _)

end Frame

/-- AND and OR are set apart from the tokens around them. -/
theorem Token.touches_of_isLink {t : Token} (h : t.kind.isLink = true) :
    t.holds = false ∧ Draft.hugsLeft t = false := by
  rcases TokenKind.isLink_iff.mp h with h | h | h | h <;>
    simp [holds, Draft.hugsLeft, isCast, TokenKind.isOpening, h]

theorem Token.render_of_isLink (o : Options) {t : Token} (h : t.kind.isLink = true) :
    t.render o = (Token.mk (.keyword .AND) t.text).render o := by
  obtain ⟨kind, text⟩ := t
  rcases TokenKind.isLink_iff.mp h with h | h | h | h <;> · cases h; rfl

namespace Token.SameUpToLines
variable {t u : Token} (h : t.SameUpToLines u)
include h

theorem eq_or : u = t ∨ (t.kind.isLink = true ∧ u.kind.isLink = true) := by
  refine h.kind_eq_or.imp_left fun hkind => ?_
  obtain ⟨kind, text⟩ := t
  obtain ⟨kind', text'⟩ := u
  obtain rfl : kind' = kind := hkind
  obtain rfl : text' = text := h.1
  rfl

theorem holds_eq : u.holds = t.holds := by
  rcases h.eq_or with rfl | ⟨ht, hu⟩
  · rfl
  · rw [(touches_of_isLink ht).1, (touches_of_isLink hu).1]

theorem render_eq (o : Options) : u.render o = t.render o := by
  rcases h.eq_or with rfl | ⟨ht, hu⟩
  · rfl
  · rw [render_of_isLink o ht, render_of_isLink o hu, h.1]

theorem hugsLeft_eq : Draft.hugsLeft u = Draft.hugsLeft t := by
  rcases h.eq_or with rfl | ⟨ht, hu⟩
  · rfl
  · rw [(touches_of_isLink ht).2, (touches_of_isLink hu).2]

end Token.SameUpToLines

/-- The piece with AND and OR marked as its gap begins a line. -/
def Piece.reline (p : Piece) : Piece := ⟨p.gap, p.token.reline (p.gap.contains '\n')⟩

/-- A plain AND or OR does not begin a line. -/
def Piece.Calm (p : Piece) : Prop :=
  p.token.kind = .keyword .AND ∨ p.token.kind = .keyword .OR → '\n' ∉ p.gap

namespace Draft

/-- The drafts differ in the marks of AND and OR alone, and those of the second are as its lines begin. -/
structure Relines (d d' : Draft) : Prop where
  pieces : d'.pieces = d.pieces.map Piece.reline
  pending : d'.pending = d.pending
  glue : d'.glue = d.glue

/-- Two tokens are put in the same way on two drafts. -/
inductive Steps (style : CommaStyle) (t t' : Token) (d d' : Draft) : Draft → Draft → Prop
  | line (indent pad : Nat) : Steps style t t' d d' (d.line indent pad t) (d'.line indent pad t')
  | inline : Steps style t t' d d' (d.inline t) (d'.inline t')
  | spaced : Steps style t t' d d' (d.spaced t) (d'.spaced t')
  | tight : Steps style t t' d d' (d.tight t) (d'.tight t')
  | columnComma (indent : Nat) :
      Steps style t t' d d' (d.columnComma style indent t) (d'.columnComma style indent t')

variable {style : CommaStyle} {t t' : Token} {d d' e e' : Draft}

theorem Relines.newline (h : Relines d d') (indent pad : Nat) :
    Relines (d.newline indent pad) (d'.newline indent pad) where
  pieces := h.pieces
  pending := by simp [Draft.newline, h.pending]
  glue := rfl

theorem Relines.tight (h : Relines d d') (hsame : t' = t.reline (d.pending.contains '\n')) :
    Relines (d.tight t) (d'.tight t') where
  pieces := by simp [Draft.tight, h.pieces, h.pending, hsame, Piece.reline]
  pending := rfl
  glue := by
    have hholds := (reline_sameUpToLines (d.pending.contains '\n') t).holds_eq
    rw [← hsame] at hholds
    exact hholds

theorem Relines.spaced (h : Relines d d')
    (hsame : ∀ p ∈ (d.spaced t).pieces.head?, t' = t.reline (p.gap.contains '\n')) :
    Relines (d.spaced t) (d'.spaced t') := by
  unfold Draft.spaced at hsame ⊢
  rw [h.glue]
  split
  · rename_i hglue
    rw [if_pos hglue] at hsame
    exact h.tight (hsame _ rfl)
  · rename_i hglue
    rw [if_neg hglue] at hsame
    refine Relines.tight ⟨h.pieces, ?_, rfl⟩ (hsame _ rfl)
    simp [h.pending]

/-- Tokens that are put in the same way keep the drafts alike, when the second is marked as its line
begins. -/
theorem Relines.step (h : Relines d d') (hsteps : Steps style t t' d d' e e')
    (hsame : ∀ p ∈ e.pieces.head?, t' = t.reline (p.gap.contains '\n'))
    (hlike : t.SameUpToLines t') : Relines e e' := by
  cases hsteps with
  | line indent pad => exact (h.newline indent pad).tight (hsame _ rfl)
  | inline =>
    unfold Draft.inline at hsame ⊢
    rw [hlike.hugsLeft_eq]
    split
    · rename_i hhugs
      rw [if_pos hhugs] at hsame
      exact h.tight (hsame _ rfl)
    · rename_i hhugs
      rw [if_neg hhugs] at hsame
      exact h.spaced hsame
  | spaced => exact h.spaced hsame
  | tight => exact h.tight (hsame _ rfl)
  | columnComma indent =>
    cases style with
    | left => exact (h.newline indent 2).tight (hsame _ rfl)
    | right => exact (h.tight (hsame _ rfl)).newline indent 1

@[simp] theorem pending_inline (d : Draft) (t : Token) : (d.inline t).pending = [] := by
  unfold inline spaced
  split
  · rfl
  · split <;> rfl

@[simp] theorem pending_spaced (d : Draft) (t : Token) : (d.spaced t).pending = [] := by
  unfold spaced
  split <;> rfl

theorem Step.pieces {s : Spot} (h : Step style s d e) :
    ∃ gap, e.pieces = ⟨gap, s.token⟩ :: d.pieces := by
  have hspaced : ∃ gap, (d.spaced s.token).pieces = ⟨gap, s.token⟩ :: d.pieces := by
    unfold Draft.spaced
    split <;> exact ⟨_, rfl⟩
  cases h with
  | line indent pad => exact ⟨_, rfl⟩
  | inline =>
    unfold Draft.inline
    split
    · exact ⟨_, rfl⟩
    · exact hspaced
  | spaced => exact hspaced
  | tight _ => exact ⟨_, rfl⟩
  | columnComma indent _ => cases style <;> exact ⟨_, rfl⟩

theorem inline_of_pending (h : d.pending = []) (t : Token) :
    ∃ gap, '\n' ∉ gap ∧ (d.inline t).pieces = ⟨gap, t⟩ :: d.pieces := by
  unfold inline spaced
  split
  · exact ⟨[], by simp, by rw [← h]; rfl⟩
  · split
    · exact ⟨[], by simp, by rw [← h]; rfl⟩
    · exact ⟨[' '], by simp, by simp [tight, h]⟩

theorem Puts.suffix {spots : List Spot} (h : Puts style spots d e) : d.pieces <:+ e.pieces := by
  induction h with
  | nil => exact List.suffix_rfl
  | cons hstep _ ih =>
    obtain ⟨gap, hpieces⟩ := hstep.pieces
    rw [hpieces] at ih
    exact (List.suffix_cons _ _).trans ih

end Draft

namespace Layout

theorem manner_of_closing? {kind : GroupKind} (h : kind.closing?.isSome = true) :
    manner kind ≠ .columns ∧ manner kind ≠ .lock ∧ manner kind ≠ .stream := by
  cases kind <;> simp [GroupKind.closing?, manner] at h ⊢

/-- Cursors that are told apart by AND and OR alone. -/
structure Cursor.Alike (c c' : Cursor) : Prop where
  index : c'.index = c.index
  columns : c'.columns = c.columns
  depth : c'.depth = c.depth
  comma : c'.previous = some .comma ↔ c.previous = some .comma
  exists_ : c'.previous = some (.keyword .EXISTS) ↔ c.previous = some (.keyword .EXISTS)

variable {style : CommaStyle} {s : Setting} {c c' : Cursor} {t t' : Token} {d d' : Draft}

theorem Cursor.Alike.afterToken (h : c.Alike c') (hlike : t.SameUpToLines t') (s : Setting) :
    (c.afterToken s t).Alike (c'.afterToken s t') := by
  have hcomma := hlike.kind_iff (k := .comma) rfl
  have hexists := hlike.kind_iff (k := .keyword .EXISTS) rfl
  have hlist := hlike.congr (p := TokenKind.isColumnListKeyword) rfl rfl
  have hafter : ∀ depth, depthAfter depth t'.kind = depthAfter depth t.kind :=
    fun depth => hlike.congr (p := depthAfter depth) rfl rfl
  constructor <;> simp [Cursor.afterToken, h.index, h.columns, h.depth, hcomma, hexists, hlist, hafter]

theorem Cursor.Alike.afterGroup (h : c.Alike c') : c.afterGroup.Alike c'.afterGroup := by
  constructor <;> simp [Cursor.afterGroup, h.index, h.columns, h.depth]

theorem Cursor.Alike.childPlace (h : c.Alike c') (s : Setting) (kind : GroupKind) :
    childPlace s c' kind = childPlace s c kind := by
  unfold Layout.childPlace
  simp only [h.columns, h.comma, h.exists_]

theorem putToken_alike (hc : c.Alike c') : putToken style s c' t d = putToken style s c t d := by
  unfold putToken putColumnToken putCallToken putSubqueryToken
  simp only [hc.index, hc.columns, hc.depth]

theorem putToken_steps_self :
    d.Steps style t t d' (putToken style s c t d) (putToken style s c t d') := by
  unfold putToken
  split
  · unfold putColumnToken
    grind [Draft.Steps]
  · unfold putCaseToken
    dsimp only
    split <;> grind [Draft.Steps]
  · unfold putCallToken
    split <;> grind [Draft.Steps]
  · grind [Draft.Steps]
  · unfold putSubqueryToken
    grind [Draft.Steps]
  · grind [Draft.Steps]
  · grind [Draft.Steps]

/-- No manner but running text tells AND and OR from other words. -/
theorem putToken_link (hmanner : manner s.kind ≠ .stream) (ht : t.kind.isLink = true) :
    putToken style s c t d =
      match manner s.kind with
      | .columns => if c.depth = 0 ∧ c.columns = 0 then d.line s.indent 2 t else d.inline t
      | .call =>
        if c.index = 0 then
          if s.place.column = some 0 then d.line s.indent 2 t else d.spaced t
        else d.inline t
      | .parens =>
        if c.index = 0 ∧ s.place.column = some 0 then d.line s.indent 2 t else d.inline t
      | .subquery =>
        if c.index = 0 ∧ s.place.column = some 0 then d.line s.indent 0 t else d.inline t
      | .lock => if c.index = 0 then d.line s.indent 0 t else d.inline t
      | _ => d.inline t := by
  have hkind := TokenKind.isLink_iff.mp ht
  unfold putToken
  cases hm : manner s.kind with
  | columns =>
    rcases hkind with h | h | h | h <;>
      simp only [putColumnToken, h, TokenKind.isColumnListKeyword] <;> grind
  | caseExpr => rcases hkind with h | h | h | h <;> simp [putCaseToken, h]
  | call =>
    unfold putCallToken
    rcases hkind with h | h | h | h <;> grind
  | parens => rfl
  | subquery => rcases hkind with h | h | h | h <;> simp [putSubqueryToken, h]
  | lock => rcases hkind with h | h | h | h <;> simp [h]
  | stream => contradiction

theorem putToken_steps_link (hmanner : manner s.kind ≠ .stream) (ht : t.kind.isLink = true)
    (ht' : t'.kind.isLink = true) :
    d.Steps style t t' d' (putToken style s c t d) (putToken style s c t' d') := by
  rw [putToken_link hmanner ht, putToken_link hmanner ht']
  cases manner s.kind <;> grind [Draft.Steps]

theorem putToken_steps (hc : c.Alike c') (hlike : t.SameUpToLines t')
    (hstream : manner s.kind = .stream → t' = t) :
    d.Steps style t t' d' (putToken style s c t d) (putToken style s c' t' d') := by
  rw [putToken_alike hc]
  rcases hlike.eq_or with rfl | ⟨ht, ht'⟩
  · exact putToken_steps_self
  · by_cases hmanner : manner s.kind = .stream
    · rw [hstream hmanner]
      exact putToken_steps_self
    · exact putToken_steps_link hmanner ht ht'

theorem putToken_pending (hmanner : manner s.kind ≠ .columns) :
    (putToken style s c t d).pending = [] := by
  unfold putToken
  split
  · contradiction
  · unfold putCaseToken
    dsimp only
    split <;> (try split) <;> simp [Draft.line, Draft.tight]
  · unfold putCallToken
    split <;> (try split) <;> simp [Draft.line, Draft.tight]
  · split <;> simp [Draft.line, Draft.tight]
  · unfold putSubqueryToken
    split
    · rfl
    · split <;> simp [Draft.line, Draft.tight]
  · split <;> simp [Draft.line, Draft.tight]
  · split <;> simp [Draft.line, Draft.tight]

theorem putToken_inline (hclosing : s.kind.closing?.isSome = true) (hindex : c.index ≠ 0)
    (hlink : t.kind.isLink = true) : putToken style s c t d = d.inline t := by
  obtain ⟨hcolumns, hlock, hstream⟩ := manner_of_closing? hclosing
  rw [putToken_link hstream hlink]
  cases hmanner : manner s.kind <;> simp_all

theorem putElements_pending (hmanner : manner s.kind ≠ .columns) {es : List Element}
    (h : ∃ t, es.getLast? = some (.token t)) : (putElements style s c es d).pending = [] := by
  obtain ⟨t, h⟩ := h
  induction es generalizing c d with
  | nil => cases h
  | cons e es ih =>
    rw [putElements_cons]
    cases es with
    | nil =>
      obtain rfl : e = .token t := by simpa using h
      rw [putElements, putElement]
      exact putToken_pending hmanner
    | cons e' es => exact ih (by simpa [List.getLast?_cons_cons] using h)

theorem putGroup_pending {g : Group} (hg : g.Marked) (hclosing : g.kind.closing?.isSome = true)
    (place : Placement) : (putGroup style place g d).pending = [] := by
  cases hg with
  | @mk kind opener es indent _ _ hlast _ =>
    obtain ⟨t, ht⟩ := hlast hclosing
    rw [putGroup]
    refine putElements_pending (manner_of_closing? hclosing).1 ⟨t, ?_⟩
    rw [List.getLast?_cons, ht]
    rfl

theorem subset_putElements (es : List Element) : d.pieces ⊆ (putElements style s c es d).pieces :=
  (putElements_puts style s c es d).suffix.subset

theorem relines_token {b : Bool} (hd : d.Relines d') (hc : c.Alike c') (hindex : c.index ≠ 0)
    (hpending : b = false → s.kind.closing?.isSome = true → d.pending = [])
    (huncut : b = true → t.kind.isLineStart = false)
    (hplain : t.kind.isLineStart = true → s.kind.closing?.isSome = true)
    (hcalm : ∀ p ∈ (putToken style s c t d).pieces, p.Calm) :
    (putToken style s c t d).Relines (putToken style s c' (t.reline false) d') := by
  have hlike := reline_sameUpToLines false t
  obtain ⟨gap, hpieces⟩ := (putToken_step style s c t d).pieces
  refine hd.step (putToken_steps hc hlike ?_) ?_ hlike
  · intro hmanner
    refine reline_false_eq_self (Bool.eq_false_iff.mpr fun hline => ?_)
    exact (manner_of_closing? (hplain hline)).2.2 hmanner
  · intro p hp
    obtain rfl : ⟨gap, t⟩ = p := by
      rw [hpieces] at hp
      exact Option.some.inj hp
    cases hlink : t.kind.isLink with
    | false => rw [reline_eq_self hlink, reline_eq_self hlink]
    | true =>
      have hgap : '\n' ∉ gap := by
        cases hline : t.kind.isLineStart with
        | false =>
          apply hcalm ⟨gap, t⟩ (by rw [hpieces]; exact List.mem_cons_self)
          have hkind := reline_false_of_isLink hlink
          rwa [reline_false_eq_self hline] at hkind
        | true =>
          -- behind a token or a closing bracket there is no white space yet
          have hclosing := hplain hline
          have hb : b = false := by
            rw [Bool.eq_false_iff]
            intro hb
            rw [huncut hb] at hline
            cases hline
          obtain ⟨gap', hgap', hpieces'⟩ := Draft.inline_of_pending (hpending hb hclosing) t
          rw [putToken_inline hclosing hindex hlink, hpieces'] at hpieces
          cases hpieces
          exact hgap'
      rw [show gap.contains '\n' = false by simpa using hgap]

/-- The layout of a group, and that of the faded group. -/
def LaysAlike (style : CommaStyle) (g : Group) : Prop :=
  ∀ (place : Placement) (d d' : Draft), d.Relines d' →
    (∀ p ∈ (putGroup style place g d).pieces, p.Calm) →
    (putGroup style place g d).Relines (putGroup style place g.faded d')

/-- The elements behind the opener of a group are laid out as the faded elements are. -/
theorem relines_elements {es : List Element} {b : Bool} (hd : d.Relines d') (hc : c.Alike c')
    (hindex : c.index ≠ 0) (hpending : b = false → s.kind.closing?.isSome = true → d.pending = [])
    (huncut : Element.uncutAll b es = true)
    (hplain : ∀ t, .token t ∈ es → t.kind.isLineStart = true → s.kind.closing?.isSome = true)
    (hinner : ∀ g, .group g ∈ es → g.Marked ∧ (g.uncut = true → LaysAlike style g))
    (hcalm : ∀ p ∈ (putElements style s c es d).pieces, p.Calm) :
    (putElements style s c es d).Relines (putElements style s c' (es.map Element.faded) d') := by
  induction es generalizing c c' d d' b with
  | nil => simpa [putElements] using hd
  | cons e es ih =>
    rw [putElements_cons] at hcalm
    rw [putElements_cons, List.map_cons, putElements_cons]
    have hplain' := fun t ht => hplain t (List.mem_cons_of_mem e ht)
    have hinner' := fun g hg => hinner g (List.mem_cons_of_mem e hg)
    have hfirst := fun p hp => hcalm p (subset_putElements es hp)
    cases e with
    | token t =>
      rw [Element.uncutAll, Bool.and_eq_true] at huncut
      rw [putElement] at hcalm hfirst
      rw [putElement, Element.faded, putElement]
      refine ih (relines_token hd hc hindex hpending ?_ (hplain t List.mem_cons_self) hfirst)
        (hc.afterToken (reline_sameUpToLines false t) s) (by simp [Cursor.after, Cursor.afterToken])
        (fun _ hclosing => putToken_pending (manner_of_closing? hclosing).1) huncut.2 hplain' hinner'
        hcalm
      rintro rfl
      simpa using huncut.1
    | group g =>
      rw [Element.uncutAll, Bool.and_eq_true] at huncut
      obtain ⟨hmarked, halike⟩ := hinner g List.mem_cons_self
      rw [putElement] at hcalm hfirst
      rw [putElement, Element.faded, putElement, g.kind_faded, hc.childPlace]
      refine ih (halike huncut.1 _ _ _ hd hfirst) hc.afterGroup
        (by simp [Cursor.after, Cursor.afterGroup]) (fun hb _ => ?_) huncut.2 hplain' hinner' hcalm
      exact putGroup_pending hmarked (by simpa using hb) _

/-- The opener of a group is put alike; an AND or OR among openers begins a line. -/
theorem relines_opener (hd : d.Relines d') (hopener : t.kind.isLink = false ∨
      (t.kind.isLineStart = true ∧ manner s.kind = .stream)) :
    (putToken style s {} t d).Relines (putToken style s {} t d') := by
  refine hd.step putToken_steps_self ?_ (sameUpToLines_refl t)
  intro p hp
  rcases hopener with hlink | ⟨hline, hmanner⟩
  · rw [reline_eq_self hlink]
  · have hput : putToken style s {} t d = d.line s.indent 0 t := by
      unfold putToken
      rw [hmanner]
      rfl
    rw [hput] at hp
    obtain rfl := Option.some.inj hp
    have hgap : (d.newline s.indent 0).pending.contains '\n' = true := by
      simp [Draft.newline]
    rw [hgap, reline_of_isLineStart hline]

theorem laysAlike {g : Group} (hg : g.Marked) (huncut : g.uncut = true) : LaysAlike style g := by
  induction hg with
  | @mk kind opener es indent hopener hplain hlast hinner ih =>
    intro place d d' hd hcalm
    rw [Group.uncut, Element.uncutAll, Bool.and_eq_true] at huncut
    rw [putGroup, putElements_cons, putElement] at hcalm
    rw [Group.faded_cons, putGroup, putGroup, putElements_cons, putElements_cons, putElement, putElement]
    have hafter : Cursor.Alike {} {} := ⟨rfl, rfl, rfl, Iff.rfl, Iff.rfl⟩
    exact relines_elements (relines_opener hd hopener) (hafter.afterToken (sameUpToLines_refl opener) _)
      (by simp [Cursor.after, Cursor.afterToken])
      (fun _ hclosing => putToken_pending (manner_of_closing? hclosing).1) huncut.2 hplain
      (fun g hg => ⟨hinner g hg, ih g hg⟩) hcalm

theorem relines_groups {groups : List Group} (hd : d.Relines d')
    (hgroups : ∀ g ∈ groups, g.Marked ∧ g.uncut = true)
    (hcalm : ∀ p ∈ (putGroups style groups d).pieces, p.Calm) :
    (putGroups style groups d).Relines (putGroups style (groups.map Group.faded) d') := by
  induction groups generalizing d d' with
  | nil => exact hd
  | cons g groups ih =>
    obtain ⟨⟨hmarked, huncut⟩, hgroups⟩ := List.forall_mem_cons.mp hgroups
    have hfirst := fun p hp => hcalm p ((putGroups_puts style groups _).suffix.subset hp)
    exact ih (laysAlike hmarked huncut {} d d' hd hfirst) hgroups hcalm

theorem relines_statement {s : Statement} (hd : d.Relines d')
    (hgroups : ∀ g ∈ s.groups, g.Marked ∧ g.uncut = true)
    (hterminator : ∀ t ∈ s.terminator, t.kind = .semicolon)
    (hcalm : ∀ p ∈ (putStatement style d s).pieces, p.Calm) :
    (putStatement style d s).Relines (putStatement style d' s.faded) := by
  unfold putStatement at hcalm ⊢
  cases hs : s.terminator with
  | none =>
    rw [hs] at hcalm
    simpa [Statement.faded, hs] using relines_groups hd hgroups hcalm
  | some t =>
    rw [hs] at hcalm
    have hlink : t.kind.isLink = false := by
      rw [hterminator t hs]
      rfl
    have hgroups := relines_groups hd hgroups fun p hp => hcalm p (List.mem_cons_of_mem _ hp)
    simpa [Statement.faded, hs] using hgroups.tight (reline_eq_self hlink _).symm

theorem relines_statements {ss : List Statement} (hd : d.Relines d')
    (hgroups : ∀ s ∈ ss, ∀ g ∈ s.groups, g.Marked ∧ g.uncut = true)
    (hterminator : ∀ s ∈ ss, ∀ t ∈ s.terminator, t.kind = .semicolon)
    (hcalm : ∀ p ∈ (ss.foldl (putStatement style) d).pieces, p.Calm) :
    (ss.foldl (putStatement style) d).Relines
      ((ss.map Statement.faded).foldl (putStatement style) d') := by
  induction ss generalizing d d' with
  | nil => exact hd
  | cons s ss ih =>
    obtain ⟨hs, hss⟩ := List.forall_mem_cons.mp hgroups
    obtain ⟨ht, hts⟩ := List.forall_mem_cons.mp hterminator
    have hfirst := fun p hp => hcalm p ((foldl_putStatement_puts style ss _).suffix.subset hp)
    exact ih (relines_statement hd hs ht hfirst) hss hts hcalm

/-- A script is laid out as the faded script is, when no plain AND or OR begins a line. -/
theorem relines_draft {ss : List Statement}
    (hgroups : ∀ s ∈ ss, ∀ g ∈ s.groups, g.Marked ∧ g.uncut = true)
    (hterminator : ∀ s ∈ ss, ∀ t ∈ s.terminator, t.kind = .semicolon)
    (hcalm : ∀ p ∈ (draft style ss).pieces, p.Calm) :
    (draft style ss).Relines (draft style (ss.map Statement.faded)) :=
  relines_statements ⟨rfl, rfl, rfl⟩ hgroups hterminator hcalm

end Layout

theorem Stage.isLink_of_start {last : Option Group} {position : Nat} {t : Token} {next : Option Stage}
    (h : Stage.start.next last position t = .ok next) : t.kind.isLink = false := by
  rw [Bool.eq_false_iff]
  intro hlink
  rcases TokenKind.isLink_iff.mp hlink with hkind | hkind | hkind | hkind <;>
    simp [Stage.next, Stage.lead, hkind] at h

namespace Statement

theorem Parses.isLink_head {base : Nat} {ts : List Token} {ss : List Statement} (h : Parses base ts ss) :
    ∀ t ∈ ts.head?, t.kind.isLink = false := by
  have hread : ∀ {base : Nat} {body : List Token} {groups : List Group}, body ≠ [] →
      readFrom base (body ++ [Token.eof]) = .ok groups → ∀ t ∈ body.head?, t.kind.isLink = false := by
    intro base body groups hne hread t ht
    obtain ⟨u, body, rfl⟩ := List.exists_cons_of_ne_nil hne
    obtain rfl : u = t := Option.some.inj ht
    obtain ⟨⟨p, e, hgroups, -⟩, -⟩ := readFrom_ok_iff.mp hread
    cases hnext : Stage.start.next none base u with
    | ok next => exact Stage.isLink_of_start hnext
    | error e =>
      rw [List.cons_append, readGroups, List.head?_nil, hnext] at hgroups
      cases hgroups
  cases h with
  | nil => simp
  | last hne _ h => exact hread hne h
  | @cons _ body ts _ semicolon _ hne _ h _ _ =>
    intro t ht
    apply hread hne h t
    cases body with
    | nil => exact absurd rfl hne
    | cons u body => exact ht

theorem Parsed.marked {s : Statement} (h : Parsed s) : ∀ g ∈ s.groups, g.Marked := by
  obtain ⟨base, body, -, -, hread⟩ := h.read
  refine readFrom_forall (fun position tokens r hr => ?_) hread
  obtain ⟨t, next, kind, -, hkind, hreads⟩ := Group.retrieve?_ok_iff.mp hr
  exact hreads.marked (Frame.marked_begin hkind)

end Statement

namespace Piece

theorem relined_eq_map (pieces : List Piece) :
    relined false pieces = pieces.map fun p => p.reline.token := by
  induction pieces with
  | nil => rfl
  | cons p pieces ih => rw [relined, ih, Bool.false_or, List.map_cons, reline]

end Piece

theorem Draft.Relines.text {d d' : Draft} (h : d.Relines d') (o : Options) : d'.text o = d.text o := by
  have hrender : ∀ p : Piece, p.reline.token.render o = p.token.render o :=
    fun p => (reline_sameUpToLines _ p.token).render_eq o
  rw [Draft.text, Draft.text, h.pieces, h.pending, ← List.map_reverse, List.flatMap_map]
  simp only [hrender]
  rfl

end SqlLayout
