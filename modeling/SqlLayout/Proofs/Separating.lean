import Mathlib.Algebra.GroupWithZero.Nat
import SqlLayout.Proofs.Alignment
import SqlLayout.Proofs.Weaving

/-! Commas between columns. In a list of columns a comma outside brackets and braces separates two of
them, and only there the comma style is read. Either style writes one newline for it, before it or behind
it, so that the layouts of a script in two styles go side by side: they differ in nothing but the white
space before such a comma and right behind it. -/

namespace SqlLayout
set_option autoImplicit false

/-- The groups that are lists of columns. -/
def GroupKind.listsColumns (kind : GroupKind) : Bool :=
  kind ∈ [.select, .update, .setClause, .orderBy, .groupBy, .returning]

/-- A token of a script, and whether it is a comma between two columns. -/
structure Listed where
  token : Token
  separates : Bool
deriving DecidableEq, Repr

/-- The token of a group that stands behind `depth` open brackets and braces. -/
def Listed.inGroup (kind : GroupKind) (depth : Nat) (t : Token) : Listed :=
  ⟨t, kind.listsColumns && depth = 0 && t.kind = .comma⟩

/-- How many brackets and braces of a group are open behind an element. Those of nested groups do not
count. -/
def Element.depthBehind (depth : Nat) : Element → Nat
  | .token t => Layout.depthAfter depth t.kind
  | .group _ => depth

mutual

/-- The listed tokens of an element that stands in a group behind `depth` open brackets. -/
def Element.listed (kind : GroupKind) (depth : Nat) : Element → List Listed
  | .token t => [.inGroup kind depth t]
  | .group g => g.listed

def Group.listed : Group → List Listed
  | .mk kind elements _ => Element.listedFrom kind 0 elements

/-- The listed tokens of the elements of a group from some depth on. -/
def Element.listedFrom (kind : GroupKind) (depth : Nat) : List Element → List Listed
  | [] => []
  | e :: es => e.listed kind depth ++ Element.listedFrom kind (e.depthBehind depth) es

end

/-- The listed tokens of a statement. -/
def Statement.listed (s : Statement) : List Listed :=
  s.groups.flatMap Group.listed ++ s.terminator.toList.map (⟨·, false⟩)

/-- Commas of a call and of an array separate no columns. -/
example :
    let call : Group := .mk .call [.token ⟨.function, "F"⟩, .token ⟨.openParen, "("⟩,
      .token ⟨.ident, "a"⟩, .token ⟨.comma, ","⟩, .token ⟨.ident, "b"⟩, .token ⟨.closeParen, ")"⟩] 0
    let select : Group := .mk .select [.token ⟨.keyword .SELECT, "SELECT"⟩, .group call,
      .token ⟨.comma, ","⟩, .token ⟨.openBracket, "["⟩, .token ⟨.ident, "c"⟩, .token ⟨.comma, ","⟩,
      .token ⟨.ident, "d"⟩, .token ⟨.closeBracket, "]"⟩] 0
    select.listed.map (fun l => if l.separates then l.token.text else "") =
      ["", "", "", "", "", "", "", ",", "", "", "", "", ""] := by
  decide

mutual

theorem Element.map_listed (kind : GroupKind) (depth : Nat) (e : Element) :
    (e.listed kind depth).map Listed.token = e.tokens := by
  match e with
  | .token t => rfl
  | .group g =>
    rw [Element.listed, Element.tokens]
    exact g.map_listed

theorem Group.map_listed (g : Group) : g.listed.map Listed.token = g.tokens := by
  match g with
  | .mk kind elements _ =>
    rw [Group.listed, Group.tokens]
    exact Element.map_listedFrom kind 0 elements

theorem Element.map_listedFrom (kind : GroupKind) (depth : Nat) (es : List Element) :
    (Element.listedFrom kind depth es).map Listed.token = Element.tokensOf es := by
  match es with
  | [] => rfl
  | e :: es =>
    rw [Element.listedFrom, Element.tokensOf, List.map_append, e.map_listed, Element.map_listedFrom]

end

theorem Statement.map_listed (ss : List Statement) :
    (ss.flatMap Statement.listed).map Listed.token = ss.flatMap Statement.tokens := by
  rw [List.map_flatMap]
  congr 1
  funext s
  rw [Statement.listed, List.map_append, List.map_flatMap, Statement.tokens, Group.tokensOf,
    List.map_map, funext Group.map_listed]
  exact congrArg _ (List.map_id _)

/-- A token of a script with the white space before it, in one layout and in another. -/
structure Strand where
  listed : Listed
  gap : List Char
  gap' : List Char
deriving DecidableEq, Repr

namespace Strand

def piece (w : Strand) : Piece := ⟨w.gap, w.listed.token⟩

def piece' (w : Strand) : Piece := ⟨w.gap', w.listed.token⟩

/-- The white space differs only before a comma between two columns and right behind it. -/
def Steady (ws : List Strand) : Prop :=
  ∀ before w after, ws = before ++ w :: after → w.listed.separates = false →
    (∀ v ∈ before.getLast?, v.listed.separates = false) → w.gap = w.gap'

theorem Steady.concat {ws : List Strand} (h : Steady ws) {u : Strand}
    (hu : u.listed.separates = false → (∀ v ∈ ws.getLast?, v.listed.separates = false) →
      u.gap = u.gap') : Steady (ws ++ [u]) := by
  intro before w after hsplit hw hbefore
  rcases List.eq_nil_or_concat' after with rfl | ⟨after, v, rfl⟩
  · obtain ⟨rfl, hlast⟩ := List.append_inj' hsplit rfl
    obtain rfl : u = w := by simpa using hlast
    exact hu hw hbefore
  · rw [← List.cons_append, ← List.append_assoc] at hsplit
    exact h before w after (List.append_inj' hsplit rfl).1 hw hbefore

end Strand

namespace Draft

def newlines (d : Draft) : Nat :=
  (d.pieces.map fun p => p.gap.count '\n').sum + d.pending.count '\n'

theorem newlines_tight (d : Draft) (t : Token) : (d.tight t).newlines = d.newlines := by
  simp [newlines, tight, Nat.add_comm]

theorem newlines_newline (d : Draft) (indent pad : Nat) :
    (d.newline indent pad).newlines = d.newlines + 1 := by
  simp [newlines, newline, List.count_replicate]
  omega

theorem newlines_columnComma (d : Draft) (style : CommaStyle) (indent : Nat) (t : Token) :
    (d.columnComma style indent t).newlines = d.newlines + 1 := by
  cases style with
  | left => exact (newlines_tight _ t).trans (newlines_newline d indent 2)
  | right => exact (newlines_newline _ indent 1).trans (by rw [newlines_tight])

/-- Two drafts of the same tokens that differ only at the commas between columns. -/
structure Level (ls : List Listed) (d d' : Draft) : Prop where
  strands : ∃ ws : List Strand, ws.map Strand.listed = ls ∧ Strand.Steady ws ∧
    d.pieces.reverse = ws.map Strand.piece ∧ d'.pieces.reverse = ws.map Strand.piece'
  pending : (∀ l ∈ ls.getLast?, l.separates = false) → d.pending = d'.pending
  glue : d.glue = d'.glue
  newlines : d.newlines = d'.newlines

variable {ls : List Listed} {d d' e e' : Draft} {t : Token}

theorem level_empty : Level [] {} {} where
  strands := ⟨[], rfl, by simp [Strand.Steady], rfl, rfl⟩
  pending := fun _ => rfl
  glue := rfl
  newlines := rfl

/-- The next token may have any gaps when it is a comma between columns, else the white space that is
pending. -/
theorem Level.push (h : Level ls d d') {l : Listed} {gap gap' : List Char}
    (hpieces : e.pieces = ⟨gap, l.token⟩ :: d.pieces)
    (hpieces' : e'.pieces = ⟨gap', l.token⟩ :: d'.pieces)
    (hgap : l.separates = false → (∀ m ∈ ls.getLast?, m.separates = false) → gap = gap')
    (hpending : l.separates = false → e.pending = e'.pending)
    (hglue : e.glue = e'.glue) (hnewlines : e.newlines = e'.newlines) :
    Level (ls ++ [l]) e e' where
  strands := by
    obtain ⟨ws, rfl, hsteady, hd, hd'⟩ := h.strands
    refine ⟨ws ++ [⟨l, gap, gap'⟩], by simp, ?_, ?_, ?_⟩
    · apply hsteady.concat
      intro hl hlast
      refine hgap hl ?_
      rw [List.getLast?_map]
      intro m hm
      obtain ⟨v, hv, rfl⟩ := Option.map_eq_some_iff.mp hm
      exact hlast v hv
    · rw [hpieces, List.reverse_cons, hd, List.map_append]
      rfl
    · rw [hpieces', List.reverse_cons, hd', List.map_append]
      rfl
  pending := by
    rw [List.getLast?_concat]
    exact fun hl => hpending (hl l rfl)
  glue := hglue
  newlines := hnewlines

theorem Level.newline (h : Level ls d d') (indent pad : Nat) :
    Level ls (d.newline indent pad) (d'.newline indent pad) where
  strands := h.strands
  pending := by
    intro hlast
    rw [Draft.newline, Draft.newline, h.pending hlast]
  glue := rfl
  newlines := by rw [newlines_newline, newlines_newline, h.newlines]

theorem Level.tight (h : Level ls d d') (l : Listed) :
    Level (ls ++ [l]) (d.tight l.token) (d'.tight l.token) :=
  h.push rfl rfl (fun _ => h.pending) (fun _ => rfl) rfl (by
    rw [newlines_tight, newlines_tight, h.newlines])

theorem Level.spaced (h : Level ls d d') (l : Listed) :
    Level (ls ++ [l]) (d.spaced l.token) (d'.spaced l.token) := by
  have hspace : Level ls { d with pending := d.pending ++ [' '] }
      { d' with pending := d'.pending ++ [' '] } := by
    refine ⟨h.strands, ?_, h.glue, ?_⟩
    · intro hlast
      show d.pending ++ [' '] = d'.pending ++ [' ']
      rw [h.pending hlast]
    · have hnewlines := h.newlines
      simpa [Draft.newlines] using hnewlines
  unfold Draft.spaced
  by_cases hglue : d.glue = true
  · rw [if_pos hglue, if_pos (h.glue ▸ hglue)]
    exact h.tight l
  · rw [if_neg hglue, if_neg (h.glue ▸ hglue)]
    exact hspace.tight l

theorem Level.inline (h : Level ls d d') (l : Listed) :
    Level (ls ++ [l]) (d.inline l.token) (d'.inline l.token) := by
  unfold Draft.inline
  split
  · exact h.tight l
  · exact h.spaced l

theorem columnComma_eq (style : CommaStyle) (indent : Nat) (ht : t.kind = .comma) :
    (∃ gap, (d.columnComma style indent t).pieces = ⟨gap, t⟩ :: d.pieces) ∧
      (d.columnComma style indent t).glue = false := by
  cases style with
  | left => exact ⟨⟨_, rfl⟩, by
      simp [columnComma, line, Draft.tight, Token.isCast, TokenKind.isOpening, ht]⟩
  | right => exact ⟨⟨_, rfl⟩, rfl⟩

theorem Level.columnComma (h : Level ls d d') {l : Listed} (hl : l.separates = true)
    (ht : l.token.kind = .comma) (style style' : CommaStyle) (indent : Nat) :
    Level (ls ++ [l]) (d.columnComma style indent l.token)
      (d'.columnComma style' indent l.token) := by
  obtain ⟨⟨gap, hpieces⟩, hglue⟩ := columnComma_eq (d := d) style indent ht
  obtain ⟨⟨gap', hpieces'⟩, hglue'⟩ := columnComma_eq (d := d') style' indent ht
  refine h.push hpieces hpieces' ?_ ?_ (hglue.trans hglue'.symm) ?_
  · simp [hl]
  · simp [hl]
  · rw [newlines_columnComma, newlines_columnComma, h.newlines]

/-- Every other token is put in one way. -/
theorem Level.step (h : Level ls d d') (l : Listed)
    (hsteps : Steps .left l.token l.token d d' e e') : Level (ls ++ [l]) e e' := by
  cases hsteps with
  | line indent pad => exact (h.newline indent pad).tight l
  | inline => exact h.inline l
  | spaced => exact h.spaced l
  | tight => exact h.tight l
  | columnComma indent => exact (h.newline indent 2).tight l

end Draft

namespace Layout

theorem manner_columns_iff {kind : GroupKind} : manner kind = .columns ↔ kind.listsColumns = true := by
  cases kind <;> simp [manner, GroupKind.listsColumns]

@[simp] theorem Cursor.depth_after (s : Setting) (c : Cursor)
    (e : Element) :
    (c.after s e).depth = e.depthBehind c.depth := by
  cases e with
  | token t =>
    simp only [Cursor.after, Cursor.afterToken, Element.depthBehind]
    split
    · rfl
    · rename_i htracks
      -- commas and keywords are no brackets
      have hplain : t.kind = .comma ∨ t.kind.isColumnListKeyword = true := by
        simp at htracks
        tauto
      rcases hplain with hkind | hkind
      · rw [hkind]
        rfl
      · unfold TokenKind.isColumnListKeyword at hkind
        split at hkind
        · rename_i hk
          rw [hk]
          rfl
        · cases hkind
  | group g => rfl

/-- The comma style is read for the commas between columns alone. -/
theorem putToken_left {s : Setting} {c : Cursor} {t : Token}
    (h : (Listed.inGroup s.kind c.depth t).separates = false) (style : CommaStyle) (d : Draft) :
    putToken style s c t d = putToken .left s c t d := by
  unfold putToken
  split
  · rename_i hmanner
    have hcolumns := manner_columns_iff.mp hmanner
    unfold putColumnToken
    by_cases hdepth : 0 < c.depth
    · rw [if_pos hdepth, if_pos hdepth]
    · by_cases hcomma : t.kind = .comma
      · simp [Listed.inGroup, hcolumns, hcomma] at h
        omega
      · rw [if_neg hdepth, if_neg hdepth, if_neg hcomma, if_neg hcomma]
  all_goals rfl

theorem putToken_columnComma {s : Setting} {c : Cursor} {t : Token}
    (h : (Listed.inGroup s.kind c.depth t).separates = true) (style : CommaStyle) (d : Draft) :
    t.kind = .comma ∧ putToken style s c t d = d.columnComma style s.indent t := by
  simp only [Listed.inGroup, Bool.and_eq_true, decide_eq_true_eq] at h
  obtain ⟨⟨hcolumns, hdepth⟩, hcomma⟩ := h
  refine ⟨hcomma, ?_⟩
  rw [putToken, manner_columns_iff.mpr hcolumns]
  simp [putColumnToken, hdepth, hcomma]

variable (style style' : CommaStyle)

theorem putToken_level {ls : List Listed} {d d' : Draft} (h : d.Level ls d') (s : Setting) (c : Cursor)
    (t : Token) :
    (putToken style s c t d).Level (ls ++ [.inGroup s.kind c.depth t])
      (putToken style' s c t d') := by
  cases hseparates : (Listed.inGroup s.kind c.depth t).separates with
  | true =>
    obtain ⟨hcomma, hput⟩ := putToken_columnComma hseparates style d
    obtain ⟨-, hput'⟩ := putToken_columnComma hseparates style' d'
    rw [hput, hput']
    exact h.columnComma hseparates hcomma style style' s.indent
  | false =>
    rw [putToken_left hseparates style, putToken_left hseparates style']
    exact h.step (.inGroup s.kind c.depth t) putToken_steps_self

mutual

theorem putElement_level {ls : List Listed} {d d' : Draft} (h : d.Level ls d') (s : Setting) (c : Cursor)
    (e : Element) :
    (putElement style s c e d).Level (ls ++ e.listed s.kind c.depth)
      (putElement style' s c e d') := by
  match e with
  | .token t =>
    rw [putElement, putElement, Element.listed]
    exact putToken_level style style' h s c t
  | .group g =>
    rw [putElement, putElement, Element.listed]
    exact putGroup_level h _ g

theorem putGroup_level {ls : List Listed} {d d' : Draft} (h : d.Level ls d') (place : Placement)
    (g : Group) :
    (putGroup style place g d).Level (ls ++ g.listed) (putGroup style' place g d') := by
  match g with
  | .mk kind elements indent =>
    rw [putGroup, putGroup, Group.listed]
    exact putElements_level h ⟨kind, indent + place.bonus, place⟩ {} elements

theorem putElements_level {ls : List Listed} {d d' : Draft} (h : d.Level ls d') (s : Setting) (c : Cursor)
    (es : List Element) :
    (putElements style s c es d).Level (ls ++ Element.listedFrom s.kind c.depth es)
      (putElements style' s c es d') := by
  match es with
  | [] =>
    rw [putElements, putElements, Element.listedFrom, List.append_nil]
    exact h
  | e :: es =>
    rw [putElements_cons, putElements_cons, Element.listedFrom, ← List.append_assoc,
      ← Cursor.depth_after s c e]
    exact putElements_level (putElement_level h s c e) s (c.after s e) es

end

theorem putGroups_level {ls : List Listed} {d d' : Draft} (h : d.Level ls d') (groups : List Group) :
    (putGroups style groups d).Level (ls ++ groups.flatMap Group.listed)
      (putGroups style' groups d') := by
  induction groups generalizing d d' ls with
  | nil => simpa [putGroups] using h
  | cons g groups ih =>
    rw [List.flatMap_cons, ← List.append_assoc]
    exact ih (putGroup_level style style' h {} g)

theorem putStatement_level {ls : List Listed} {d d' : Draft} (h : d.Level ls d') (s : Statement) :
    (putStatement style d s).Level (ls ++ s.listed) (putStatement style' d' s) := by
  have hgroups := putGroups_level style style' h s.groups
  unfold putStatement Statement.listed
  cases s.terminator with
  | none => simpa using hgroups
  | some t =>
    rw [← List.append_assoc]
    exact hgroups.tight ⟨t, false⟩

theorem foldl_putStatement_level {ls : List Listed} {d d' : Draft} (h : d.Level ls d')
    (ss : List Statement) :
    (ss.foldl (putStatement style) d).Level (ls ++ ss.flatMap Statement.listed)
      (ss.foldl (putStatement style') d') := by
  induction ss generalizing d d' ls with
  | nil => simpa using h
  | cons s ss ih =>
    rw [List.flatMap_cons, ← List.append_assoc]
    exact ih (putStatement_level style style' h s)

theorem draft_level (ss : List Statement) :
    (draft style ss).Level (ss.flatMap Statement.listed) (draft style' ss) :=
  foldl_putStatement_level style style' Draft.level_empty ss

theorem draft_blank (style : CommaStyle) (ss : List Statement) :
    (∀ p ∈ (draft style ss).pieces, ∀ c ∈ p.gap, c = ' ' ∨ c = '\n') ∧
      ∀ c ∈ (draft style ss).pending, c = ' ' ∨ c = '\n' := by
  obtain ⟨ws, -, hwoven⟩ := draft_woven style ss
  refine ⟨?_, hwoven.pending⟩
  rw [hwoven.pieces, List.forall_mem_map]
  exact hwoven.blank

end Layout

/-- The text that is woven of tokens and the white space before them. -/
def Strand.text (o : Options) (gap : Strand → List Char) (ws : List Strand) : List Char :=
  ws.flatMap fun w => gap w ++ (w.listed.token.render o).toList

theorem Draft.text_of_strands {d : Draft} {ws : List Strand} {gap : Strand → List Char}
    (h : d.pieces.reverse = ws.map fun w => ⟨gap w, w.listed.token⟩) (o : Options) :
    d.text o = Strand.text o gap ws ++ d.pending := by
  rw [Draft.text, h, List.flatMap_map]
  rfl

theorem count_newline_pieces (o : Options) (pieces : List Piece) :
    (pieces.flatMap fun p => p.gap ++ (p.token.render o).toList).count '\n' =
      (pieces.map fun p => p.gap.count '\n').sum +
        (pieces.map fun p => (p.token.render o).toList.count '\n').sum := by
  induction pieces with
  | nil => rfl
  | cons p pieces ih =>
    simp only [List.flatMap_cons, List.count_append, List.map_cons, List.sum_cons, ih]
    omega

theorem Draft.count_newline_text (o : Options) (d : Draft) :
    (d.text o).count '\n' =
      d.newlines + (d.tokens.map fun t => (t.render o).toList.count '\n').sum := by
  rw [Draft.text, List.count_append, count_newline_pieces, Draft.newlines, Draft.tokens, List.map_map,
    List.map_reverse, List.sum_reverse]
  simp only [List.map_reverse, List.sum_reverse, Function.comp_def]
  omega

/-- A script has a layout in every comma style or fails with the same fault in each. Two of its layouts
have the same tokens in the same order and the same number of newlines. The white space before a token is
the same in both, unless the token is a comma between two columns or stands right behind one. -/
theorem layOut_comma_style (o : Options) (style style' : CommaStyle) (ss : List Statement) :
    (ss.flatMap Statement.listed).map Listed.token = ss.flatMap Statement.tokens ∧
    ((∃ fault, layOut { o with commaStyle := style } ss = .error fault ∧
        layOut { o with commaStyle := style' } ss = .error fault) ∨
      ∃ text text', layOut { o with commaStyle := style } ss = .ok text ∧
        layOut { o with commaStyle := style' } ss = .ok text' ∧
        text.count '\n' = text'.count '\n' ∧
        ∃ ws : List Strand, ∃ last last' : List Char,
          ws.map Strand.listed = ss.flatMap Statement.listed ∧
          text = Strand.text o Strand.gap ws ++ last ∧ text' = Strand.text o Strand.gap' ws ++ last' ∧
          (∀ w ∈ ws, ∀ c ∈ w.gap ++ w.gap', c = ' ' ∨ c = '\n') ∧
          (∀ c ∈ last ++ last', c = ' ' ∨ c = '\n') ∧ Strand.Steady ws ∧
          ((∀ w ∈ ws.getLast?, w.listed.separates = false) → last = last')) := by
  refine ⟨Statement.map_listed ss, ?_⟩
  cases hfault : Layout.fault? (ss.flatMap Statement.groups) with
  | some fault =>
    left
    refine ⟨fault, ?_, ?_⟩ <;> rw [layOut, hfault]
  | none =>
    right
    have hlevel := Layout.draft_level style style' ss
    obtain ⟨ws, hlisted, hsteady, hd, hd'⟩ := hlevel.strands
    have htokens : (Layout.draft style ss).tokens = (Layout.draft style' ss).tokens := by
      rw [Layout.draft_tokens, Layout.draft_tokens]
    refine ⟨(Layout.draft style ss).text o, (Layout.draft style' ss).text o, ?_, ?_, ?_, ws, _, _,
      hlisted, Draft.text_of_strands hd o, Draft.text_of_strands hd' o, ?_, ?_, hsteady, ?_⟩
    · rw [layOut, hfault]
      rfl
    · rw [layOut, hfault]
      rfl
    · rw [Draft.count_newline_text, Draft.count_newline_text, hlevel.newlines, htokens]
    · intro w hw
      have hblank := (Layout.draft_blank style ss).1 w.piece
        (List.mem_reverse.mp (hd ▸ List.mem_map_of_mem hw))
      have hblank' := (Layout.draft_blank style' ss).1 w.piece'
        (List.mem_reverse.mp (hd' ▸ List.mem_map_of_mem hw))
      exact List.forall_mem_append.mpr ⟨hblank, hblank'⟩
    · exact List.forall_mem_append.mpr
        ⟨(Layout.draft_blank style ss).2, (Layout.draft_blank style' ss).2⟩
    · intro hlast
      refine hlevel.pending ?_
      rw [← hlisted, List.getLast?_map]
      intro l hl
      obtain ⟨w, hw, rfl⟩ := Option.map_eq_some_iff.mp hl
      exact hlast w hw

example :
    let select : Group := .mk .select [.token ⟨.keyword .SELECT, "SELECT"⟩, .token ⟨.ident, "a"⟩,
      .token ⟨.comma, ","⟩, .token ⟨.ident, "b"⟩] 0
    layOut { commaStyle := .left } [⟨[select], none⟩] = .ok "\nSELECT\n  a\n  , b".toList ∧
      layOut { commaStyle := .right } [⟨[select], none⟩] = .ok "\nSELECT\n  a,\n  b".toList := by
  intro select
  exact ⟨rfl, rfl⟩

end SqlLayout
