import Mathlib.Data.List.Chain
import SqlLayout.Format
import SqlLayout.Proofs.Reading

/-! What a layout does with tokens. Every manner puts each token of a group once and in order, by one
of a few steps. It sets tokens apart by spaces and newlines; two tokens touch only where a bracket
that opens, a cast, or a mark stands between them. -/

namespace SqlLayout
set_option autoImplicit false

namespace Token

def holds (t : Token) : Bool := t.kind.isOpening || t.isCast

def hugs (t : Token) : Bool := Draft.hugsLeft t || t.kind = .openParen

end Token

/-- A token of a script. The layout puts a bound token right behind the token before it, whatever that
is: the parenthesis of a call behind its name, and the semicolon of a statement. -/
structure Spot where
  token : Token
  bound : Bool
deriving DecidableEq, Repr

namespace Spot

def hugs (s : Spot) : Bool := Draft.hugsLeft s.token || s.bound

/-- The spot of a token that stands at an index in a group. -/
def inGroup (kind : GroupKind) (index : Nat) (t : Token) : Spot :=
  ⟨t, (kind = .call || kind = .typeCall) && index = 1 && t.kind = .openParen⟩

theorem kind_of_bound_inGroup {kind : GroupKind} {index : Nat} {t : Token}
    (h : (inGroup kind index t).bound = true) : t.kind = .openParen := by
  simp [inGroup] at h
  exact h.2

end Spot

mutual

/-- The spots of an element that stands at an index in a group. -/
def Element.spots (kind : GroupKind) (index : Nat) : Element → List Spot
  | .token t => [.inGroup kind index t]
  | .group g => g.spots

def Group.spots : Group → List Spot
  | .mk kind elements _ => Element.spotsOf kind 0 elements

/-- The spots of the elements of a group from an index on. -/
def Element.spotsOf (kind : GroupKind) (index : Nat) : List Element → List Spot
  | [] => []
  | e :: es => e.spots kind index ++ Element.spotsOf kind (index + 1) es

end

def Statement.spots (s : Statement) : List Spot :=
  s.groups.flatMap Group.spots ++ s.terminator.toList.map (⟨·, true⟩)

mutual

theorem Element.map_spots (kind : GroupKind) (index : Nat) (e : Element) :
    (e.spots kind index).map Spot.token = e.tokens := by
  match e with
  | .token t => rfl
  | .group g =>
    rw [Element.spots, Element.tokens]
    exact g.map_spots

theorem Group.map_spots (g : Group) : g.spots.map Spot.token = g.tokens := by
  match g with
  | .mk kind elements _ =>
    rw [Group.spots, Group.tokens]
    exact Element.map_spotsOf kind 0 elements

theorem Element.map_spotsOf (kind : GroupKind) (index : Nat) (es : List Element) :
    (Element.spotsOf kind index es).map Spot.token = Element.tokensOf es := by
  match es with
  | [] => rfl
  | e :: es =>
    rw [Element.spotsOf, Element.tokensOf, List.map_append, e.map_spots, Element.map_spotsOf]

end

theorem Statement.map_spots (ss : List Statement) :
    (ss.flatMap Statement.spots).map Spot.token = ss.flatMap Statement.tokens := by
  rw [List.map_flatMap]
  congr 1
  funext s
  rw [Statement.spots, List.map_append, List.map_flatMap, Statement.tokens, Group.tokensOf,
    List.map_map, funext Group.map_spots]
  exact congrArg _ (List.map_id _)

mutual

/-- In groups only parentheses are bound. -/
theorem Element.bound_spots {kind : GroupKind} {index : Nat} {e : Element} {s : Spot}
    (hs : s ∈ e.spots kind index) (h : s.bound = true) : s.token.kind = .openParen := by
  match e with
  | .token t =>
    rw [Element.spots, List.mem_singleton] at hs
    subst hs
    exact Spot.kind_of_bound_inGroup h
  | .group g =>
    rw [Element.spots] at hs
    exact g.bound_spots hs h

theorem Group.bound_spots {g : Group} {s : Spot} (hs : s ∈ g.spots) (h : s.bound = true) :
    s.token.kind = .openParen := by
  match g with
  | .mk kind elements _ =>
    rw [Group.spots] at hs
    exact Element.bound_spotsOf hs h

theorem Element.bound_spotsOf {kind : GroupKind} {index : Nat} {es : List Element} {s : Spot}
    (hs : s ∈ Element.spotsOf kind index es) (h : s.bound = true) : s.token.kind = .openParen := by
  match es with
  | [] => cases hs
  | e :: es =>
    rw [Element.spotsOf, List.mem_append] at hs
    rcases hs with hs | hs
    · exact e.bound_spots hs h
    · exact Element.bound_spotsOf hs h

end

/-- A spot with the white space before it. -/
structure Thread where
  gap : List Char
  spot : Spot
deriving DecidableEq, Repr

namespace Thread

def piece (w : Thread) : Piece := ⟨w.gap, w.spot.token⟩

/-- The next thread is set apart, unless the two may touch. -/
def Apart (w next : Thread) : Prop :=
  next.gap = [] → w.spot.token.holds = true ∨ next.spot.hugs = true

end Thread

namespace Draft

def tokens (d : Draft) : List Token := d.pieces.reverse.map Piece.token

/-- The draft is made of the threads, newest first. Gaps are made of spaces and newlines, and a gap is
empty only between tokens that may touch. -/
structure Woven (d : Draft) (ws : List Thread) : Prop where
  pieces : d.pieces = ws.map Thread.piece
  blank : ∀ w ∈ ws, ∀ c ∈ w.gap, c = ' ' ∨ c = '\n'
  pending : ∀ c ∈ d.pending, c = ' ' ∨ c = '\n'
  apart : ws.IsChain fun w v => v.Apart w
  glue : d.glue = true → ∀ w ∈ ws.head?, w.spot.token.holds = true

theorem woven_empty : ({} : Draft).Woven [] where
  pieces := rfl
  blank := by simp
  pending := by simp
  apart := .nil
  glue := by simp

section Woven
variable {d : Draft} {ws : List Thread}

theorem Woven.newline (hd : d.Woven ws) (indent pad : Nat) : (d.newline indent pad).Woven ws where
  pieces := hd.pieces
  blank := hd.blank
  pending := by
    intro c hc
    rcases List.mem_append.mp hc with hc | hc
    · exact hd.pending c hc
    · rcases List.mem_cons.mp hc with rfl | hc
      · exact Or.inr rfl
      · exact Or.inl (List.eq_of_mem_replicate hc)
  apart := hd.apart
  glue := by simp [Draft.newline]

/-- A token may be put tight behind white space, behind a token that holds it, or when it hugs. -/
theorem Woven.tight (hd : d.Woven ws) {s : Spot}
    (h : d.pending = [] → (∀ w ∈ ws.head?, w.spot.token.holds = true) ∨ s.hugs = true) :
    (d.tight s.token).Woven (⟨d.pending, s⟩ :: ws) where
  pieces := congrArg _ hd.pieces
  blank := by
    intro w hw
    rcases List.mem_cons.mp hw with rfl | hw
    · exact hd.pending
    · exact hd.blank w hw
  pending := by simp [Draft.tight]
  apart := by
    rw [List.isChain_cons]
    refine ⟨?_, hd.apart⟩
    intro w hw hgap
    rcases h hgap with hhold | hhug
    · exact Or.inl (hhold w hw)
    · exact Or.inr hhug
  glue := by
    intro hglue w hw
    obtain rfl : ⟨d.pending, s⟩ = w := by simpa using hw
    exact hglue

theorem Woven.line (hd : d.Woven ws) (indent pad : Nat) (s : Spot) :
    ∃ gap, (d.line indent pad s.token).Woven (⟨gap, s⟩ :: ws) := by
  refine ⟨_, (hd.newline indent pad).tight fun h => ?_⟩
  simp [Draft.newline] at h

theorem Woven.spaced (hd : d.Woven ws) (s : Spot) :
    ∃ gap, (d.spaced s.token).Woven (⟨gap, s⟩ :: ws) := by
  unfold Draft.spaced
  split
  · rename_i hglue
    exact ⟨_, hd.tight fun _ => Or.inl (hd.glue hglue)⟩
  · have hd' : ({ d with pending := d.pending ++ [' '] } : Draft).Woven ws := by
      refine ⟨hd.pieces, hd.blank, ?_, hd.apart, hd.glue⟩
      intro c hc
      rcases List.mem_append.mp hc with hc | hc
      · exact hd.pending c hc
      · exact Or.inl (List.mem_singleton.mp hc)
    refine ⟨_, hd'.tight fun h => ?_⟩
    simp at h

theorem Woven.inline (hd : d.Woven ws) (s : Spot) :
    ∃ gap, (d.inline s.token).Woven (⟨gap, s⟩ :: ws) := by
  unfold Draft.inline
  split
  · rename_i hhugs
    exact ⟨_, hd.tight fun _ => Or.inr (by simp [Spot.hugs, hhugs])⟩
  · exact hd.spaced s

theorem Woven.columnComma (hd : d.Woven ws) (style : CommaStyle) (indent : Nat) {s : Spot}
    (hs : s.token.kind = .comma) :
    ∃ gap, (d.columnComma style indent s.token).Woven (⟨gap, s⟩ :: ws) := by
  cases style with
  | left => exact hd.line indent 2 s
  | right =>
    have hhugs : s.hugs = true := by simp [Spot.hugs, hugsLeft, hs]
    exact ⟨_, (hd.tight fun _ => Or.inr hhugs).newline indent 1⟩

end Woven

/-- Gaps are made of spaces and newlines, and a gap is empty only between tokens that may touch. -/
structure Neat (d : Draft) : Prop where
  blank : ∀ p ∈ d.pieces, ∀ c ∈ p.gap, c = ' ' ∨ c = '\n'
  pending : ∀ c ∈ d.pending, c = ' ' ∨ c = '\n'
  apart : d.pieces.IsChain fun p q => p.gap = [] → q.token.holds = true ∨ p.token.hugs = true

/-- Where only parentheses and semicolons are bound, the tokens say which of them may touch. -/
theorem Woven.neat {d : Draft} {ws : List Thread} (hd : d.Woven ws)
    (hbound : ∀ w ∈ ws, w.spot.bound = true →
      w.spot.token.kind = .openParen ∨ w.spot.token.kind = .semicolon) : d.Neat where
  blank := by
    rw [hd.pieces]
    exact List.forall_mem_map.mpr hd.blank
  pending := hd.pending
  apart := by
    rw [hd.pieces, List.isChain_map]
    refine hd.apart.imp_of_mem_imp fun w v hw _ h hgap => (h hgap).imp id fun hhugs => ?_
    rcases (Bool.or_eq_true_iff).mp hhugs with hhugs | hw'
    · simp [Thread.piece, Token.hugs, hhugs]
    · rcases hbound w hw hw' with hkind | hkind <;>
        simp [Thread.piece, Token.hugs, hugsLeft, hkind]

/-- All that can happen when a token is put. It is put tight in any case only when it is bound. -/
inductive Step (style : CommaStyle) (s : Spot) (d : Draft) : Draft → Prop
  | line (indent pad : Nat) : Step style s d (d.line indent pad s.token)
  | inline : Step style s d (d.inline s.token)
  | spaced : Step style s d (d.spaced s.token)
  | tight (h : s.bound = true) : Step style s d (d.tight s.token)
  | columnComma (indent : Nat) (h : s.token.kind = .comma) :
      Step style s d (d.columnComma style indent s.token)

/-- Putting tokens one after the other. -/
inductive Puts (style : CommaStyle) : List Spot → Draft → Draft → Prop
  | nil (d : Draft) : Puts style [] d d
  | cons {s : Spot} {spots : List Spot} {d e f : Draft} (hstep : Step style s d e)
      (h : Puts style spots e f) : Puts style (s :: spots) d f

theorem Puts.one {style : CommaStyle} {s : Spot} {d e : Draft} (h : Step style s d e) :
    Puts style [s] d e := .cons h (.nil e)

theorem Puts.append {style : CommaStyle} {spots more : List Spot} {d e f : Draft}
    (h : Puts style spots d e) (h' : Puts style more e f) : Puts style (spots ++ more) d f := by
  induction h with
  | nil => exact h'
  | cons hstep _ ih => exact .cons hstep (ih h')

theorem Step.woven {style : CommaStyle} {s : Spot} {d e : Draft} {ws : List Thread}
    (h : Step style s d e) (hd : d.Woven ws) : ∃ gap, e.Woven (⟨gap, s⟩ :: ws) := by
  cases h with
  | line indent pad => exact hd.line indent pad s
  | inline => exact hd.inline s
  | spaced => exact hd.spaced s
  | tight h => exact ⟨_, hd.tight fun _ => Or.inr (by simp [Spot.hugs, h])⟩
  | columnComma indent h => exact hd.columnComma style indent h

theorem Puts.woven {style : CommaStyle} {spots : List Spot} {d e : Draft} {ws : List Thread}
    (h : Puts style spots d e) (hd : d.Woven ws) :
    ∃ us : List Thread, us.map Thread.spot = spots ∧ e.Woven (us.reverse ++ ws) := by
  induction h generalizing ws with
  | nil => exact ⟨[], rfl, hd⟩
  | cons hstep _ ih =>
    obtain ⟨gap, hnext⟩ := hstep.woven hd
    obtain ⟨us, rfl, he⟩ := ih hnext
    exact ⟨⟨gap, _⟩ :: us, rfl, by simpa using he⟩

theorem Puts.pending {style : CommaStyle} {spots : List Spot} {d e : Draft}
    (h : Puts style spots d e)
    (hd : d.pending = [] ∨ ∃ p ∈ d.pieces.head?, p.token.kind = .comma) :
    e.pending = [] ∨ ∃ p ∈ e.pieces.head?, p.token.kind = .comma := by
  induction h with
  | nil => exact hd
  | @cons s spots d e f hstep _ ih =>
    apply ih
    cases hstep with
    | line indent pad => exact Or.inl rfl
    | inline =>
      left
      unfold Draft.inline Draft.spaced
      grind [Draft.tight]
    | spaced =>
      left
      unfold Draft.spaced
      grind [Draft.tight]
    | tight _ => exact Or.inl rfl
    | columnComma indent h =>
      cases style with
      | left => exact Or.inl rfl
      | right => exact Or.inr ⟨⟨d.pending, s.token⟩, rfl, h⟩

end Draft

namespace Layout

theorem manner_call_iff {kind : GroupKind} : manner kind = .call ↔ kind = .call ∨ kind = .typeCall := by
  cases kind <;> simp [manner]

theorem putToken_step (style : CommaStyle) (s : Setting) (c : Cursor) (t : Token) (d : Draft) :
    d.Step style (.inGroup s.kind c.index t) (putToken style s c t d) := by
  generalize hspot : Spot.inGroup s.kind c.index t = spot
  obtain rfl : spot.token = t := by rw [← hspot]; rfl
  unfold putToken
  split
  · unfold putColumnToken
    by_cases hdepth : 0 < c.depth
    · rw [if_pos hdepth]
      exact .inline
    · by_cases hcomma : spot.token.kind = .comma
      · rw [if_neg hdepth, if_pos hcomma]
        exact .columnComma s.indent hcomma
      · rw [if_neg hdepth, if_neg hcomma]
        dsimp only
        grind [Draft.Step]
  · unfold putCaseToken
    dsimp only
    split <;> grind [Draft.Step]
  · rename_i hmanner
    unfold putCallToken
    split
    · grind [Draft.Step]
    · rename_i hindex
      split
      · rename_i hparen
        refine .tight ?_
        rw [← hspot]
        rcases manner_call_iff.mp hmanner with hkind | hkind <;>
          simp [Spot.inGroup, hkind, hindex, hparen]
      · exact .inline
    · exact .inline
  · grind [Draft.Step]
  · unfold putSubqueryToken
    grind [Draft.Step]
  · grind [Draft.Step]
  · grind [Draft.Step]

/-- The cursor behind an element. -/
def Cursor.after (s : Setting) (c : Cursor) : Element → Cursor
  | .token t => c.afterToken s t
  | .group _ => c.afterGroup

@[simp] theorem Cursor.index_after (s : Setting) (c : Cursor) (e : Element) :
    (c.after s e).index = c.index + 1 := by
  cases e <;> rfl

theorem putElements_cons (style : CommaStyle) (s : Setting) (c : Cursor) (e : Element)
    (es : List Element) (d : Draft) :
    putElements style s c (e :: es) d =
      putElements style s (c.after s e) es (putElement style s c e d) := by
  cases e <;> simp only [putElements, Cursor.after]

mutual

theorem putElement_puts (style : CommaStyle) (s : Setting) (c : Cursor) (e : Element)
    (d : Draft) : d.Puts style (e.spots s.kind c.index) (putElement style s c e d) := by
  match e with
  | .token t =>
    rw [putElement, Element.spots]
    exact .one (putToken_step style s c t d)
  | .group g =>
    rw [putElement, Element.spots]
    exact putGroup_puts style _ g d

theorem putGroup_puts (style : CommaStyle) (place : Placement) (g : Group) (d : Draft) :
    d.Puts style g.spots (putGroup style place g d) := by
  match g with
  | .mk kind elements indent =>
    rw [putGroup, Group.spots]
    exact putElements_puts style ⟨kind, indent + place.bonus, place⟩ {} elements d

theorem putElements_puts (style : CommaStyle) (s : Setting) (c : Cursor) (es : List Element)
    (d : Draft) : d.Puts style (Element.spotsOf s.kind c.index es) (putElements style s c es d) := by
  match es with
  | [] =>
    rw [putElements]
    exact .nil d
  | e :: es =>
    rw [putElements_cons, Element.spotsOf, ← Cursor.index_after s c e]
    exact (putElement_puts style s c e d).append (putElements_puts style s (c.after s e) es _)

end

theorem putGroups_puts (style : CommaStyle) (groups : List Group) (d : Draft) :
    d.Puts style (groups.flatMap Group.spots) (putGroups style groups d) := by
  induction groups generalizing d with
  | nil => exact .nil d
  | cons g groups ih => exact (putGroup_puts style {} g d).append (ih _)

theorem putStatement_puts (style : CommaStyle) (s : Statement) (d : Draft) :
    d.Puts style s.spots (putStatement style d s) := by
  have h := putGroups_puts style s.groups d
  unfold putStatement Statement.spots
  cases s.terminator with
  | none => simpa using h
  | some t => exact h.append (.one (.tight rfl))

theorem foldl_putStatement_puts (style : CommaStyle) (ss : List Statement) (d : Draft) :
    d.Puts style (ss.flatMap Statement.spots) (ss.foldl (putStatement style) d) := by
  induction ss generalizing d with
  | nil => exact .nil d
  | cons s ss ih => exact (putStatement_puts style s d).append (ih _)

theorem draft_puts (style : CommaStyle) (ss : List Statement) :
    ({} : Draft).Puts style (ss.flatMap Statement.spots) (draft style ss) :=
  foldl_putStatement_puts style ss {}

theorem draft_woven (style : CommaStyle) (ss : List Statement) :
    ∃ ws : List Thread, ws.map Thread.spot = ss.flatMap Statement.spots ∧
      (draft style ss).Woven ws.reverse := by
  simpa using (draft_puts style ss).woven Draft.woven_empty

theorem draft_tokens (style : CommaStyle) (ss : List Statement) :
    (draft style ss).tokens = ss.flatMap Statement.tokens := by
  obtain ⟨ws, hspots, hwoven⟩ := draft_woven style ss
  rw [← Statement.map_spots, ← hspots, Draft.tokens, hwoven.pieces, ← List.map_reverse,
    List.reverse_reverse, List.map_map, List.map_map]
  rfl

theorem draft_neat (style : CommaStyle) {ss : List Statement}
    (hss : ∀ s ∈ ss, ∀ t ∈ s.terminator, t.kind = .semicolon) : (draft style ss).Neat := by
  obtain ⟨ws, hspots, hwoven⟩ := draft_woven style ss
  apply hwoven.neat
  intro w hw hbound
  have hspot : w.spot ∈ ss.flatMap Statement.spots := by
    rw [← hspots]
    exact List.mem_map_of_mem (List.mem_reverse.mp hw)
  obtain ⟨s, hs, hspot⟩ := List.mem_flatMap.mp hspot
  rcases List.mem_append.mp hspot with hgroups | hend
  · obtain ⟨g, -, hg⟩ := List.mem_flatMap.mp hgroups
    exact Or.inl (g.bound_spots hg hbound)
  · obtain ⟨t, ht, hspot⟩ := List.mem_map.mp hend
    rw [← hspot]
    exact Or.inr (hss s hs t (Option.mem_toList.mp ht))

end Layout
end SqlLayout
