import Mathlib.Computability.RegularExpressions
import SqlLayout.Proofs.Descent

/-! Sequences of optional clauses as languages. A list of slots stands for the sequences of kinds of
groups that fill it from left to right. Filling takes the first slot that accepts a clause; this loses
no sequence when a slot that can be filled once only shares no clause with the slots behind it. -/

namespace SqlLayout
set_option autoImplicit false
open Computability

instance (priority := low) (p : TokenKind → Prop) [DecidablePred p] : Decidable (∀ k, p k) :=
  decidable_of_iff (∀ k ∈ TokenKind.all, p k) ⟨fun h k => h k (by
    cases k with
    | keyword k => simp [TokenKind.all, Keyword.mem_all k]
    | _ => simp [TokenKind.all]), fun h k _ => h k⟩

instance (priority := low) (p : GroupKind → Prop) [DecidablePred p] : Decidable (∀ kind, p kind) :=
  decidable_of_iff (∀ kind ∈ GroupKind.all, p kind) ⟨fun h kind => h kind (by
    cases kind <;> simp [GroupKind.all]), fun h kind _ => h kind⟩

/-- The group of this kind is opened by a token of that kind. -/
def GroupKind.OpenedBy (kind : GroupKind) (k : TokenKind) : Prop :=
  ofStart? k = some kind ∨ (ofStart? k = some .parens ∧ kind = .subquery)

instance (kind : GroupKind) (k : TokenKind) : Decidable (kind.OpenedBy k) :=
  inferInstanceAs (Decidable (_ ∨ _))

theorem GroupKind.OpenedBy.ne_eof {kind : GroupKind} {k : TokenKind} (h : kind.OpenedBy k) :
    k ≠ .eof := by
  rintro rfl
  obtain hstart | ⟨hstart, _⟩ := h <;> cases hstart

theorem GroupKind.OpenedBy.eq_of_clause {kind kind' : GroupKind} {k : TokenKind}
    (h : kind.OpenedBy k) (hstart : ofStart? k = some kind') (hclause : kind'.closing? = none) :
    kind = kind' := by
  obtain hkind | ⟨hparens, _⟩ := h
  · exact Option.some.inj (hkind.symm.trans hstart)
  · cases hparens.symm.trans hstart
    cases hclause

theorem GroupKind.OpenedBy.isTieStart_iff {kind : GroupKind} {k : TokenKind} (h : kind.OpenedBy k) :
    k.isTieStart = true ↔ kind = .tie := by
  have htie : ∀ k, ∀ kind ∈ ofStart? k, k.isTieStart = true ↔ kind = .tie := by
    decide +kernel
  obtain hstart | ⟨hstart, rfl⟩ := h
  · exact htie k kind hstart
  · exact (htie k .parens hstart).trans (by decide)

/-- One of the tokens that open a group of the kind. -/
def GroupKind.opener : GroupKind → TokenKind
  | .select => .keyword .SELECT
  | .fromClause => .keyword .FROM
  | .join => .keyword .JOIN
  | .whereClause => .keyword .WHERE
  | .andLine => .lineAnd
  | .orLine => .lineOr
  | .groupBy => .keyword .GROUP
  | .having => .keyword .HAVING
  | .orderBy => .keyword .ORDER
  | .limit => .keyword .LIMIT
  | .tie => .keyword .UNION
  | .update => .keyword .UPDATE
  | .setClause => .keyword .SET
  | .returning => .keyword .RETURNING
  | .delete => .keyword .DELETE
  | .insert => .keyword .INSERT
  | .values => .keyword .VALUES
  | .lock => .keyword .LOCK
  | .withClause => .keyword .WITH
  | .caseExpr => .keyword .CASE
  | .call => .function
  | .typeCall => .type
  | .parens | .subquery => .openParen

/-- Kinds of groups that only one kind of token opens. -/
def GroupKind.hasOneOpener : GroupKind → Bool
  | .join | .limit | .tie | .parens | .subquery => false
  | _ => true

theorem GroupKind.OpenedBy.eq_opener_iff {kind : GroupKind} {k : TokenKind} (h : kind.OpenedBy k)
    (kind' : GroupKind) (hone : kind'.hasOneOpener = true) : k = kind'.opener ↔ kind = kind' := by
  have hopener : ∀ kind : GroupKind, kind.hasOneOpener = true → ofStart? kind.opener = some kind := by
    decide
  have honly : ∀ k, ∀ kind ∈ ofStart? k, kind.hasOneOpener = true → k = kind.opener := by
    decide +kernel
  constructor
  · rintro rfl
    obtain hstart | ⟨hstart, _⟩ := h
    · exact Option.some.inj (hstart.symm.trans (hopener kind' hone))
    · cases (hopener kind' hone).symm.trans hstart
      cases hone
  · rintro rfl
    obtain hstart | ⟨_, rfl⟩ := h
    · exact honly k kind hstart hone
    · cases hone

/-- The words of one letter, of the given kinds. -/
def letters (p : GroupKind → Bool) : Language GroupKind := {w | ∃ kind, p kind = true ∧ w = [kind]}

section Words
variable {p : GroupKind → Bool} {l m : Language GroupKind} {kind : GroupKind} {w : List GroupKind}

theorem mem_letters : w ∈ letters p ↔ ∃ kind, p kind = true ∧ w = [kind] := Iff.rfl

theorem cons_mem_mul : kind :: w ∈ l * m ↔
    (∃ u v, kind :: u ∈ l ∧ v ∈ m ∧ u ++ v = w) ∨ ([] ∈ l ∧ kind :: w ∈ m) := by
  rw [Language.mem_mul]
  constructor
  · rintro ⟨u, hu, v, hv, huv⟩
    cases u with
    | nil => exact Or.inr ⟨hu, by rwa [← huv]⟩
    | cons a u =>
      obtain ⟨rfl, rfl⟩ := List.cons.inj huv
      exact Or.inl ⟨u, v, hu, hv, rfl⟩
  · rintro (⟨u, v, hu, hv, rfl⟩ | ⟨hnil, hw⟩)
    · exact ⟨kind :: u, hu, v, hv, rfl⟩
    · exact ⟨[], hnil, _, hw, rfl⟩

theorem nil_mem_mul : [] ∈ l * m ↔ [] ∈ l ∧ [] ∈ m := by
  simp [Language.mem_mul]

theorem nil_notMem_letters : [] ∉ letters p := by
  simp [mem_letters]

theorem letters_add (p q : GroupKind → Bool) :
    letters p + letters q = letters fun kind => p kind || q kind := by
  ext w
  simp only [Language.mem_add, mem_letters, Bool.or_eq_true, or_and_right, exists_or]

theorem cons_notMem_one : kind :: w ∉ (1 : Language GroupKind) := by
  simp [Language.mem_one]

theorem cons_mem_letters_mul : kind :: w ∈ letters p * m ↔ p kind = true ∧ w ∈ m := by
  rw [Language.mem_mul]
  constructor
  · rintro ⟨_, ⟨kind', hkind, rfl⟩, v, hv, huv⟩
    obtain ⟨rfl, rfl⟩ := List.cons.inj huv
    exact ⟨hkind, hv⟩
  · rintro ⟨hkind, hw⟩
    exact ⟨[kind], ⟨kind, hkind, rfl⟩, w, hw, rfl⟩

theorem cons_mem_opt_mul :
    kind :: w ∈ (1 + letters p) * m ↔ (p kind = true ∧ w ∈ m) ∨ kind :: w ∈ m := by
  rw [add_mul, one_mul, Language.mem_add, cons_mem_letters_mul, or_comm]

theorem cons_mem_star_mul : kind :: w ∈ (letters p)∗ * m ↔
    (p kind = true ∧ w ∈ (letters p)∗ * m) ∨ kind :: w ∈ m := by
  have hunroll : (letters p)∗ * m = m + letters p * ((letters p)∗ * m) := by
    rw [← mul_assoc, ← one_add_mul, Language.one_add_self_mul_kstar_eq_kstar]
  rw [hunroll, Language.mem_add, cons_mem_letters_mul, ← hunroll, or_comm]

end Words

namespace Slot

/-- Whether a group of the kind may fill the slot. -/
def admits (s : Slot) (kind : GroupKind) : Bool := s.accepts kind.opener

/-- What a slot may hold: nothing, one group or, if it repeats, any number of them. -/
def words (s : Slot) : Language GroupKind :=
  if s.repeats then (letters s.admits)∗ else 1 + letters s.admits

/-- The sequences of groups that fill a list of slots. -/
def language : List Slot → Language GroupKind
  | [] => 1
  | s :: rest => s.words * language rest

/-- The slot does not tell apart the tokens that open groups of one kind. -/
def Uniform (s : Slot) : Prop :=
  ∀ k, ∀ kind ∈ GroupKind.ofStart? k, s.accepts k = s.admits kind

/-- Slots that can be filled greedily: they hold clauses, no set operators among them, and a slot that
is filled once shares no clause with those behind it. -/
structure Orderly (slots : List Slot) : Prop where
  uniform : ∀ s ∈ slots, s.Uniform
  clauses : ∀ s ∈ slots, ∀ k, s.accepts k = true →
    ∃ kind ∈ GroupKind.ofStart? k, kind.closing? = none ∧ kind ≠ .tie
  apart : slots.Pairwise fun s s' =>
    s.repeats = true ∨ ∀ kind, ¬(s.admits kind = true ∧ s'.admits kind = true)

section Fill
variable {s : Slot} {slots : List Slot} {kind : GroupKind} {k : TokenKind} {w : List GroupKind}

instance (slots : List Slot) : Decidable (Orderly slots) :=
  decidable_of_iff
    ((∀ s ∈ slots, ∀ k, ∀ kind ∈ GroupKind.ofStart? k, s.accepts k = s.admits kind) ∧
      (∀ s ∈ slots, ∀ k, s.accepts k = true →
        ∃ kind ∈ GroupKind.ofStart? k, kind.closing? = none ∧ kind ≠ .tie) ∧
      slots.Pairwise fun s s' =>
        s.repeats = true ∨ ∀ kind, ¬(s.admits kind = true ∧ s'.admits kind = true))
    ⟨fun ⟨h, h', h''⟩ => ⟨h, h', h''⟩, fun ⟨h, h', h''⟩ => ⟨h, h', h''⟩⟩

theorem Orderly.sublist {slots' : List Slot} (h : Orderly slots) (hsub : slots'.Sublist slots) :
    Orderly slots' where
  uniform s hs := h.uniform s (hsub.subset hs)
  clauses s hs := h.clauses s (hsub.subset hs)
  apart := h.apart.sublist hsub

theorem Orderly.tail (h : Orderly (s :: slots)) : Orderly slots := h.sublist (List.sublist_cons_self _ _)

theorem orderly_query : Orderly query := by
  decide +kernel

/-- All clauses of the statements that change rows, in one order. -/
theorem orderly_changes : Orderly (one .UPDATE :: one .SET :: one .FROM ::
    { accepts := TokenKind.isJoinStart, repeats := true } :: filter) := by
  decide +kernel

theorem Uniform.accepts_eq (h : s.Uniform) (hkind : kind.OpenedBy k) :
    s.accepts k = s.admits kind := by
  obtain hstart | ⟨hstart, rfl⟩ := hkind
  · exact h k kind hstart
  · exact h k .parens hstart

theorem nil_mem_words (s : Slot) : [] ∈ s.words := by
  unfold words
  split
  · exact Language.nil_mem_kstar _
  · exact Or.inl rfl

theorem nil_mem_language (slots : List Slot) : [] ∈ language slots := by
  induction slots with
  | nil => exact Language.nil_mem_one
  | cons s rest ih => exact nil_mem_mul.mpr ⟨s.nil_mem_words, ih⟩

theorem mem_language_cons (h : w ∈ language slots) : w ∈ language (s :: slots) :=
  Language.append_mem_mul s.nil_mem_words h

/-- A word that begins with a group: it fills the first slot, or that slot is empty. -/
theorem cons_mem_language_cons : kind :: w ∈ language (s :: slots) ↔
    (s.admits kind = true ∧ w ∈ language (if s.repeats then s :: slots else slots)) ∨
      kind :: w ∈ language slots := by
  rw [language, words]
  split
  · rw [cons_mem_star_mul, language, words, if_pos ‹_›]
  · exact cons_mem_opt_mul

theorem exists_admits (h : kind :: w ∈ language slots) : ∃ s ∈ slots, s.admits kind = true := by
  induction slots with
  | nil => exact absurd h cons_notMem_one
  | cons s rest ih =>
    obtain ⟨hadmits, _⟩ | hrest := cons_mem_language_cons.mp h
    · exact ⟨s, List.mem_cons_self, hadmits⟩
    · obtain ⟨s', hs', hadmits⟩ := ih hrest
      exact ⟨s', List.mem_cons_of_mem _ hs', hadmits⟩

theorem tail_mem_language (h : kind :: w ∈ language slots) : w ∈ language slots := by
  induction slots with
  | nil => exact absurd h cons_notMem_one
  | cons s rest ih =>
    obtain ⟨_, hw⟩ | hrest := cons_mem_language_cons.mp h
    · split at hw
      · exact hw
      · exact mem_language_cons hw
    · exact mem_language_cons (ih hrest)

theorem cons_mem_language (horderly : Orderly slots) (hkind : kind.OpenedBy k) :
    kind :: w ∈ language slots ↔ ∃ left, fill? k slots = some left ∧ w ∈ language left := by
  induction slots with
  | nil => simp [language, fill?]
  | cons s rest ih =>
    have haccepts := (horderly.uniform s List.mem_cons_self).accepts_eq hkind
    rw [cons_mem_language_cons, fill?, haccepts]
    by_cases hadmits : s.admits kind = true
    · -- a later slot may take the group too, but only if this one repeats
      have hlater : kind :: w ∈ language rest → w ∈ language (if s.repeats then s :: rest else rest) := by
        intro hw
        obtain ⟨s', hs', hadmits'⟩ := exists_admits hw
        obtain hrepeats | hapart := (List.pairwise_cons.mp horderly.apart).1 s' hs'
        · rw [if_pos hrepeats]
          exact mem_language_cons (tail_mem_language hw)
        · exact absurd ⟨hadmits, hadmits'⟩ (hapart kind)
      simp only [hadmits, true_and, if_true, Option.some.injEq, exists_eq_left']
      exact or_iff_left_of_imp hlater
    · simp only [hadmits, false_and, false_or, Bool.false_eq_true, if_false]
      exact ih horderly.tail

theorem cons_mem_language_mul {m : Language GroupKind} (horderly : Orderly slots)
    (hkind : kind.OpenedBy k) : kind :: w ∈ language slots * m ↔
      (∃ left, fill? k slots = some left ∧ w ∈ language left * m) ∨ kind :: w ∈ m := by
  rw [cons_mem_mul, and_iff_right (nil_mem_language slots)]
  simp only [cons_mem_language horderly hkind, Language.mem_mul]
  refine or_congr_left ⟨?_, ?_⟩
  · rintro ⟨u, v, ⟨left, hfill, hu⟩, hv, rfl⟩
    exact ⟨left, hfill, u, hu, v, hv, rfl⟩
  · rintro ⟨left, hfill, u, hu, v, hv, rfl⟩
    exact ⟨u, v, ⟨left, hfill, hu⟩, hv, rfl⟩

theorem Orderly.of_fill (h : Orderly slots) {left : List Slot} (hfill : fill? k slots = some left) :
    Orderly left := by
  induction slots with
  | nil => simp [fill?] at hfill
  | cons s rest ih =>
    rw [fill?] at hfill
    split at hfill
    · split at hfill
      · exact Option.some.inj hfill ▸ h
      · exact Option.some.inj hfill ▸ h.tail
    · exact ih h.tail hfill

theorem exists_accepts {left : List Slot} (h : fill? k slots = some left) :
    ∃ s ∈ slots, s.accepts k = true := by
  induction slots with
  | nil => simp [fill?] at h
  | cons s rest ih =>
    rw [fill?] at h
    split at h
    · exact ⟨s, List.mem_cons_self, ‹_›⟩
    · obtain ⟨s', hs', haccepts⟩ := ih h
      exact ⟨s', List.mem_cons_of_mem _ hs', haccepts⟩

theorem Orderly.clause_of_fill (h : Orderly slots) {left : List Slot}
    (hfill : fill? k slots = some left) :
    ∃ kind ∈ GroupKind.ofStart? k, kind.closing? = none ∧ kind ≠ .tie := by
  obtain ⟨s, hs, haccepts⟩ := exists_accepts hfill
  exact h.clauses s hs k haccepts

end Fill
end Slot
end SqlLayout
