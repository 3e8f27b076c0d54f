import SqlLayout.Proofs.Clauses
import SqlLayout.Proofs.Script

/-! The grammar of statements. The kinds of the groups of a statement form a word of a regular language;
the stages of reading are its states. A statement is read exactly when the groups that are taken off its
front one after another form such a word, and the few demands on single groups are met. -/

namespace SqlLayout
set_option autoImplicit false
open Computability RegularExpression

namespace Grammar

def opt (p : RegularExpression GroupKind) : RegularExpression GroupKind := 1 + p

def many (p : RegularExpression GroupKind) : RegularExpression GroupKind := .star p

def line : RegularExpression GroupKind := char .andLine + char .orLine

/-- One query, without set operators. -/
def core : RegularExpression GroupKind :=
  char .select * opt (char .fromClause) * many (char .join + line) * opt (char .whereClause) *
    many line * opt (char .groupBy) * opt (char .having) * opt (char .orderBy) * many (char .limit)

/-- Queries with set operators between them. The last operator may hold its query itself. -/
def query : RegularExpression GroupKind := core * many (char .tie * core) * opt (char .tie)

/-- The clauses that end the statements that change rows. -/
def filter : RegularExpression GroupKind :=
  opt (char .whereClause) * many line * opt (char .returning)

def update : RegularExpression GroupKind :=
  char .update * opt (char .setClause) * opt (char .fromClause) * many (char .join) * filter

def delete : RegularExpression GroupKind := char .delete * opt (char .fromClause) * filter

def insert : RegularExpression GroupKind :=
  char .insert * opt (char .values) *
    (query + opt (char .update) * opt (char .setClause) * filter)

/-- The kinds of the groups of a statement. -/
def statement : RegularExpression GroupKind :=
  opt (char .withClause) * (query + update + delete + insert + char .lock)

end Grammar

namespace Group

/-- The groups that are read off the front of the tokens, one after another, up to the end of the
input. The first token is at index `position`. -/
inductive Retrieves : Nat → List Token → List Group → Prop
  | done {position : Nat} {e : Token} {rest : List Token} (he : e.kind = .eof) :
      Retrieves position (e :: rest) []
  | more {position : Nat} {tokens : List Token} {r : Retrieved} {groups : List Group}
      (hr : retrieve? position 0 tokens = some (.ok r))
      (hmore : Retrieves (position + r.count) r.rest groups) :
      Retrieves position tokens (r.group :: groups)

/-- The group holds a group. -/
def holdsGroup (g : Group) : Bool := g.elements.any Element.isGroup

/-- The group is a keyword alone. -/
def Bare (g : Group) : Prop := ∃ u, g.elements = [.token u]

end Group

/-- The groups behind a leading WITH clause. -/
def Group.behindWith : List Group → List Group
  | g :: gs => if g.kind = .withClause then gs else g :: gs
  | [] => []

/-- What single groups of a statement must hold, besides what every group of their kind must hold. -/
structure Grammar.Complete (groups : List Group) : Prop where
  update : ∀ g, (Group.behindWith groups).head? = some g → g.kind = .update → 2 ≤ g.elements.length
  delete : ∀ g gs, Group.behindWith groups = g :: gs → g.kind = .delete →
    2 ≤ g.elements.length ∨ ∃ g', gs.head? = some g' ∧ g'.kind = .fromClause
  tie : ∀ g, groups.getLast? = some g → g.kind = .tie → g.holdsGroup = true

namespace Stage

/-- One query, without set operators. -/
def core : Language GroupKind := letters (· = .select) * Slot.language Slot.query

def ties : Language GroupKind := (letters (· = .tie) * core)∗ * (1 + letters (· = .tie))

/-- The clauses of an insert that may hold rows. -/
def rows : Language GroupKind :=
  core * ties + Slot.language (Slot.one .UPDATE :: Slot.one .SET :: Slot.filter)

/-- The slots behind an UPDATE clause. -/
def updateSlots : List Slot :=
  Slot.one .SET :: Slot.one .FROM :: { accepts := TokenKind.isJoinStart, repeats := true } ::
    Slot.filter

/-- A statement without its WITH clause. -/
def bodies : Language GroupKind :=
  core * ties + letters (· = .update) * Slot.language updateSlots +
    letters (· = .delete) * Slot.language (Slot.one .FROM :: Slot.filter) +
    letters (· = .insert) * ((1 + letters (· = .values)) * rows) + letters (· = .lock)

/-- The kinds of the groups that may still follow. -/
def language : Stage → Language GroupKind
  | .start => 1 + (1 + letters (· = .withClause)) * bodies
  | .body => bodies
  | .query left => Slot.language left * ties
  | .tied _ _ => 1 + core * ties
  | .update => Slot.language updateSlots
  | .delete => Slot.language (Slot.one .FROM :: Slot.filter)
  | .insert => (1 + letters (· = .values)) * rows
  | .values => rows
  | .tail left => Slot.language left

/-- The slots that are left can be filled greedily. -/
def Orderly : Stage → Prop
  | .query left | .tail left => Slot.Orderly left
  | _ => True

theorem ties_eq : ties = 1 + letters (· = .tie) * (1 + core * ties) := by
  have hunroll : ties = (1 + letters (· = .tie)) + letters (· = .tie) * core * ties := by
    nth_rewrite 1 [ties]
    rw [← Language.one_add_self_mul_kstar_eq_kstar, add_mul, one_mul, mul_assoc]
    rfl
  nth_rewrite 1 [hunroll]
  rw [mul_add, mul_one, mul_assoc, add_assoc]

section Words
variable {kind : GroupKind} {k : TokenKind} {w : List GroupKind}

theorem cons_mem_ties : kind :: w ∈ ties ↔ kind = .tie ∧ w ∈ 1 + core * ties := by
  nth_rewrite 1 [ties_eq]
  rw [Language.mem_add, cons_mem_letters_mul, decide_eq_true_eq]
  exact or_iff_right cons_notMem_one

theorem cons_mem_query : kind :: w ∈ core * ties ↔ kind = .select ∧ w ∈ Slot.language Slot.query * ties := by
  rw [core, mul_assoc, cons_mem_letters_mul, decide_eq_true_eq]

/-- A slot list is filled with the next group as far as the stage behind it says. -/
theorem cons_mem_tail {slots : List Slot} {t : Token} (horderly : Slot.Orderly slots)
    (hkind : kind.OpenedBy t.kind) : kind :: w ∈ Slot.language slots ↔
      ∃ stage, tailNext slots t = some stage ∧ w ∈ stage.language := by
  rw [Slot.cons_mem_language horderly hkind, tailNext]
  simp only [Option.map_eq_some_iff]
  constructor
  · rintro ⟨left, hfill, hw⟩
    exact ⟨.tail left, ⟨left, hfill, rfl⟩, hw⟩
  · rintro ⟨_, ⟨left, hfill, rfl⟩, hw⟩
    exact ⟨left, hfill, hw⟩

theorem cons_mem_letters : kind :: w ∈ letters (· = .lock) ↔ kind = .lock ∧ w ∈ Slot.language [] := by
  rw [← mul_one (letters _), cons_mem_letters_mul, decide_eq_true_eq, Slot.language]

/-- The stage behind the leading group of a statement. -/
def leadOf : GroupKind → Option Stage
  | .select => some (.query Slot.query)
  | .update => some .update
  | .delete => some .delete
  | .insert => some .insert
  | .lock => some (.tail [])
  | _ => none

theorem lead_ok_iff {position : Nat} {t : Token} {stage : Stage}
    (hkind : kind.OpenedBy t.kind) :
    lead position t = .ok (some stage) ↔ leadOf kind = some stage := by
  have hselect := hkind.eq_opener_iff .select rfl
  have hupdate := hkind.eq_opener_iff .update rfl
  have hdelete := hkind.eq_opener_iff .delete rfl
  have hinsert := hkind.eq_opener_iff .insert rfl
  have hlock := hkind.eq_opener_iff .lock rfl
  simp only [GroupKind.opener] at hselect hupdate hdelete hinsert hlock
  unfold lead
  split
  case h_6 =>
    unfold leadOf
    split <;> simp_all
  all_goals simp_all [leadOf]

theorem cons_mem_bodies {position : Nat} {t : Token} (hkind : kind.OpenedBy t.kind) :
    kind :: w ∈ bodies ↔
      ∃ stage, lead position t = .ok (some stage) ∧ w ∈ stage.language := by
  simp only [lead_ok_iff hkind, bodies, Language.mem_add, cons_mem_query, cons_mem_letters_mul,
    cons_mem_letters, decide_eq_true_eq]
  cases kind <;> simp [leadOf, language]

theorem orderly_updateSlots : Slot.Orderly updateSlots := Slot.orderly_changes.tail

theorem orderly_filter : Slot.Orderly Slot.filter := Slot.orderly_changes.tail.tail.tail.tail

theorem orderly_delete : Slot.Orderly (Slot.one .FROM :: Slot.filter) :=
  Slot.orderly_changes.tail.tail.sublist ((List.sublist_cons_self _ _).cons_cons _)

theorem orderly_rows : Slot.Orderly (Slot.one .UPDATE :: Slot.one .SET :: Slot.filter) :=
  Slot.orderly_changes.sublist
    ((((List.sublist_cons_self _ _).trans (List.sublist_cons_self _ _)).cons_cons _).cons_cons _)

theorem cons_mem_rows {t : Token} (hkind : kind.OpenedBy t.kind) :
    kind :: w ∈ rows ↔ ∃ stage, rowsNext t = some stage ∧ w ∈ stage.language := by
  have hselect : t.kind = .keyword .SELECT ↔ kind = .select := hkind.eq_opener_iff .select rfl
  rw [rows, Language.mem_add, cons_mem_query, cons_mem_tail orderly_rows hkind, rowsNext, ← hselect]
  split
  · rename_i hk
    have hfull : tailNext (Slot.one .UPDATE :: Slot.one .SET :: Slot.filter) t = none := by
      rw [tailNext, hk]
      rfl
    simp [hk, hfull, language]
  · rename_i hk
    simp [hk]

end Words

/-- The last group holds enough for the next token to follow it. -/
def Ready (last : Option Group) (t : Token) : Stage → Prop
  | .update => ∀ g ∈ last, ¬g.Bare
  | .delete => t.kind = .keyword .FROM ∨ ∀ g ∈ last, ¬g.Bare
  | _ => True

theorem requireOperand_ok_iff {last : Option Group} {position : Nat} :
    requireOperand last position = .ok () ↔ ∀ g ∈ last, ¬g.Bare := by
  unfold requireOperand
  split
  · rename_i u hlast
    obtain ⟨g, rfl, hg⟩ := Option.map_eq_some_iff.mp hlast
    simp [hg, Group.Bare]
  · rename_i hlast
    simp only [true_iff]
    rintro g rfl ⟨u, hu⟩
    exact hlast u (by simp [hu])

theorem requireOperand_bind {last : Option Group} {position : Nat} {stage stage' : Option Stage} :
    (requireOperand last position >>= fun _ => .ok stage) = .ok stage' ↔
      (∀ g ∈ last, ¬g.Bare) ∧ stage = stage' := by
  rw [← @requireOperand_ok_iff last position]
  cases requireOperand last position <;> simp [bind, Except.bind]

/-- What the last group holds decides only whether reading fails, not which stage follows. -/
theorem next_eq_some_iff {last : Option Group} {position : Nat} {t : Token} {stage stage' : Stage} :
    next last position t stage = .ok (some stage') ↔
      stage.Ready last t ∧ next none position t stage = .ok (some stage') := by
  cases stage with
  | tied operator at_ =>
    simp only [next, Ready, true_and]
    split
    · rfl
    · split <;> simp
  | update =>
    simp only [next, Ready, requireOperand_bind]
    simp
  | delete =>
    simp only [next, Ready]
    split
    · rename_i hk
      simp [hk]
    · rename_i hk
      simp only [requireOperand_bind]
      simp [hk]
  | _ => simp [next, Ready]

/-- The stage behind a group goes on with the sequences that begin with the group. -/
theorem cons_mem_language {kind : GroupKind} {w : List GroupKind} {position : Nat} {t : Token}
    {stage : Stage} (horderly : stage.Orderly) (hkind : kind.OpenedBy t.kind) :
    kind :: w ∈ stage.language ↔
      ∃ stage', next none position t stage = .ok (some stage') ∧ w ∈ stage'.language := by
  cases stage with
  | start =>
    have hwith : t.kind = .keyword .WITH ↔ kind = .withClause := hkind.eq_opener_iff .withClause rfl
    have heof : t.kind ≠ .eof := hkind.ne_eof
    rw [language, Language.mem_add, or_iff_right cons_notMem_one, cons_mem_opt_mul,
      decide_eq_true_eq, ← hwith, next, if_neg heof, @cons_mem_bodies _ _ position _ hkind]
    split
    · rename_i hk
      simp [hk, lead, language]
    · rename_i hk
      simp [hk]
  | body => exact cons_mem_bodies hkind
  | query left =>
    rw [language, Slot.cons_mem_language_mul horderly hkind, cons_mem_ties, next]
    cases hfill : Slot.fill? t.kind left with
    | none =>
      by_cases htie : kind = .tie
      · simp [htie, hkind.isTieStart_iff.mpr htie, language]
      · have hk : ¬t.kind.isTieStart = true := mt hkind.isTieStart_iff.mp htie
        simp [htie, hk]
    | some left' =>
      -- the slots take no set operator
      obtain ⟨kind', hstart, hclause, hne⟩ := Slot.Orderly.clause_of_fill horderly hfill
      have htie : kind ≠ .tie := hkind.eq_of_clause hstart hclause ▸ hne
      simp [htie, language]
  | tied operator at_ =>
    have hselect : t.kind = .keyword .SELECT ↔ kind = .select := hkind.eq_opener_iff .select rfl
    rw [language, Language.mem_add, or_iff_right cons_notMem_one, cons_mem_query, ← hselect, next]
    split
    · rename_i hk
      simp [hk, language]
    · rename_i hk
      simp [hk]
  | update =>
    rw [language, cons_mem_tail orderly_updateSlots hkind]
    simp [next, requireOperand_bind, updateSlots]
  | delete =>
    rw [language, cons_mem_tail orderly_delete hkind, next, tailNext, Slot.fill?]
    by_cases hfrom : t.kind = .keyword .FROM
    · simp [hfrom, Slot.one]
    · simp [hfrom, Slot.one, requireOperand_bind, tailNext]
  | insert =>
    have hvalues : t.kind = .keyword .VALUES ↔ kind = .values := hkind.eq_opener_iff .values rfl
    rw [language, cons_mem_opt_mul, decide_eq_true_eq, ← hvalues, cons_mem_rows hkind, next]
    split
    · rename_i hk
      have hfull : rowsNext t = none := by
        rw [rowsNext, tailNext, hk]
        rfl
      simp [hk, hfull, language]
    · rename_i hk
      simp [hk]
  | values =>
    rw [language, cons_mem_rows hkind]
    simp [next]
  | tail left =>
    rw [language, cons_mem_tail horderly hkind]
    simp [next]

/-- A clause of the kind is no set operator, and what follows it does not depend on what it holds. -/
structure Clausal (kind : GroupKind) (stage : Stage) : Prop where
  closing : kind.closing? = none
  ne_tie : kind ≠ .tie
  follows : stage = .values ∨ ∃ left, Slot.Orderly left ∧ (stage = .query left ∨ stage = .tail left)

/-- The transitions between stages, by the kind of the group that is read. -/
inductive Follows (kind : GroupKind) : Stage → Stage → Prop
  | opening (hkind : kind = .withClause) : Follows kind .start .body
  | leading {stage stage' : Stage} (hstage : stage = .start ∨ stage = .body)
      (hlead : leadOf kind = some stage') : Follows kind stage stage'
  | tying {left : List Slot} {operator : Token} {position : Nat} (hkind : kind = .tie) :
      Follows kind (.query left) (.tied operator position)
  | clause {stage stage' : Stage} (hstage : stage ≠ .start ∧ stage ≠ .body)
      (hclause : Clausal kind stage') : Follows kind stage stage'

section Transitions
variable {kind : GroupKind} {position : Nat} {t : Token} {stage stage' : Stage} {slots : List Slot}

theorem clausal_of_fill {left : List Slot} (horderly : Slot.Orderly slots)
    (hkind : kind.OpenedBy t.kind) (h : Slot.fill? t.kind slots = some left)
    (hstage : stage = .query left ∨ stage = .tail left) : Clausal kind stage := by
  obtain ⟨kind', hstart, hclause, hne⟩ := horderly.clause_of_fill h
  obtain rfl := hkind.eq_of_clause hstart hclause
  exact ⟨hclause, hne, Or.inr ⟨left, horderly.of_fill h, hstage⟩⟩

theorem clausal_of_tailNext (horderly : Slot.Orderly slots) (hkind : kind.OpenedBy t.kind)
    (h : tailNext slots t = some stage) : Clausal kind stage := by
  obtain ⟨left, hfill, rfl⟩ := Option.map_eq_some_iff.mp h
  exact clausal_of_fill horderly hkind hfill (Or.inr rfl)

theorem clausal_of_select (hkind : kind.OpenedBy t.kind) (h : t.kind = .keyword .SELECT) :
    Clausal kind (.query Slot.query) := by
  obtain rfl : kind = .select := (hkind.eq_opener_iff .select rfl).mp h
  exact ⟨rfl, by decide, Or.inr ⟨_, Slot.orderly_query, Or.inl rfl⟩⟩

theorem clausal_of_rowsNext (hkind : kind.OpenedBy t.kind) (h : rowsNext t = some stage) :
    Clausal kind stage := by
  rw [rowsNext] at h
  split at h
  · cases h
    exact clausal_of_select hkind ‹_›
  · exact clausal_of_tailNext orderly_rows hkind h

theorem follows_of_next (horderly : stage.Orderly) (hkind : kind.OpenedBy t.kind)
    (h : next none position t stage = .ok (some stage')) : Follows kind stage stage' := by
  cases stage with
  | start =>
    rw [next, if_neg hkind.ne_eof] at h
    split at h
    · cases h
      exact .opening ((hkind.eq_opener_iff .withClause rfl).mp ‹_›)
    · exact .leading (Or.inl rfl) ((lead_ok_iff hkind).mp h)
  | body => exact .leading (Or.inr rfl) ((lead_ok_iff hkind).mp h)
  | query left =>
    rw [next] at h
    split at h
    · rename_i left' hfill
      cases h
      exact .clause (by simp) (clausal_of_fill horderly hkind hfill (Or.inl rfl))
    · split at h
      · cases h
        exact .tying (hkind.isTieStart_iff.mp ‹_›)
      · cases h
  | tied operator at_ =>
    simp only [next, Option.any_none, Bool.false_eq_true, if_false] at h
    split at h
    · cases h
      exact .clause (by simp) (clausal_of_select hkind ‹_›)
    · cases h
  | update =>
    exact .clause (by simp)
      (clausal_of_tailNext orderly_updateSlots hkind (requireOperand_bind.mp h).2)
  | delete =>
    rw [next] at h
    split at h
    · rename_i hfrom
      cases h
      obtain rfl : kind = .fromClause := (hkind.eq_opener_iff .fromClause rfl).mp hfrom
      exact .clause (by simp) ⟨rfl, by decide, Or.inr ⟨_, orderly_filter, Or.inr rfl⟩⟩
    · exact .clause (by simp)
        (clausal_of_tailNext orderly_filter hkind (requireOperand_bind.mp h).2)
  | insert =>
    rw [next] at h
    split at h
    · rename_i hvalues
      cases h
      obtain rfl : kind = .values := (hkind.eq_opener_iff .values rfl).mp hvalues
      exact .clause (by simp) ⟨rfl, by decide, Or.inl rfl⟩
    · exact .clause (by simp) (clausal_of_rowsNext hkind (Except.ok.inj h))
  | values => exact .clause (by simp) (clausal_of_rowsNext hkind (Except.ok.inj h))
  | tail left => exact .clause (by simp) (clausal_of_tailNext horderly hkind (Except.ok.inj h))

theorem Follows.orderly (h : Follows kind stage stage') : stage'.Orderly := by
  cases h with
  | opening => trivial
  | leading _ hlead =>
    unfold leadOf at hlead
    split at hlead <;> cases hlead
    · exact Slot.orderly_query
    · trivial
    · trivial
    · trivial
    · exact Slot.orderly_query.sublist (List.nil_sublist _)
  | tying => trivial
  | clause _ hclause =>
    obtain rfl | ⟨left, hleft, rfl | rfl⟩ := hclause.follows
    · trivial
    · exact hleft
    · exact hleft

theorem Follows.closing (h : Follows kind stage stage') : kind.closing? = none := by
  cases h with
  | opening hkind =>
    subst hkind
    rfl
  | leading _ hlead =>
    unfold leadOf at hlead
    split at hlead <;> first | rfl | cases hlead
  | tying hkind =>
    subst hkind
    rfl
  | clause _ hclause => exact hclause.closing

end Transitions

/-- The leading group of a statement holds enough. -/
def Leads : List Group → Prop
  | [] => True
  | g :: gs => (g.kind = .update → ¬g.Bare) ∧
      (g.kind = .delete → (∃ g' ∈ gs.head?, g'.kind = .fromClause) ∨ ¬g.Bare)

/-- The last group and those that follow hold enough. -/
def Whole (last : Option Group) (gs : List Group) : Stage → Prop
  | .start => Leads (Group.behindWith gs)
  | .body => Leads gs
  | .tied _ _ => gs = [] → last.any Group.holdsGroup = true
  | .update => ∀ g ∈ last, ¬g.Bare
  | .delete => (∃ g' ∈ gs.head?, g'.kind = .fromClause) ∨ ∀ g ∈ last, ¬g.Bare
  | _ => True

/-- A set operator at the end holds its query. -/
def TieHolds (gs : List Group) : Prop := ∀ g ∈ gs.getLast?, g.kind = .tie → g.holdsGroup = true

/-- The groups may follow the last group when the stage is reached. -/
structure Allows (stage : Stage) (last : Option Group) (gs : List Group) : Prop where
  kinds : gs.map Group.kind ∈ stage.language
  whole : stage.Whole last gs
  tie : TieHolds gs

section Groups
variable {position : Nat} {t : Token} {stage stage' : Stage} {last : Option Group} {g : Group}
  {gs : List Group}

theorem tieHolds_cons :
    TieHolds (g :: gs) ↔ (gs = [] → g.kind = .tie → g.holdsGroup = true) ∧ TieHolds gs := by
  cases gs with
  | nil => simp [TieHolds]
  | cons g' gs => simp [TieHolds, List.getLast?_cons_cons]

theorem Follows.whole_cons (h : Follows g.kind stage stage') (hkind : g.kind.OpenedBy t.kind) :
    (stage.Whole last (g :: gs) ∧ (gs = [] → g.kind = .tie → g.holdsGroup = true)) ↔
      stage.Ready last t ∧ stage'.Whole (some g) gs := by
  cases h with
  | opening hwith => simp [Whole, Ready, Group.behindWith, hwith]
  | leading hstage hlead =>
    have hwith : g.kind ≠ .withClause := by
      intro hk
      simp [hk, leadOf] at hlead
    have hleads : stage.Whole last (g :: gs) ↔ Leads (g :: gs) := by
      obtain rfl | rfl := hstage <;> simp [Whole, Group.behindWith, hwith]
    have hready : stage.Ready last t := by
      obtain rfl | rfl := hstage <;> trivial
    rw [hleads, and_iff_right hready, Leads]
    unfold leadOf at hlead
    split at hlead <;> cases hlead <;> simp_all [Whole]
  | tying htie => simp [Whole, Ready, htie]
  | clause hstage hclause =>
    have hfrom : t.kind = .keyword .FROM ↔ g.kind = .fromClause := hkind.eq_opener_iff .fromClause rfl
    have hwhole : stage'.Whole (some g) gs := by
      obtain rfl | ⟨left, _, rfl | rfl⟩ := hclause.follows <;> trivial
    simp only [hclause.ne_tie, hwhole, false_implies, implies_true, and_true]
    cases stage <;> simp_all [Whole, Ready]

theorem allows_cons (horderly : stage.Orderly) (hkind : g.kind.OpenedBy t.kind) :
    stage.Allows last (g :: gs) ↔
      ∃ stage', next last position t stage = .ok (some stage') ∧ stage'.Allows (some g) gs := by
  constructor
  · rintro ⟨hkinds, hwhole, htie⟩
    obtain ⟨hlast, htie⟩ := tieHolds_cons.mp htie
    obtain ⟨stage', hnext, hkinds⟩ := (cons_mem_language horderly hkind).mp hkinds
    obtain ⟨hready, hwhole⟩ :=
      ((follows_of_next horderly hkind hnext).whole_cons hkind).mp ⟨hwhole, hlast⟩
    exact ⟨stage', next_eq_some_iff.mpr ⟨hready, hnext⟩, hkinds, hwhole, htie⟩
  · rintro ⟨stage', hnext, hkinds, hwhole, htie⟩
    obtain ⟨hready, hnext⟩ := next_eq_some_iff.mp hnext
    obtain ⟨hwhole, hlast⟩ :=
      ((follows_of_next horderly hkind hnext).whole_cons hkind).mpr ⟨hready, hwhole⟩
    exact ⟨(cons_mem_language horderly hkind).mpr ⟨stage', hnext, hkinds⟩, hwhole,
      tieHolds_cons.mpr ⟨hlast, htie⟩⟩

theorem fill?_eof {slots : List Slot} (horderly : Slot.Orderly slots) :
    Slot.fill? .eof slots = none := by
  cases hfill : Slot.fill? .eof slots with
  | none => rfl
  | some left =>
    obtain ⟨kind, hstart, _⟩ := horderly.clause_of_fill hfill
    cases hstart

theorem nil_mem_opt (l : Language GroupKind) : [] ∈ 1 + l := Or.inl Language.nil_mem_one

/-- Only behind a WITH clause a group must follow, whatever has been read. -/
theorem nil_mem_language (stage : Stage) : [] ∈ stage.language ↔ stage ≠ .body := by
  have hties : [] ∈ ties := by
    rw [ties_eq]
    exact nil_mem_opt _
  have hrows : [] ∈ rows := Or.inr (Slot.nil_mem_language _)
  cases stage with
  | start => exact iff_of_true (nil_mem_opt _) nofun
  | body =>
    simp only [language, bodies, core, Language.mem_add, nil_mem_mul, nil_notMem_letters, false_and,
      or_false, ne_eq, not_true]
  | query left => exact iff_of_true (nil_mem_mul.mpr ⟨Slot.nil_mem_language left, hties⟩) nofun
  | tied operator at_ => exact iff_of_true (nil_mem_opt _) nofun
  | update => exact iff_of_true (Slot.nil_mem_language updateSlots) nofun
  | delete => exact iff_of_true (Slot.nil_mem_language _) nofun
  | insert => exact iff_of_true (nil_mem_mul.mpr ⟨nil_mem_opt _, hrows⟩) nofun
  | values => exact iff_of_true hrows nofun
  | tail left => exact iff_of_true (Slot.nil_mem_language left) nofun

/-- The end of the input ends a statement exactly when nothing need follow. -/
theorem allows_nil (horderly : stage.Orderly) (ht : t.kind = .eof) :
    stage.Allows last [] ↔ next last position t stage = .ok none := by
  have hwords : stage.Allows last [] ↔ stage ≠ .body ∧ stage.Whole last [] :=
    ⟨fun h => ⟨stage.nil_mem_language.mp h.kinds, h.whole⟩,
      fun h => ⟨stage.nil_mem_language.mpr h.1, h.2, by simp [TieHolds]⟩⟩
  have htail : ∀ {slots}, Slot.Orderly slots → tailNext slots t = none := by
    intro slots hslots
    rw [tailNext, ht, fill?_eof hslots, Option.map_none]
  have hrows : rowsNext t = none := by
    rw [rowsNext, htail orderly_rows]
    simp [ht]
  rw [hwords]
  cases stage with
  | start => simp [next, ht, Whole, Group.behindWith, Leads]
  | body => simp [next, lead, ht]
  | query left => simp [next, ht, fill?_eof horderly, Whole, TokenKind.isTieStart]
  | tied operator at_ =>
    simp only [next, ht, Whole, ne_eq, reduceCtorEq, not_false_eq_true, true_and, true_implies, if_false]
    change last.any Group.holdsGroup = true ↔ (if last.any Group.holdsGroup = true then _ else _) = _
    split <;> simp [*]
  | update =>
    simp only [next, Whole, requireOperand_bind]
    simpa [updateSlots] using fun _ => htail orderly_updateSlots
  | delete =>
    simp only [next, ht, Whole, reduceCtorEq, if_false, requireOperand_bind]
    simpa using fun _ => htail orderly_filter
  | insert => simp [next, ht, Whole, hrows]
  | values => simp [next, Whole, hrows]
  | tail left => simp [next, Whole, htail horderly]

end Groups
end Stage

namespace Grammar

theorem matches_char (kind : GroupKind) : (char kind).matches' = letters (· = kind) := by
  ext w
  change w = [kind] ↔ _
  simp [mem_letters]

theorem matches_line : line.matches' = letters fun kind => kind = .andLine || kind = .orLine := by
  rw [line, matches'_add, matches_char, matches_char, letters_add]

theorem words_opt {s : Slot} {p : RegularExpression GroupKind} (hrepeats : s.repeats = false)
    (h : letters s.admits = p.matches') : s.words = (opt p).matches' := by
  rw [Slot.words, hrepeats, h, opt, matches'_add, matches'_epsilon]
  rfl

theorem words_many {s : Slot} {p : RegularExpression GroupKind} (hrepeats : s.repeats = true)
    (h : letters s.admits = p.matches') : s.words = (many p).matches' := by
  rw [Slot.words, if_pos hrepeats, h, many, matches'_star]

theorem words_one (k : Keyword) (kind : GroupKind)
    (h : ∀ kind', (Slot.one k).admits kind' = decide (kind' = kind)) :
    (Slot.one k).words = (opt (char kind)).matches' :=
  words_opt rfl (by rw [matches_char, funext h])

theorem words_lines : Slot.lines.words = (many line).matches' :=
  words_many rfl (matches_line ▸ congrArg letters (funext (by decide)))

theorem words_joins : Slot.words { accepts := TokenKind.isJoinStart, repeats := true } =
    (many (char .join)).matches' :=
  words_many rfl (matches_char _ ▸ congrArg letters (funext (by decide)))

theorem words_joins_lines :
    Slot.words { accepts := fun k => k.isJoinStart || k.isLineStart, repeats := true } =
      (many (char .join + line)).matches' := by
  refine words_many rfl ?_
  rw [matches'_add, matches_char, matches_line, letters_add]
  exact congrArg letters (funext (by decide))

theorem words_limits : Slot.words { accepts := TokenKind.isLimitStart, repeats := true } =
    (many (char .limit)).matches' :=
  words_many rfl (matches_char _ ▸ congrArg letters (funext (by decide)))

theorem language_filter : Slot.language Slot.filter = filter.matches' := by
  simp only [Slot.filter, Slot.language, filter, matches'_mul, mul_assoc, mul_one, words_lines,
    words_one .WHERE .whereClause (by decide), words_one .RETURNING .returning (by decide)]

theorem core_eq : Stage.core = core.matches' := by
  simp only [Stage.core, Slot.query, Slot.language, core, matches'_mul, mul_assoc, mul_one,
    words_lines, words_joins_lines, words_limits, ← matches_char,
    words_one .FROM .fromClause (by decide), words_one .WHERE .whereClause (by decide),
    words_one .GROUP .groupBy (by decide), words_one .HAVING .having (by decide),
    words_one .ORDER .orderBy (by decide)]

theorem query_eq : Stage.core * Stage.ties = query.matches' := by
  simp only [Stage.ties, core_eq, ← matches_char, query, opt, many, matches'_mul, matches'_star,
    matches'_add, matches'_epsilon, mul_assoc]

theorem statement_matches :
    statement.matches' = (1 + letters (· = .withClause)) * Stage.bodies := by
  simp only [statement, update, delete, insert, opt, matches'_mul, matches'_add, matches'_epsilon,
    mul_assoc, Stage.bodies, Stage.rows, Stage.updateSlots, Slot.language, ← language_filter,
    ← query_eq, ← matches_char, words_joins, words_one .SET .setClause (by decide),
    words_one .FROM .fromClause (by decide), words_one .UPDATE .update (by decide)]

end Grammar

theorem Group.retrieve?_opened {position indent : Nat} {tokens : List Token} {r : Retrieved}
    (h : retrieve? position indent tokens = some (.ok r)) :
    ∃ t next, tokens = t :: next ∧ r.group.kind.OpenedBy t.kind ∧
      ∃ es, r.group.elements = .token t :: es := by
  obtain ⟨t, next, kind, rfl, hstart, hreads⟩ := retrieve?_ok_iff.mp h
  obtain ⟨helements, hkind⟩ := hreads.opened
  refine ⟨t, next, rfl, ?_, helements⟩
  obtain hkind | ⟨hparens, hkind⟩ := hkind
  · exact Or.inl (hkind ▸ hstart)
  · exact Or.inr ⟨hparens ▸ hstart, hkind⟩

theorem Group.two_le_length_iff {g : Group} {t : Token} {es : List Element}
    (h : g.elements = .token t :: es) : 2 ≤ g.elements.length ↔ ¬g.Bare := by
  cases es <;> simp [Bare, h]

theorem Group.Retrieves.begins {position : Nat} {tokens : List Token} {groups : List Group}
    (h : Retrieves position tokens groups) : ∀ g ∈ groups, ∃ t es, g.elements = .token t :: es := by
  induction h with
  | done => simp
  | more hr _ ih =>
    obtain ⟨t, _, _, _, es, hes⟩ := retrieve?_opened hr
    exact List.forall_mem_cons.mpr ⟨⟨t, es, hes⟩, ih⟩

theorem Group.behindWith_suffix (groups : List Group) : behindWith groups <:+ groups := by
  unfold behindWith
  split
  · split
    · exact List.suffix_cons _ _
    · exact List.suffix_rfl
  · exact List.suffix_rfl

/-- What the stages demand of single groups. -/
theorem Grammar.complete_iff {groups : List Group}
    (h : ∀ g ∈ groups, ∃ t es, g.elements = .token t :: es) :
    Complete groups ↔ Stage.Leads (Group.behindWith groups) ∧ Stage.TieHolds groups := by
  have hbehind : ∀ g ∈ Group.behindWith groups, 2 ≤ g.elements.length ↔ ¬g.Bare := by
    intro g hg
    obtain ⟨t, es, hes⟩ := h g ((Group.behindWith_suffix groups).subset hg)
    exact Group.two_le_length_iff hes
  constructor
  · rintro ⟨hupdate, hdelete, htie⟩
    refine ⟨?_, htie⟩
    cases hgroups : Group.behindWith groups with
    | nil => trivial
    | cons g gs =>
      rw [hgroups] at hbehind hupdate
      have hg := hbehind g List.mem_cons_self
      exact ⟨fun hk => hg.mp (hupdate g rfl hk), fun hk => (hdelete g gs hgroups hk).symm.imp_right hg.mp⟩
  · rintro ⟨hleads, htie⟩
    cases hgroups : Group.behindWith groups with
    | nil => exact ⟨by simp [hgroups], by simp [hgroups], htie⟩
    | cons g gs =>
      rw [hgroups] at hbehind hleads
      have hg := hbehind g List.mem_cons_self
      refine ⟨?_, ?_, htie⟩
      · rintro g' hg' hk
        rw [hgroups] at hg'
        obtain rfl := Option.some.inj hg'
        exact hg.mpr (hleads.1 hk)
      · rintro g' gs' hg' hk
        obtain ⟨rfl, rfl⟩ := List.cons.inj (hgroups.symm.trans hg')
        exact (hleads.2 hk).symm.imp_left hg.mpr

namespace Statement

/-- Reading groups to the end of the input retrieves groups that the stage allows. -/
theorem retrieves_of_readGroups {stage : Stage} {groups all : List Group} {position p : Nat}
    {tokens : List Token} {e : Token} (horderly : stage.Orderly)
    (h : readGroups stage groups position tokens = .ok (all, p, e)) (he : e.kind = .eof) :
    ∃ gs, Group.Retrieves position tokens gs ∧ stage.Allows groups.head? gs ∧
      all = groups.reverse ++ gs := by
  induction stage, groups, position, tokens, h using readGroups_induction with
  | ends stage groups ts h hnext hall =>
    exact ⟨[], .done he, (Stage.allows_nil horderly he).mpr hnext, by simp [hall]⟩
  | reads stage groups position t ts stage' r h hnext hr hmore ih =>
    obtain ⟨_, _, htokens, hkind, _⟩ := Group.retrieve?_opened hr
    obtain ⟨rfl, rfl⟩ := List.cons.inj htokens
    have hfollows := Stage.follows_of_next horderly hkind (Stage.next_eq_some_iff.mp hnext).2
    obtain ⟨gs, hretrieves, hallows, hall⟩ := ih hfollows.orderly
    refine ⟨r.group :: gs, .more hr hretrieves, ?_, by simp [hall]⟩
    exact (Stage.allows_cons horderly hkind).mpr ⟨stage', hnext, hallows⟩

/-- Groups that are retrieved up to the end of the input, and that the stage allows, are read. -/
theorem readGroups_of_retrieves {position : Nat} {tokens : List Token} {gs : List Group}
    (h : Group.Retrieves position tokens gs) {stage : Stage} {groups : List Group}
    (horderly : stage.Orderly) (hallows : stage.Allows groups.head? gs) :
    ∃ p e, readGroups stage groups position tokens = .ok (groups.reverse ++ gs, p, e) ∧
      e.kind = .eof := by
  induction h generalizing stage groups with
  | @done position e rest he =>
    rw [Stage.allows_nil horderly he] at hallows
    refine ⟨position, e, ?_, he⟩
    rw [readGroups, hallows, List.append_nil]
  | @more position tokens r gs hr _ ih =>
    obtain ⟨t, next, rfl, hkind, _⟩ := Group.retrieve?_opened hr
    obtain ⟨stage', hnext, hallows⟩ := (Stage.allows_cons horderly hkind).mp hallows
    have hfollows := Stage.follows_of_next horderly hkind (Stage.next_eq_some_iff.mp hnext).2
    obtain ⟨p, e, hread, he⟩ := @ih stage' (r.group :: groups) hfollows.orderly hallows
    refine ⟨p, e, ?_, he⟩
    rw [readGroups_cons hnext hr, hread]
    simp

/-- A statement is read exactly when the groups that are retrieved from it follow the grammar, hold
what they must and nest their brackets; and then these groups are the result. -/
theorem parseSingle_ok_iff {ts : List Token} {e : Token} {groups : List Group} (hts : ts ≠ [])
    (he : e.kind = .eof) (honly : ∀ t ∈ ts, t.kind ≠ .eof) :
    parseSingle (ts ++ [e]) = .ok groups ↔
      Group.Retrieves 0 (ts ++ [e]) groups ∧
        groups.map Group.kind ∈ Grammar.statement.matches' ∧ Grammar.Complete groups ∧
          Balance.unbalanced? groups = none := by
  have hends : endsWithEof (ts ++ [e]) = true := by
    simp [endsWithEof, he]
  have hstart : Stage.start.Orderly := trivial
  have hbalance : Balance.unbalanced? groups = none ↔
      Balance.fault? (Group.tokensOf groups) = none := Option.map_eq_none_iff
  rw [parseSingle, if_pos hends, readFrom_ok_iff, hbalance]
  constructor
  · rintro ⟨⟨p, t, hread, ht⟩, hfault⟩
    obtain ⟨gs, hretrieves, hallows, hgs⟩ := retrieves_of_readGroups hstart hread ht
    obtain rfl : groups = gs := hgs
    refine ⟨hretrieves, ?_,
      (Grammar.complete_iff hretrieves.begins).mpr ⟨hallows.whole, hallows.tie⟩, hfault⟩
    obtain hnil | hkinds := hallows.kinds
    · -- the first token is no end of the input, so a group has been read
      obtain ⟨t, ts, rfl⟩ := List.exists_cons_of_ne_nil hts
      obtain rfl : groups = [] := List.map_eq_nil_iff.mp hnil
      cases hretrieves with
      | done ht => exact absurd ht (honly t List.mem_cons_self)
    · rw [Grammar.statement_matches]
      exact hkinds
  · rintro ⟨hretrieves, hkinds, hcomplete, hfault⟩
    obtain ⟨hleads, htie⟩ := (Grammar.complete_iff hretrieves.begins).mp hcomplete
    have hread := @readGroups_of_retrieves _ _ _ hretrieves .start [] hstart
      ⟨Or.inr (Grammar.statement_matches ▸ hkinds), hleads, htie⟩
    exact ⟨hread, hfault⟩

theorem parseSingle_ok_iff_of_union :
    ∃ groups,
      parseSingle ([⟨.keyword .SELECT, "SELECT"⟩, ⟨.ident, "a"⟩, ⟨.keyword .FROM, "FROM"⟩,
        ⟨.ident, "t"⟩, ⟨.keyword .UNION, "UNION"⟩, ⟨.openParen, "("⟩, ⟨.keyword .SELECT, "SELECT"⟩,
        ⟨.ident, "b"⟩, ⟨.closeParen, ")"⟩] ++ [Token.eof]) = .ok groups ∧
      groups.map Group.kind ∈ Grammar.statement.matches' ∧ Grammar.Complete groups :=
  (exists_of_isOk (by decide +kernel)).imp fun _ h =>
    have hread := (parseSingle_ok_iff (by simp) rfl (by decide)).mp h
    ⟨h, hread.2.1, hread.2.2.1⟩

end Statement
end SqlLayout
