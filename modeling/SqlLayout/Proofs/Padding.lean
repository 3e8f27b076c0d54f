import SqlLayout.Format
import SqlLayout.Proofs.Relining

/-! Spaces before lines. The lines of a layout begin in its gaps and inside its literals. So a padded
layout is a layout again: its gaps are wider, and its literals differ where a line begins inside
them. -/

namespace SqlLayout
set_option autoImplicit false

/-- No line begins inside the text, other than empty lines. -/
def Unbroken (text : List Char) : Prop := text.IsChain fun a b => a = '\n' → b = '\n'

instance (text : List Char) : Decidable (Unbroken text) :=
  inferInstanceAs (Decidable (text.IsChain fun a b => a = '\n' → b = '\n'))

def startsLine (atStart : Bool) (text : List Char) : Bool :=
  match text.getLast? with
  | some c => c = '\n'
  | none => atStart

section PadFrom
variable (n : Nat)

theorem padFrom_append (atStart : Bool) (x y : List Char) :
    padFrom n atStart (x ++ y) = padFrom n atStart x ++ padFrom n (startsLine atStart x) y := by
  induction x generalizing atStart with
  | nil => rfl
  | cons c x ih =>
    have hstart : startsLine atStart (c :: x) = startsLine (c = '\n') x := by
      unfold startsLine
      rw [List.getLast?_cons]
      cases x.getLast? <;> rfl
    rw [List.cons_append, padFrom, padFrom, ih, ih, hstart]
    by_cases hc : c = '\n'
    · simp [hc]
    · cases atStart <;> simp [hc]

theorem startsLine_append (atStart : Bool) (x y : List Char) :
    startsLine atStart (x ++ y) = startsLine (startsLine atStart x) y := by
  rcases List.eq_nil_or_concat y with rfl | ⟨y, c, rfl⟩
  · rw [List.append_nil]
    rfl
  · simp [startsLine]

theorem length_le_padFrom (atStart : Bool) (text : List Char) :
    text.length ≤ (padFrom n atStart text).length := by
  induction text generalizing atStart with
  | nil => simp [padFrom]
  | cons c text ih =>
    have htrue := ih true
    have hfalse := ih false
    rw [padFrom]
    split
    · simpa using htrue
    · split
      · simp
        omega
      · simpa using hfalse

/-- Padding leaves a text as it is only where no line begins in it. -/
theorem padFrom_eq_self_iff (atStart : Bool) (text : List Char) :
    padFrom n atStart text = text ↔
      n = 0 ∨ Unbroken text ∧ (atStart = true → ∀ c ∈ text.head?, c = '\n') := by
  induction text generalizing atStart with
  | nil => simp [padFrom, Unbroken]
  | cons c text ih =>
    unfold Unbroken at ih ⊢
    rw [padFrom, List.isChain_cons]
    by_cases hc : c = '\n'
    · rw [if_pos hc, List.cons_inj_right, ih true]
      simp [hc, and_comm]
    · rw [if_neg hc]
      cases atStart with
      | false => simp [ih false, hc]
      | true =>
        cases n with
        | zero => simpa using ih false
        | succ n =>
          have hle := length_le_padFrom (n + 1) false text
          have hne : List.replicate (n + 1) ' ' ++ c :: padFrom (n + 1) false text ≠ c :: text := by
            intro heq
            have hlength := congrArg List.length heq
            simp at hlength
            omega
          simp [hne, hc]

theorem padFrom_zero (atStart : Bool) (text : List Char) : padFrom 0 atStart text = text :=
  (padFrom_eq_self_iff 0 atStart text).mpr (Or.inl rfl)

theorem padFrom_eq_self {text : List Char} (h : '\n' ∉ text) : padFrom n false text = text := by
  rw [padFrom_eq_self_iff]
  refine Or.inr ⟨?_, by simp⟩
  induction text with
  | nil => exact .nil
  | cons c text ih =>
    refine List.isChain_cons.mpr ⟨?_, ih fun hmem => h (List.mem_cons_of_mem c hmem)⟩
    rintro b - rfl
    exact absurd List.mem_cons_self h

theorem padFrom_true {c : Char} (hc : c ≠ '\n') (text : List Char) :
    padFrom n true (c :: text) = List.replicate n ' ' ++ padFrom n false (c :: text) := by
  simp [padFrom, hc]

theorem isBlank_replicate : Scrap.isBlank (List.replicate n ' ') := by
  intro c hc
  rw [List.eq_of_mem_replicate hc]
  rfl

theorem isBlank_append {x y : List Char} (hx : Scrap.isBlank x) (hy : Scrap.isBlank y) :
    Scrap.isBlank (x ++ y) := by
  intro c hc
  rcases List.mem_append.mp hc with hc | hc
  · exact hx c hc
  · exact hy c hc

theorem isBlank_padFrom (atStart : Bool) {text : List Char} (h : Scrap.isBlank text) :
    Scrap.isBlank (padFrom n atStart text) := by
  induction text generalizing atStart with
  | nil => simp [padFrom, Scrap.isBlank]
  | cons c text ih =>
    have hc : Scrap.isBlank [c] := by
      intro e he
      rw [List.mem_singleton.mp he]
      exact h c List.mem_cons_self
    have ih := fun start => ih start fun e he => h e (List.mem_cons_of_mem c he)
    rw [padFrom]
    split
    · exact isBlank_append hc (ih true)
    · split
      · exact isBlank_append (isBlank_replicate n) (isBlank_append hc (ih false))
      · exact isBlank_append hc (ih false)

theorem padFrom_eq_nil_iff (atStart : Bool) (text : List Char) :
    padFrom n atStart text = [] ↔ text = [] := by
  constructor
  · intro h
    have hle := length_le_padFrom n atStart text
    rw [h] at hle
    exact List.length_eq_zero_iff.mp (Nat.le_zero.mp hle)
  · rintro rfl
    rfl

theorem unbroken_of_padFrom (hn : n ≠ 0) (atStart : Bool) {text : List Char}
    (h : Unbroken (padFrom n atStart text)) : Unbroken text := by
  induction text generalizing atStart with
  | nil => exact .nil
  | cons c text ih =>
    rw [padFrom] at h
    by_cases hc : c = '\n'
    · rw [if_pos hc] at h
      obtain ⟨hhead, hmore⟩ := List.isChain_cons.mp h
      refine List.isChain_cons.mpr ⟨?_, ih true hmore⟩
      intro b hb _
      cases text with
      | nil => simp at hb
      | cons e text =>
        obtain rfl : e = b := by simpa using hb
        -- a line that is not empty begins with a space
        by_contra hbreak
        obtain ⟨m, rfl⟩ := Nat.exists_eq_succ_of_ne_zero hn
        rw [padFrom_true _ hbreak, List.replicate_succ] at hhead
        cases hhead ' ' rfl hc
    · have hmore : Unbroken (c :: padFrom n false text) := by
        rw [if_neg hc] at h
        split at h
        · exact h.right_of_append
        · exact h
      refine List.isChain_cons.mpr ⟨fun b _ h => absurd h hc, ih false ?_⟩
      exact (List.isChain_cons.mp hmore).2

theorem newline_mem_padFrom (atStart : Bool) (text : List Char) :
    '\n' ∈ padFrom n atStart text ↔ '\n' ∈ text := by
  induction text generalizing atStart with
  | nil => simp [padFrom]
  | cons c text ih =>
    rw [padFrom]
    split
    · simp [ih]
    · split <;> simp [ih, List.mem_replicate]

end PadFrom

namespace Quoted

theorem split_spaces {q : Char} (hq : q ≠ ' ') (n : Nat) (cs : List Char) :
    split q (List.replicate n ' ' ++ cs) =
        (List.replicate n ' ' ++ (split q cs).1, (split q cs).2) ∧
      closes q (List.replicate n ' ' ++ cs) = closes q cs := by
  induction n with
  | zero => exact ⟨rfl, rfl⟩
  | succ n ih =>
    rw [List.replicate_succ, List.cons_append, split_other hq.symm, closes_other hq.symm, ih.1]
    exact ⟨rfl, ih.2⟩

/-- A text is one literal of its own, also when it is padded, and is closed in both cases or in
none. -/
def PadsWhole (q : Char) (n : Nat) (atStart : Bool) (cs : List Char) : Prop :=
  split q (padFrom n atStart cs) = (padFrom n atStart cs, []) ∧
    closes q (padFrom n atStart cs) = closes q cs

theorem PadsWhole.of_false {q : Char} (hq : q ≠ ' ') {n : Nat} {c : Char} {cs : List Char}
    (hc : c ≠ '\n') (h : PadsWhole q n false (c :: cs)) (atStart : Bool) :
    PadsWhole q n atStart (c :: cs) := by
  cases atStart with
  | false => exact h
  | true =>
    have hsplit := split_spaces hq n (padFrom n false (c :: cs))
    unfold PadsWhole
    rw [padFrom_true n hc, hsplit.1, hsplit.2, h.1]
    exact ⟨rfl, h.2⟩

theorem padsWhole {q : Char} (hq : q ≠ ' ') (hnewline : q ≠ '\n') (n : Nat) {cs : List Char}
    (h : split q cs = (cs, [])) (atStart : Bool) : PadsWhole q n atStart cs := by
  induction cs using steps (q := q) generalizing atStart with
  | nil => exact ⟨rfl, rfl⟩
  | other c cs hc ih =>
    have hmore : split q cs = (cs, []) := by
      rw [split_other hc] at h
      simpa [Prod.ext_iff] using h
    by_cases hbreak : c = '\n'
    · obtain ⟨hsplit, hcloses⟩ := ih hmore true
      unfold PadsWhole
      rw [padFrom, if_pos hbreak, split_other hc, closes_other hc, closes_other hc, hsplit]
      exact ⟨rfl, hcloses⟩
    · apply PadsWhole.of_false hq hbreak
      obtain ⟨hsplit, hcloses⟩ := ih hmore false
      unfold PadsWhole
      rw [padFrom, if_neg hbreak, if_neg Bool.false_ne_true, split_other hc, closes_other hc,
        closes_other hc, hsplit]
      exact ⟨rfl, hcloses⟩
  | double cs ih =>
    have hmore : split q cs = (cs, []) := by
      rw [split_double] at h
      simpa [Prod.ext_iff] using h
    obtain ⟨hsplit, hcloses⟩ := ih hmore false
    apply PadsWhole.of_false hq hnewline
    have hpad : padFrom n false (q :: q :: cs) = q :: q :: padFrom n false cs := by
      simp [padFrom, hnewline]
    unfold PadsWhole
    rw [hpad, split_double, closes_double, closes_double, hsplit]
    exact ⟨rfl, hcloses⟩
  | close cs hcs =>
    obtain rfl : cs = [] := by
      rw [split_close hcs] at h
      exact (Prod.mk.inj h).2
    apply PadsWhole.of_false hq hnewline
    have hpad : padFrom n false [q] = [q] := by simp [padFrom, hnewline]
    unfold PadsWhole
    rw [hpad]
    exact ⟨h, rfl⟩

end Quoted

/-- The token when the lines inside a literal are padded. -/
def Token.padded (n : Nat) (t : Token) : Token :=
  if t.kind = .string then ⟨.string, String.ofList (padFrom n false t.text.toList)⟩ else t

/-- The token begins with a character of its line, and lines begin only inside literals. -/
structure Token.Lined (o : Options) (t : Token) : Prop where
  head : ∃ c cs, (t.spelling o).toList = c :: cs ∧ c ≠ '\n'
  single : t.kind ≠ .string → '\n' ∉ (t.spelling o).toList

theorem Token.kind_padded (n : Nat) (t : Token) : (t.padded n).kind = t.kind := by
  unfold padded
  split
  · rename_i h
    rw [h]
  · rfl

theorem Token.spelling_padded (n : Nat) {o : Options} {t : Token} (h : t.Lined o) :
    ((t.padded n).spelling o).toList = padFrom n false (t.spelling o).toList := by
  unfold padded
  split
  · rename_i hkind
    simp [spelling, hkind, TokenKind.isVerbatim]
  · rename_i hkind
    rw [padFrom_eq_self n (h.single hkind)]

theorem Token.Lined.startsLine {o : Options} {t : Token} (h : t.Lined o) (atStart : Bool) :
    startsLine atStart (t.spelling o).toList = startsLine false (t.spelling o).toList := by
  obtain ⟨c, cs, hcs, -⟩ := h.head
  rw [hcs, SqlLayout.startsLine, SqlLayout.startsLine, List.getLast?_cons]

theorem Token.Lined.padFrom (n : Nat) {o : Options} {t : Token} (h : t.Lined o) (atStart : Bool) :
    padFrom n atStart (t.spelling o).toList =
      (if atStart then List.replicate n ' ' else []) ++ ((t.padded n).spelling o).toList := by
  rw [spelling_padded n h]
  cases atStart with
  | false => rfl
  | true =>
    obtain ⟨c, cs, hcs, hc⟩ := h.head
    rw [hcs]
    exact padFrom_true n hc cs

namespace Piece
variable (o : Options) (n : Nat)

/-- The pieces of a padded layout. The spaces before a line belong to the gap of its first piece. -/
def padded : Bool → List Piece → List Piece
  | _, [] => []
  | atStart, p :: pieces =>
    ⟨padFrom n atStart p.gap ++ if startsLine atStart p.gap then List.replicate n ' ' else [],
      p.token.padded n⟩ :: padded (startsLine false (p.token.spelling o).toList) pieces

theorem padFrom_flat (atStart : Bool) {pieces : List Piece} (h : ∀ p ∈ pieces, p.token.Lined o)
    {tail : List Char} (htail : Scrap.isBlank tail) :
    ∃ rest, Scrap.isBlank rest ∧ (rest = [] ↔ tail = []) ∧
      padFrom n atStart (flat o pieces ++ tail) = flat o (padded o n atStart pieces) ++ rest := by
  induction pieces generalizing atStart with
  | nil =>
    exact ⟨padFrom n atStart tail, isBlank_padFrom n atStart htail, padFrom_eq_nil_iff n atStart tail,
      rfl⟩
  | cons p pieces ih =>
    have hp := h p List.mem_cons_self
    obtain ⟨rest, hrest, hnil, hmore⟩ :=
      ih (startsLine false (p.token.spelling o).toList) fun q hq => h q (List.mem_cons_of_mem p hq)
    refine ⟨rest, hrest, hnil, ?_⟩
    rw [padded, flat_cons, flat_cons, List.append_assoc, List.append_assoc, padFrom_append,
      padFrom_append, hp.startsLine, hmore, hp.padFrom]
    simp only [List.append_assoc]

theorem padded_blank (atStart : Bool) {pieces : List Piece} (h : ∀ p ∈ pieces, Scrap.isBlank p.gap) :
    ∀ p ∈ padded o n atStart pieces, Scrap.isBlank p.gap := by
  induction pieces generalizing atStart with
  | nil => simp [padded]
  | cons p pieces ih =>
    intro q hq
    rcases List.mem_cons.mp hq with rfl | hq
    · apply isBlank_append (isBlank_padFrom n atStart (h p List.mem_cons_self))
      split
      · exact isBlank_replicate n
      · simp [Scrap.isBlank]
    · exact ih _ (fun r hr => h r (List.mem_cons_of_mem p hr)) q hq

theorem padded_tokens (atStart : Bool) (pieces : List Piece) :
    (padded o n atStart pieces).map Piece.token =
      (pieces.map Piece.token).map (Token.padded n) := by
  induction pieces generalizing atStart with
  | nil => rfl
  | cons p pieces ih => rw [padded, List.map_cons, ih, List.map_cons, List.map_cons]

theorem relined_padded (afterNewline atStart : Bool) {pieces : List Piece}
    (h : ∀ t ∈ pieces.map Piece.token, t.padded n = t) :
    relined afterNewline (padded o n atStart pieces) = relined afterNewline pieces := by
  induction pieces generalizing afterNewline atStart with
  | nil => rfl
  | cons p pieces ih =>
    have hgap : (padFrom n atStart p.gap ++
        if startsLine atStart p.gap then List.replicate n ' ' else []).contains '\n' =
          p.gap.contains '\n' := by
      rw [Bool.eq_iff_iff, List.contains_iff_mem, List.contains_iff_mem, List.mem_append,
        newline_mem_padFrom]
      split <;> simp [List.mem_replicate]
    rw [List.map_cons, List.forall_mem_cons] at h
    rw [padded, relined, relined, hgap, h.1, ih false _ h.2]

theorem padded_apart (atStart : Bool) {pieces : List Piece} (h : pieces.IsChain Apart) :
    (padded o n atStart pieces).IsChain Apart := by
  have hsame : ∀ t : Token, (t.padded n).holds = t.holds ∧ (t.padded n).hugs = t.hugs := by
    intro t
    unfold Token.padded
    split
    · rename_i hkind
      simp [Token.holds, Token.hugs, Token.isCast, Draft.hugsLeft, TokenKind.isOpening, hkind]
    · exact ⟨rfl, rfl⟩
  induction pieces generalizing atStart with
  | nil => exact .nil
  | cons p pieces ih =>
    rw [List.isChain_cons] at h
    refine List.isChain_cons.mpr ⟨?_, ih _ h.2⟩
    intro q hq hgap
    cases pieces with
    | nil => simp [padded] at hq
    | cons r pieces =>
      obtain rfl := by simpa [padded] using hq
      rw [List.append_eq_nil_iff, padFrom_eq_nil_iff] at hgap
      have htouch := h.1 r rfl hgap.1
      rwa [← (hsame p.token).1, ← (hsame r.token).2] at htouch

end Piece
end SqlLayout
