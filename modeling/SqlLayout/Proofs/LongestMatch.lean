import SqlLayout.Lexeme.Operator

/-! Longest match of operators, told apart from the way it is computed: the length that is found is
that of an operator which begins the text, and no operator that begins the text is longer. So the
match depends only on which operators begin the text. -/

namespace SqlLayout.Operator
set_option autoImplicit false

variable {ops : List (List Char)}

theorem mem_residuals {c : Char} {rest : List Char} :
    rest ∈ residuals c ops ↔ c :: rest ∈ ops := by
  simp only [residuals, List.mem_filterMap]
  constructor
  · rintro ⟨op, hop, h⟩
    cases op with
    | nil => simp at h
    | cons d ds =>
      dsimp only at h
      split at h
      · rename_i hd
        cases h
        exact hd ▸ hop
      · cases h
  · intro h
    exact ⟨c :: rest, h, by simp⟩

theorem longest_nil_operators (cs : List Char) : longest [] cs = 0 := by
  cases cs <;> simp [longest, residuals]

/-- One character of the match: what is left of the operators decides about the rest. -/
theorem longest_cons (c : Char) (cs : List Char) :
    longest ops (c :: cs) =
      if longest (residuals c ops) cs = 0 then (if [c] ∈ ops then 1 else 0)
      else longest (residuals c ops) cs + 1 := by
  rw [longest]
  split
  · rename_i hnil
    have hnot : [c] ∉ ops := by
      intro h
      simpa [hnil] using mem_residuals.mpr h
    simp [hnil, longest_nil_operators, hnot]
  · split
    · rename_i hzero
      simp [hzero, mem_residuals]
    · rename_i n hn
      simp [hn]

theorem length_le_longest {op cs : List Char} (hop : op ∈ ops) (h : op <+: cs) :
    op.length ≤ longest ops cs := by
  induction cs generalizing ops op with
  | nil =>
    rw [List.prefix_nil.mp h]
    simp
  | cons c cs ih =>
    cases op with
    | nil => simp
    | cons d ds =>
      obtain ⟨rfl, hds⟩ := List.cons_prefix_cons.mp h
      have hle := ih (mem_residuals.mpr hop) hds
      rw [longest_cons]
      split
      · rename_i hzero
        have hnil : ds = [] := List.length_eq_zero_iff.mp (by omega)
        subst hnil
        simp [hop]
      · simpa using hle

theorem take_longest_mem {cs : List Char} (h : 0 < longest ops cs) :
    cs.take (longest ops cs) ∈ ops := by
  induction cs generalizing ops with
  | nil => simp [longest] at h
  | cons c cs ih =>
    rw [longest_cons] at h ⊢
    by_cases hzero : longest (residuals c ops) cs = 0
    · rw [if_pos hzero] at h ⊢
      by_cases hmem : [c] ∈ ops
      · simp [hmem]
      · simp [hmem] at h
    · rw [if_neg hzero]
      exact mem_residuals.mp (ih (Nat.pos_of_ne_zero hzero))

theorem longest_eq_zero_iff {cs : List Char} :
    longest ops cs = 0 ↔ ∀ op ∈ ops, op <+: cs → op = [] := by
  constructor
  · intro hzero op hop h
    have hle := length_le_longest hop h
    exact List.length_eq_zero_iff.mp (by omega)
  · intro h
    rcases Nat.eq_zero_or_pos (longest ops cs) with hzero | hpos
    · exact hzero
    · have hnil := h _ (take_longest_mem hpos) (List.take_prefix _ _)
      have hlen := congrArg List.length hnil
      have hle := longest_le_length ops cs
      simp only [List.length_take, List.length_nil] at hlen
      omega

theorem longest_congr {cs ds : List Char} (h : ∀ op ∈ ops, op <+: cs ↔ op <+: ds) :
    longest ops cs = longest ops ds := by
  have half : ∀ {xs ys : List Char}, (∀ op ∈ ops, op <+: xs → op <+: ys) →
      longest ops xs ≤ longest ops ys := by
    intro xs ys hxy
    rcases Nat.eq_zero_or_pos (longest ops xs) with hzero | hpos
    · omega
    · have hmem := take_longest_mem hpos
      have hle := length_le_longest hmem (hxy _ hmem (List.take_prefix _ _))
      have hlen := longest_le_length ops xs
      simp only [List.length_take] at hle
      omega
  exact Nat.le_antisymm (half fun op hop => (h op hop).mp) (half fun op hop => (h op hop).mpr)

end SqlLayout.Operator
