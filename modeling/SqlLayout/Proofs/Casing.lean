import SqlLayout.Proofs.Cutting
import SqlLayout.Text.Case

/-! Letter case, as far as words are concerned. On ASCII texts case is taken letter by letter. A
character beyond ASCII may have an upper case in ASCII, as the long s does; its lower case is then
not in ASCII, so that such a character is not taken for the letter that it becomes. -/

namespace SqlLayout.Text
set_option autoImplicit false

def isAscii (text : List Char) : Bool := text.all (·.toNat < 128)

theorem upperChar_ascii {c : Char} (h : c.toNat < 128) : upperChar c = [asciiUpper c] := by
  simp [upperChar, h]

theorem lowerChar_ascii {c : Char} (h : c.toNat < 128) : lowerChar c = [asciiLower c] := by
  simp [lowerChar, h]

theorem ascii_case {c : Char} (h : c.toNat < 128) :
    asciiUpper (asciiLower c) = asciiUpper c ∧ asciiUpper (asciiUpper c) = asciiUpper c ∧
      asciiLower (asciiUpper c) = asciiLower c ∧ asciiLower (asciiLower c) = asciiLower c ∧
      (asciiLower c).toNat < 128 ∧ (asciiUpper c).toNat < 128 := by
  have hc := forall_codes (p := fun c => asciiUpper (asciiLower c) = asciiUpper c &&
    (asciiUpper (asciiUpper c) = asciiUpper c && (asciiLower (asciiUpper c) = asciiLower c &&
    (asciiLower (asciiLower c) = asciiLower c && ((asciiLower c).toNat < 128 &&
    (asciiUpper c).toNat < 128))))) (by decide +kernel) h
  simpa using hc

theorem isWordChar_asciiLower {c : Char} (h : isWordChar c = true) :
    isWordChar (asciiLower c) = true ∧ (asciiLower c).isAlpha = c.isAlpha := by
  have hc := forall_codes (p := fun c => !isWordChar c ||
    (isWordChar (asciiLower c) && (asciiLower c).isAlpha = c.isAlpha)) (by decide +kernel)
    (ascii_of_isWordChar h)
  simpa [h] using hc

theorem isWordChar_asciiUpper {c : Char} (h : isWordChar c = true) :
    isWordChar (asciiUpper c) = true ∧ (asciiUpper c).isAlpha = c.isAlpha := by
  have hc := forall_codes (p := fun c => !isWordChar c ||
    (isWordChar (asciiUpper c) && (asciiUpper c).isAlpha = c.isAlpha)) (by decide +kernel)
    (ascii_of_isWordChar h)
  simpa [h] using hc

theorem toNat_ofNat_of_isValid {n : Nat} (h : n.isValidChar) : (Char.ofNat n).toNat = n := by
  rw [Char.ofNat, dif_pos h]
  exact UInt32.toNat_ofNatLT

theorem eq_of_asciiLower {c u : Char} (hu : u.toNat < 65) (h : asciiLower c = u) : c = u := by
  unfold asciiLower at h
  split at h
  · rename_i hcapital
    have hle : c.toNat ≤ 90 := Char.le_def.mp hcapital.2
    have hsmall := toNat_ofNat_of_isValid (n := c.toNat + 32) (.inl (by omega))
    rw [h] at hsmall
    have hge : 65 ≤ c.toNat := Char.le_def.mp hcapital.1
    omega
  · exact h

theorem eq_of_asciiUpper {c u : Char} (hu : u.toNat < 65) (h : asciiUpper c = u) : c = u := by
  unfold asciiUpper at h
  split at h
  · rename_i hsmall
    have hle : c.toNat ≤ 122 := Char.le_def.mp hsmall.2
    have hcapital := toNat_ofNat_of_isValid (n := c.toNat - 32) (.inl (by omega))
    rw [h] at hcapital
    have hge : 97 ≤ c.toNat := Char.le_def.mp hsmall.1
    omega
  · exact h

theorem not_cased {u : Char} (hu : u.toNat < 65) : u.isUpper = false ∧ u.isLower = false := by
  constructor
  · refine Bool.eq_false_iff.mpr fun h => ?_
    have hge : 65 ≤ u.toNat := (of_decide_eq_true h).1
    omega
  · refine Bool.eq_false_iff.mpr fun h => ?_
    have hge : 97 ≤ u.toNat := of_decide_eq_true (Bool.and_eq_true_iff.mp h).1
    omega

theorem isAscii_cons {c : Char} {cs : List Char} :
    isAscii (c :: cs) = true ↔ c.toNat < 128 ∧ isAscii cs = true := by
  simp [isAscii]

theorem isAscii_of_words {text : List Char} (h : text.all isWordChar = true) :
    isAscii text = true := by
  rw [isAscii, List.all_eq_true]
  intro c hc
  simpa using ascii_of_isWordChar (List.all_eq_true.mp h c hc)

theorem flatMap_upperChar {text : List Char} (h : isAscii text = true) :
    text.flatMap upperChar = text.map asciiUpper := by
  induction text with
  | nil => rfl
  | cons c cs ih =>
    obtain ⟨hc, hcs⟩ := isAscii_cons.mp h
    simp [upperChar_ascii hc, ih hcs]

theorem lowerAfter_ascii (before : List Char) {text : List Char} (h : isAscii text = true) :
    lowerAfter before text = text.map asciiLower := by
  induction text generalizing before with
  | nil => rfl
  | cons c cs ih =>
    obtain ⟨hc, hcs⟩ := isAscii_cons.mp h
    have hsigma : c ≠ 'Σ' := by
      rintro rfl
      revert hc
      decide
    simp [lowerAfter, hsigma, lowerChar_ascii hc, ih _ hcs]

theorem toList_upper {s : String} (h : isAscii s.toList = true) :
    (upper s).toList = s.toList.map asciiUpper := by
  simp [upper, flatMap_upperChar h]

theorem toList_lower {s : String} (h : isAscii s.toList = true) :
    (lower s).toList = s.toList.map asciiLower := by
  have hdrop : isAscii (s.toList.drop (asciiBlocks s.toList)) = true := by
    rw [isAscii, List.all_eq_true] at h ⊢
    exact fun c hc => h c (List.mem_of_mem_drop hc)
  rw [lower, String.toList_ofList, lowerAfter_ascii [] hdrop, ← List.map_append,
    List.take_append_drop]

theorem upper_lower {s : String} (h : isAscii s.toList = true) : upper (lower s) = upper s := by
  have hlower : isAscii (lower s).toList = true := by
    rw [toList_lower h, isAscii, List.all_eq_true]
    intro c hc
    obtain ⟨d, hd, rfl⟩ := List.mem_map.mp hc
    have hd : d.toNat < 128 := by simpa using List.all_eq_true.mp h d hd
    simpa using (ascii_case hd).2.2.2.2.1
  apply String.toList_injective
  rw [toList_upper hlower, toList_lower h, toList_upper h, List.map_map]
  apply List.map_congr_left
  intro c hc
  have hc : c.toNat < 128 := by simpa using List.all_eq_true.mp h c hc
  exact (ascii_case hc).1

theorem length_upperChar_pos (c : Char) : 0 < (upperChar c).length := by
  unfold upperChar
  split
  · simp
  · split
    · rename_i ns hns
      have hall : ∀ e ∈ CaseData.toUpperSeveral, 0 < e.2.length := by decide +kernel
      have hmem : (c.toNat, ns) ∈ CaseData.toUpperSeveral := by
        obtain ⟨l₁, l₂, hl, -⟩ := List.lookup_eq_some_iff.mp hns
        rw [hl]
        simp
      simpa using hall _ hmem
    · simp

theorem single_of_flatMap_upperChar {cs : List Char} (h : (cs.flatMap upperChar).length = 1) :
    ∃ c, cs = [c] := by
  cases cs with
  | nil => cases h
  | cons c cs =>
    cases cs with
    | nil => exact ⟨c, rfl⟩
    | cons e es =>
      have hc := length_upperChar_pos c
      have he := length_upperChar_pos e
      rw [List.flatMap_cons, List.flatMap_cons, List.length_append, List.length_append] at h
      omega

/-- The run moves code points to characters beyond ASCII. -/
def staysBeyond (r : CaseData.Run) : Bool :=
  128 ≤ (r.first : Int) + r.shift && ((r.last : Int) + r.shift < 0xD800 ||
    (0xDFFF < (r.first : Int) + r.shift && (r.last : Int) + r.shift < 0x110000))

theorem move_staysBeyond {r : CaseData.Run} {n m : Nat} (hr : staysBeyond r = true)
    (h : r.move? n = some m) : 128 ≤ (Char.ofNat m).toNat := by
  unfold CaseData.Run.move? at h
  split at h
  · rename_i hrange
    have hm : Int.toNat (n + r.shift) = m := by simpa using h
    simp only [staysBeyond, Bool.and_eq_true, Bool.or_eq_true, decide_eq_true_eq] at hr
    have hvalid : m.isValidChar := by
      unfold Nat.isValidChar
      omega
    rw [toNat_ofNat_of_isValid hvalid]
    omega
  · cases h

/-- Where a list of runs moves a character beyond ASCII: beyond ASCII, or by a run that leaves it. -/
theorem mapped_beyond (runs : List CaseData.Run) {c : Char} (hc : 128 ≤ c.toNat) :
    128 ≤ (mapped runs c).toNat ∨
      ∃ r ∈ runs, staysBeyond r = false ∧ ∃ m, r.move? c.toNat = some m ∧
        mapped runs c = Char.ofNat m := by
  unfold mapped
  cases hfind : runs.findSome? (·.move? c.toNat) with
  | none => exact Or.inl hc
  | some m =>
    obtain ⟨r, hr, hm⟩ := List.exists_of_findSome?_eq_some hfind
    by_cases hstays : staysBeyond r = true
    · exact Or.inl (move_staysBeyond hstays hm)
    · exact Or.inr ⟨r, hr, by simpa using hstays, m, hm, rfl⟩

theorem move_single {r : CaseData.Run} {n m : Nat} (hone : r.first = r.last)
    (h : r.move? n = some m) : n = r.first ∧ m = Int.toNat (r.first + r.shift) := by
  unfold CaseData.Run.move? at h
  split at h
  · have hm : Int.toNat (n + r.shift) = m := by simpa using h
    omega
  · cases h

theorem upperChar_beyond {c u : Char} (hc : 128 ≤ c.toNat) (hu : u ∈ upperChar c)
    (hascii : u.toNat < 128) : u.isUpper = true := by
  unfold upperChar at hu
  rw [if_neg (by omega)] at hu
  split at hu
  · rename_i ns hns
    have hall : ∀ e ∈ CaseData.toUpperSeveral, ∀ n ∈ e.2, (Char.ofNat n).toNat < 128 →
        (Char.ofNat n).isUpper = true := by decide +kernel
    obtain ⟨l₁, l₂, hl, -⟩ := List.lookup_eq_some_iff.mp hns
    obtain ⟨n, hn, rfl⟩ := List.mem_map.mp hu
    exact hall (c.toNat, ns) (by rw [hl]; simp) n hn hascii
  · obtain rfl := List.mem_singleton.mp hu
    rcases mapped_beyond CaseData.toUpper hc with h | ⟨r, hr, hstays, m, hm, hmapped⟩
    · omega
    · have hall : ∀ r ∈ CaseData.toUpper, staysBeyond r = false → r.first = r.last ∧
          (Char.ofNat (Int.toNat (r.first + r.shift))).isUpper = true := by decide +kernel
      obtain ⟨hone, hupper⟩ := hall r hr hstays
      rw [hmapped, (move_single hone hm).2]
      exact hupper

theorem isLower_of_lowerChar {c l : Char} (hc : 128 ≤ c.toNat) (hl : l ∈ lowerChar c)
    (hascii : l.toNat < 128) : l.isLower = true := by
  unfold lowerChar at hl
  rw [if_neg (by omega)] at hl
  split at hl
  · simp only [List.mem_cons, List.not_mem_nil, or_false] at hl
    rcases hl with rfl | rfl
    · decide
    · revert hascii
      decide
  · obtain rfl := List.mem_singleton.mp hl
    rcases mapped_beyond CaseData.toLower hc with h | ⟨r, hr, hstays, m, hm, hmapped⟩
    · omega
    · have hall : ∀ r ∈ CaseData.toLower, staysBeyond r = false → r.first = r.last ∧
          (Char.ofNat (Int.toNat (r.first + r.shift))).isLower = true := by decide +kernel
      obtain ⟨hone, hlower⟩ := hall r hr hstays
      rw [hmapped, (move_single hone hm).2]
      exact hlower

theorem eq_of_mem_upperChar {c u : Char} (hu : u.toNat < 65) (h : u ∈ upperChar c) : c = u := by
  by_cases hc : c.toNat < 128
  · rw [upperChar_ascii hc] at h
    exact eq_of_asciiUpper hu (List.mem_singleton.mp h).symm
  · have hupper := upperChar_beyond (by omega) h (by omega)
    simp [(not_cased hu).1] at hupper

theorem eq_of_mem_lowerChar {c u : Char} (hu : u.toNat < 65) (h : u ∈ lowerChar c) : c = u := by
  by_cases hc : c.toNat < 128
  · rw [lowerChar_ascii hc] at h
    exact eq_of_asciiLower hu (List.mem_singleton.mp h).symm
  · have hlower := isLower_of_lowerChar (by omega) h (by omega)
    simp [(not_cased hu).2] at hlower

/-- A character beyond ASCII whose upper case is in ASCII has a lower case that is not. -/
theorem lowerChar_beyond {c : Char} (hc : 128 ≤ c.toNat) (hu : ∀ u ∈ upperChar c, u.toNat < 128) :
    ∀ l ∈ lowerChar c, 128 ≤ l.toNat := by
  intro l hl
  unfold lowerChar at hl
  rw [if_neg (by omega)] at hl
  split at hl
  · rename_i hdotted
    subst hdotted
    exact absurd (hu 'İ' (by decide +kernel)) (by decide)
  · obtain rfl := List.mem_singleton.mp hl
    rcases mapped_beyond CaseData.toLower hc with h | ⟨r, hr, hstays, m, hm, -⟩
    · exact h
    -- only the Kelvin sign becomes an ASCII letter, and it is its own upper case
    · have hall : ∀ r ∈ CaseData.toLower, staysBeyond r = false → r.first = r.last ∧
          r.first = 0x212A := by decide +kernel
      obtain ⟨hone, hkelvin⟩ := hall r hr hstays
      have hcode : c.toNat = 0x212A := by rw [(move_single hone hm).1, hkelvin]
      have hself : Char.ofNat 0x212A ∈ upperChar (Char.ofNat 0x212A) := by decide +kernel
      rw [← hcode, Char.ofNat_toNat] at hself
      have hlt := hu c hself
      omega

end SqlLayout.Text
