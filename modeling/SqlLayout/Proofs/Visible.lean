import SqlLayout.Format
import SqlLayout.Proofs.Scanning

/-! The visible characters of a text, which are those that a content is made of: what is left without
escape sequences and white space. Neither white space between lines nor the colors of a token change
what is visible. -/

namespace SqlLayout
set_option autoImplicit false

/-- The visible characters of a text that may begin inside an escape sequence. -/
def visible (inside : Bool) (text : List Char) : List Char :=
  (Color.stripFrom inside text).filter (!Text.isWhitespace ·)

/-- The pair of characters that begins an escape sequence. -/
def opensEscape (c : Char) (cs : List Char) : Prop := c = '\x1b' ∧ cs.head? = some '['

theorem content_eq (text : List Char) : content text = (visible false text).flatMap Text.lowerChar :=
  rfl

theorem bracket_of_head {cs : List Char} (h : cs.head? = some '[') : ∃ ds, cs = '[' :: ds := by
  cases cs with
  | nil => simp at h
  | cons d ds => exact ⟨ds, by simpa using h⟩

theorem Scrap.head_blank {gap rest : List Char} (hgap : isBlank gap) (hne : gap ≠ []) :
    (gap ++ rest).head? ≠ some '[' := by
  obtain ⟨c, gap, rfl⟩ := List.exists_cons_of_ne_nil hne
  intro hhead
  obtain rfl : c = '[' := by simpa using hhead
  have hwhite := hgap '[' List.mem_cons_self
  cases hwhite

section Equations
variable {c : Char} {cs : List Char}

theorem stripFrom_other (inside : Bool) (h : ¬opensEscape c cs) :
    Color.stripFrom inside (c :: cs) =
      if inside then Color.stripFrom (!Color.endsEscape c) cs
      else c :: Color.stripFrom false cs := by
  rw [Color.stripFrom.eq_def]
  split
  · rename_i heq
    cases heq
  · rename_i heq
    cases heq
    exact absurd ⟨rfl, rfl⟩ h
  · rename_i heq
    cases heq
    rfl

theorem visible_nil (inside : Bool) : visible inside [] = [] := by
  simp [visible, Color.stripFrom]

theorem visible_escape (inside : Bool) (cs : List Char) :
    visible inside ('\x1b' :: '[' :: cs) = visible true cs := by
  simp [visible, Color.stripFrom]

theorem visible_true (h : ¬opensEscape c cs) :
    visible true (c :: cs) = visible (!Color.endsEscape c) cs := by
  simp [visible, stripFrom_other true h]

theorem visible_false (h : ¬opensEscape c cs) :
    visible false (c :: cs) = [c].filter (!Text.isWhitespace ·) ++ visible false cs := by
  rw [visible, stripFrom_other false h, if_neg Bool.false_ne_true, ← List.singleton_append,
    List.filter_append]
  rfl

end Equations

namespace Color

theorem strip_plain {text : List Char} (htext : '\x1b' ∉ text) (rest : List Char) :
    stripFrom false (text ++ rest) = text ++ stripFrom false rest := by
  induction text with
  | nil => rfl
  | cons c text ih =>
    have hescape : ¬opensEscape c (text ++ rest) := fun h => htext (h.1 ▸ List.mem_cons_self)
    rw [List.cons_append, stripFrom_other false hescape, if_neg Bool.false_ne_true,
      ih fun h => htext (List.mem_cons_of_mem c h), List.cons_append]

theorem strip_reset (rest : List Char) :
    stripFrom false (reset ++ rest) = stripFrom false rest := rfl

/-- Behind a colored text no escape sequence is left open. -/
theorem strip_paint (color : Color) {text : List Char} (htext : '\x1b' ∉ text)
    (rest : List Char) :
    stripFrom false (color.paint text ++ rest) = text ++ stripFrom false rest := by
  have hset : ∀ more, stripFrom false (['\x1b', '[', '3', color.digit, 'm'] ++ more) =
      stripFrom false more := by
    intro more
    cases color <;> rfl
  rw [paint, List.append_assoc, List.append_assoc, List.append_assoc, strip_reset, hset,
    strip_plain htext, strip_reset]

end Color

theorem ascii_of_endsEscape {c : Char} (h : Color.endsEscape c = true) : c.toNat < 128 := by
  simp only [Color.endsEscape, Bool.or_eq_true, Bool.and_eq_true, decide_eq_true_eq] at h
  rcases h with h | h
  · exact Nat.lt_of_le_of_lt (Char.le_def.mp h.2) (by decide)
  · exact Nat.lt_of_le_of_lt (Char.le_def.mp h.2) (by decide)

theorem endsEscape_of_isWhitespace {c : Char} (hc : Text.isWhitespace c = true) :
    Color.endsEscape c = false := by
  rw [Bool.eq_false_iff]
  intro hletter
  have hcode := Text.forall_codes (p := fun c => !Text.isWhitespace c || !Color.endsEscape c)
    (by decide +kernel) (ascii_of_endsEscape hletter)
  simp [hc, hletter] at hcode

theorem visible_blank {gap : List Char} (hgap : Scrap.isBlank gap) (inside : Bool) (text : List Char) :
    visible inside (gap ++ text) = visible inside text := by
  induction gap generalizing inside with
  | nil => rfl
  | cons c gap ih =>
    have hc : Text.isWhitespace c = true := hgap c List.mem_cons_self
    have hescape : ¬opensEscape c (gap ++ text) := by
      rintro ⟨rfl, -⟩
      cases hc
    have ih := ih fun d hd => hgap d (List.mem_cons_of_mem c hd)
    cases inside with
    | true =>
      rw [List.cons_append, visible_true hescape, endsEscape_of_isWhitespace hc]
      exact ih true
    | false =>
      rw [List.cons_append, visible_false hescape, ih false]
      simp [hc]

theorem visible_plain {text : List Char} (htext : '\x1b' ∉ text) (rest : List Char) :
    visible false (text ++ rest) =
      text.filter (!Text.isWhitespace ·) ++ visible false rest := by
  rw [visible, Color.strip_plain htext, List.filter_append, visible]

theorem visible_paint (color : Color) {text : List Char} (htext : '\x1b' ∉ text)
    (rest : List Char) :
    visible false (color.paint text ++ rest) =
      text.filter (!Text.isWhitespace ·) ++ visible false rest := by
  rw [visible, Color.strip_paint color htext, List.filter_append, visible]

theorem head_padFrom (n : Nat) (text : List Char) : (padFrom n false text).head? = text.head? := by
  cases text with
  | nil => rfl
  | cons c text =>
    rw [padFrom]
    split <;> rfl

theorem visible_padFrom (n : Nat) (atStart inside : Bool) (text : List Char) :
    visible inside (padFrom n atStart text) = visible inside text := by
  induction hlength : text.length using Nat.strongRecOn generalizing text atStart inside with
  | ind length ih =>
    have hspaces : Scrap.isBlank (List.replicate n ' ') := by
      intro c hc
      rw [List.eq_of_mem_replicate hc]
      rfl
    cases text with
    | nil => rfl
    | cons c cs =>
      have hlt : cs.length < length := by
        rw [← hlength, List.length_cons]
        omega
      -- past the spaces, the first character is followed by what followed it before
      have hstep : visible inside (c :: padFrom n (c = '\n') cs) = visible inside (c :: cs) := by
        by_cases hescape : opensEscape c cs
        · obtain ⟨rfl, hhead⟩ := hescape
          obtain ⟨ds, rfl⟩ := bracket_of_head hhead
          have hds : padFrom n (decide ('\x1b' = '\n')) ('[' :: ds) = '[' :: padFrom n false ds := by
            simp [padFrom]
          rw [hds, visible_escape, visible_escape]
          exact ih ds.length (by simp at hlt; omega) false true ds rfl
        · have hpadded : ¬opensEscape c (padFrom n (c = '\n') cs) := by
            rintro ⟨rfl, hhead⟩
            rw [show decide ('\x1b' = '\n') = false by decide, head_padFrom] at hhead
            exact hescape ⟨rfl, hhead⟩
          cases inside with
          | true =>
            rw [visible_true hpadded, visible_true hescape]
            exact ih cs.length hlt _ _ cs rfl
          | false =>
            rw [visible_false hpadded, visible_false hescape, ih cs.length hlt _ false cs rfl]
      rw [padFrom]
      by_cases hnewline : c = '\n'
      · rw [if_pos hnewline]
        simpa [hnewline] using hstep
      · rw [if_neg hnewline]
        rw [show decide (c = '\n') = false by simp [hnewline]] at hstep
        cases atStart with
        | true =>
          rw [if_pos rfl, visible_blank hspaces]
          exact hstep
        | false => exact hstep

theorem content_pad (n : Nat) (text : List Char) : content (pad n text) = content text := by
  rw [content_eq, content_eq, pad, visible_padFrom]

end SqlLayout
