import SqlLayout.Lexeme.Quoted

/-! Where a quoted literal ends. A literal that is closed ends at the same place whatever follows it,
as long as that is no further quote; a literal that is not closed takes all that follows. -/

namespace SqlLayout.Quoted
set_option autoImplicit false

/-- Whether a literal that opens with `q` is closed in the text behind its opening quote. -/
def closes (q : Char) : List Char → Bool
  | [] => false
  | c :: cs =>
    if c = q then
      match cs with
      | d :: ds => if d = q then closes q ds else true
      | [] => true
    else closes q cs

section Equations
variable {q c : Char} {cs : List Char}

theorem split_other (hc : c ≠ q) : split q (c :: cs) = (c :: (split q cs).1, (split q cs).2) := by
  rw [split.eq_def]
  simp [hc]

theorem split_double : split q (q :: q :: cs) = (q :: q :: (split q cs).1, (split q cs).2) := by
  rw [split.eq_def]
  simp

theorem split_close (h : cs.head? ≠ some q) : split q (q :: cs) = ([q], cs) := by
  rw [split.eq_def]
  cases cs with
  | nil => simp
  | cons d ds =>
    have hd : d ≠ q := by simpa using h
    simp [hd]

theorem closes_other (hc : c ≠ q) : closes q (c :: cs) = closes q cs := by
  rw [closes.eq_def]
  simp [hc]

theorem closes_double : closes q (q :: q :: cs) = closes q cs := by
  rw [closes.eq_def]
  simp

theorem closes_close (h : cs.head? ≠ some q) : closes q (q :: cs) = true := by
  rw [closes.eq_def]
  cases cs with
  | nil => simp
  | cons d ds =>
    have hd : d ≠ q := by simpa using h
    simp [hd]

end Equations

/-- A literal is read in steps: a character that is no quote, a doubled quote, the closing quote. -/
theorem steps {q : Char} {P : List Char → Prop} (nil : P [])
    (other : ∀ c cs, c ≠ q → P cs → P (c :: cs)) (double : ∀ cs, P cs → P (q :: q :: cs))
    (close : ∀ cs, cs.head? ≠ some q → P (q :: cs)) (cs : List Char) : P cs := by
  fun_induction closes q cs with
  | case1 => exact nil
  | case2 ds ih => exact double ds ih
  | case3 d ds hd => exact close _ (by simpa using hd)
  | case4 => exact close [] (by simp)
  | case5 c cs hc ih => exact other c cs hc ih

theorem split_extend {q : Char} {cs rest : List Char} (hclosed : closes q cs = true)
    (hrest : (split q cs).2 = [] → rest.head? ≠ some q) :
    split q (cs ++ rest) = ((split q cs).1, (split q cs).2 ++ rest) := by
  induction cs using steps (q := q) with
  | nil => simp [closes] at hclosed
  | other c cs hc ih =>
    rw [closes_other hc] at hclosed
    rw [split_other hc] at hrest ⊢
    rw [List.cons_append, split_other hc, ih hclosed hrest]
  | double cs ih =>
    rw [closes_double] at hclosed
    rw [split_double] at hrest ⊢
    rw [List.cons_append, List.cons_append, split_double, ih hclosed hrest]
  | close cs hcs =>
    rw [split_close hcs] at hrest ⊢
    have hhead : (cs ++ rest).head? ≠ some q := by
      cases cs with
      | nil => exact hrest rfl
      | cons d ds => simpa using hcs
    rw [List.cons_append, split_close hhead]

/-- A literal that is not closed takes everything that holds no quote. -/
theorem split_open {q : Char} {cs rest : List Char} (hopen : closes q cs = false)
    (hrest : q ∉ rest) : split q (cs ++ rest) = (cs ++ rest, []) := by
  induction cs using steps (q := q) with
  | nil =>
    rw [List.nil_append]
    induction rest with
    | nil => rfl
    | cons c rest ih =>
      have hc : c ≠ q := fun h => hrest (h ▸ List.mem_cons_self)
      rw [split_other hc, ih fun h => hrest (List.mem_cons_of_mem c h)]
  | other c cs hc ih =>
    rw [closes_other hc] at hopen
    rw [List.cons_append, split_other hc, ih hopen]
  | double cs ih =>
    rw [closes_double] at hopen
    rw [List.cons_append, List.cons_append, split_double, ih hopen]
  | close cs hcs => simp [closes_close hcs] at hopen

theorem closes_open {q : Char} {cs rest : List Char} (hopen : closes q cs = false)
    (hrest : q ∉ rest) : closes q (cs ++ rest) = false := by
  induction cs using steps (q := q) with
  | nil =>
    rw [List.nil_append]
    induction rest with
    | nil => rfl
    | cons c rest ih =>
      have hc : c ≠ q := fun h => hrest (h ▸ List.mem_cons_self)
      rw [closes_other hc, ih fun h => hrest (List.mem_cons_of_mem c h)]
  | other c cs hc ih =>
    rw [closes_other hc] at hopen
    rw [List.cons_append, closes_other hc, ih hopen]
  | double cs ih =>
    rw [closes_double] at hopen
    rw [List.cons_append, List.cons_append, closes_double, ih hopen]
  | close cs hcs => simp [closes_close hcs] at hopen

/-- The body of a literal is a literal of its own, which is closed when the literal is. -/
theorem split_body (q : Char) (cs : List Char) :
    split q (split q cs).1 = ((split q cs).1, []) ∧
      closes q (split q cs).1 = closes q cs := by
  induction cs using steps (q := q) with
  | nil => exact ⟨rfl, rfl⟩
  | other c cs hc ih =>
    rw [split_other hc, split_other hc, closes_other hc, closes_other hc, ih.1]
    exact ⟨rfl, ih.2⟩
  | double cs ih =>
    rw [split_double, split_double, closes_double, closes_double, ih.1]
    exact ⟨rfl, ih.2⟩
  | close cs hcs =>
    rw [split_close hcs, split_close (by simp), closes_close hcs, closes_close (by simp)]
    exact ⟨rfl, rfl⟩

theorem getLast_of_closes {q : Char} {cs : List Char} (hclosed : closes q cs = true)
    (hsplit : split q cs = (cs, [])) : cs.getLast? = some q := by
  induction cs using steps (q := q) with
  | nil => simp [closes] at hclosed
  | other c cs hc ih =>
    rw [closes_other hc] at hclosed
    rw [split_other hc] at hsplit
    have hlast := ih hclosed (by simpa [Prod.ext_iff] using hsplit)
    rw [List.getLast?_cons, hlast]
    rfl
  | double cs ih =>
    rw [closes_double] at hclosed
    rw [split_double] at hsplit
    have hlast := ih hclosed (by simpa [Prod.ext_iff] using hsplit)
    rw [List.getLast?_cons, List.getLast?_cons, hlast]
    rfl
  | close cs hcs =>
    rw [split_close hcs] at hsplit
    obtain rfl : cs = [] := (Prod.mk.inj hsplit).2
    rfl

end SqlLayout.Quoted
