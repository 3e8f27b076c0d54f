import SqlLayout.Group.Balance

/-! Well-bracketed sequences of tokens. The check of the nesting reads the tokens with a stack of awaited
closers; it finds no fault exactly in the sequences that are built from matching pairs. A pair matches
when what stands between its tokens is well bracketed. -/

namespace SqlLayout.Balance
set_option autoImplicit false

/-- Sequences of kinds in which every opener has its closer. -/
inductive WellBracketed : List TokenKind → Prop
  | nil : WellBracketed []
  | plain {k : TokenKind} {ks : List TokenKind} (hopener : closer? k = none)
      (hcloser : isCloser k = false) (hks : WellBracketed ks) : WellBracketed (k :: ks)
  | pair {o c : TokenKind} {inner rest : List TokenKind} (hpair : closer? o = some c)
      (hinner : WellBracketed inner) (hrest : WellBracketed rest) :
      WellBracketed (o :: (inner ++ c :: rest))

/-- The closers that are awaited behind a sequence of kinds, the innermost first; `none` when a closer
comes that is not awaited. -/
def settle : List TokenKind → List TokenKind → Option (List TokenKind)
  | awaited, [] => some awaited
  | awaited, k :: ks =>
    match closer? k with
    | some c => settle (c :: awaited) ks
    | none =>
      if isCloser k then
        match awaited with
        | c :: awaited => if c = k then settle awaited ks else none
        | [] => none
      else settle awaited ks

section Settle
variable {awaited ks ls : List TokenKind} {k c : TokenKind}

theorem isCloser_of_closer? (h : closer? k = some c) : closer? c = none ∧ isCloser c = true := by
  unfold closer? at h
  split at h <;> cases h <;> exact ⟨rfl, rfl⟩

theorem settle_opener (h : closer? k = some c) :
    settle awaited (k :: ks) = settle (c :: awaited) ks := by
  rw [settle.eq_def]
  simp [h]

theorem settle_plain (hopener : closer? k = none) (hcloser : isCloser k = false) :
    settle awaited (k :: ks) = settle awaited ks := by
  rw [settle.eq_def]
  simp [hopener, hcloser]

theorem settle_closer (hopener : closer? k = none) (hcloser : isCloser k = true) :
    settle awaited (k :: ks) =
      match awaited with
      | c :: awaited => if c = k then settle awaited ks else none
      | [] => none := by
  rw [settle.eq_def]
  simp [hopener, hcloser]

theorem settle_append : settle awaited (ks ++ ls) = (settle awaited ks).bind (settle · ls) := by
  induction ks generalizing awaited with
  | nil => rfl
  | cons k ks ih =>
    rw [List.cons_append]
    cases hopener : closer? k with
    | some c => rw [settle_opener hopener, settle_opener hopener, ih]
    | none =>
      cases hcloser : isCloser k with
      | false => rw [settle_plain hopener hcloser, settle_plain hopener hcloser, ih]
      | true =>
        rw [settle_closer hopener hcloser, settle_closer hopener hcloser]
        cases awaited with
        | nil => rfl
        | cons c awaited =>
          dsimp only
          split
          · exact ih
          · rfl

theorem WellBracketed.settle (h : WellBracketed ks) : Balance.settle awaited ks = some awaited := by
  induction h generalizing awaited with
  | nil => rfl
  | plain hopener hcloser _ ih => rw [settle_plain hopener hcloser, ih]
  | pair hpair _ _ ih ih' =>
    obtain ⟨hopener, hcloser⟩ := isCloser_of_closer? hpair
    rw [settle_opener hpair, settle_append, ih, Option.bind_some, settle_closer hopener hcloser]
    simpa using ih'

/-- The sequence falls into well-bracketed parts, with the awaited closers between them. -/
def Closes : List TokenKind → List TokenKind → Prop
  | [], ks => WellBracketed ks
  | c :: awaited, ks => ∃ inner rest, ks = inner ++ c :: rest ∧ WellBracketed inner ∧ Closes awaited rest

theorem Closes.plain (h : Closes awaited ks) (hopener : closer? k = none)
    (hcloser : isCloser k = false) : Closes awaited (k :: ks) := by
  cases awaited with
  | nil => exact .plain hopener hcloser h
  | cons c awaited =>
    obtain ⟨inner, rest, rfl, hinner, hrest⟩ := h
    exact ⟨k :: inner, rest, rfl, .plain hopener hcloser hinner, hrest⟩

theorem Closes.opener (h : Closes (c :: awaited) ks) (hpair : closer? k = some c) :
    Closes awaited (k :: ks) := by
  obtain ⟨inner, rest, rfl, hinner, hrest⟩ := h
  cases awaited with
  | nil => exact .pair hpair hinner hrest
  | cons c' awaited =>
    obtain ⟨inner', rest', rfl, hinner', hrest'⟩ := hrest
    exact ⟨k :: (inner ++ c :: inner'), rest', by simp, .pair hpair hinner hinner', hrest'⟩

theorem closes_of_settle (h : settle awaited ks = some []) : Closes awaited ks := by
  induction ks generalizing awaited with
  | nil =>
    cases h
    exact .nil
  | cons k ks ih =>
    cases hopener : closer? k with
    | some c =>
      rw [settle_opener hopener] at h
      exact (ih h).opener hopener
    | none =>
      cases hcloser : isCloser k with
      | false =>
        rw [settle_plain hopener hcloser] at h
        exact (ih h).plain hopener hcloser
      | true =>
        rw [settle_closer hopener hcloser] at h
        cases awaited with
        | nil => cases h
        | cons c awaited =>
          dsimp only at h
          split at h
          · rename_i hck
            exact ⟨[], ks, by rw [hck, List.nil_append], .nil, ih h⟩
          · cases h

theorem wellBracketed_iff : WellBracketed ks ↔ settle [] ks = some [] :=
  ⟨WellBracketed.settle, closes_of_settle⟩

end Settle

theorem faultFrom_eq_none_iff {index : Nat} {open_ : List Waiting} {ts : List Token} :
    faultFrom index open_ ts = none ↔
      settle (open_.map Waiting.closer) (ts.map Token.kind) = some [] := by
  induction ts generalizing index open_ with
  | nil => cases open_ <;> simp [faultFrom, settle]
  | cons t ts ih =>
    rw [List.map_cons, faultFrom.eq_def]
    cases hopener : closer? t.kind with
    | some c => simp [hopener, ih, settle_opener hopener]
    | none =>
      cases hcloser : isCloser t.kind with
      | false => simp [hopener, hcloser, ih, settle_plain hopener hcloser]
      | true =>
        rw [settle_closer hopener hcloser]
        cases open_ with
        | nil => simp [hopener, hcloser]
        | cons w open_ =>
          simp only [hopener, hcloser, if_true, List.map_cons]
          split
          · exact ih
          · simp

theorem fault?_eq_none_iff {ts : List Token} :
    fault? ts = none ↔ WellBracketed (ts.map Token.kind) := by
  rw [fault?, faultFrom_eq_none_iff, wellBracketed_iff, List.map_nil]

/-- The tokens at the two indices are an opener and the closer that matches it. -/
def Matching (ts : List Token) (i j : Nat) : Prop :=
  ∃ before o inner c after, ts = before ++ o :: (inner ++ c :: after) ∧ before.length = i ∧
    i + inner.length + 1 = j ∧ closer? o.kind = some c.kind ∧ WellBracketed (inner.map Token.kind)

end SqlLayout.Balance
