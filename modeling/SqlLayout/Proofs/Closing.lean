import SqlLayout.Proofs.Boundaries

/-! Where a quoted literal closes. Read from its opening quote, a literal has one end at most: the scan
stands between whole parts of the literal, each a byte that is no quote or a pair of quotes, so the first
quote that it meets there and that is not doubled is the closing one. -/

namespace SqlLayout
set_option autoImplicit false
open Lexeme (byteSize)

namespace Quoted
variable {quote : UInt8} {body more bytes : List UInt8} {i e : Nat}

/-- What stands between the quotes of a literal: bytes that are no quote, and pairs of quotes. -/
inductive Body (quote : UInt8) : List UInt8 → Prop
  | nil : Body quote []
  | other {b : UInt8} {body : List UInt8} (hb : b ≠ quote) (hbody : Body quote body) :
      Body quote (b :: body)
  | doubled {body : List UInt8} (hbody : Body quote body) : Body quote (quote :: quote :: body)

/-- The bytes from `i` up to `e` are a closed literal: a quote, what stands between the quotes, and a
quote that no other quote follows. -/
def ClosesAt (quote : UInt8) (bytes : List UInt8) (i e : Nat) : Prop :=
  ∃ before body after, bytes = before ++ quote :: (body ++ quote :: after) ∧ before.length = i ∧
    i + body.length + 2 = e ∧ Body quote body ∧ after.head? ≠ some quote

theorem closedAt_body (h : Body quote body) (position : Nat) (more : List UInt8) :
    closedAt quote position (body ++ more) = closedAt quote (position + body.length) more := by
  induction h generalizing position with
  | nil => rfl
  | other hb _ ih =>
    rw [List.cons_append, closedAt_other hb, ih, List.length_cons, Nat.add_assoc, Nat.add_comm 1]
  | doubled _ ih =>
    rw [List.cons_append, List.cons_append, closedAt, if_pos rfl, if_pos rfl, ih, List.length_cons,
      List.length_cons, Nat.add_assoc, Nat.add_comm 2]

theorem closedAt_quote (h : more.head? ≠ some quote) (position : Nat) :
    closedAt quote position (quote :: more) = position + 1 := by
  cases more with
  | nil => rw [closedAt, if_pos rfl]
  | cons b more =>
    have hb : b ≠ quote := fun heq => h (congrArg some heq)
    rw [closedAt, if_pos rfl, if_neg hb]

/-- The scan finds a closing quote behind what may stand between quotes, or it runs to the end. -/
theorem exists_body_or_closedAt (quote : UInt8) (position : Nat) (bytes : List UInt8) :
    (∃ body after, bytes = body ++ quote :: after ∧ Body quote body ∧ after.head? ≠ some quote) ∨
      closedAt quote position bytes = position + bytes.length := by
  fun_induction closedAt quote position bytes with
  | case1 => exact Or.inr rfl
  | case2 position bytes ih =>
    obtain ⟨body, after, rfl, hbody, hafter⟩ | hend := ih
    · exact Or.inl ⟨quote :: quote :: body, after, rfl, .doubled hbody, hafter⟩
    · right
      rw [hend, List.length_cons, List.length_cons]
      omega
  | case3 position b bytes hb =>
    exact Or.inl ⟨[], b :: bytes, rfl, .nil, fun heq => hb (Option.some.inj heq)⟩
  | case4 => exact Or.inl ⟨[], [], rfl, .nil, nofun⟩
  | case5 position b bytes hb ih =>
    obtain ⟨body, after, rfl, hbody, hafter⟩ | hend := ih
    · exact Or.inl ⟨b :: body, after, rfl, .other hb hbody, hafter⟩
    · right
      rw [hend, List.length_cons]
      omega

/-- A literal is closed where the scan ends, and nowhere else. -/
theorem ClosesAt.eq_closedAt (h : ClosesAt quote bytes i e) :
    e = closedAt quote (i + 1) (bytes.drop (i + 1)) := by
  obtain ⟨before, body, after, rfl, rfl, rfl, hbody, hafter⟩ := h
  have hdrop : (before ++ quote :: (body ++ quote :: after)).drop (before.length + 1) =
      body ++ quote :: after := by
    simp
  rw [hdrop, closedAt_body hbody, closedAt_quote hafter]
  omega

theorem closesAt_or_closedAt (h : bytes[i]? = some quote) :
    (∃ e, ClosesAt quote bytes i e) ∨
      closedAt quote (i + 1) (bytes.drop (i + 1)) = bytes.length := by
  obtain ⟨hlt, hi⟩ := List.getElem?_eq_some_iff.mp h
  have hsplit : bytes = bytes.take i ++ quote :: bytes.drop (i + 1) := by
    rw [← hi, List.getElem_cons_drop, List.take_append_drop]
  have hlength : (bytes.take i).length = i := List.length_take_of_le (Nat.le_of_lt hlt)
  obtain ⟨body, after, hdrop, hbody, hafter⟩ | hend :=
    exists_body_or_closedAt quote (i + 1) (bytes.drop (i + 1))
  · left
    rw [hdrop] at hsplit
    exact ⟨_, bytes.take i, body, after, hsplit, hlength, rfl, hbody, hafter⟩
  · right
    rw [hend, List.length_drop]
    omega

end Quoted

theorem Text.exists_of_getElem?_bytes {q : Char} (hq : q.toNat < 128) {text : List Char} {i : Nat}
    (h : (bytes text)[i]? = some (UInt8.ofNat q.toNat)) :
    ∃ before rest, text = before ++ q :: rest ∧ byteSize before = i := by
  induction text generalizing i with
  | nil => simp [bytes] at h
  | cons c text ih =>
    rw [bytes_cons] at h
    rcases Nat.lt_or_ge i (String.utf8EncodeChar c).length with hlt | hge
    · rw [List.getElem?_append_left hlt] at h
      obtain rfl : c = q := by
        by_contra hne
        exact ne_of_mem_utf8EncodeChar hq hne _ (List.mem_of_getElem? h) rfl
      rw [utf8EncodeChar_ascii hq, List.length_singleton] at hlt
      exact ⟨[], text, rfl, (Nat.lt_one_iff.mp hlt).symm⟩
    · rw [List.getElem?_append_right hge] at h
      obtain ⟨before, rest, rfl, hbefore⟩ := ih h
      refine ⟨c :: before, rest, rfl, ?_⟩
      rw [byteSize, hbefore, ← String.length_utf8EncodeChar]
      omega

namespace Quoted

/-- From a quote in a text the scan ends where the literal closes, which is one place at most, or else at
the end of the text. It always goes past the quote, and it ends between two characters, with those left
that the cut of the literal leaves. -/
theorem closedAt_ends {text : List Char} {q : Char} {i : Nat} (hq : Lexeme.isQuote q = true)
    (hi : (Text.bytes text)[i]? = some (UInt8.ofNat q.toNat)) :
    let quote := UInt8.ofNat q.toNat
    let bytes := Text.bytes text
    let e := closedAt quote (i + 1) (bytes.drop (i + 1))
    (∀ e', ClosesAt quote bytes i e' → e' = e) ∧
    (ClosesAt quote bytes i e ∨ (¬∃ e', ClosesAt quote bytes i e') ∧ e = bytes.length) ∧
    i < e ∧
    ∃ before rest, text = before ++ q :: rest ∧ byteSize before = i ∧
      Text.fromByte? e text = some (split q rest).2 := by
  intro quote bytes e
  have hascii : q.toNat < 128 := by
    obtain rfl | rfl : q = '\x27' ∨ q = '"' := by simpa [Lexeme.isQuote] using hq
    all_goals decide
  obtain ⟨before, rest, rfl, rfl⟩ := Text.exists_of_getElem?_bytes hascii hi
  have hdrop : bytes.drop (byteSize before + 1) = Text.bytes rest := by
    simp [bytes, Text.bytes_append, Text.bytes_cons_ascii hascii, ← Text.length_bytes]
  have he : e = byteSize (before ++ q :: (split q rest).1) := by
    rw [Text.byteSize_append, byteSize, Text.utf8Size_ascii hascii]
    exact (congrArg _ hdrop).trans ((closedAt_bytes hascii _ rest).trans (Nat.add_assoc _ _ _))
  refine ⟨fun e' h => h.eq_closedAt, ?_, ?_, before, rest, rfl, rfl, ?_⟩
  · by_cases hcloses : ∃ e', ClosesAt quote bytes (byteSize before) e'
    · obtain ⟨e', h⟩ := hcloses
      obtain rfl : e' = e := h.eq_closedAt
      exact Or.inl h
    · exact Or.inr ⟨hcloses, (closesAt_or_closedAt hi).resolve_left hcloses⟩
  · rw [he, Text.byteSize_append, byteSize, Text.utf8Size_ascii hascii]
    omega
  · have hsplit : before ++ q :: rest = before ++ q :: (split q rest).1 ++ (split q rest).2 := by
      rw [List.append_assoc, List.cons_append, split_append]
    rw [he, hsplit]
    exact Text.fromByte?_byteSize _ _

/-- In `é'a''ü' ` the pair of quotes belongs to the literal, and the bytes of `ü` do too. -/
theorem closedAt_ends_of_doubled_quote :
    let text := ['é', '\x27', 'a', '\x27', '\x27', 'ü', '\x27', ' ']
    (Text.bytes text)[2]? = some 39 ∧ ClosesAt 39 (Text.bytes text) 2 9 ∧
      ∀ e, ClosesAt 39 (Text.bytes text) 2 e → e = 9 := by
  intro text
  have hi : (Text.bytes text)[2]? = some (UInt8.ofNat '\x27'.toNat) := by decide
  have hend : closedAt 39 3 ((Text.bytes text).drop 3) = 9 := by decide
  obtain ⟨honly, hcloses, -⟩ := closedAt_ends (q := '\x27') (by decide) hi
  rw [show UInt8.ofNat '\x27'.toNat = 39 from rfl, hend] at honly hcloses
  refine ⟨hi, hcloses.resolve_right ?_, honly⟩
  rintro ⟨-, hlength⟩
  revert hlength
  decide

end Quoted
end SqlLayout
