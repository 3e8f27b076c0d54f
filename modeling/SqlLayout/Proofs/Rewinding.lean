import Mathlib.Data.List.Induction
import SqlLayout.Proofs.LongestMatch
import SqlLayout.Tape.Lexemes

/-! Reading ahead and going back. A tape stands between what has been read and what is left, and of what has
been read it can put a part back. Each step of reading keeps this, so an operator is tried as far as its
longest candidate reaches and the tape then goes back to the end of the longest operator. -/

namespace SqlLayout
set_option autoImplicit false
open Lexeme (byteSize)

namespace Text
variable (cs ds : List Char)

theorem byteSize_append : byteSize (cs ++ ds) = byteSize cs + byteSize ds := by
  induction cs with
  | nil => simp [byteSize]
  | cons c cs ih => simp [byteSize, ih, Nat.add_assoc]

theorem byteSize_cons (c : Char) : ∃ n, byteSize (c :: cs) = n + 1 ∧ c.utf8Size ≤ n + 1 ∧
    n + 1 - c.utf8Size = byteSize cs := by
  have hpos := c.utf8Size_pos
  refine ⟨byteSize (c :: cs) - 1, ?_, ?_, ?_⟩ <;> simp only [byteSize] <;> omega

theorem fromByte?_byteSize : fromByte? (byteSize cs) (cs ++ ds) = some ds := by
  induction cs with
  | nil => simp [byteSize, fromByte?]
  | cons c cs ih =>
    obtain ⟨n, hn, hle, hrest⟩ := byteSize_cons cs c
    rw [hn, List.cons_append, fromByte?, if_pos hle, hrest, ih]

theorem upToByte?_byteSize : upToByte? (byteSize cs) (cs ++ ds) = some cs := by
  induction cs with
  | nil => simp [byteSize, upToByte?]
  | cons c cs ih =>
    obtain ⟨n, hn, hle, hrest⟩ := byteSize_cons cs c
    rw [hn, List.cons_append, upToByte?, if_pos hle, hrest, ih]
    rfl

end Text

/-- The tape stands between two parts of its text. It can put back the characters `known`, which it has read
last, and has room for `depth` characters. -/
structure Tape.Stands (depth : Nat) (before known rest : List Char) (tape : Tape) : Prop where
  text : tape.text = before ++ known ++ rest
  position : tape.position = byteSize (before ++ known)
  memory : (known.map Char.utf8Size).reverse <+: tape.memory
  room : depth ≤ tape.depth

namespace Tape.Stands
variable {depth : Nat} {before known last rest : List Char} {tape : Tape}

/-- What could be put back need not be. -/
theorem settle (h : tape.Stands depth before (known ++ last) rest) :
    tape.Stands depth (before ++ known) last rest where
  text := by simpa using h.text
  position := by simpa using h.position
  memory := by
    refine List.IsPrefix.trans ?_ h.memory
    rw [List.map_append, List.reverse_append]
    exact List.prefix_append _ _
  room := h.room

theorem pass {c : Char} (h : tape.Stands depth before known (c :: rest)) (hroom : known.length < depth) :
    (tape.pass c.utf8Size).Stands depth before (known ++ [c]) rest where
  text := by simpa [Tape.pass] using h.text
  position := by simp [Tape.pass, h.position, Text.byteSize_append, byteSize, Nat.add_assoc]
  memory := by
    have hknown : c.utf8Size :: (known.map Char.utf8Size).reverse <+: c.utf8Size :: tape.memory :=
      List.cons_prefix_cons.mpr ⟨rfl, h.memory⟩
    have hlength : known.length + 1 ≤ tape.depth := Nat.le_trans hroom h.room
    simp only [Tape.pass, List.map_append, List.map_cons, List.map_nil, List.reverse_append,
      List.reverse_cons, List.reverse_nil, List.nil_append, List.singleton_append]
    split
    · rename_i hfull
      -- only sizes that lie deeper are forgotten
      rw [List.dropLast_eq_take, List.prefix_take_iff]
      refine ⟨hknown, ?_⟩
      simp only [List.length_cons, List.length_reverse, List.length_map] at hfull ⊢
      omega
    · exact hknown
  room := h.room

end Tape.Stands

namespace Reading
variable {α β : Type} {m : Reading α} {f : α → Reading β} {tape tape' : Tape} {a : α}

/-- Started on the first tape, the work comes to an end with the result, and leaves the second tape. -/
def Yields (m : Reading α) (tape : Tape) (a : α) (tape' : Tape) : Prop := m tape = some (.ok (a, tape'))

theorem Yields.bind (h : m.Yields tape a tape') : (m >>= f) tape = f a tape' := by
  have hm : m tape = some (.ok (a, tape')) := h
  simp only [Bind.bind, StateT.bind, ExceptT.bind, ExceptT.mk, hm]
  rfl

theorem yields_get (tape : Tape) : (get : Reading Tape).Yields tape tape tape := rfl

section Steps
variable {depth : Nat} {before known last rest : List Char}

theorem rest_yields (h : tape.Stands depth before known rest) : Reading.rest.Yields tape rest tape := by
  unfold Yields Reading.rest
  rw [(yields_get tape).bind, h.position, h.text, Text.fromByte?_byteSize]
  rfl

theorem peek_yields (h : tape.Stands depth before known rest) :
    peek.Yields tape rest.head? tape := by
  unfold Yields peek
  rw [(rest_yields h).bind]
  rfl

theorem peekSecond_yields (h : tape.Stands depth before known rest) :
    peekSecond.Yields tape rest[1]? tape := by
  unfold Yields peekSecond
  rw [(rest_yields h).bind]
  rfl

theorem since_yields {first part : List Char} (h : tape.Stands depth before known rest)
    (hpart : before ++ known = first ++ part) : (since (byteSize first)).Yields tape part tape := by
  have hsize : byteSize (before ++ known) = byteSize first + byteSize part := by
    rw [hpart, Text.byteSize_append]
  unfold Yields since between
  rw [(yields_get tape).bind, (yields_get tape).bind, h.position, h.text, hpart, List.append_assoc,
    Text.fromByte?_byteSize, ← hpart, hsize, Nat.add_sub_cancel_left, if_pos (Nat.le_add_right _ _)]
  rw [Option.bind_some, Text.upToByte?_byteSize]
  rfl

theorem read_yields {c : Char} (h : tape.Stands depth before known (c :: rest)) :
    read.Yields tape (some c) (tape.pass c.utf8Size) := by
  unfold Yields read
  rw [(peek_yields h).bind]
  rfl

theorem read_end (h : tape.Stands depth before known []) : read.Yields tape none tape := by
  unfold Yields read
  rw [(peek_yields h).bind]
  rfl

theorem rewind_yields (known : List Char) (h : tape.Stands depth before (known ++ last) rest) :
    ∃ tape', (rewind last.length).Yields tape ⟨⟩ tape' ∧
      tape'.Stands depth before known (last ++ rest) := by
  induction last using List.reverseRecOn generalizing tape rest with
  | nil => exact ⟨tape, rfl, by simpa using h⟩
  | append_singleton last c ih =>
    have hmemory := h.memory
    rw [← List.append_assoc, List.map_append, List.reverse_append] at hmemory
    obtain ⟨forgotten, hforgotten⟩ := hmemory
    have hstands : ({ tape with
        position := tape.position - c.utf8Size
        memory := ((known ++ last).map Char.utf8Size).reverse ++ forgotten } : Tape).Stands
          depth before (known ++ last) (c :: rest) := by
      refine ⟨by simpa using h.text, ?_, List.prefix_append _ _, h.room⟩
      simp [h.position, Text.byteSize_append, byteSize]
      omega
    obtain ⟨tape', hyields, htape'⟩ := ih hstands
    refine ⟨tape', ?_, by simpa using htape'⟩
    have hunread : unread.Yields tape ⟨⟩ { tape with
        position := tape.position - c.utf8Size
        memory := ((known ++ last).map Char.utf8Size).reverse ++ forgotten } := by
      unfold Yields unread
      rw [(yields_get tape).bind, ← hforgotten]
      rfl
    rw [List.length_append, List.length_singleton, Yields, rewind, hunread.bind]
    exact hyields

end Steps
end Reading

namespace Dialect
variable {d : Dialect} {cs op : List Char}

theorem isOperator_iff : d.isOperator (String.ofList cs) = true ↔ cs ∈ d.operators.map String.toList := by
  rw [isOperator, List.contains_iff_mem, List.mem_map]
  constructor
  · exact fun h => ⟨_, h, String.toList_ofList⟩
  · rintro ⟨op, hop, rfl⟩
    rwa [String.ofList_toList]

theorem isOperatorPrefix_iff : d.isOperatorPrefix (String.ofList cs) = true ↔
    cs ≠ [] ∧ ∃ op ∈ d.operators.map String.toList, cs <+: op := by
  have hempty : String.ofList cs = "" ↔ cs = [] := by
    rw [← String.toList_inj, String.toList_ofList]
    rfl
  simp [isOperatorPrefix, hempty]

theorem length_le_maxOperatorLength (hop : op ∈ d.operators.map String.toList) :
    op.length ≤ d.maxOperatorLength := by
  have hfold : ∀ (operators : List String) (n : Nat),
      n ≤ operators.foldl (fun n op => max n op.length) n ∧
        ∀ op ∈ operators, op.length ≤ operators.foldl (fun n op => max n op.length) n := by
    intro operators
    induction operators with
    | nil => simp
    | cons op operators ih =>
      intro n
      obtain ⟨hle, hall⟩ := ih (max n op.length)
      refine ⟨by simp only [List.foldl_cons]; omega, ?_⟩
      intro op' hop'
      rcases List.mem_cons.mp hop' with rfl | hop'
      · simp only [List.foldl_cons]
        omega
      · exact hall op' hop'
  obtain ⟨op, hmem, rfl⟩ := List.mem_map.mp hop
  exact (hfold d.operators 0).2 op hmem

theorem ne_empty_of_register {r : Registry} (h : ∀ op ∈ d.operators, op ≠ "") :
    ∀ op ∈ (d.register r).operators, op ≠ "" := by
  unfold register
  dsimp only
  split
  · exact h
  · intro op hop
    rcases List.mem_append.mp hop with hop | hop
    · exact h op hop
    · simpa using (List.mem_filter.mp hop).2

theorem ne_empty_of_mem_operators (rs : List Registry) : ∀ op ∈ (ofRegistries rs).operators, op ≠ "" := by
  have hfold : ∀ d : Dialect, (∀ op ∈ d.operators, op ≠ "") →
      ∀ op ∈ (rs.foldl register d).operators, op ≠ "" := by
    induction rs with
    | nil => exact fun _ h => h
    | cons r rs ih => exact fun d h => ih _ (ne_empty_of_register h)
  exact hfold _ (ne_empty_of_register (by simp))

end Dialect

namespace Operator
variable {ops : List (List Char)} {rest op : List Char} {count longest : Nat}

/-- What is known when `count` characters have been tried: no operator that fits and is not longer than
these is longer than `longest`. -/
structure Tried (ops : List (List Char)) (rest : List Char) (count longest : Nat) : Prop where
  count_le : count ≤ rest.length
  longest_le : longest ≤ count
  found : 0 < longest → rest.take longest ∈ ops
  covers : ∀ op ∈ ops, op <+: rest → op.length ≤ count → op.length ≤ longest

theorem tried_zero (ops : List (List Char)) (rest : List Char) : Tried ops rest 0 0 where
  count_le := Nat.zero_le _
  longest_le := Nat.le_refl _
  found := by simp
  covers := fun _ _ _ h => h

/-- The longest operator is found when no longer one can follow. -/
theorem Tried.eq_longest (h : Tried ops rest count longest)
    (hall : ∀ op ∈ ops, op <+: rest → op.length ≤ count) : longest = Operator.longest ops rest := by
  have hcount := h.count_le
  have hle := h.longest_le
  apply Nat.le_antisymm
  · rcases Nat.eq_zero_or_pos longest with hzero | hpos
    · omega
    · have hfits := length_le_longest (h.found hpos) (List.take_prefix _ _)
      rw [List.length_take] at hfits
      omega
  · rcases Nat.eq_zero_or_pos (Operator.longest ops rest) with hzero | hpos
    · omega
    · have hmem := take_longest_mem hpos
      have hfits := h.covers _ hmem (List.take_prefix _ _) (hall _ hmem (List.take_prefix _ _))
      have hwithin := longest_le_length ops rest
      rw [List.length_take] at hfits
      omega

theorem Tried.step (h : Tried ops rest count longest) (hmore : count < rest.length) :
    Tried ops rest (count + 1)
      (if rest.take (count + 1) ∈ ops then count + 1 else longest) := by
  have hle := h.longest_le
  -- an operator of the new length is what has been read
  have hnew : ∀ op ∈ ops, op <+: rest → op.length = count + 1 → rest.take (count + 1) ∈ ops := by
    intro op hop hfits hlength
    rwa [← hlength, ← List.prefix_iff_eq_take.mp hfits]
  refine ⟨hmore, by split <;> omega, ?_, ?_⟩
  · split
    · rename_i hmem
      exact fun _ => hmem
    · exact h.found
  · intro op hop hfits hlength
    split
    · exact hlength
    · rename_i hnot
      rcases Nat.lt_or_eq_of_le hlength with hlt | heq
      · exact h.covers op hop hfits (by omega)
      · exact absurd (hnew op hop hfits heq) hnot

end Operator

namespace Reading
variable {d : Dialect} {before rest : List Char} {tape : Tape} {count longest left : Nat}

/-- The state of a trial is kept, and at its end the longest operator has been found. -/
theorem tryOperator_yields (hleft : count + left = d.maxOperatorLength)
    (h : tape.Stands d.maxOperatorLength before (rest.take count) (rest.drop count))
    (htried : Operator.Tried (d.operators.map String.toList) rest count longest) :
    ∃ count' tape', (tryOperator d (byteSize before) left count longest).Yields tape
        (count', Operator.longest (d.operators.map String.toList) rest) tape' ∧
      tape'.Stands d.maxOperatorLength before (rest.take count') (rest.drop count') ∧
      Operator.longest (d.operators.map String.toList) rest ≤ count' ∧ count' ≤ rest.length := by
  have hcount := htried.count_le
  have hlongest := htried.longest_le
  induction left generalizing tape count longest with
  | zero =>
    have heq := htried.eq_longest fun op hop _ =>
      Nat.le_trans (Dialect.length_le_maxOperatorLength hop) (by omega)
    exact ⟨count, tape, by rw [← heq]; rfl, h, by omega, hcount⟩
  | succ left ih =>
    unfold tryOperator
    cases hrest : rest.drop count with
    | nil =>
      have hend : rest.length ≤ count := List.drop_eq_nil_iff.mp hrest
      have heq := htried.eq_longest fun op _ hfits => Nat.le_trans hfits.length_le hend
      refine ⟨count, tape, ?_, h, by omega, hcount⟩
      rw [Yields, (read_end (hrest ▸ h)).bind, ← heq]
      rfl
    | cons c cs =>
      have hmore : count < rest.length := by
        rw [← Nat.not_le, ← List.drop_eq_nil_iff, hrest]
        simp
      have htake : rest.take (count + 1) = rest.take count ++ [c] := by
        rw [List.take_add_one, ← List.head?_drop, hrest]
        rfl
      have hdrop : rest.drop (count + 1) = cs := by
        rw [← List.drop_drop, hrest]
        rfl
      have hread := read_yields (hrest ▸ h)
      have hstands : (tape.pass c.utf8Size).Stands d.maxOperatorLength before
          (rest.take (count + 1)) (rest.drop (count + 1)) := by
        rw [htake, hdrop]
        exact Tape.Stands.pass (hrest ▸ h) (by rw [List.length_take]; omega)
      have hstep := htried.step hmore
      by_cases hprefix : d.isOperatorPrefix (String.ofList (rest.take (count + 1))) = true
      · obtain ⟨count', tape', hyields, hend⟩ := ih (by omega) hstands hstep hstep.count_le hstep.longest_le
        refine ⟨count', tape', ?_, hend⟩
        rw [Yields, hread.bind]
        dsimp only
        rw [(since_yields hstands rfl).bind, if_pos hprefix]
        simp only [Dialect.isOperator_iff]
        exact hyields
      · have heq := htried.eq_longest fun op hop hfits => by
          by_contra hlong
          refine hprefix (Dialect.isOperatorPrefix_iff.mpr ⟨by simp [htake], op, hop, ?_⟩)
          exact List.prefix_of_prefix_length_le (List.take_prefix _ _) hfits
            (by rw [List.length_take]; omega)
        refine ⟨count + 1, tape.pass c.utf8Size, ?_, hstands, by omega, hmore⟩
        rw [Yields, hread.bind]
        dsimp only
        rw [(since_yields hstands rfl).bind, if_neg hprefix, ← heq]
        rfl

theorem operator_yields {known : List Char} (h : tape.Stands d.maxOperatorLength before known rest) :
    ∃ tape', (operator d).Yields tape
        (if 0 < Operator.longest (d.operators.map String.toList) rest then
          some (Operator.longest (d.operators.map String.toList) rest) else none) tape' ∧
      tape'.Stands d.maxOperatorLength (before ++ known)
        (rest.take (Operator.longest (d.operators.map String.toList) rest))
        (rest.drop (Operator.longest (d.operators.map String.toList) rest)) := by
  have hstart : tape.Stands d.maxOperatorLength (before ++ known) (rest.take 0) (rest.drop 0) :=
    Tape.Stands.settle (by simpa using h)
  obtain ⟨count, tape₁, htry, htape₁, hle, hcount⟩ :=
    tryOperator_yields (Nat.zero_add _) hstart (Operator.tried_zero _ _)
  generalize Operator.longest (d.operators.map String.toList) rest = n at *
  -- of the characters that have been tried, those behind the operator go back
  have hsplit : rest.take count = rest.take n ++ (rest.drop n).take (count - n) := by
    rw [← List.take_add, Nat.add_sub_cancel' hle]
  have hlength : ((rest.drop n).take (count - n)).length = count - n := by
    rw [List.length_take, List.length_drop]
    omega
  have hback : (rest.drop n).take (count - n) ++ rest.drop count = rest.drop n := by
    have hdrop : (rest.drop n).drop (count - n) = rest.drop count := by
      rw [List.drop_drop, Nat.add_sub_cancel' hle]
    rw [← hdrop, List.take_append_drop]
  rw [hsplit] at htape₁
  obtain ⟨tape₂, hrewind, htape₂⟩ := rewind_yields _ htape₁
  rw [hlength] at hrewind
  rw [hback] at htape₂
  refine ⟨tape₂, ?_, htape₂⟩
  unfold Yields operator
  rw [(yields_get tape).bind, h.position, htry.bind]
  dsimp only
  rw [hrewind.bind]
  rfl

/-- From every position between two characters the longest operator that comes next is read, and the tape
stands behind it; where no operator comes next, the tape stays where it is. -/
theorem operator_reads_longest (rs : List Registry) {before rest : List Char} {tape : Tape}
    (htext : tape.text = before ++ rest) (hposition : tape.position = byteSize before)
    (hdepth : (Dialect.ofRegistries rs).maxOperatorLength ≤ tape.depth) :
    ∃ result tape', (operator (.ofRegistries rs)).Yields tape result tape' ∧ tape'.text = tape.text ∧
      match result with
      | some n => ∃ op ∈ (Dialect.ofRegistries rs).operators, op.toList <+: rest ∧ op.length = n ∧
          tape'.position = tape.position + byteSize op.toList ∧
          ∀ op' ∈ (Dialect.ofRegistries rs).operators, op'.toList <+: rest → op'.length ≤ n
      | none => tape'.position = tape.position ∧
          ∀ op ∈ (Dialect.ofRegistries rs).operators, ¬op.toList <+: rest := by
  have hstands : tape.Stands (Dialect.ofRegistries rs).maxOperatorLength before [] rest :=
    ⟨by simpa using htext, by simpa using hposition, List.nil_prefix, hdepth⟩
  obtain ⟨tape', hyields, htape'⟩ := operator_yields hstands
  refine ⟨_, tape', hyields, ?_, ?_⟩
  · rw [htape'.text, htext, List.append_assoc, List.take_append_drop, List.append_nil]
  have hmoved := htape'.position
  rw [Text.byteSize_append, List.append_nil, ← hposition] at hmoved
  split
  · rename_i n hn
    split at hn
    · rename_i hpos
      obtain rfl := Option.some.inj hn
      obtain ⟨op, hop, hfits⟩ := List.mem_map.mp (Operator.take_longest_mem hpos)
      have hle := Operator.longest_le_length ((Dialect.ofRegistries rs).operators.map String.toList) rest
      refine ⟨op, hop, hfits ▸ List.take_prefix _ _, ?_, by rw [hfits, hmoved], ?_⟩
      · rw [← String.length_toList, hfits, List.length_take, Nat.min_eq_left hle]
      · intro op' hop' hfits'
        rw [← String.length_toList]
        exact Operator.length_le_longest (List.mem_map_of_mem hop') hfits'
    · cases hn
  · rename_i hn
    split at hn
    · cases hn
    · rename_i hzero
      have hzero : Operator.longest ((Dialect.ofRegistries rs).operators.map String.toList) rest = 0 := by
        omega
      refine ⟨by simpa [hzero, byteSize] using hmoved, fun op hop hfits => ?_⟩
      have hnil := Operator.longest_eq_zero_iff.mp hzero _ (List.mem_map_of_mem hop) hfits
      exact Dialect.ne_empty_of_mem_operators rs op hop (String.toList_eq_nil_iff.mp hnil)

/-- Behind a character of two bytes, `<<-` begins an operator, and `<<` is the longest one. -/
theorem operator_reads_longest_of_shift :
    let tape := { Tape.load "é<<-b" (Dialect.ofRegistries [.postgis]).maxOperatorLength with position := 2 }
    (Dialect.ofRegistries [.postgis]).isOperatorPrefix "<<-" = true ∧
      ∃ tape', (operator (.ofRegistries [.postgis])).Yields tape (some 2) tape' ∧ tape'.position = 4 := by
  intro tape
  refine ⟨by decide +kernel, ?_⟩
  obtain ⟨result, tape', hyields, -, hresult⟩ :=
    @operator_reads_longest [.postgis] ['é'] ['<', '<', '-', 'b'] tape rfl rfl (Nat.le_max_left _ _)
  have hmem : "<<" ∈ (Dialect.ofRegistries [.postgis]).operators := by decide +kernel
  have hfit : ∀ op ∈ (Dialect.ofRegistries [.postgis]).operators, op.toList <+: ['<', '<', '-', 'b'] →
      op = "<<" ∨ op = "<" := by decide +kernel
  cases result with
  | none => exact absurd (by decide) (hresult.2 "<<" hmem)
  | some n =>
    obtain ⟨op, hop, hprefix, rfl, hposition, hmax⟩ := hresult
    rcases hfit op hop hprefix with rfl | rfl
    · exact ⟨tape', hyields, hposition⟩
    · exact absurd (hmax "<<" hmem (by decide)) (by decide)

end Reading
end SqlLayout
