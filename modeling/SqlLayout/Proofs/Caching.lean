import Mathlib.Data.List.DropRight
import SqlLayout.Dialect.Cache

/-! The dialects that a cache holds. They are those of the lists that were inserted last, as many as
there is room for; finding one of them inserts nothing and renews nothing. So an answer is never that
of another list, and it is a stored one exactly when its list is among the last that were inserted. -/

namespace SqlLayout.Dialect.Cache
set_option autoImplicit false

/-- The dialects that are stored. -/
def stored (c : Cache) : List Built := c.entries.map Prod.snd

/-- The cache behind a sequence of calls. -/
def run (c : Cache) (calls : List (List Registry)) : Cache :=
  calls.foldl (fun c rs => (c.getOrBuild rs).2) c

/-- The lists that are inserted in a sequence of calls: those whose answer was not stored before. -/
def insertions (c : Cache) : List (List Registry) → List (List Registry)
  | [] => []
  | rs :: calls =>
    if (c.getOrBuild rs).1 ∈ c.stored then (c.getOrBuild rs).2.insertions calls
    else rs :: (c.getOrBuild rs).2.insertions calls

/-- The cache has the given room, and holds the last lists of those inserted. -/
structure Holds (room : Nat) (inserted : List (List Registry)) (c : Cache) : Prop where
  capacity : c.capacity = room
  order : c.order = inserted.rtake room
  keys : c.entries.map Prod.fst = c.order.reverse
  nodup : c.order.Nodup
  dialect : ∀ e ∈ c.entries, e.2.dialect = ofRegistries e.1
  serial : ∀ e ∈ c.entries, e.2.serial < c.buildings

theorem holds_empty (capacity : Nat) : Holds (max capacity 1) [] (empty capacity) where
  capacity := rfl
  order := by simp [empty]
  keys := rfl
  nodup := .nil
  dialect := by simp [empty]
  serial := by simp [empty]

theorem rtake_concat {α : Type} {room : Nat} (hroom : 0 < room) (l : List α) (a : α) :
    (l ++ [a]).rtake room = (if room ≤ l.length then (l.rtake room).tail else l.rtake room) ++ [a] := by
  obtain ⟨n, rfl⟩ := Nat.exists_eq_succ_of_ne_zero hroom.ne'
  rw [List.rtake_concat_succ]
  congr 1
  unfold List.rtake
  split
  · rw [List.tail_drop]
    congr 1
    omega
  · congr 1
    omega

section Call
variable {room : Nat} {inserted : List (List Registry)} {c : Cache} {rs : List Registry}

theorem getOrBuild_found {b : Built} (h : c.entries.lookup rs = some b) :
    c.getOrBuild rs = (b, c) := by
  rw [getOrBuild, h]

theorem Holds.mem_keys (h : Holds room inserted c) :
    rs ∈ c.entries.map Prod.fst ↔ rs ∈ c.order := by
  rw [h.keys, List.mem_reverse]

theorem Holds.length_entries (h : Holds room inserted c) :
    c.entries.length = c.order.length := by
  have hlength := congrArg List.length h.keys
  rwa [List.length_map, List.length_reverse] at hlength

theorem Holds.length_le (h : Holds room inserted c) : c.entries.length ≤ room := by
  rw [h.length_entries, h.order, List.rtake, List.length_drop]
  omega

/-- A list among the last is found, and the cache stays. -/
theorem Holds.found (h : Holds room inserted c) (hrs : rs ∈ c.order) :
    ∃ b ∈ c.stored, b.dialect = ofRegistries rs ∧ c.getOrBuild rs = (b, c) := by
  obtain ⟨e, he, rfl⟩ := List.mem_map.mp (h.mem_keys.mpr hrs)
  obtain ⟨b, hb⟩ : ∃ b, c.entries.lookup e.1 = some b := by
    rw [← Option.isSome_iff_exists, List.lookup_isSome_iff]
    exact ⟨e, he, by simp⟩
  have hmem : (e.1, b) ∈ c.entries := by
    obtain ⟨l₁, l₂, hl, -⟩ := List.lookup_eq_some_iff.mp hb
    rw [hl]
    simp
  exact ⟨b, List.mem_map_of_mem hmem, h.dialect _ hmem, getOrBuild_found hb⟩

theorem dropOldest_entries (c : Cache) : c.dropOldest.entries ⊆ c.entries := by
  unfold dropOldest
  split
  · split
    · exact List.Subset.refl _
    · exact List.filter_subset_self _
  · exact List.Subset.refl _

theorem dropOldest_capacity (c : Cache) : c.dropOldest.capacity = c.capacity := by
  unfold dropOldest
  split
  · split <;> rfl
  · rfl

theorem Holds.dropOldest (h : Holds room inserted c) (hroom : 0 < room) :
    c.dropOldest.order = (if room ≤ inserted.length then c.order.tail else c.order) ∧
      c.dropOldest.entries.map Prod.fst = c.dropOldest.order.reverse := by
  have hlength : c.order.length = min room inserted.length := by
    rw [h.order, List.rtake, List.length_drop]
    omega
  have hfull : c.capacity ≤ c.entries.length ↔ room ≤ inserted.length := by
    rw [h.capacity, h.length_entries, hlength]
    omega
  unfold Cache.dropOldest
  by_cases hle : room ≤ inserted.length
  · rw [if_pos (hfull.mpr hle), if_pos hle]
    cases horder : c.order with
    | nil =>
      rw [horder, List.length_nil] at hlength
      omega
    | cons oldest rest =>
      have hkeys := h.keys
      have hnodup := h.nodup
      rw [horder, List.reverse_cons] at hkeys
      rw [horder, List.nodup_cons] at hnodup
      refine ⟨rfl, ?_⟩
      have hfilter : (c.entries.filter fun e => decide (e.1 ≠ oldest)).map Prod.fst =
          (c.entries.map Prod.fst).filter fun key => decide (key ≠ oldest) := by
        rw [List.filter_map]
        rfl
      rw [hfilter, hkeys, List.filter_append, List.filter_eq_self.mpr]
      · simp
      · intro key hkey
        rw [decide_eq_true_iff]
        rintro rfl
        exact hnodup.1 (List.mem_reverse.mp hkey)
  · rw [if_neg fun hc => hle (hfull.mp hc), if_neg hle]
    exact ⟨rfl, h.keys⟩

/-- Another list is built anew and inserted. -/
theorem Holds.built (h : Holds room inserted c) (hroom : 0 < room) (hrs : rs ∉ c.order) :
    (c.getOrBuild rs).1.dialect = ofRegistries rs ∧ (c.getOrBuild rs).1 ∉ c.stored ∧
      Holds room (inserted ++ [rs]) (c.getOrBuild rs).2 := by
  have hnone : c.entries.lookup rs = none := by
    rw [List.lookup_eq_none_iff]
    intro e he
    rw [bne_iff_ne]
    rintro rfl
    exact hrs (h.mem_keys.mp (List.mem_map_of_mem he))
  obtain ⟨horder, hkeys⟩ := h.dropOldest hroom
  have hsub : c.dropOldest.order.Sublist c.order := by
    rw [horder]
    split
    · exact List.tail_sublist _
    · exact List.Sublist.refl _
  rw [getOrBuild, hnone]
  refine ⟨rfl, ?_, ?_⟩
  · intro hmem
    obtain ⟨e, he, hb⟩ := List.mem_map.mp hmem
    have hserial := h.serial e he
    rw [hb] at hserial
    exact Nat.lt_irrefl _ hserial
  · constructor
    case capacity => exact (dropOldest_capacity c).trans h.capacity
    case order =>
      show c.dropOldest.order ++ [rs] = _
      rw [rtake_concat hroom, ← h.order, horder]
    case keys =>
      show rs :: c.dropOldest.entries.map Prod.fst = (c.dropOldest.order ++ [rs]).reverse
      rw [hkeys, List.reverse_append]
      rfl
    case nodup =>
      apply List.nodup_append.mpr
      refine ⟨hsub.nodup h.nodup, List.pairwise_singleton _ rs, ?_⟩
      rintro key hkey _ hsingle rfl
      rw [List.mem_singleton.mp hsingle] at hkey
      exact hrs (hsub.subset hkey)
    case dialect =>
      intro e he
      rcases List.mem_cons.mp he with rfl | he
      · rfl
      · exact h.dialect e (dropOldest_entries c he)
    case serial =>
      intro e he
      rcases List.mem_cons.mp he with rfl | he
      · exact Nat.lt_succ_self _
      · exact Nat.lt_succ_of_lt (h.serial e (dropOldest_entries c he))

theorem Holds.stored_iff (h : Holds room inserted c) (hroom : 0 < room) :
    (c.getOrBuild rs).1 ∈ c.stored ↔ rs ∈ c.order := by
  by_cases hrs : rs ∈ c.order
  · obtain ⟨b, hb, -, hfound⟩ := h.found hrs
    rw [hfound]
    exact iff_of_true hb hrs
  · exact iff_of_false (h.built hroom hrs).2.1 hrs

theorem Holds.getOrBuild (h : Holds room inserted c) (hroom : 0 < room) (rs : List Registry) :
    Holds room (inserted ++ if (c.getOrBuild rs).1 ∈ c.stored then [] else [rs])
      (c.getOrBuild rs).2 := by
  by_cases hrs : rs ∈ c.order
  · obtain ⟨b, hb, -, hfound⟩ := h.found hrs
    rw [hfound, if_pos hb, List.append_nil]
    exact h
  · obtain ⟨-, hnew, hholds⟩ := h.built hroom hrs
    rwa [if_neg hnew]

theorem Holds.run (h : Holds room inserted c) (hroom : 0 < room) (calls : List (List Registry)) :
    Holds room (inserted ++ c.insertions calls) (c.run calls) := by
  induction calls generalizing c inserted with
  | nil => simpa [insertions, Cache.run] using h
  | cons rs calls ih =>
    have hstep := ih (h.getOrBuild hroom rs)
    rw [List.append_assoc] at hstep
    rw [insertions]
    split <;> rename_i hstored
    · rwa [if_pos hstored] at hstep
    · rwa [if_neg hstored] at hstep

end Call

/-- The shared cache does not outgrow its room, whatever is asked for. -/
theorem length_shared_le (calls : List (List Registry)) :
    ((empty sharedCapacity).run calls).entries.length ≤ sharedCapacity :=
  have hroom : max sharedCapacity 1 = sharedCapacity := by decide
  hroom ▸ ((holds_empty sharedCapacity).run (by decide) calls).length_le

theorem run_concat (c : Cache) (calls : List (List Registry)) (rs : List Registry) :
    c.run (calls ++ [rs]) = ((c.run calls).getOrBuild rs).2 := by
  rw [run, List.foldl_append]
  rfl

/-- Behind every call the cache holds the lists that were inserted last, the oldest first, and no more
than it has room for. The answer is the dialect of just the list that was asked for. It is a stored one
exactly when this list is among the last that were inserted, and then the cache stays as it is. -/
theorem getOrBuild_recalls_the_last (capacity : Nat) (calls : List (List Registry))
    (rs : List Registry) :
    let room := max capacity 1
    let before := (empty capacity).run calls
    let answer := (before.getOrBuild rs).1
    let after := (before.getOrBuild rs).2
    after.entries.length ≤ room ∧
    after.order.Nodup ∧ after.order.Perm (after.entries.map Prod.fst) ∧
    after.order = ((empty capacity).insertions (calls ++ [rs])).rtake room ∧
    answer.dialect = ofRegistries rs ∧
    (answer ∈ before.stored ↔ rs ∈ ((empty capacity).insertions calls).rtake room) ∧
    (answer ∈ before.stored → after = before) := by
  intro room before answer after
  have hroom : 0 < room := Nat.lt_of_lt_of_le Nat.zero_lt_one (Nat.le_max_right capacity 1)
  have hrun := fun calls => (holds_empty capacity).run hroom calls
  have hbefore : Holds room ((empty capacity).insertions calls) before := hrun calls
  have hafter : Holds room ((empty capacity).insertions (calls ++ [rs])) after := by
    have hafter := hrun (calls ++ [rs])
    rwa [run_concat, List.nil_append] at hafter
  have hstored : answer ∈ before.stored ↔ rs ∈ before.order := hbefore.stored_iff hroom
  refine ⟨hafter.length_le, hafter.nodup, ?_, hafter.order, ?_, ?_, ?_⟩
  · rw [hafter.keys]
    exact (List.reverse_perm _).symm
  · by_cases hrs : rs ∈ before.order
    · obtain ⟨b, -, hdialect, hfound⟩ := hbefore.found hrs
      rwa [show answer = b from congrArg Prod.fst hfound]
    · exact (hbefore.built hroom hrs).1
  · rw [hstored, hbefore.order]
  · intro hmem
    obtain ⟨b, -, -, hfound⟩ := hbefore.found (hstored.mp hmem)
    exact congrArg Prod.snd hfound

end SqlLayout.Dialect.Cache
