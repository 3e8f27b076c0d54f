import SqlLayout.Proofs.Reading

/-! Reading by descent. The open frames are a stack, but what becomes of a frame does not depend on the
frames below it: a frame reads tokens until its group ends, and where a token opens a group inside, that
group is read first, in the same manner. Facts about whole trees follow this descent. -/

namespace SqlLayout
set_option autoImplicit false

namespace Frame

/-- A frame, with tokens to come, reads a group that has the given number of tokens, and leaves the
tokens that are left. -/
inductive Reads : Frame → List Token → Group → Nat → List Token → Prop
  | close {f : Frame} {t : Token} {next : List Token} {g : Group} (hend : f.endsAt t = true)
      (hclosing : f.kind.closing? = some t.kind) (hfinish : (f.push t).finish = .ok g) :
      Reads f (t :: next) g (f.count + 1) next
  | stop {f : Frame} {t : Token} {next : List Token} {g : Group} (hend : f.endsAt t = true)
      (hclosing : f.kind.closing? ≠ some t.kind) (hfinish : f.finish = .ok g) :
      Reads f (t :: next) g f.count (t :: next)
  | take {f : Frame} {t : Token} {next rest : List Token} {g : Group} {n : Nat}
      (hend : f.endsAt t = false) (hlasts : f.Lasts t) (hplain : f.nested? t next = none)
      (hmore : Reads (f.push t) next g n rest) : Reads f (t :: next) g n rest
  | nest {f child : Frame} {t : Token} {next left rest : List Token} {inner g : Group} {m n : Nat}
      (hend : f.endsAt t = false) (hlasts : f.Lasts t) (hnested : f.nested? t next = some child)
      (hclosable : child.Closable next) (hinner : Reads child next inner m left)
      (hmore : Reads (f.attach inner m) left g n rest) : Reads f (t :: next) g n rest

section Reads
variable {f : Frame} {tokens rest : List Token} {g : Group} {n : Nat}

theorem Reads.suffix (h : f.Reads tokens g n rest) : rest <:+ tokens := by
  induction h with
  | close => exact List.suffix_cons _ _
  | stop => exact List.suffix_rfl
  | take _ _ _ _ ih => exact ih.trans (List.suffix_cons _ _)
  | nest _ _ _ _ _ _ ih ih' => exact (ih'.trans ih).trans (List.suffix_cons _ _)

theorem finalKind_cases (f : Frame) :
    f.finalKind = f.kind ∨ (f.kind = .parens ∧ f.finalKind = .subquery) := by
  unfold finalKind
  split
  · rename_i hkind _
    rw [hkind]
    split
    · exact Or.inr ⟨rfl, rfl⟩
    · exact Or.inl rfl
  · exact Or.inl rfl

theorem closing?_finalKind (f : Frame) : f.finalKind.closing? = f.kind.closing? := by
  rcases f.finalKind_cases with h | ⟨hparens, h⟩
  · rw [h]
  · rw [h, hparens]
    rfl

theorem closing?_of_stop {t : Token} (hend : f.endsAt t = true)
    (hclosing : f.kind.closing? ≠ some t.kind) : f.kind.closing? = none := by
  rw [endsAt, Bool.and_eq_true] at hend
  cases h : f.kind.closing? with
  | none => rfl
  | some c =>
    have hkind : t.kind = c := by simpa [h] using hend.2
    rw [h, hkind] at hclosing
    exact absurd rfl hclosing

/-- A group begins with the token that opened it, and its kind is the one that this token opens,
except that a parenthesis may be a subquery. -/
theorem Reads.opened (h : f.Reads tokens g n rest) :
    (∃ es, g.elements = .token f.opener :: es) ∧
      (g.kind = f.kind ∨ (f.kind = .parens ∧ g.kind = .subquery)) := by
  induction h with
  | @close f t next g _ _ hfinish =>
    rw [finish_eq hfinish]
    exact ⟨⟨_, rfl⟩, (f.push t).finalKind_cases⟩
  | @stop f t next g _ _ hfinish =>
    rw [finish_eq hfinish]
    exact ⟨⟨_, rfl⟩, f.finalKind_cases⟩
  | take _ _ _ _ ih => exact ih
  | nest _ _ _ _ _ _ _ ih' => exact ih'

end Reads

/-- Offering a token to a frame that stands on others: the frame takes it or opens a frame, or its
group goes to the frame below, which is offered the token if the group has not taken it. -/
theorem readOn_cons {f parent : Frame} {below : List Frame} {t : Token} {next : List Token} :
    f.readOn (parent :: below) (t :: next) =
      match f.react t next with
      | .error e => .error e
      | .ok (.takes f) => f.readOn (parent :: below) next
      | .ok (.opens child) => child.readOn (f :: parent :: below) next
      | .ok (.ends g n true) => (parent.attach g n).readOn below next
      | .ok (.ends g n false) => (parent.attach g n).readOn below (t :: next) := by
  cases hr : f.react t next with
  | error e => simp [readOn, offer, hr]
  | ok r =>
    cases r with
    | takes f' => simp [readOn, offer, hr]
    | opens child => simp [readOn, offer, hr]
    | ends g n taken => cases taken <;> simp [readOn, offer, hr]

theorem readOn_nil {f : Frame} {t : Token} {next : List Token} :
    f.readOn [] (t :: next) =
      match f.react t next with
      | .error e => .error e
      | .ok (.takes f) => f.readOn [] next
      | .ok (.opens child) => child.readOn [f] next
      | .ok (.ends g n taken) => .ok ⟨g, n, if taken then next else t :: next⟩ := by
  cases hr : f.react t next with
  | error e => simp [readOn, offer, hr, Except.map]
  | ok r => cases r <;> simp [readOn, offer, hr, Except.map]

theorem Reads.readOn_cons {f parent : Frame} {below : List Frame} {tokens rest : List Token}
    {g : Group} {n : Nat} (h : f.Reads tokens g n rest) :
    f.readOn (parent :: below) tokens = (parent.attach g n).readOn below rest := by
  induction h generalizing parent below with
  | close hend hclosing hfinish =>
    rw [Frame.readOn_cons, react_ok_iff.mpr (Or.inl ⟨_, hend, hclosing, hfinish, rfl⟩)]
  | stop hend hclosing hfinish =>
    rw [Frame.readOn_cons, react_ok_iff.mpr (Or.inr (Or.inl ⟨_, hend, hclosing, hfinish, rfl⟩))]
  | take hend hlasts hplain _ ih =>
    rw [Frame.readOn_cons,
      react_ok_iff.mpr (Or.inr (Or.inr (Or.inl ⟨hend, hlasts, hplain, rfl⟩)))]
    exact ih
  | nest hend hlasts hnested hclosable _ _ ih ih' =>
    rw [Frame.readOn_cons, react_ok_iff.mpr
      (Or.inr (Or.inr (Or.inr ⟨_, hend, hlasts, hnested, hclosable, rfl⟩)))]
    exact ih.trans ih'

theorem Reads.readOn_nil {f : Frame} {tokens rest : List Token} {g : Group} {n : Nat}
    (h : f.Reads tokens g n rest) : f.readOn [] tokens = .ok ⟨g, n, rest⟩ := by
  induction h with
  | close hend hclosing hfinish =>
    rw [Frame.readOn_nil, react_ok_iff.mpr (Or.inl ⟨_, hend, hclosing, hfinish, rfl⟩)]
    rfl
  | stop hend hclosing hfinish =>
    rw [Frame.readOn_nil, react_ok_iff.mpr (Or.inr (Or.inl ⟨_, hend, hclosing, hfinish, rfl⟩))]
    rfl
  | take hend hlasts hplain _ ih =>
    rw [Frame.readOn_nil,
      react_ok_iff.mpr (Or.inr (Or.inr (Or.inl ⟨hend, hlasts, hplain, rfl⟩)))]
    exact ih
  | nest hend hlasts hnested hclosable hinner _ _ ih' =>
    rw [Frame.readOn_nil, react_ok_iff.mpr
      (Or.inr (Or.inr (Or.inr ⟨_, hend, hlasts, hnested, hclosable, rfl⟩)))]
    exact hinner.readOn_cons.trans ih'

/-- A frame on top of others reads its group before the frames below go on. -/
theorem reads_of_readOn_cons {tokens : List Token} {f parent : Frame} {below : List Frame}
    {r : Retrieved} (h : f.readOn (parent :: below) tokens = .ok r) :
    ∃ g n rest, f.Reads tokens g n rest ∧ (parent.attach g n).readOn below rest = .ok r := by
  -- the tokens that a nested group leaves are fewer, so the induction is on their number
  induction hlength : tokens.length using Nat.strongRecOn
    generalizing tokens f parent below with
  | _ length ih =>
    cases tokens with
    | nil => simp [readOn] at h
    | cons t next =>
      rw [List.length_cons] at hlength
      rw [Frame.readOn_cons] at h
      cases hr : f.react t next with
      | error e => simp [hr] at h
      | ok reaction =>
        rw [hr] at h
        obtain ⟨g, hend, hclosing, hfinish, rfl⟩ | ⟨g, hend, hclosing, hfinish, rfl⟩ |
          ⟨hend, hlasts, hplain, rfl⟩ | ⟨child, hend, hlasts, hnested, hclosable, rfl⟩ :=
          react_ok_iff.mp hr
        · exact ⟨g, _, next, .close hend hclosing hfinish, h⟩
        · exact ⟨g, _, t :: next, .stop hend hclosing hfinish, h⟩
        · obtain ⟨g, n, rest, hreads, hbelow⟩ := ih next.length (by omega) h rfl
          exact ⟨g, n, rest, .take hend hlasts hplain hreads, hbelow⟩
        · obtain ⟨inner, m, left, hinner, htop⟩ := ih next.length (by omega) h rfl
          have hle := hinner.suffix.length_le
          obtain ⟨g, n, rest, hreads, hbelow⟩ := ih left.length (by omega) htop rfl
          exact ⟨g, n, rest, .nest hend hlasts hnested hclosable hinner hreads, hbelow⟩

/-- Reading with a stack of frames is reading by descent. -/
theorem readOn_nil_iff {f : Frame} {tokens rest : List Token} {g : Group} {n : Nat} :
    f.readOn [] tokens = .ok ⟨g, n, rest⟩ ↔ f.Reads tokens g n rest := by
  refine ⟨fun h => ?_, Reads.readOn_nil⟩
  induction hlength : tokens.length using Nat.strongRecOn generalizing tokens f with
  | _ length ih =>
    cases tokens with
    | nil => simp [readOn] at h
    | cons t next =>
      rw [List.length_cons] at hlength
      rw [Frame.readOn_nil] at h
      cases hr : f.react t next with
      | error e => simp [hr] at h
      | ok reaction =>
        rw [hr] at h
        obtain ⟨g, hend, hclosing, hfinish, rfl⟩ | ⟨g, hend, hclosing, hfinish, rfl⟩ |
          ⟨hend, hlasts, hplain, rfl⟩ | ⟨child, hend, hlasts, hnested, hclosable, rfl⟩ :=
          react_ok_iff.mp hr
        · cases h
          exact .close hend hclosing hfinish
        · cases h
          exact .stop hend hclosing hfinish
        · exact .take hend hlasts hplain (ih next.length (by omega) h rfl)
        · obtain ⟨inner, m, left, hinner, htop⟩ := reads_of_readOn_cons h
          have hle := hinner.suffix.length_le
          exact .nest hend hlasts hnested hclosable hinner (ih left.length (by omega) htop rfl)

end Frame

theorem Group.retrieve?_ok_iff {position indent : Nat} {tokens : List Token} {r : Retrieved} :
    retrieve? position indent tokens = some (.ok r) ↔
      ∃ t next kind, tokens = t :: next ∧ GroupKind.ofStart? t.kind = some kind ∧
        (Frame.begin position indent kind t next).Reads next r.group r.count r.rest := by
  cases tokens with
  | nil => simp [retrieve?]
  | cons t next =>
    simp only [retrieve?, Option.map_eq_some_iff, List.cons.injEq]
    constructor
    · rintro ⟨kind, hkind, h⟩
      exact ⟨t, next, kind, ⟨rfl, rfl⟩, hkind, Frame.readOn_nil_iff.mp h⟩
    · rintro ⟨t, next, kind, ⟨rfl, rfl⟩, hkind, h⟩
      exact ⟨kind, hkind, h.readOn_nil⟩

end SqlLayout
