import SqlLayout.Proofs.Drafting

/-! The text of a layout. A script has no layout exactly when one of its groups, at whatever depth, is
empty or is a call without a name. Otherwise the text is woven: white space that the groups and the
comma style choose, and the tokens in their order between it. -/

namespace SqlLayout
set_option autoImplicit false

namespace Group

/-- The group stands in a list of elements, at some depth. -/
inductive Inside (g : Group) : List Element → Prop
  | here {es : List Element} (h : .group g ∈ es) : Inside g es
  | deeper {es : List Element} {outer : Group} (h : .group outer ∈ es)
      (hg : Inside g outer.elements) : Inside g es

/-- The group is empty, or a call that begins with a group. -/
def Faulty (g : Group) : Prop :=
  g.elements = [] ∨
    (g.kind = .call ∨ g.kind = .typeCall) ∧ ∃ inner es, g.elements = .group inner :: es

/-- Some group of a list of elements, at some depth, has no layout. -/
def AnyFaulty (es : List Element) : Prop := ∃ g : Group, g.Inside es ∧ g.Faulty

theorem inside_iff {g : Group} {es : List Element} :
    g.Inside es ↔ .group g ∈ es ∨ ∃ outer, .group outer ∈ es ∧ g.Inside outer.elements := by
  constructor
  · intro h
    cases h with
    | here h => exact Or.inl h
    | deeper h hg => exact Or.inr ⟨_, h, hg⟩
  · rintro (h | ⟨outer, h, hg⟩)
    · exact .here h
    · exact .deeper h hg

theorem anyFaulty_nil : ¬AnyFaulty [] := by
  rintro ⟨g, hg, -⟩
  cases hg with
  | here h => cases h
  | deeper h _ => cases h

theorem anyFaulty_token {t : Token} {es : List Element} :
    AnyFaulty (.token t :: es) ↔ AnyFaulty es := by
  simp only [AnyFaulty, @inside_iff _ (_ :: _), @inside_iff _ es, List.mem_cons, reduceCtorEq,
    false_or]

theorem anyFaulty_group {g : Group} {es : List Element} :
    AnyFaulty (.group g :: es) ↔ g.Faulty ∨ AnyFaulty g.elements ∨ AnyFaulty es := by
  simp only [AnyFaulty, @inside_iff _ (_ :: _), @inside_iff _ es, List.mem_cons, Element.group.injEq]
  constructor
  · rintro ⟨h, (rfl | hh) | ⟨outer, rfl | houter, hh⟩, hfaulty⟩
    · exact Or.inl hfaulty
    · exact Or.inr (Or.inr ⟨h, Or.inl hh, hfaulty⟩)
    · exact Or.inr (Or.inl ⟨h, hh, hfaulty⟩)
    · exact Or.inr (Or.inr ⟨h, Or.inr ⟨outer, houter, hh⟩, hfaulty⟩)
  · rintro (hfaulty | ⟨h, hh, hfaulty⟩ | ⟨h, hh | ⟨outer, houter, hh⟩, hfaulty⟩)
    · exact ⟨g, Or.inl (Or.inl rfl), hfaulty⟩
    · exact ⟨h, Or.inr ⟨g, Or.inl rfl, hh⟩, hfaulty⟩
    · exact ⟨h, Or.inl (Or.inr hh), hfaulty⟩
    · exact ⟨h, Or.inr ⟨outer, Or.inr houter, hh⟩, hfaulty⟩

end Group

namespace Layout
open SqlLayout.Group

theorem groupFault?_of_faulty {g : Group} (h : g.Faulty) : (groupFault? g).isSome = true := by
  obtain ⟨kind, elements, indent⟩ := g
  rcases h with rfl | ⟨hkind, inner, es, rfl⟩
  · rw [groupFault?]
    rfl
  · rw [groupFault?]
    · rfl
    · exact manner_call_iff.mpr hkind

theorem groupFault?_of_not_faulty {g : Group} (h : ¬g.Faulty) :
    groupFault? g = elementsFault? g.elements := by
  obtain ⟨kind, elements, indent⟩ := g
  cases elements with
  | nil => exact absurd (Or.inl rfl) h
  | cons e es =>
    rw [groupFault?]
    · rw [elements, elementsFault?]
    · rintro inner hcall rfl
      exact h (Or.inr ⟨manner_call_iff.mp hcall, inner, es, rfl⟩)

mutual

theorem groupFault?_isSome_iff (g : Group) :
    (groupFault? g).isSome = true ↔ g.Faulty ∨ AnyFaulty g.elements := by
  match g with
  | .mk kind es indent =>
    by_cases hfaulty : (Group.mk kind es indent).Faulty
    · exact iff_of_true (groupFault?_of_faulty hfaulty) (Or.inl hfaulty)
    · rw [groupFault?_of_not_faulty hfaulty, or_iff_right hfaulty]
      exact elementsFault?_isSome_iff es

theorem elementsFault?_isSome_iff (es : List Element) :
    (elementsFault? es).isSome = true ↔ AnyFaulty es := by
  match es with
  | [] =>
    rw [elementsFault?]
    exact iff_of_false (by simp) anyFaulty_nil
  | .token t :: es =>
    rw [elementsFault?, elementFault?, Option.none_or, anyFaulty_token]
    exact elementsFault?_isSome_iff es
  | .group g :: es =>
    rw [elementsFault?, elementFault?, Option.isSome_or, Bool.or_eq_true, anyFaulty_group,
      groupFault?_isSome_iff g, elementsFault?_isSome_iff es, or_assoc]

end

theorem fault?_eq (groups : List Group) : fault? groups = elementsFault? (groups.map .group) := by
  unfold fault?
  induction groups with
  | nil => rfl
  | cons g groups ih =>
    rw [List.map_cons, elementsFault?, elementFault?, List.findSome?_cons, ← ih]
    cases groupFault? g <;> rfl

end Layout

/-- The groups of a script at the top. -/
def Statement.topOf (ss : List Statement) : List Element :=
  (ss.flatMap Statement.groups).map .group

theorem layOut_eq_error_iff {o : Options} {ss : List Statement} :
    (∃ fault, layOut o ss = .error fault) ↔ Group.AnyFaulty (Statement.topOf ss) := by
  rw [← Layout.elementsFault?_isSome_iff, Statement.topOf, ← Layout.fault?_eq,
    Option.isSome_iff_exists]
  refine exists_congr fun fault => ?_
  unfold layOut
  cases Layout.fault? (ss.flatMap Statement.groups) with
  | none => simp
  | some f => simp

/-- The text that is woven of threads. -/
def Thread.text (o : Options) (ws : List Thread) : List Char :=
  ws.flatMap fun w => w.gap ++ (w.spot.token.render o).toList

theorem Draft.Woven.text {d : Draft} {ws : List Thread} (h : d.Woven ws.reverse) (o : Options) :
    d.text o = Thread.text o ws ++ d.pending := by
  rw [Draft.text, h.pieces, ← List.map_reverse, List.reverse_reverse, List.flatMap_map]
  rfl

theorem layOut_of_not_anyFaulty {o : Options} {ss : List Statement}
    (h : ¬Group.AnyFaulty (Statement.topOf ss)) :
    layOut o ss = .ok ((Layout.draft o.commaStyle ss).text o) := by
  rw [← Layout.elementsFault?_isSome_iff, Statement.topOf, ← Layout.fault?_eq, Bool.not_eq_true,
    Option.isSome_eq_false_iff, Option.isNone_iff_eq_none] at h
  rw [layOut, h]

theorem hugsLeft_iff {t : Token} : Draft.hugsLeft t = true ↔
    t.kind ∈ [.comma, .semicolon, .closeParen, .closeBracket, .closeBrace] ∨ t.isCast = true := by
  unfold Draft.hugsLeft
  split <;> simp_all

/-- Laying out weaves each token of a script into the text once and in order. The white space between
the tokens is the same whatever their case and colors, and it is missing only where two tokens may
touch: behind what opens, before what closes, at commas, casts and semicolons, and between the name of
a call and its parenthesis. -/
theorem layOut_weaves_tokens (ss : List Statement) :
    (∀ o, (∃ fault, layOut o ss = .error fault) ↔ Group.AnyFaulty (Statement.topOf ss)) ∧
    (ss.flatMap Statement.spots).map Spot.token = ss.flatMap Statement.tokens ∧
    (¬Group.AnyFaulty (Statement.topOf ss) → ∀ style,
      ∃ ws : List Thread, ∃ last : List Char,
        ws.map Thread.spot = ss.flatMap Statement.spots ∧
        (∀ w ∈ ws, ∀ c ∈ w.gap, c = ' ' ∨ c = '\n') ∧ (∀ c ∈ last, c = ' ' ∨ c = '\n') ∧
        (ws.IsChain fun w v => v.gap = [] →
          w.spot.token.kind.isOpening = true ∨ w.spot.token.isCast = true ∨
          v.spot.token.kind ∈ [.comma, .semicolon, .closeParen, .closeBracket, .closeBrace] ∨
          v.spot.token.isCast = true ∨ v.spot.bound = true) ∧
        ∀ o : Options, o.commaStyle = style → layOut o ss = .ok (Thread.text o ws ++ last)) := by
  refine ⟨fun o => layOut_eq_error_iff, Statement.map_spots ss, fun hfaultless style => ?_⟩
  obtain ⟨ws, hspots, hwoven⟩ := Layout.draft_woven style ss
  refine ⟨ws, _, hspots, fun w hw => hwoven.blank w (List.mem_reverse.mpr hw), hwoven.pending,
    ?_, ?_⟩
  · refine (List.isChain_reverse.mp hwoven.apart).imp fun w v h hgap => ?_
    rcases h hgap with hholds | hhugs
    · exact (Bool.or_eq_true_iff.mp hholds).imp id Or.inl
    · refine Or.inr (Or.inr ?_)
      rcases Bool.or_eq_true_iff.mp hhugs with hhugs | hbound
      · exact (hugsLeft_iff.mp hhugs).imp id Or.inl
      · exact Or.inr (Or.inr hbound)
  · rintro o rfl
    rw [layOut_of_not_anyFaulty hfaultless, hwoven.text o]

theorem layOut_weaves_call :
    let call : Group := .mk .call
      [.token ⟨.function, "SUM"⟩, .token ⟨.openParen, "("⟩, .token ⟨.ident, "x"⟩,
        .token ⟨.closeParen, ")"⟩] 0
    let script : List Statement :=
      [⟨[.mk .select [.token ⟨.keyword .SELECT, "SELECT"⟩, .group call] 0], some ⟨.semicolon, ";"⟩⟩]
    ∃ ws last, (ws.map fun w => w.spot.token.text) = ["SELECT", "SUM", "(", "x", ")", ";"] ∧
      ∀ lower color, layOut { lowerCased := lower, colorized := color } script =
        .ok (Thread.text { lowerCased := lower, colorized := color } ws ++ last) := by
  intro call script
  have hfaultless : ¬Group.AnyFaulty (Statement.topOf script) := by
    rw [← Layout.elementsFault?_isSome_iff]
    decide
  obtain ⟨-, htokens, hweaves⟩ := layOut_weaves_tokens script
  obtain ⟨ws, last, hspots, -, -, -, htext⟩ := hweaves hfaultless .left
  refine ⟨ws, last, ?_, fun lower color => htext _ rfl⟩
  calc (ws.map fun w => w.spot.token.text)
      = ((ws.map Thread.spot).map Spot.token).map Token.text := by simp
    _ = (script.flatMap Statement.tokens).map Token.text := by rw [hspots, htokens]
    _ = ["SELECT", "SUM", "(", "x", ")", ";"] := rfl

end SqlLayout
