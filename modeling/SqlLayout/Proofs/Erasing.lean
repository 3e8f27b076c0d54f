import SqlLayout.Proofs.Casing
import SqlLayout.Proofs.Visible
import SqlLayout.Proofs.Weaving

/-! Colors that are taken away again. A colored layout is the plain one with escape sequences around
some of its tokens. Each of them is closed before the text of the token begins and behind its end, so
without escape sequences the plain layout is left, provided that no token holds an escape character. -/

namespace SqlLayout
set_option autoImplicit false

namespace Text
variable {u : Char}

theorem mem_of_mem_lowerAfter (hu : u.toNat < 65) {before cs : List Char}
    (h : u ∈ lowerAfter before cs) : u ∈ cs := by
  induction cs generalizing before with
  | nil => exact h
  | cons c cs ih =>
    rcases List.mem_append.mp h with hc | hcs
    · by_cases hsigma : c = 'Σ'
      · rw [if_pos hsigma, List.mem_singleton] at hc
        split at hc <;> · rw [hc] at hu; exact absurd hu (by decide)
      · rw [if_neg hsigma] at hc
        rw [eq_of_mem_lowerChar hu hc]
        exact List.mem_cons_self
    · exact List.mem_cons_of_mem c (ih hcs)

theorem mem_of_mem_lower (hu : u.toNat < 65) {s : String} (h : u ∈ (lower s).toList) :
    u ∈ s.toList := by
  rw [lower, String.toList_ofList] at h
  rcases List.mem_append.mp h with h | h
  · obtain ⟨c, hc, hlower⟩ := List.mem_map.mp h
    rw [eq_of_asciiLower hu hlower] at hc
    exact List.mem_of_mem_take hc
  · exact List.mem_of_mem_drop (mem_of_mem_lowerAfter hu h)

end Text

namespace Token
variable {t : Token} {u : Char}

theorem canonicalReserved?_mem {word value : String}
    (h : Vocabulary.canonicalReserved? word = some value) :
    value ∈ ["NaN", "Infinity", "-Infinity"] := by
  unfold Vocabulary.canonicalReserved? at h
  split at h
  · cases h
    decide
  · split at h
    · cases h
      decide
    · split at h
      · cases h
        decide
      · cases h

theorem not_mem_canonicalReserved (hu : u.toNat < 32) {word value : String}
    (h : Vocabulary.canonicalReserved? word = some value) : u ∉ value.toList := by
  have hvalues : ["NaN", "Infinity", "-Infinity"].all
      (fun value => value.toList.all fun c => decide (32 ≤ c.toNat)) = true := by decide
  have hvalue := List.all_eq_true.mp hvalues value (canonicalReserved?_mem h)
  intro hmem
  have hle := of_decide_eq_true (List.all_eq_true.mp hvalue u hmem)
  omega

theorem mem_of_mem_spelling (hu : u.toNat < 32) {o : Options} (h : u ∈ (t.spelling o).toList) :
    u ∈ t.text.toList := by
  unfold spelling at h
  split at h
  · exact h
  · split at h
    · cases hvalue : Vocabulary.canonicalReserved? t.text with
      | none => rwa [hvalue] at h
      | some value =>
        rw [hvalue] at h
        exact absurd h (not_mem_canonicalReserved hu hvalue)
    · split at h
      · exact Text.mem_of_mem_lower (by omega) h
      · exact h

theorem render_plain (o : Options) (t : Token) :
    t.render { o with colorized := false } = t.spelling o := rfl

theorem render_colored (o : Options) (t : Token) :
    t.render { o with colorized := true } =
      match Color.ofKind? t.kind with
      | some color => String.ofList (color.paint (t.spelling o).toList)
      | none => t.spelling o := rfl

/-- The color of a token is erased, and what follows the token is read as text. -/
theorem strip_render (o : Options) (h : '\x1b' ∉ t.text.toList) (rest : List Char) :
    Color.stripFrom false ((t.render { o with colorized := true }).toList ++ rest) =
      (t.render { o with colorized := false }).toList ++ Color.stripFrom false rest := by
  have hspelling : '\x1b' ∉ (t.spelling o).toList := fun hmem => h (mem_of_mem_spelling (by decide) hmem)
  rw [render_colored, render_plain]
  cases Color.ofKind? t.kind with
  | none => exact Color.strip_plain hspelling rest
  | some color =>
    rw [String.toList_ofList]
    exact Color.strip_paint color hspelling rest

end Token

theorem escape_not_mem_spaces {gap : List Char} (h : ∀ c ∈ gap, c = ' ' ∨ c = '\n') :
    '\x1b' ∉ gap := by
  intro hmem
  rcases h _ hmem with h | h <;> exact absurd h (by decide)

/-- A text that is woven of threads loses its colors thread by thread. -/
theorem Thread.strip_text (o : Options) {ws : List Thread}
    (hgaps : ∀ w ∈ ws, ∀ c ∈ w.gap, c = ' ' ∨ c = '\n')
    (htokens : ∀ w ∈ ws, '\x1b' ∉ w.spot.token.text.toList) (rest : List Char) :
    Color.stripFrom false (Thread.text { o with colorized := true } ws ++ rest) =
      Thread.text { o with colorized := false } ws ++ Color.stripFrom false rest := by
  induction ws with
  | nil => rfl
  | cons w ws ih =>
    have hws := ih (fun v hv => hgaps v (List.mem_cons_of_mem w hv))
      fun v hv => htokens v (List.mem_cons_of_mem w hv)
    have hgap := escape_not_mem_spaces (hgaps w List.mem_cons_self)
    simp only [Thread.text, List.flatMap_cons, List.append_assoc] at hws ⊢
    rw [Color.strip_plain hgap, Token.strip_render o (htokens w List.mem_cons_self), hws]

/-- Without its escape sequences the text of a colored layout is that of the plain one, and the two
fail alike. -/
theorem strip_layOut (o : Options) {ss : List Statement}
    (hescape : ∀ t ∈ ss.flatMap Statement.tokens, '\x1b' ∉ t.text.toList) :
    (layOut { o with colorized := true } ss).map Color.strip =
      layOut { o with colorized := false } ss := by
  unfold layOut
  cases Layout.fault? (ss.flatMap (·.groups)) with
  | some fault => rfl
  | none =>
    obtain ⟨ws, hspots, hwoven⟩ := Layout.draft_woven o.commaStyle ss
    have hgaps : ∀ w ∈ ws, ∀ c ∈ w.gap, c = ' ' ∨ c = '\n' :=
      fun w hw => hwoven.blank w (List.mem_reverse.mpr hw)
    have htokens : ∀ w ∈ ws, '\x1b' ∉ w.spot.token.text.toList := by
      intro w hw
      apply hescape
      rw [← Statement.map_spots, ← hspots]
      exact List.mem_map_of_mem (List.mem_map_of_mem hw)
    have hlast := Color.strip_plain (escape_not_mem_spaces hwoven.pending) []
    rw [List.append_nil] at hlast
    show Except.ok (Color.stripFrom false ((Layout.draft o.commaStyle ss).text _)) =
      Except.ok ((Layout.draft o.commaStyle ss).text _)
    rw [hwoven.text, hwoven.text, Thread.strip_text o hgaps htokens, hlast]
    simp [Color.stripFrom]

theorem strip_layOut_of_literal :
    let call : Group := .mk .call
      [.token ⟨.function, "SUM"⟩, .token ⟨.openParen, "("⟩, .token ⟨.reserved, "NAN"⟩,
        .token ⟨.closeParen, ")"⟩] 0
    let script : List Statement :=
      [⟨[.mk .select [.token ⟨.keyword .SELECT, "SELECT"⟩, .token ⟨.string, "'[3m\nb'"⟩,
        .token ⟨.comma, ","⟩, .group call] 0], some ⟨.semicolon, ";"⟩⟩]
    (∀ t ∈ script.flatMap Statement.tokens, '\x1b' ∉ t.text.toList) ∧
      (layOut { lowerCased := true, colorized := true } script).map Color.strip =
        .ok "\nselect\n  '[3m\nb'\n  , sum(NaN);".toList := by
  intro call script
  have hescape : ∀ t ∈ script.flatMap Statement.tokens, '\x1b' ∉ t.text.toList := by decide
  refine ⟨hescape, ?_⟩
  rw [strip_layOut { lowerCased := true } hescape]
  decide +kernel

end SqlLayout
