import SqlLayout.Proofs.Wording

/-! Literals with a prefix. A prefix and its literal become one token when nothing stands between
them. Which items are joined is told apart from the search for them: there is at most one way, and it
depends on the texts of the items and on the white space between them. -/

namespace SqlLayout.Token
set_option autoImplicit false

def isPrefixPart (t : Token) : Bool := t.kind = .ident || t.kind = .operator

/-- The items spell a prefix behind the text `joined`, and none but the first is spaced. -/
inductive Completes (wanted : String) : String → List Spaced → Prop
  | last {joined : String} {s : Spaced} (hpart : isPrefixPart s.token = true)
      (hsize : wanted.utf8ByteSize ≤ (joined ++ s.token.text).utf8ByteSize)
      (hupper : Text.upper (joined ++ s.token.text) = wanted) : Completes wanted joined [s]
  | more {joined : String} {s r : Spaced} {rs : List Spaced} (hpart : isPrefixPart s.token = true)
      (hsize : (joined ++ s.token.text).utf8ByteSize < wanted.utf8ByteSize)
      (hspaced : r.spaced = false) (h : Completes wanted (joined ++ s.token.text) (r :: rs)) :
      Completes wanted joined (s :: r :: rs)

def joinedText (joined : String) (items : List Spaced) : String :=
  items.foldl (fun text s => text ++ s.token.text) joined

/-- The items of `chain` are a prefix of the literal behind them. -/
structure Prefixes (d : Dialect) (chain : List Spaced) (literal : Spaced) : Prop where
  completes : ∃ p ∈ d.literalPrefixes, Completes p "" chain
  kind : literal.token.kind = .string
  spaced : literal.spaced = false

section Resolve
variable {d : Dialect}

theorem resolve_some {s : Spaced} {items rest : List Spaced} {t : Token}
    (h : prefixedLiteral? d (s :: items) = some (t, rest)) :
    resolve d (s :: items) = t :: resolve d rest := by
  rw [resolve.eq_def]
  dsimp only
  split
  · rename_i h'
    rw [h] at h'
    cases h'
    rfl
  · rename_i h'
    rw [h] at h'
    cases h'

theorem resolve_none {s : Spaced} {items : List Spaced}
    (h : prefixedLiteral? d (s :: items) = none) :
    resolve d (s :: items) = ⟨kindInContext s items, s.token.text⟩ :: resolve d items := by
  rw [resolve.eq_def]
  dsimp only
  split
  · rename_i h'
    rw [h] at h'
    cases h'
  · rfl

end Resolve

theorem Completes.ne_nil {wanted joined : String} {chain : List Spaced}
    (h : Completes wanted joined chain) : chain ≠ [] := by
  cases h <;> simp

theorem Completes.parts {wanted joined : String} {chain : List Spaced}
    (h : Completes wanted joined chain) : ∀ s ∈ chain, isPrefixPart s.token = true := by
  induction h with
  | last hpart => simpa using hpart
  | more hpart _ _ _ ih =>
    intro s hs
    rcases List.mem_cons.mp hs with rfl | hs
    · exact hpart
    · exact ih s hs

theorem Completes.unspaced {wanted joined : String} {chain : List Spaced}
    (h : Completes wanted joined chain) : ∀ s ∈ chain.tail, s.spaced = false := by
  induction h with
  | last => simp
  | more _ _ hspaced _ ih =>
    intro s hs
    rcases List.mem_cons.mp hs with rfl | hs
    · exact hspaced
    · exact ih s hs

theorem Completes.upper {wanted joined : String} {chain : List Spaced}
    (h : Completes wanted joined chain) : Text.upper (joinedText joined chain) = wanted := by
  induction h with
  | last _ _ hupper => exact hupper
  | more _ _ _ _ ih => exact ih

/-- Only the tokens count, and that the items are not spaced. -/
theorem Completes.congr {wanted joined : String} {chain other : List Spaced}
    (h : Completes wanted joined chain) (htokens : other.map Spaced.token = chain.map Spaced.token)
    (hspaced : ∀ s ∈ other.tail, s.spaced = false) : Completes wanted joined other := by
  induction h generalizing other with
  | last hpart hsize hupper =>
    obtain ⟨s', rfl, hs⟩ := List.map_eq_singleton_iff.mp htokens
    rw [← hs] at hpart hsize hupper
    exact .last hpart hsize hupper
  | more hpart hsize _ _ ih =>
    obtain ⟨s', rest, rfl, hs, hrest⟩ := List.map_eq_cons_iff.mp htokens
    obtain ⟨r', rs', rfl, -, -⟩ := List.map_eq_cons_iff.mp hrest
    rw [← hs] at hpart hsize ih
    refine .more hpart hsize (hspaced r' (by simp)) (ih hrest ?_)
    exact fun s hs => hspaced s (List.mem_cons_of_mem r' hs)

theorem joinPrefix?_sound {wanted joined : String} {first : Bool} {items rest : List Spaced}
    {t : Token} (h : joinPrefix? wanted joined first items = some (t, rest)) :
    ∃ chain literal, items = chain ++ literal :: rest ∧ Completes wanted joined chain ∧
      (first = false → ∀ s ∈ chain.head?, s.spaced = false) ∧ literal.token.kind = .string ∧
      literal.spaced = false ∧ t = ⟨.string, joinedText joined chain ++ literal.token.text⟩ := by
  fun_induction joinPrefix? wanted joined first items with
  | case1 => cases h
  | case2 => cases h
  | case3 joined first s items hok joined' hsize ih =>
    obtain ⟨chain, literal, rfl, hchain, hfirst, hkind, hspaced, rfl⟩ := ih h
    have hpart : isPrefixPart s.token = true := by
      simp only [isPrefixPart]
      grind
    obtain ⟨r, rs, rfl⟩ := List.exists_cons_of_ne_nil hchain.ne_nil
    refine ⟨s :: r :: rs, literal, rfl, .more hpart hsize (hfirst rfl r rfl) hchain, ?_, hkind,
      hspaced, rfl⟩
    intro hf s' hs'
    obtain rfl : s = s' := by simpa using hs'
    grind
  | case4 => cases h
  | case5 joined first s hok joined' hsize hupper literal items hliteral =>
    have hpart : isPrefixPart s.token = true := by
      simp only [isPrefixPart]
      grind
    obtain ⟨rfl, rfl⟩ : ⟨.string, joined' ++ literal.token.text⟩ = t ∧ items = rest := by
      simpa using h
    refine ⟨[s], literal, rfl, .last hpart (Nat.le_of_not_lt hsize) (by simpa using hupper), ?_, ?_, ?_, rfl⟩
    · intro hf s' hs'
      obtain rfl : s = s' := by simpa using hs'
      grind
    · grind
    · grind
  | case6 => cases h
  | case7 => cases h

theorem joinPrefix?_complete {wanted joined : String} {first : Bool} {chain rest : List Spaced}
    {literal : Spaced} (h : Completes wanted joined chain)
    (hfirst : first = false → ∀ s ∈ chain.head?, s.spaced = false)
    (hkind : literal.token.kind = .string) (hspaced : literal.spaced = false) :
    joinPrefix? wanted joined first (chain ++ literal :: rest) =
      some (⟨.string, joinedText joined chain ++ literal.token.text⟩, rest) := by
  induction h generalizing first with
  | @last joined s hpart hsize hupper =>
    have hs : first = false → s.spaced = false := fun hf => hfirst hf s rfl
    have hok : ((s.spaced && !first) || !(s.token.kind = .ident || s.token.kind = .operator)) =
        false := by
      simp only [isPrefixPart] at hpart
      grind
    simp only [List.singleton_append, joinPrefix?]
    rw [hok, if_neg Bool.false_ne_true, if_neg (by omega), if_neg (by simp [hupper])]
    simp [hkind, hspaced, joinedText]
  | @more joined s r rs hpart hsize hr _ ih =>
    have hs : first = false → s.spaced = false := fun hf => hfirst hf s rfl
    have hok : ((s.spaced && !first) || !(s.token.kind = .ident || s.token.kind = .operator)) =
        false := by
      simp only [isPrefixPart] at hpart
      grind
    rw [List.cons_append, joinPrefix?.eq_def]
    simp only [hok, Bool.false_eq_true, if_false, hsize, if_true]
    exact ih (by simpa using hr)

theorem Completes.not_string {wanted joined : String} {chain : List Spaced}
    (h : Completes wanted joined chain) : ∀ s ∈ chain, s.token.kind ≠ .string := by
  intro s hs hkind
  have hpart := h.parts s hs
  simp [isPrefixPart, hkind] at hpart

/-- There is one way to cut a list at its first literal. -/
theorem chain_unique {chain other rest rest' : List Spaced} {literal literal' : Spaced}
    (hchain : ∀ s ∈ chain, s.token.kind ≠ .string) (hother : ∀ s ∈ other, s.token.kind ≠ .string)
    (hliteral : literal.token.kind = .string) (hliteral' : literal'.token.kind = .string)
    (h : chain ++ literal :: rest = other ++ literal' :: rest') :
    chain = other ∧ literal = literal' ∧ rest = rest' := by
  induction chain generalizing other with
  | nil =>
    cases other with
    | nil => simpa using h
    | cons s other =>
      obtain ⟨rfl, -⟩ := List.cons.inj h
      exact absurd hliteral (hother literal List.mem_cons_self)
  | cons s chain ih =>
    cases other with
    | nil =>
      obtain ⟨rfl, -⟩ := List.cons.inj h
      exact absurd hliteral' (hchain s List.mem_cons_self)
    | cons s' other =>
      obtain ⟨rfl, hmore⟩ := List.cons.inj h
      obtain ⟨rfl, hrest⟩ := ih (fun r hr => hchain r (List.mem_cons_of_mem s hr))
        (fun r hr => hother r (List.mem_cons_of_mem s hr)) hmore
      exact ⟨rfl, hrest⟩

/-- A literal is joined to its prefix exactly when a prefix stands before it. -/
theorem prefixedLiteral?_eq_some_iff {d : Dialect} {items rest : List Spaced} {t : Token} :
    prefixedLiteral? d items = some (t, rest) ↔
      ∃ chain literal, items = chain ++ literal :: rest ∧ Prefixes d chain literal ∧
        t = ⟨.string, joinedText "" chain ++ literal.token.text⟩ := by
  have sound : ∀ {r : Token × List Spaced}, prefixedLiteral? d items = some r →
      ∃ chain literal, items = chain ++ literal :: r.2 ∧ Prefixes d chain literal ∧
        r.1 = ⟨.string, joinedText "" chain ++ literal.token.text⟩ := by
    intro r h
    obtain ⟨p, hp, h⟩ := List.exists_of_findSome?_eq_some h
    obtain ⟨chain, literal, hitems, hchain, -, hkind, hspaced, ht⟩ := joinPrefix?_sound h
    exact ⟨chain, literal, hitems, ⟨⟨p, hp, hchain⟩, hkind, hspaced⟩, ht⟩
  constructor
  · exact fun h => sound h
  · rintro ⟨chain, literal, rfl, hprefixes, rfl⟩
    obtain ⟨p, hp, hchain⟩ := hprefixes.completes
    have hjoin := @joinPrefix?_complete p "" true chain rest literal hchain (by simp)
      hprefixes.kind hprefixes.spaced
    cases hfound : prefixedLiteral? d (chain ++ literal :: rest) with
    | none =>
      have hnone := List.findSome?_eq_none_iff.mp hfound p hp
      rw [hjoin] at hnone
      cases hnone
    | some r =>
      obtain ⟨chain', literal', hitems, hprefixes', ht⟩ := sound hfound
      obtain ⟨p', -, hchain'⟩ := hprefixes'.completes
      obtain ⟨rfl, rfl, hrest⟩ := chain_unique hchain.not_string hchain'.not_string hprefixes.kind
        hprefixes'.kind hitems
      obtain ⟨t, rest'⟩ := r
      simp only at ht hrest
      rw [ht, hrest]

/-- Induction along the tokens of items: a literal joined to its prefix, or an item in its context. -/
theorem resolve_induction (d : Dialect) {motive : List Spaced → Prop} (nil : motive [])
    (joined : ∀ chain literal rest, Prefixes d chain literal →
      resolve d (chain ++ literal :: rest) =
        ⟨.string, joinedText "" chain ++ literal.token.text⟩ :: resolve d rest →
      motive rest → motive (chain ++ literal :: rest))
    (lone : ∀ s items, prefixedLiteral? d (s :: items) = none →
      resolve d (s :: items) = ⟨kindInContext s items, s.token.text⟩ :: resolve d items →
      motive items → motive (s :: items))
    (items : List Spaced) : motive items := by
  induction items using resolve.induct d with
  | case1 => exact nil
  | case2 s items t rest hfound ih =>
    have hresolve := resolve_some hfound
    obtain ⟨chain, literal, hitems, hprefixes, rfl⟩ := prefixedLiteral?_eq_some_iff.mp hfound
    rw [hitems] at hresolve ⊢
    exact joined chain literal rest hprefixes hresolve ih
  | case3 s items hnone ih => exact lone s items hnone (resolve_none hnone) ih

theorem mem_joinedText {joined : String} {chain : List Spaced} {c : Char}
    (h : c ∈ joined.toList ∨ ∃ s ∈ chain, c ∈ s.token.text.toList) :
    c ∈ (joinedText joined chain).toList := by
  induction chain generalizing joined with
  | nil => simpa [joinedText] using h
  | cons s chain ih =>
    apply ih
    rw [String.toList_append, List.mem_append]
    rcases h with h | ⟨s', hs', h⟩
    · exact Or.inl (Or.inl h)
    · rcases List.mem_cons.mp hs' with rfl | hs'
      · exact Or.inl (Or.inr h)
      · exact Or.inr ⟨s', hs', h⟩

theorem utf8ByteSize_pos {s : String} (h : s ≠ "") : 0 < s.utf8ByteSize :=
  Nat.pos_of_ne_zero fun hzero => h (String.utf8ByteSize_eq_zero_iff.mp hzero)

theorem toList_of_utf8ByteSize_eq_one {s : String} (h : s.utf8ByteSize = 1) :
    ∃ c, s.toList = [c] ∧ c.toNat < 128 := by
  cases hs : s.toList with
  | nil =>
    rw [String.toList_eq_nil_iff.mp hs] at h
    cases h
  | cons c cs =>
    have hsplit : s = String.singleton c ++ String.ofList cs := by
      rw [← String.ofList_cons, ← hs, String.ofList_toList]
    have hpos := Char.utf8Size_pos c
    rw [hsplit, String.utf8ByteSize_append, String.utf8ByteSize_singleton] at h
    have hnil : String.ofList cs = "" := String.utf8ByteSize_eq_zero_iff.mp (by omega)
    have hcs : cs = [] := String.ofList_injective hnil
    have hone : c.utf8Size = 1 := by omega
    have hle := UInt32.le_iff_toNat_le.mp (Char.utf8Size_eq_one_iff.mp hone)
    refine ⟨c, by rw [hcs], ?_⟩
    change c.val.toNat < 128
    exact Nat.lt_succ_of_le hle

/-- Only the ampersand alone has an ampersand alone as its upper case. -/
theorem eq_of_flatMap_upperChar {cs : List Char} (h : cs.flatMap Text.upperChar = ['&']) :
    cs = ['&'] := by
  obtain ⟨c, rfl⟩ := Text.single_of_flatMap_upperChar (congrArg List.length h)
  rw [List.flatMap_singleton] at h
  have hmem : '&' ∈ Text.upperChar c := by
    rw [h]
    exact List.mem_singleton_self _
  rw [Text.eq_of_mem_upperChar (by decide) hmem]

theorem eq_of_asciiUpper {c : Char} (hascii : c.toNat < 128) (h : Text.asciiUpper c = 'U') :
    c = 'U' ∨ c = 'u' := by
  have hcode := Text.forall_codes (p := fun c => !(Text.asciiUpper c = 'U') || (c = 'U' || c = 'u'))
    (by decide +kernel) hascii
  simpa [h] using hcode

theorem utf8ByteSize_letter {s : String} (hlength : s.toList.length = 1)
    (hupper : s.toList.all Char.isUpper = true) : s.utf8ByteSize = 1 := by
  obtain ⟨c, hc⟩ := List.length_eq_one_iff.mp hlength
  have hletter : c.isUpper = true := List.all_eq_true.mp hupper c (by simp [hc])
  have hsingle : s = String.singleton c := by
    apply String.toList_injective
    simpa using hc
  have hcode := Text.forall_codes (p := fun c => c.utf8Size = 1) (by decide +kernel)
    (Text.ascii_of_isAlpha (Text.isAlpha_iff.mpr (Or.inl hletter)))
  rw [hsingle, String.utf8ByteSize_singleton]
  simpa using hcode

section Tame
variable {d : Dialect} (tame : d.Tame)
include tame

theorem Prefixes.not_mem {chain : List Spaced} {literal : Spaced} (h : Prefixes d chain literal)
    {c : Char} (hc : c = ':' ∨ Lexeme.isQuote c = true) : ∀ s ∈ chain, c ∉ s.token.text.toList := by
  have hself : Text.upperChar c = [c] ∧ c.isUpper = false ∧ c ≠ 'U' ∧ c ≠ '&' := by
    simp only [Lexeme.isQuote, Bool.or_eq_true, decide_eq_true_eq] at hc
    rcases hc with rfl | rfl | rfl <;> decide
  intro s hs hmem
  obtain ⟨p, hp, hchain⟩ := h.completes
  have hjoined : c ∈ (joinedText "" chain).toList := mem_joinedText (Or.inr ⟨s, hs, hmem⟩)
  have hupper : c ∈ p.toList := by
    rw [← hchain.upper, Text.upper, String.toList_ofList, List.mem_flatMap]
    exact ⟨c, hjoined, by simp [hself.1]⟩
  rcases tame.literalPrefixes p hp with rfl | ⟨-, hall⟩
  · rcases List.mem_pair.mp hupper with h | h
    · exact hself.2.2.1 h
    · exact hself.2.2.2 h
  · have hbad := List.all_eq_true.mp hall c hupper
    rw [hself.2.1] at hbad
    cases hbad

/-- A prefix is one item, or the letter U and an ampersand. -/
theorem Prefixes.shape {chain : List Spaced} {literal : Spaced} (h : Prefixes d chain literal)
    (hne : ∀ s ∈ chain, s.token.text ≠ "") :
    (∃ s, chain = [s]) ∨ ∃ u a, chain = [u, a] ∧ (u.token.text = "U" ∨ u.token.text = "u") ∧
      a.token.text = "&" := by
  obtain ⟨p, hp, hchain⟩ := h.completes
  cases hchain with
  | @last _ s => exact Or.inl ⟨s, rfl⟩
  | @more _ u a rest _ hsize _ hmore =>
    right
    have hu := utf8ByteSize_pos (hne u (by simp))
    have ha := utf8ByteSize_pos (hne a (by simp))
    rw [String.empty_append] at hsize
    rcases tame.literalPrefixes p hp with rfl | ⟨hlength, hall⟩
    · have htwo : ("U&" : String).utf8ByteSize = 2 := by decide
      cases hmore with
      | more _ hsize' =>
        rw [String.empty_append, String.utf8ByteSize_append] at hsize'
        omega
      | last _ _ hupper =>
        refine ⟨u, a, rfl, ?_⟩
        obtain ⟨c, hc, hascii⟩ := toList_of_utf8ByteSize_eq_one (s := u.token.text) (by omega)
        have hlist := congrArg String.toList hupper
        rw [Text.upper, String.toList_ofList, String.empty_append, String.toList_append, hc,
          List.flatMap_append, List.flatMap_singleton, Text.upperChar_ascii hascii,
          List.singleton_append, show ("U&" : String).toList = ['U', '&'] from rfl,
          List.cons_eq_cons] at hlist
        obtain ⟨hletter, hamp⟩ := hlist
        refine ⟨?_, String.toList_injective (eq_of_flatMap_upperChar hamp)⟩
        refine (eq_of_asciiUpper hascii hletter).imp ?_ ?_ <;>
          · rintro rfl
            exact String.toList_injective hc
    · have hone := utf8ByteSize_letter hlength hall
      omega

end Tame

end SqlLayout.Token
