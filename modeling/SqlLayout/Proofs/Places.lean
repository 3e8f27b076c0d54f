import SqlLayout.Proofs.Nesting

/-! The places of groups among the tokens of a statement. A group stands at the index of its first token;
from there its opener and its closer are found, whatever its depth. Together the groups of a statement
account for each of its parentheses, CASEs and ENDs once. -/

namespace SqlLayout
set_option autoImplicit false
open Balance

/-- A group and the index of its first token. -/
structure Placed where
  start : Nat
  group : Group

namespace Placed

def opener (p : Placed) : Nat := p.start + p.group.kind.opening.length - 1

def closer (p : Placed) : Nat := p.start + p.group.tokens.length - 1

def encloses (p : Placed) : Bool := p.group.kind.closing?.isSome

/-- The indices of the two tokens that delimit the group, if it needs a closing token. -/
def ends (p : Placed) : List Nat := if p.encloses then [p.opener, p.closer] else []

end Placed

mutual

/-- The groups of an element that begins at index `n`. -/
def Element.placed (n : Nat) : Element → List Placed
  | .token _ => []
  | .group g => g.placed n

/-- A group that begins at index `n`, and all groups in it. -/
def Group.placed (n : Nat) : Group → List Placed
  | .mk kind elements indent => ⟨n, .mk kind elements indent⟩ :: Element.placedOf n elements

/-- The groups of a list of elements that begins at index `n`. -/
def Element.placedOf (n : Nat) : List Element → List Placed
  | [] => []
  | e :: es => e.placed n ++ Element.placedOf (n + e.tokens.length) es

end

section Places

theorem placedOf_append {es fs : List Element} {n : Nat} :
    Element.placedOf n (es ++ fs) =
      Element.placedOf n es ++ Element.placedOf (n + (Element.tokensOf es).length) fs := by
  induction es generalizing n with
  | nil => simp [Element.placedOf, Element.tokensOf]
  | cons e es ih => simp [Element.placedOf, Element.tokensOf, ih, Nat.add_assoc]

theorem placedOf_map_token {ts : List Token} {n : Nat} : Element.placedOf n (ts.map .token) = [] := by
  induction ts generalizing n with
  | nil => rfl
  | cons t ts ih => simp [Element.placedOf, Element.placed, ih]

/-- The groups in a group stand between its opening and its closing tokens. -/
theorem placed_mk {kind : GroupKind} {lead tail : List Token} {inner : List Element} {indent n : Nat} :
    Group.placed n (.mk kind (lead.map .token ++ inner ++ tail.map .token) indent) =
      ⟨n, .mk kind (lead.map .token ++ inner ++ tail.map .token) indent⟩ ::
        Element.placedOf (n + lead.length) inner := by
  rw [Group.placed, placedOf_append, placedOf_append, placedOf_map_token, placedOf_map_token,
    tokensOf_map_token, List.nil_append, List.append_nil]

/-- A placed group with the property stands among the tokens where its place says. -/
def Placed.Among (G : Group → Prop) (n : Nat) (ts : List Token) (p : Placed) : Prop :=
  G p.group ∧ ∃ before after, ts = before ++ p.group.tokens ++ after ∧ p.start = n + before.length

theorem among_elements {G : Group → Prop} {es : List Element}
    (h : ∀ g, .group g ∈ es → ∀ n, ∀ p ∈ g.placed n, p.Among G n g.tokens) (n : Nat) :
    ∀ p ∈ Element.placedOf n es, p.Among G n (Element.tokensOf es) := by
  induction es generalizing n with
  | nil => simp [Element.placedOf]
  | cons e es ih =>
    intro p hp
    rw [Element.placedOf, List.mem_append] at hp
    rw [Element.tokensOf]
    obtain hp | hp := hp
    · cases e with
      | token t => simp [Element.placed] at hp
      | group g =>
        obtain ⟨hG, before, after, htokens, hstart⟩ := h g List.mem_cons_self n p hp
        refine ⟨hG, before, after ++ Element.tokensOf es, ?_, hstart⟩
        rw [Element.tokens, htokens]
        simp
    · obtain ⟨hG, before, after, htokens, hstart⟩ :=
        ih (fun g hg => h g (List.mem_cons_of_mem _ hg)) _ p hp
      refine ⟨hG, e.tokens ++ before, after, ?_, ?_⟩
      · rw [htokens]
        simp
      · rw [hstart, List.length_append]
        omega

theorem Group.Paired.among {bars : TokenKind → Bool} {inside : List TokenKind → Prop} {g : Group}
    (h : g.Paired bars inside) (n : Nat) :
    ∀ p ∈ g.placed n, p.Among (Group.Paired bars inside) n g.tokens := by
  induction h generalizing n with
  | @mk kind lead tail inner indent hlead htail hinside htokens hgroups ih =>
    intro p hp
    rw [placed_mk, List.mem_cons] at hp
    obtain rfl | hp := hp
    · exact ⟨.mk hlead htail hinside htokens hgroups, [], [], by simp, rfl⟩
    · obtain ⟨hG, before, after, htokens, hstart⟩ := among_elements (fun g hg n => ih g hg n) _ p hp
      refine ⟨hG, lead ++ before, after ++ tail, ?_, ?_⟩
      · rw [Group.tokens, Element.tokensOf_append, Element.tokensOf_append, tokensOf_map_token,
          tokensOf_map_token, htokens]
        simp
      · rw [hstart, List.length_append]
        omega

/-- The indices of the tokens that delimit groups. -/
def delimiters (n : Nat) (ks : List TokenKind) : List Nat := ks.findIdxs TokenKind.delimits n

theorem delimiters_append {n : Nat} {ks ls : List TokenKind} :
    delimiters n (ks ++ ls) = delimiters n ks ++ delimiters (n + ks.length) ls :=
  List.findIdxs_append

theorem ends_elements {es : List Element}
    (h : ∀ e ∈ es, ∀ n, ((e.placed n).flatMap Placed.ends).Perm (delimiters n (e.tokens.map Token.kind)))
    (n : Nat) : ((Element.placedOf n es).flatMap Placed.ends).Perm
      (delimiters n ((Element.tokensOf es).map Token.kind)) := by
  induction es generalizing n with
  | nil => exact .nil
  | cons e es ih =>
    obtain ⟨hhead, htail⟩ := List.forall_mem_cons.mp h
    rw [Element.placedOf, Element.tokensOf, List.flatMap_append, List.map_append, delimiters_append,
      List.length_map]
    exact (hhead n).append (ih htail _)

/-- The last opening token is the only one that delimits. -/
theorem delimiters_opening {kind : GroupKind} {c : TokenKind} (h : kind.closing? = some c) (n : Nat) :
    delimiters n kind.opening = [n + kind.opening.length - 1] ∧ delimiters n [c] = [n] := by
  cases kind <;> cases h <;> exact ⟨rfl, rfl⟩

theorem Group.Paired.ends_perm {inside : List TokenKind → Prop} {g : Group}
    (h : g.Paired TokenKind.delimits inside) (n : Nat) :
    ((g.placed n).flatMap Placed.ends).Perm (delimiters n (g.tokens.map Token.kind)) := by
  induction h generalizing n with
  | @mk kind lead tail inner indent hlead htail _ htokens hgroups ih =>
    have hinner := @ends_elements inner (fun
      | .token t, ht, n => by
        simp [Element.placed, Element.tokens, delimiters, htokens t ht]
      | .group g, hg, n => ih g hg n) (n + lead.length)
    have hlength : kind.opening.length = lead.length := by rw [← hlead, List.length_map]
    rw [placed_mk, List.flatMap_cons]
    simp only [Group.tokens, Element.tokensOf_append, tokensOf_map_token, List.map_append, hlead, htail,
      delimiters_append, List.length_append, List.length_map, hlength]
    cases hclosing : kind.closing? with
    | none =>
      have hends : Placed.ends ⟨n, .mk kind (lead.map .token ++ inner ++ tail.map .token) indent⟩ = [] := by
        simp [Placed.ends, Placed.encloses, Group.kind, hclosing]
      rw [hends, opening_of_clause hclosing]
      simpa [delimiters] using hinner
    | some c =>
      have hlast : tail.length = 1 := by
        rw [← List.length_map, htail, hclosing]
        rfl
      have hends : Placed.ends ⟨n, .mk kind (lead.map .token ++ inner ++ tail.map .token) indent⟩ =
          [n + lead.length - 1, n + (lead.length + (Element.tokensOf inner).length)] := by
        simp [Placed.ends, Placed.encloses, Placed.opener, Placed.closer, Group.kind, hclosing, hlength,
          Group.tokens, tokensOf_map_token, hlast, ← Nat.add_assoc]
      obtain ⟨hopening, -⟩ := delimiters_opening hclosing n
      obtain ⟨-, hc⟩ := delimiters_opening hclosing (n + (lead.length + (Element.tokensOf inner).length))
      rw [hends, hopening, hlength, Option.toList_some, hc, List.singleton_append, List.cons_append,
        List.cons_append, List.cons_append]
      refine .cons _ ?_
      rw [List.nil_append]
      exact (@List.perm_append_comm _ [_] _).trans (hinner.append_right _)

theorem existsUnique_ends {places : List Placed} {ks : List TokenKind} {i : Nat} {k : TokenKind}
    (h : (places.flatMap Placed.ends).Perm (delimiters 0 ks)) (hk : ks[i]? = some k)
    (hdelimits : k.delimits = true) :
    ∃! p, p ∈ places ∧ p.encloses = true ∧ (p.opener = i ∨ p.closer = i) := by
  have hmem_ends : ∀ p : Placed, i ∈ p.ends ↔ p.encloses = true ∧ (p.opener = i ∨ p.closer = i) := by
    intro p
    unfold Placed.ends
    split
    · rename_i hencloses
      simp [hencloses, eq_comm]
    · rename_i hencloses
      simp [hencloses]
  have hi : i ∈ delimiters 0 ks := by
    obtain ⟨hlt, rfl⟩ := List.getElem?_eq_some_iff.mp hk
    exact List.mem_findIdxs_iff_exists_getElem_pos.mpr ⟨hlt, hdelimits⟩
  obtain ⟨p, hp, hpi⟩ := List.mem_flatMap.mp (h.mem_iff.mpr hi)
  have hnodup : (places.flatMap Placed.ends).Nodup := h.nodup_iff.mpr List.nodup_findIdxs
  refine ⟨p, ⟨hp, (hmem_ends p).mp hpi⟩, ?_⟩
  rintro q ⟨hq, hqi⟩
  by_contra hne
  have : Std.Symm (Function.onFun List.Disjoint Placed.ends) := ⟨fun _ _ hxy => hxy.symm⟩
  have hdisjoint := (List.nodup_flatMap.mp hnodup).2.forall hq hp hne
  exact hdisjoint ((hmem_ends q).mpr hqi) hpi

theorem opening_split {kind : GroupKind} {c : TokenKind} (h : kind.closing? = some c) :
    ∃ ks k, kind.opening = ks ++ [k] ∧ closer? k = some c := by
  cases kind <;> cases h
  · exact ⟨[], _, rfl, rfl⟩
  · exact ⟨[.function], _, rfl, rfl⟩
  · exact ⟨[.type], _, rfl, rfl⟩
  · exact ⟨[], _, rfl, rfl⟩
  · exact ⟨[], _, rfl, rfl⟩

/-- The tokens that delimit a group match. -/
theorem Placed.Among.matching {p : Placed} {ts : List Token} (h : p.Among Group.Matched 0 ts)
    (hencloses : p.encloses = true) : Matching ts p.opener p.closer := by
  obtain ⟨start, group⟩ := p
  obtain ⟨hmatched, before, after, hts, hstart⟩ := h
  cases hmatched with
  | @mk kind lead tail inner indent hlead htail hinside htokens hgroups =>
    obtain ⟨c, hclosing⟩ := Option.isSome_iff_exists.mp hencloses
    simp only [Group.kind] at hclosing
    obtain ⟨ks, k, hopening, hcloser⟩ := opening_split hclosing
    obtain ⟨names, os, rfl, -, hos⟩ := List.map_eq_append_iff.mp (hlead.trans hopening)
    obtain ⟨o, rfl, rfl⟩ := List.map_eq_singleton_iff.mp hos
    rw [hclosing] at htail
    obtain ⟨u, rfl, rfl⟩ := List.map_eq_singleton_iff.mp htail
    have hlength : kind.opening.length = names.length + 1 := by
      rw [← hlead]
      simp
    refine ⟨before ++ names, o, Element.tokensOf inner, u, after, ?_, ?_, ?_, hcloser,
      hinside (by simp [hclosing])⟩
    · rw [hts, Group.tokens, Element.tokensOf_append, Element.tokensOf_append, tokensOf_map_token,
        tokensOf_map_token]
      simp
    · simp only [Placed.opener, Group.kind, hlength] at hstart ⊢
      simp only [hstart, List.length_append]
      omega
    · simp only [Placed.opener, Placed.closer, Group.kind, Group.tokens, Element.tokensOf_append,
        tokensOf_map_token, List.length_append, List.length_singleton, hlength]
      omega

end Places
/-! The name of a function is told by the parenthesis behind it, so that parenthesis is there. -/

namespace Token
variable {d : Dialect}

theorem startsWithParen_of_function {l : Lexeme} {ls : List Lexeme}
    (hmark : ∀ kind, l.shape = .mark kind → kind.isPunctuation = true)
    (h : (ofLexeme d l ls).kind = .function) : startsWithParen ls = true := by
  unfold ofLexeme at h
  split at h
  · cases h
  · cases h
  · rename_i kind hkind
    obtain rfl : kind = .function := h
    cases hmark _ hkind
  · unfold ofWord at h
    dsimp only at h
    split at h
    · cases h
    · split at h
      · assumption
      · cases h
      · cases h
      · cases h

theorem classify_paren {l : Lexeme} {ls : List Lexeme} (h : l.shape = .mark .openParen) :
    ∃ s rest, classify d (l :: ls) = s :: rest ∧ s.token.kind = .openParen := by
  rw [classify]
  split
  · rename_i hfound
    simp [h] at hfound
  · exact ⟨_, _, rfl, by simp [ofLexeme, h]⟩

theorem called_classify {ls : List Lexeme}
    (hmark : ∀ l ∈ ls, ∀ kind, l.shape = .mark kind → kind.isPunctuation = true) :
    Called ((classify d ls).map Spaced.token ++ [Token.eof]) := by
  induction ls using classify_induction with
  | nil =>
    rw [classify]
    exact List.isChain_singleton _
  | compound l ls words taken rest hword hfound _ hls _ ih =>
    rw [classify_some hword hfound]
    rw [hls] at hmark
    refine (ih fun l hl => hmark l (List.mem_append_right taken hl)).cons fun _ _ h => ?_
    cases h
  | lone l ls hnone ih =>
    rw [classify_none hnone]
    obtain ⟨hl, hls⟩ := List.forall_mem_cons.mp hmark
    refine (ih hls).cons fun u hu hfunction => ?_
    have hstarts := startsWithParen_of_function hl hfunction
    cases ls with
    | nil => cases hstarts
    | cons l' ls =>
      obtain ⟨s, rest, hitems, hs⟩ := @classify_paren d l' ls (by simpa [startsWithParen] using hstarts)
      rw [hitems] at hu
      cases hu
      exact hs

theorem resolve_paren {s : Spaced} {items : List Spaced} (h : s.token.kind = .openParen) :
    ∃ t rest, resolve d (s :: items) = t :: rest ∧ t.kind = .openParen := by
  have hnone : prefixedLiteral? d (s :: items) = none := by
    simp [prefixedLiteral?, joinPrefix?, h]
  rw [resolve]
  split
  · simp_all
  · exact ⟨_, _, rfl, by simp [kindInContext, h]⟩

theorem paren_of_function {s : Spaced} {items : List Spaced}
    (h : Called ((s :: items).map Spaced.token ++ [Token.eof]))
    (hfunction : kindInContext s items = .function) :
    ∃ u rest, items = u :: rest ∧ u.token.kind = .openParen := by
  unfold kindInContext at hfunction
  split at hfunction
  · split at hfunction <;> cases hfunction
  · split at hfunction <;> cases hfunction
  · split at hfunction
    · rename_i hparen
      cases items with
      | nil => cases hparen
      | cons u rest => exact ⟨u, rest, rfl, by simpa using hparen⟩
    · cases hfunction
  · cases items with
    | nil =>
      have hparen : Token.eof.kind = .openParen := h.rel_head? rfl hfunction
      cases hparen
    | cons u rest => exact ⟨u, rest, rfl, h.rel_head? rfl hfunction⟩

theorem called_resolve {items : List Spaced} (h : Called (items.map Spaced.token ++ [Token.eof])) :
    Called (resolve d items ++ [Token.eof]) := by
  induction items using resolve_induction d with
  | nil =>
    rw [resolve.eq_def]
    exact List.isChain_singleton _
  | joined chain literal rest hprefixes hresolve ih =>
    rw [List.map_append, List.map_cons, List.append_assoc, List.cons_append] at h
    rw [hresolve]
    refine (ih h.right_of_append.tail).cons fun _ _ h => ?_
    cases h
  | lone s items hnone hresolve ih =>
    rw [hresolve]
    refine (ih h.tail).cons fun v hv hfunction => ?_
    obtain ⟨u, rest, rfl, hu⟩ := paren_of_function h hfunction
    obtain ⟨t, rest', hparen, ht⟩ := @resolve_paren d u rest hu
    rw [hparen] at hv
    cases hv
    exact ht

end Token

theorem called_tokenize {d : Dialect} {text : String} {ts : List Token}
    (h : tokenize d text = .ok ts) : Called ts := by
  obtain ⟨scraps, tail, hlegible, -, rfl⟩ := tokenize_ok h
  apply Token.called_resolve
  apply Token.called_classify
  intro l hl kind hkind
  obtain ⟨rest, hstands⟩ := hlegible.stands false true l hl
  rw [hkind] at hstands
  exact hstands.isPunctuation.1

theorem Called.replace_last {ts : List Token} {t u : Token} (h : Called (ts ++ [t]))
    (ht : t.kind ≠ .openParen) : Called (ts ++ [u]) := by
  refine h.left_of_append.append (List.isChain_singleton _) fun v hv _ _ hfunction => ?_
  exact absurd ((List.isChain_append.mp h).2.2 v hv t rfl hfunction) ht

namespace Statement

/-- The end of the input stands for the semicolon behind a statement. -/
theorem Falls.called {statements : List Statement} {ts : List Token} (h : Falls statements ts)
    (hcalled : Called (ts ++ [Token.eof]))
    (hsemicolon : ∀ s ∈ statements, ∀ t ∈ s.terminator, t.kind = .semicolon) :
    ∀ s ∈ statements, Called (Group.tokensOf s.groups ++ [Token.eof]) := by
  induction h with
  | nil => simp
  | last => simpa using hcalled
  | @cons groups semicolon statements ts _ _ _ ih =>
    obtain ⟨hhead, htail⟩ := List.forall_mem_cons.mp hsemicolon
    have hkind : semicolon.kind ≠ .openParen := by
      rw [hhead semicolon rfl]
      decide
    rw [List.append_assoc, List.cons_append] at hcalled
    have hfirst : Called (Group.tokensOf groups ++ [semicolon]) := by
      refine hcalled.prefix ?_
      rw [List.prefix_append_right_inj]
      exact List.cons_prefix_cons.mpr ⟨rfl, List.nil_prefix⟩
    exact List.forall_mem_cons.mpr ⟨hfirst.replace_last hkind,
      ih hcalled.right_of_append.tail htail⟩

/-- The groups of a statement, at any depth, with their places among its tokens. -/
def placed (s : Statement) : List Placed := Element.placedOf 0 (s.groups.map .group)

/-- The groups of a statement are delimited by matching pairs. -/
structure Nested (s : Statement) : Prop where
  wellBracketed : WellBracketed ((Group.tokensOf s.groups).map Token.kind)
  matched : ∀ g ∈ s.groups, g.Matched

theorem nested_of_parse {d : Dialect} {text : String} {ts : List Token}
    {statements : List Statement} (htokens : tokenize d text = .ok ts)
    (hparse : parse ts = .ok statements) : ∀ s ∈ statements, s.Nested := by
  obtain ⟨us, rfl, heof, -⟩ := tokenize_tokens htokens
  have hparsed := parse_parsed hparse
  have hcalled := (parse_falls rfl heof hparse).called (called_tokenize htokens)
    fun s hs => (hparsed s hs).terminator
  intro s hs
  obtain ⟨base, body, -, hbody, hread⟩ := (hparsed s hs).read
  obtain rfl := readFrom_tokens hread hbody
  obtain ⟨⟨p, t, hgroups, -⟩, hfault⟩ := readFrom_ok_iff.mp hread
  have hopened := @readGroups_opened .start [] _ _ _ _ _ trivial hgroups (hcalled s hs) (by simp)
  have hwell := fault?_eq_none_iff.mp hfault
  exact ⟨hwell, matched_of_wellBracketed hopened hwell⟩

end Statement

/-- The group begins with its opening tokens and ends with its closing token. -/
def Group.Delimited (g : Group) : Prop :=
  ∃ (lead : List Token) (inner : List Element) (c : Token),
    g.elements = lead.map .token ++ inner ++ [.token c] ∧
      lead.map Token.kind = g.kind.opening ∧ g.kind.closing? = some c.kind

theorem Group.Matched.delimited {g : Group} (h : g.Matched) (hclosing : g.kind.closing?.isSome = true) :
    g.Delimited := by
  cases h with
  | @mk kind lead tail inner indent hlead htail _ _ _ =>
    obtain ⟨c, hc⟩ := Option.isSome_iff_exists.mp hclosing
    simp only [Group.kind] at hc
    rw [hc] at htail
    obtain ⟨u, rfl, rfl⟩ := List.map_eq_singleton_iff.mp htail
    exact ⟨lead, inner, u, rfl, hlead, hc⟩

theorem Group.Matched.clause {g : Group} (h : g.Matched) (hclosing : g.kind.closing? = none) :
    ∀ t, .token t ∈ g.elements → t.kind.delimits = false := by
  cases h with
  | @mk kind lead tail inner indent hlead htail _ htokens _ =>
    simp only [Group.kind] at hclosing
    rw [opening_of_clause hclosing, List.map_eq_nil_iff] at hlead
    rw [hclosing, Option.toList_none, List.map_eq_nil_iff] at htail
    simpa [Group.elements, hlead, htail] using htokens

/-- Groups nest as the brackets do: a statement is well bracketed, the tokens that delimit a call, a
parenthesis, a subquery or a CASE match, and each parenthesis, CASE and END delimits one group and is a
plain token of no clause. -/
theorem parse_nests_like_brackets {d : Dialect} {text : String} {ts : List Token}
    {statements : List Statement} (htokens : tokenize d text = .ok ts)
    (hparse : Statement.parse ts = .ok statements) :
    ∀ s ∈ statements,
      WellBracketed ((Group.tokensOf s.groups).map Token.kind) ∧
      (∀ p ∈ s.placed, p.encloses = true →
        p.group.Delimited ∧ Matching (Group.tokensOf s.groups) p.opener p.closer) ∧
      (∀ i t, (Group.tokensOf s.groups)[i]? = some t → t.kind.delimits = true →
        ∃! p, p ∈ s.placed ∧ p.encloses = true ∧ (p.opener = i ∨ p.closer = i)) ∧
      ∀ p ∈ s.placed, p.encloses = false →
        ∀ t, .token t ∈ p.group.elements → t.kind.delimits = false := by
  intro s hs
  obtain ⟨hwell, hmatched⟩ := Statement.nested_of_parse htokens hparse s hs
  have hamong : ∀ p ∈ s.placed, p.Among Group.Matched 0 (Group.tokensOf s.groups) := by
    rw [← tokensOf_map_group]
    apply among_elements
    simpa using fun g hg n => Group.Paired.among (hmatched g hg) n
  have hends : (s.placed.flatMap Placed.ends).Perm
      (delimiters 0 ((Group.tokensOf s.groups).map Token.kind)) := by
    rw [← tokensOf_map_group]
    apply ends_elements
    simpa [Element.placed, Element.tokens] using fun g hg n => Group.Paired.ends_perm (hmatched g hg) n
  refine ⟨hwell, ?_, ?_, ?_⟩
  · intro p hp hencloses
    exact ⟨Group.Matched.delimited (hamong p hp).1 hencloses, (hamong p hp).matching hencloses⟩
  · intro i t ht hdelimits
    exact existsUnique_ends hends (by simp [ht]) hdelimits
  · intro p hp hencloses
    apply Group.Matched.clause (hamong p hp).1
    exact Option.isNone_iff_eq_none.mp (Option.isSome_eq_false_iff.mp hencloses)

theorem parse_nests_like_brackets_of_call :
    ∃ ts statements,
      tokenize { words := [("COUNT", .function)] } "SELECT count(CASE a WHEN (b) THEN c END)" =
        .ok ts ∧
      Statement.parse ts = .ok statements ∧
      ∀ s ∈ statements, ∀ p ∈ s.placed, p.encloses = true →
        Matching (Group.tokensOf s.groups) p.opener p.closer := by
  obtain ⟨ts, htokens⟩ := Statement.exists_of_isOk (show (tokenize
    { words := [("COUNT", .function)] } "SELECT count(CASE a WHEN (b) THEN c END)").isOk = true by
      decide +kernel)
  have hok : (tokenize { words := [("COUNT", .function)] }
      "SELECT count(CASE a WHEN (b) THEN c END)").toOption.any
        (fun ts => (Statement.parse ts).isOk) = true := by
    decide +kernel
  rw [htokens] at hok
  obtain ⟨statements, hparse⟩ := Statement.exists_of_isOk (show (Statement.parse ts).isOk = true from hok)
  have hnests := parse_nests_like_brackets htokens hparse
  exact ⟨ts, statements, htokens, hparse, fun s hs p hp h => ((hnests s hs).2.1 p hp h).2⟩

end SqlLayout
