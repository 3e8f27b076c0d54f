import SqlLayout.Proofs.Brackets
import SqlLayout.Proofs.Positions

/-! A query in parentheses. Where a query is read up to the end of the input, it is read inside parentheses
up to the closing one, and its groups are the same, one level deeper. This holds as far as the clauses give
way to a closing parenthesis. The group of a set operator does not: it takes the parenthesis as an element,
and the parentheses around it stay open. -/

namespace SqlLayout
set_option autoImplicit false

mutual

/-- The element, with its lines `d` levels deeper. -/
def Element.deepen (d : Nat) : Element → Element
  | .token t => .token t
  | .group g => .group (g.deepen d)

/-- The group, with its lines `d` levels deeper. -/
def Group.deepen (d : Nat) : Group → Group
  | .mk kind elements indent => .mk kind (Element.deepenAll d elements) (indent + d)

def Element.deepenAll (d : Nat) : List Element → List Element
  | [] => []
  | e :: es => e.deepen d :: Element.deepenAll d es

end

theorem Element.deepenAll_eq_map (d : Nat) (es : List Element) : deepenAll d es = es.map (deepen d) := by
  induction es with
  | nil => rfl
  | cons e es ih => rw [deepenAll, ih, List.map_cons]

mutual

theorem Element.tokens_deepen (d : Nat) : ∀ e : Element, (e.deepen d).tokens = e.tokens
  | .token _ => rfl
  | .group g => g.tokens_deepen d

theorem Group.tokens_deepen (d : Nat) : ∀ g : Group, (g.deepen d).tokens = g.tokens
  | .mk _ elements _ => Element.tokensOf_deepenAll d elements

theorem Element.tokensOf_deepenAll (d : Nat) :
    ∀ es : List Element, Element.tokensOf (Element.deepenAll d es) = Element.tokensOf es
  | [] => rfl
  | e :: es => by
    rw [Element.deepenAll, Element.tokensOf, Element.tokensOf, e.tokens_deepen,
      Element.tokensOf_deepenAll d es]

end

@[simp] theorem Group.kind_deepen (d : Nat) (g : Group) : (g.deepen d).kind = g.kind := by
  cases g
  rfl

@[simp] theorem Element.token?_deepen (d : Nat) (e : Element) : (e.deepen d).token? = e.token? := by
  cases e <;> rfl

namespace GroupKind

/-- The clauses of a query. -/
def inQuery : GroupKind → Bool
  | .select | .fromClause | .join | .whereClause | .andLine | .orLine | .groupBy | .having | .orderBy
  | .limit => true
  | _ => false

theorem ends_closeParen : ∀ kind : GroupKind, kind.inQuery = true →
    kind.ends.contains .closeParen = true := by
  decide

theorem ends_tieStart : ∀ kind : GroupKind, kind.inQuery = true →
    ∀ k : TokenKind, k.isTieStart = true → kind.ends.contains k = true := by
  decide +kernel

theorem closing?_of_inQuery : ∀ kind : GroupKind, kind.inQuery = true ∨ kind = .tie →
    kind.closing? = none := by
  decide

/-- What opens a clause inside a group opens a clause of a query, or is a set operator. -/
theorem inQuery_of_start : ∀ k : TokenKind, k.isGroupMaker = true → ∀ kind ∈ ofStart? k,
    kind.closing? = none → kind.inQuery = true ∨ (kind = .tie ∧ k.isTieStart = true) := by
  decide +kernel

theorem not_isJoinStart_of_tie : ∀ k : TokenKind, k.isTieStart = true → k.isJoinStart = false := by
  decide +kernel

theorem isGroupMaker_of_start : ∀ k : TokenKind, ∀ kind ∈ ofStart? k, kind.inQuery = true ∨ kind = .tie →
    k.isGroupMaker = true ∧ k ≠ .openParen ∧ k ≠ .closeParen ∧ k ≠ .type ∧ k ≠ .eof := by
  decide +kernel

end GroupKind

theorem cons_of_concat {t e : Token} {next ts : List Token} (he : e.kind = .eof) (ht : t.kind ≠ .eof)
    (h : t :: next = ts ++ [e]) : ∃ us, ts = t :: us ∧ next = us ++ [e] := by
  cases ts with
  | nil =>
    obtain ⟨rfl, -⟩ := List.cons.inj h
    exact absurd he ht
  | cons u us =>
    obtain ⟨rfl, rfl⟩ := List.cons.inj h
    exact ⟨us, rfl, rfl⟩

namespace Frame
variable {f : Frame} {t e c : Token} {next ts rs ys : List Token} (k d : Nat)

/-- The frame of the same group, `k` tokens further on and `d` levels deeper. -/
def enclosed (k d : Nat) (f : Frame) : Frame :=
  { f with start := f.start + k, indent := f.indent + d, body := f.body.map (Element.deepen d) }

theorem elements_enclosed (f : Frame) : (f.enclosed k d).elements = f.elements.map (Element.deepen d) := by
  simp [elements, enclosed, Element.deepen]

theorem position_enclosed (f : Frame) : (f.enclosed k d).position = f.position + k :=
  Nat.add_right_comm _ _ _

theorem finalKind_enclosed (f : Frame) : (f.enclosed k d).finalKind = f.finalKind := by
  unfold finalKind
  cases hlast : f.body.getLast? with
  | none => simp [enclosed, hlast]
  | some e =>
    cases e with
    | token t => simp [enclosed, hlast, Element.deepen]
    | group g =>
      have hkind := g.kind_deepen d
      cases hf : f.kind <;> simp [enclosed, hlast, hf, Element.deepen, hkind]

theorem leadingKeywords?_deepen (kind : GroupKind) (es : List Element) :
    leadingKeywords? kind (es.map (Element.deepen d)) = leadingKeywords? kind es := by
  have hleading : ∀ accepts : TokenKind → Bool,
      ((es.map (Element.deepen d)).takeWhile fun e => e.token?.any fun t => accepts t.kind).length =
        (es.takeWhile fun e => e.token?.any fun t => accepts t.kind).length := by
    intro accepts
    rw [List.takeWhile_map, List.length_map]
    simp [Function.comp_def]
  cases kind with
  | groupBy | orderBy =>
    exact congrArg some (hleading fun k => k = .keyword .GROUP || k = .keyword .ORDER || k = .keyword .BY)
  | join => exact congrArg some (hleading TokenKind.isJoinStart)
  | insert => exact congrArg some (hleading fun k => k = .keyword .INSERT || k = .keyword .INTO)
  | _ => rfl

theorem finish_enclosed {g : Group} (h : f.finish = .ok g) : (f.enclosed k d).finish = .ok (g.deepen d) := by
  have hgroup : Group.mk f.finalKind (f.elements.map (Element.deepen d)) (f.indent + d) = g.deepen d := by
    rw [finish_eq h, Group.deepen, Element.deepenAll_eq_map]
  unfold finish at h ⊢
  dsimp only at h ⊢
  rw [elements_enclosed, finalKind_enclosed, leadingKeywords?_deepen, List.length_map,
    show (f.enclosed k d).indent = f.indent + d from rfl, hgroup]
  split at h
  · split at h
    · cases h
    · rename_i hlt
      simp [hlt]
  · rfl

/-- Whether the next token is of a kind does not tell the end of the input from a closing parenthesis. -/
theorem any_head_enclosed (he : e.kind = .eof) (hc : c.kind = .closeParen) {kind : TokenKind}
    (heof : kind ≠ .eof) (hparen : kind ≠ .closeParen) :
    (ts ++ c :: ys).head?.any (·.kind = kind) = (ts ++ [e]).head?.any (·.kind = kind) := by
  cases ts with
  | nil => simp [he, hc, heof.symm, hparen.symm]
  | cons t ts => rfl

theorem begin_enclosed (he : e.kind = .eof) (hc : c.kind = .closeParen) (start indent : Nat)
    (kind : GroupKind) : (begin start indent kind t (ts ++ [e])).enclosed k d =
      begin (start + k) (indent + d) kind t (ts ++ c :: ys) := by
  have hselect := @any_head_enclosed e c ts ys he hc (.keyword .SELECT) nofun nofun
  unfold begin
  rw [hselect]
  rfl

theorem nested?_enclosed (he : e.kind = .eof) (hc : c.kind = .closeParen) (f : Frame) :
    (f.enclosed k d).nested? t (ts ++ c :: ys) = (f.nested? t (ts ++ [e])).map (enclosed k d) := by
  have hselect := @any_head_enclosed e c ts ys he hc (.keyword .SELECT) nofun nofun
  have hparen := @any_head_enclosed e c ts ys he hc .openParen nofun nofun
  have hplain : (f.enclosed k d).staysPlain t (ts ++ c :: ys) = f.staysPlain t (ts ++ [e]) := by
    unfold staysPlain
    rw [hparen]
    rfl
  unfold nested?
  rw [hplain, hselect, position_enclosed, show (f.enclosed k d).inJoinStart t = f.inJoinStart t from rfl]
  split
  · rfl
  · rw [Option.map_map]
    congr 1
    funext kind
    dsimp only [Function.comp]
    rw [begin_enclosed k d he hc]
    split
    · rw [show (f.enclosed k d).indent + 1 = f.indent + 1 + d from Nat.add_right_comm _ _ _]
    · rfl

theorem Closable.enclosed (he : e.kind = .eof) (h : f.Closable (ts ++ [e])) :
    (f.enclosed k d).Closable (ts ++ c :: ys) := by
  intro closer hclosing
  have hany := h closer hclosing
  have hne : closer ≠ .eof := by
    rintro rfl
    exact f.kind.closing?_ne_eof hclosing
  rw [List.any_append, Bool.or_eq_true] at hany ⊢
  refine hany.imp_right fun hlast => ?_
  simp [he, hne.symm] at hlast

theorem ne_eof_of_lasts (hend : f.endsAt t = false) (hlasts : f.Lasts t) : t.kind ≠ .eof :=
  fun ht => endsAt_eof ht hlasts hend

theorem endsAt_closeParen (hc : c.kind = .closeParen) (h : f.kind.inQuery = true) : f.endsAt c = true := by
  have hclosing := f.kind.closing?_of_inQuery (Or.inl h)
  have hends := f.kind.ends_closeParen h
  simp [endsAt, inJoinStart, hc, hclosing, TokenKind.isJoinStart, List.contains_iff_mem.mp hends]

theorem Reads.ne_nil {tokens rest : List Token} {g : Group} {n : Nat} (h : f.Reads tokens g n rest) :
    tokens ≠ [] := by
  cases h <;> exact List.cons_ne_nil _ _

/-- A clause ends at the end of the input, and no other group does. -/
theorem Reads.of_eof {rest : List Token} {g : Group} {n : Nat} (he : e.kind = .eof)
    (h : f.Reads (e :: next) g n rest) : rest = e :: next ∧ n = f.count ∧ f.kind.closing? = none := by
  cases h with
  | close _ hclosing _ => exact absurd (he ▸ hclosing) f.kind.closing?_ne_eof
  | stop hend hclosing _ => exact ⟨rfl, rfl, closing?_of_stop hend hclosing⟩
  | take hend hlasts _ _ => exact absurd hend (endsAt_eof he hlasts)
  | nest hend hlasts _ _ _ _ => exact absurd hend (endsAt_eof he hlasts)

/-- A group that is read behind another token of the frame leaves the end of the input. -/
theorem Reads.exists_concat {left : List Token} {g : Group} {n : Nat} (h : f.Reads (ts ++ [e]) g n left)
    (hne : left ≠ []) : ∃ rs, left = rs ++ [e] ∧ rs <:+ ts :=
  (List.suffix_concat_iff.mp h.suffix).resolve_left hne

theorem inQuery_or_tie_of_nested {child : Frame} (hnested : f.nested? t next = some child)
    (hclause : child.kind.closing? = none) :
    child.kind.inQuery = true ∨ (child.kind = .tie ∧ t.kind.isTieStart = true) := by
  have hmaker : t.kind.isGroupMaker = true := by
    unfold nested? at hnested
    split at hnested
    · cases hnested
    · simp_all
  obtain ⟨kind, hstart, rfl⟩ := nested?_eq hnested
  exact GroupKind.inQuery_of_start t.kind hmaker kind hstart hclause

/-- A set operator ends every clause of a query, so what opens inside of one is another clause of a
query. -/
theorem inQuery_of_nested {child : Frame} (hf : f.kind.inQuery = true) (hend : f.endsAt t = false)
    (hnested : f.nested? t next = some child) (hclause : child.kind.closing? = none) :
    child.kind.inQuery = true := by
  refine (inQuery_or_tie_of_nested hnested hclause).resolve_right fun ⟨_, htie⟩ => ?_
  have hjoin := GroupKind.not_isJoinStart_of_tie t.kind htie
  have hcontains := f.kind.ends_tieStart hf t.kind htie
  have hclosing := f.kind.closing?_of_inQuery (Or.inl hf)
  simp [endsAt, inJoinStart, hclosing, hjoin, List.contains_iff_mem.mp hcontains] at hend

/-- A group that is read before the end of the input is read before a closing parenthesis, one of the same
elements. Only if the group lasts to the end must it be one that gives way to the parenthesis. -/
theorem Reads.enclosed {tokens rest : List Token} {g : Group} {n : Nat} (he : e.kind = .eof)
    (hc : c.kind = .closeParen) (h : f.Reads tokens g n rest) (htokens : tokens = ts ++ [e])
    (hrest : rest = rs ++ [e])
    (hstop : rs = [] → f.kind.closing? = none → f.kind.inQuery = true) :
    (f.enclosed k d).Reads (ts ++ c :: ys) (g.deepen d) n (rs ++ c :: ys) := by
  induction h generalizing ts rs with
  | @close f t next g hend hclosing hfinish =>
    have ht : t.kind ≠ .eof := fun ht => f.kind.closing?_ne_eof (ht ▸ hclosing)
    obtain ⟨ts, rfl, rfl⟩ := cons_of_concat he ht htokens
    obtain rfl : ts = rs := List.append_cancel_right hrest
    exact .close hend hclosing (finish_enclosed k d hfinish)
  | @stop f t next g hend hclosing hfinish =>
    have hclause := closing?_of_stop hend hclosing
    obtain rfl : ts = rs := List.append_cancel_right (htokens.symm.trans hrest)
    cases ts with
    | nil =>
      have hclosing' : (f.enclosed k d).kind.closing? ≠ some c.kind := by
        rw [show (f.enclosed k d).kind = f.kind from rfl, hclause]
        exact nofun
      exact .stop (endsAt_closeParen hc (hstop rfl hclause)) hclosing' (finish_enclosed k d hfinish)
    | cons u ts =>
      obtain ⟨rfl, -⟩ := List.cons.inj htokens
      exact .stop hend hclosing (finish_enclosed k d hfinish)
  | @take f t next rest g n hend hlasts hplain hmore ih =>
    obtain ⟨ts, rfl, rfl⟩ := cons_of_concat he (ne_eof_of_lasts hend hlasts) htokens
    have hplain' : (f.enclosed k d).nested? t (ts ++ c :: ys) = none := by
      rw [nested?_enclosed k d he hc, hplain]
      rfl
    exact .take hend hlasts hplain' (ih rfl hrest hstop)
  | @nest f child t next left rest inner g m n hend hlasts hnested hclosable hinner hmore ih ih' =>
    obtain ⟨ts, rfl, rfl⟩ := cons_of_concat he (ne_eof_of_lasts hend hlasts) htokens
    obtain ⟨ls, rfl, -⟩ := hinner.exists_concat hmore.ne_nil
    have hnested' : (f.enclosed k d).nested? t (ts ++ c :: ys) = some (child.enclosed k d) := by
      rw [nested?_enclosed k d he hc, hnested]
      rfl
    have hchild : ls = [] → child.kind.closing? = none → child.kind.inQuery = true := by
      rintro rfl hclause
      -- the frame itself ends where the nested group has ended
      obtain ⟨hleft, -, hparent⟩ := hmore.of_eof he
      have hrs : rs = [] := by simpa using hrest.symm.trans hleft
      exact inQuery_of_nested (hstop hrs hparent) hend hnested hclause
    exact .nest hend hlasts hnested' (hclosable.enclosed k d he) (ih rfl rfl hchild)
      (ih' rfl hrest hstop)

theorem takes_ident (f : Frame) (next : List Token) (ht : t.kind = .ident) :
    f.endsAt t = false ∧ f.Lasts t ∧ f.nested? t next = none := by
  refine ⟨?_, ?_, ?_⟩
  · unfold endsAt
    cases hkind : f.kind <;> simp [ht, GroupKind.closing?, GroupKind.ends]
  · simp [Lasts, ht]
  · simp [nested?, ht, TokenKind.isGroupMaker]

/-- The group of a set operator takes a closing parenthesis. -/
theorem tie_takes (hf : f.kind = .tie) (hc : c.kind = .closeParen) :
    f.endsAt c = false ∧ f.Lasts c ∧ f.nested? c next = none := by
  refine ⟨?_, ?_, ?_⟩
  · simp [endsAt, inJoinStart, hf, hc, GroupKind.closing?, GroupKind.ends]
  · simp [Lasts, hf, GroupKind.closing?]
  · simp [nested?, hc, TokenKind.isGroupMaker]

theorem tie_stops (hf : f.kind = .tie) (he : e.kind = .eof) :
    ∃ g, f.Reads (e :: next) g f.count (e :: next) := by
  have hfinal : f.finalKind = .tie := by
    simp [finalKind, hf]
  have hfinish : f.finish = .ok (.mk .tie f.elements f.indent) := by
    unfold finish
    dsimp only
    rw [hfinal]
    rfl
  have hclosing : f.kind.closing? ≠ some e.kind := by
    rw [hf]
    exact nofun
  have hend : f.endsAt e = true := by
    simp [endsAt, inJoinStart, hf, he, GroupKind.closing?]
  exact ⟨_, .stop hend hclosing hfinish⟩

/-- The group of a set operator that lasts to the end of the input takes also what is put before it. -/
theorem Reads.swallows {y : Token} {tokens rest : List Token} {g : Group} {n : Nat} (he : e.kind = .eof)
    (hc : c.kind = .closeParen) (hy : y.kind = .ident) (h : f.Reads tokens g n rest)
    (htokens : tokens = ts ++ [e]) (hrest : rest = [e]) (hf : f.kind = .tie) :
    ∃ g', (f.enclosed k d).Reads (ts ++ [c, y, e]) g' (n + 2) [e] := by
  induction h generalizing ts with
  | @close f t next g _ hclosing _ =>
    rw [hf] at hclosing
    cases hclosing
  | @stop f t next g hend hclosing hfinish =>
    obtain rfl : ts = [] := by simpa using htokens.symm.trans hrest
    obtain ⟨hend, hlasts, hplain⟩ := @tie_takes (f.enclosed k d) c [y, e] hf hc
    obtain ⟨hend', hlasts', hplain'⟩ := ((f.enclosed k d).push c).takes_ident [e] hy
    obtain ⟨g', hreads⟩ := @tie_stops (((f.enclosed k d).push c).push y) e [] hf he
    exact ⟨g', .take hend hlasts hplain (.take hend' hlasts' hplain' hreads)⟩
  | @take f t next rest g n hend hlasts hplain hmore ih =>
    obtain ⟨ts, rfl, rfl⟩ := cons_of_concat he (ne_eof_of_lasts hend hlasts) htokens
    have hplain' : (f.enclosed k d).nested? t (ts ++ [c, y, e]) = none := by
      rw [nested?_enclosed k d he hc, hplain]
      rfl
    obtain ⟨g', hreads⟩ := ih rfl hrest hf
    exact ⟨g', .take hend hlasts hplain' hreads⟩
  | @nest f child t next left rest inner g m n hend hlasts hnested hclosable hinner hmore ih ih' =>
    obtain ⟨ts, rfl, rfl⟩ := cons_of_concat he (ne_eof_of_lasts hend hlasts) htokens
    obtain ⟨ls, rfl, -⟩ := hinner.exists_concat hmore.ne_nil
    have hnested' : (f.enclosed k d).nested? t (ts ++ [c, y, e]) = some (child.enclosed k d) := by
      rw [nested?_enclosed k d he hc, hnested]
      rfl
    have hclosable' : (child.enclosed k d).Closable (ts ++ [c, y, e]) := hclosable.enclosed k d he
    by_cases hlast : ls = [] ∧ child.kind = .tie
    · -- a set operator inside takes the parenthesis first
      obtain ⟨rfl, hchild⟩ := hlast
      obtain ⟨-, rfl, -⟩ := hmore.of_eof he
      obtain ⟨inner', hinner'⟩ := ih rfl rfl hchild
      obtain ⟨g', hreads⟩ := @tie_stops ((f.enclosed k d).attach inner' (m + 2)) e [] hf he
      exact ⟨g', .nest hend hlasts hnested' hclosable' hinner' hreads⟩
    · have hstop : ls = [] → child.kind.closing? = none → child.kind.inQuery = true :=
        fun hls hclause => (inQuery_or_tie_of_nested hnested hclause).resolve_right
          fun ⟨htie, _⟩ => hlast ⟨hls, htie⟩
      obtain ⟨g', hreads⟩ := ih' rfl hrest hf
      exact ⟨g', .nest hend hlasts hnested' hclosable' (hinner.enclosed k d he hc rfl rfl hstop) hreads⟩

/-- The frame of parentheses around a query: the query is read from index `p` on when it stands alone,
`k` tokens before the place where it stands in the parentheses. -/
structure Encloses (f : Frame) (k d p : Nat) : Prop where
  kind : f.kind = .parens
  query : f.beforeSelect = true
  position : f.position = p + k
  indent : f.indent = d

section Encloses
variable {k d} {p : Nat} {below : List Frame}

theorem Encloses.attach (h : f.Encloses k d p) (g : Group) (n : Nat) :
    (f.attach g n).Encloses k d (p + n) where
  kind := h.kind
  query := h.query
  position := by
    have hposition : (f.attach g n).position = f.position + n := (Nat.add_assoc _ _ _).symm
    rw [hposition, h.position]
    exact Nat.add_right_comm _ _ _
  indent := h.indent

theorem readOn_opens {child : Frame} (h : f.react t next = .ok (.opens child)) :
    f.readOn below (t :: next) = child.readOn (f :: below) next := by
  cases below with
  | nil => rw [readOn_nil, h]
  | cons parent rest => rw [readOn_cons, h]

/-- The parentheses open the groups of their query as they are opened when the query stands alone. -/
theorem Encloses.readOn_cons (h : f.Encloses k d p) (ts ys : List Token) (below : List Frame)
    (he : e.kind = .eof) (hc : c.kind = .closeParen)
    {kind : GroupKind} (hstart : GroupKind.ofStart? t.kind = some kind)
    (hclause : kind.inQuery = true ∨ kind = .tie) :
    f.readOn below (t :: (ts ++ c :: ys)) =
      ((begin p 0 kind t (ts ++ [e])).enclosed k d).readOn (f :: below) (ts ++ c :: ys) := by
  obtain ⟨hmaker, hopen, hclose, htype, heof⟩ := GroupKind.isGroupMaker_of_start t.kind kind hstart hclause
  have hclosing := GroupKind.closing?_of_inQuery kind hclause
  rw [begin_enclosed k d he hc, Nat.zero_add, ← h.position, ← h.indent]
  have hplain : f.staysPlain t (ts ++ c :: ys) = false := by
    simp [staysPlain, isSubquery, h.kind, h.query, htype]
  have hnested : f.nested? t (ts ++ c :: ys) =
      some (begin f.position f.indent kind t (ts ++ c :: ys)) := by
    simp [nested?, hmaker, hplain, inJoinStart, h.kind, hstart, hopen]
  have hclosable : (begin f.position f.indent kind t (ts ++ c :: ys)).Closable (ts ++ c :: ys) := by
    intro closer hcloser
    cases hclosing.symm.trans hcloser
  refine readOn_opens (react_ok_iff.mpr
    (Or.inr (Or.inr (Or.inr ⟨_, ?_, ?_, hnested, hclosable, rfl⟩))))
  · simp [endsAt, inJoinStart, h.kind, GroupKind.closing?, hclose]
  · simp [Lasts, heof]

/-- The parentheses close behind a query, and have become a subquery. -/
theorem Encloses.closes {o : Token} {s : Group} {es : List Element} (h : f.Encloses k d p)
    (parent : Frame) (below : List Frame) (ys : List Token) (hc : c.kind = .closeParen)
    (helements : f.elements = .token o :: .group s :: es) (hs : s.kind = .select) :
    f.readOn (parent :: below) (c :: ys) =
      (parent.attach (.mk .subquery (f.elements ++ [.token c]) d) (f.count + 1)).readOn below ys := by
  have hclosing : f.kind.closing? = some c.kind := by
    rw [h.kind, hc]
    rfl
  have hend : f.endsAt c = true := by
    simp [endsAt, inJoinStart, h.kind, hc, GroupKind.closing?]
  have hfinal : (f.push c).finalKind = .subquery := by
    obtain ⟨-, hbody⟩ := List.cons.inj helements
    have hlast : (f.push c).body.getLast? = some (.group s) := by
      rw [show (f.push c).body = .token c :: f.body from rfl, ← List.reverse_reverse f.body, hbody,
        List.reverse_cons, ← List.cons_append, List.getLast?_concat]
    unfold finalKind
    rw [show (f.push c).kind = .parens from h.kind, hlast]
    simp [hs]
  have hfinish : (f.push c).finish = .ok (.mk .subquery (f.elements ++ [.token c]) d) := by
    rw [finish_of_closing (f := f.push c) hclosing, hfinal, elements_push, ← h.indent]
    rfl
  exact (Reads.close hend hclosing hfinish).readOn_cons

/-- The parentheses stay open when the input ends. -/
theorem Encloses.never_closed {parent : Frame} (h : f.Encloses k d p) (he : e.kind = .eof) :
    f.readOn (parent :: below) (e :: next) = .error ⟨p + k, .groupNeverClosed .parens⟩ := by
  have hend : f.endsAt e = false := by
    simp [endsAt, inJoinStart, h.kind, he, GroupKind.closing?]
  have hreact : f.react e next = .error ⟨f.position, .groupNeverClosed f.kind⟩ := by
    simp [react, hend, h.kind, he, GroupKind.closing?]
  rw [Frame.readOn_cons, hreact, h.position, h.kind]

end Encloses
end Frame

namespace Group
variable {p : Nat} {e : Token} {ts : List Token} {r : Retrieved} {gs : List Group}

theorem Retrieves.ne_nil {tokens : List Token} (h : Retrieves p tokens gs) : tokens ≠ [] := by
  cases h with
  | done => exact List.cons_ne_nil _ _
  | more hr =>
    rintro rfl
    cases hr

/-- A group that is retrieved before the end of the input leaves it. -/
theorem retrieve?_concat (he : e.kind = .eof) (h : retrieve? p 0 (ts ++ [e]) = some (.ok r))
    (hne : r.rest ≠ []) : ∃ t us rs kind, ts = t :: us ∧ r.rest = rs ++ [e] ∧ rs <:+ us ∧
      GroupKind.ofStart? t.kind = some kind ∧
      (Frame.begin p 0 kind t (us ++ [e])).Reads (us ++ [e]) r.group r.count (rs ++ [e]) := by
  obtain ⟨t, next, kind, htokens, hstart, hreads⟩ := retrieve?_ok_iff.mp h
  obtain ⟨us, rfl, rfl⟩ := cons_of_concat he (GroupKind.OpenedBy.ne_eof (Or.inl hstart)) htokens.symm
  obtain ⟨rs, hrest, hsuffix⟩ := hreads.exists_concat hne
  exact ⟨t, us, rs, kind, rfl, hrest, hsuffix, hstart, hrest ▸ hreads⟩

theorem Retrieves.of_eof {next : List Token} (he : e.kind = .eof) (h : Retrieves p (e :: next) gs) :
    gs = [] := by
  cases h with
  | done => rfl
  | more hr =>
    obtain ⟨t, _, kind, htokens, hstart, -⟩ := retrieve?_ok_iff.mp hr
    obtain ⟨rfl, -⟩ := List.cons.inj htokens
    exact absurd he (GroupKind.OpenedBy.ne_eof (Or.inl hstart))

theorem Retrieves.eq_nil (hts : ∀ t ∈ ts, t.kind ≠ .eof) (h : Retrieves p (ts ++ [e]) []) : ts = [] := by
  generalize htokens : ts ++ [e] = tokens at h
  cases h with
  | @done _ e' _ he' =>
    cases ts with
    | nil => rfl
    | cons t ts =>
      obtain ⟨rfl, -⟩ := List.cons.inj htokens
      exact absurd he' (hts t List.mem_cons_self)

end Group

namespace Frame
variable {f : Frame} {e c : Token} {ts ys : List Token} {k d p : Nat}

/-- A group of the query is read in the parentheses. If it is the last one, it must be a clause that ends
there. -/
theorem Encloses.step {r : Retrieved} (hf : f.Encloses k d p) (ys : List Token) (he : e.kind = .eof)
    (hc : c.kind = .closeParen)
    (h : Group.retrieve? p 0 (ts ++ [e]) = some (.ok r)) (hne : r.rest ≠ [])
    (hkind : r.group.kind.inQuery = true ∨ r.group.kind = .tie)
    (hlast : r.rest = [e] → r.group.kind.inQuery = true) :
    ∃ rs, r.rest = rs ++ [e] ∧ rs <:+ ts ∧ ∀ below, f.readOn below (ts ++ c :: ys) =
      (f.attach (r.group.deepen d) r.count).readOn below (rs ++ c :: ys) := by
  obtain ⟨t, us, rs, kind, rfl, hrest, hsuffix, hstart, hreads⟩ := Group.retrieve?_concat he h hne
  have hgroup : r.group.kind = kind := by
    obtain ⟨-, hsame | ⟨-, hsubquery⟩⟩ := hreads.opened
    · exact hsame
    · rw [hsubquery] at hkind
      rcases hkind with hkind | hkind <;> cases hkind
  have hstop : rs = [] → kind.closing? = none → kind.inQuery = true := by
    rintro rfl -
    exact hgroup ▸ hlast hrest
  refine ⟨rs, hrest, hsuffix.trans (List.suffix_cons _ _), fun below => ?_⟩
  have hopens := hf.readOn_cons us ys below he hc hstart (hgroup ▸ hkind)
  exact hopens.trans (hreads.enclosed k d he hc rfl rfl hstop).readOn_cons

/-- Groups of the query are read in the parentheses one after another. -/
theorem Encloses.run (hf : f.Encloses k d p) (gs more : List Group) (ys : List Token) (he : e.kind = .eof)
    (hc : c.kind = .closeParen) (hts : ∀ t ∈ ts, t.kind ≠ .eof)
    (h : Group.Retrieves p (ts ++ [e]) (gs ++ more))
    (hkinds : ∀ g ∈ gs, g.kind.inQuery = true ∨ g.kind = .tie)
    (hlast : more = [] → ∀ g ∈ gs.getLast?, g.kind.inQuery = true) :
    ∃ f' : Frame, ∃ p' us, f'.Encloses k d p' ∧ Group.Retrieves p' (us ++ [e]) more ∧ us <:+ ts ∧
      p' + us.length = p + ts.length ∧
      f'.elements = f.elements ++ gs.map (fun g => .group (g.deepen d)) ∧
      ∀ below, f.readOn below (ts ++ c :: ys) = f'.readOn below (us ++ c :: ys) := by
  induction gs generalizing f p ts with
  | nil => exact ⟨f, p, ts, hf, h, List.suffix_rfl, rfl, by simp, fun _ => rfl⟩
  | cons g gs ih =>
    generalize htokens : ts ++ [e] = tokens at h
    cases h with
    | @more _ _ r _ hr hmore =>
      obtain ⟨hkind, hkinds⟩ := List.forall_mem_cons.mp hkinds
      have hstop : r.rest = [e] → r.group.kind.inQuery = true := by
        intro hrest
        rw [hrest] at hmore
        obtain ⟨rfl, rfl⟩ := List.append_eq_nil_iff.mp (hmore.of_eof he)
        exact hlast rfl r.group rfl
      subst htokens
      have hcount := Group.retrieve?_count hr
      obtain ⟨rs, hrest, hsuffix, hstep⟩ := hf.step ys he hc hr hmore.ne_nil hkind hstop
      rw [hrest] at hmore hcount
      have hlast' : more = [] → ∀ g ∈ gs.getLast?, g.kind.inQuery = true := by
        intro hnil g hg
        refine hlast hnil g ?_
        cases gs with
        | nil => cases hg
        | cons g' gs => rwa [List.getLast?_cons_cons]
      obtain ⟨f', p', us, hf', hretrieves, hsuffix', hlength, helements, hrun⟩ :=
        ih (hf.attach (r.group.deepen d) r.count) (fun t ht => hts t (hsuffix.subset ht)) hmore hkinds hlast'
      refine ⟨f', p', us, hf', hretrieves, hsuffix'.trans hsuffix, ?_, ?_,
        fun below => (hstep below).trans (hrun below)⟩
      · rw [List.length_append, List.length_append] at hcount
        omega
      · rw [helements, elements_attach, List.map_cons, List.append_assoc]
        rfl

/-- The set operator behind the query swallows the closing parenthesis. -/
theorem Encloses.swallow {y : Token} {g : Group} (hf : f.Encloses k d p) (parent : Frame)
    (below : List Frame) (he : e.kind = .eof) (hc : c.kind = .closeParen) (hy : y.kind = .ident)
    (hts : ∀ t ∈ ts, t.kind ≠ .eof) (h : Group.Retrieves p (ts ++ [e]) [g]) (hg : g.kind = .tie) :
    f.readOn (parent :: below) (ts ++ [c, y, e]) =
      .error ⟨p + ts.length + 2 + k, .groupNeverClosed .parens⟩ := by
  generalize htokens : ts ++ [e] = tokens at h
  cases h with
  | @more _ _ r _ hr hmore =>
    subst htokens
    obtain ⟨t, us, rs, kind, rfl, hrest, hsuffix, hstart, hreads⟩ :=
      Group.retrieve?_concat he hr hmore.ne_nil
    rw [hrest] at hmore
    obtain rfl := hmore.eq_nil fun t ht => hts t (List.mem_cons_of_mem _ (hsuffix.subset ht))
    have hkind : kind = .tie := by
      obtain ⟨-, hsame | ⟨-, hsubquery⟩⟩ := hreads.opened
      · exact hsame.symm.trans hg
      · cases hsubquery.symm.trans hg
    have hcount := hreads.count_add
    rw [List.length_append, show (begin p 0 kind t (us ++ [e])).count = 1 from rfl] at hcount
    obtain ⟨g', hswallows⟩ := hreads.swallows k d he hc hy rfl rfl hkind
    have hopens := hf.readOn_cons us [y, e] (parent :: below) he hc hstart
      (Or.inr hkind)
    rw [show p + (t :: us).length + 2 = p + (r.count + 2) by rw [List.length_cons]; simp at hcount; omega]
    exact hopens.trans (hswallows.readOn_cons.trans ((hf.attach g' (r.count + 2)).never_closed he))

end Frame
namespace Grammar
open RegularExpression

/-- The letters that stand in an expression. -/
def alphabet : RegularExpression GroupKind → List GroupKind
  | .zero | .epsilon => []
  | .char kind => [kind]
  | .plus p q | .comp p q => alphabet p ++ alphabet q
  | .star p => alphabet p

theorem mem_alphabet {p : RegularExpression GroupKind} {w : List GroupKind} (h : w ∈ p.matches') :
    ∀ kind ∈ w, kind ∈ alphabet p := by
  induction p generalizing w with
  | zero => cases h
  | epsilon =>
    obtain rfl : w = [] := h
    simp
  | char kind =>
    obtain rfl : w = [kind] := h
    simp [alphabet]
  | plus p q ihp ihq =>
    intro kind hkind
    exact List.mem_append.mpr (h.imp (fun h => ihp h kind hkind) fun h => ihq h kind hkind)
  | comp p q ihp ihq =>
    obtain ⟨u, hu, v, hv, rfl⟩ := Language.mem_mul.mp h
    intro kind hkind
    exact List.mem_append.mpr ((List.mem_append.mp hkind).imp (ihp hu kind) (ihq hv kind))
  | star p ih =>
    obtain ⟨ws, rfl, hws⟩ := Language.mem_kstar.mp h
    intro kind hkind
    obtain ⟨w, hw, hkind⟩ := List.mem_flatten.mp hkind
    exact ih (hws w hw) kind hkind

theorem inQuery_of_mem_alphabet : ∀ kind ∈ alphabet query, kind.inQuery = true ∨ kind = .tie := by
  decide

/-- A statement that begins with SELECT is a query. -/
theorem query_of_select {w : List GroupKind} (h : .select :: w ∈ statement.matches') :
    .select :: w ∈ query.matches' := by
  rw [statement_matches, cons_mem_opt_mul] at h
  obtain ⟨hwith, -⟩ | h := h
  · cases hwith
  · simpa [Stage.bodies, Language.mem_add, cons_mem_letters_mul, Stage.cons_mem_letters, query_eq] using h

end Grammar

/-- The tokens around a query that stands in the FROM clause of another query. -/
structure Enclosure where
  select : Token
  column : Token
  source : Token
  opening : Token
  closing : Token
  name : Token
  select_kind : select.kind = .keyword .SELECT
  column_kind : column.kind = .ident
  source_kind : source.kind = .keyword .FROM
  opening_kind : opening.kind = .openParen
  closing_kind : closing.kind = .closeParen
  name_kind : name.kind = .ident

namespace Enclosure

/-- The tokens of `SELECT column FROM (` and `) name`. -/
def spelled (column name : String) : Enclosure where
  select := ⟨.keyword .SELECT, "SELECT"⟩
  column := ⟨.ident, column⟩
  source := ⟨.keyword .FROM, "FROM"⟩
  opening := ⟨.openParen, "("⟩
  closing := ⟨.closeParen, ")"⟩
  name := ⟨.ident, name⟩
  select_kind := rfl
  column_kind := rfl
  source_kind := rfl
  opening_kind := rfl
  closing_kind := rfl
  name_kind := rfl

/-- The tokens of the outer query. -/
def around (s : Enclosure) (q : List Token) : List Token :=
  s.select :: s.column :: s.source :: s.opening :: (q ++ [s.closing, s.name])

/-- The groups of the outer query, when those of the inner one are given as they are read alone. -/
def groups (s : Enclosure) (inner : List Group) : List Group := [
  .mk .select [.token s.select, .token s.column] 0,
  .mk .fromClause [.token s.source,
    .group (.mk .subquery (.token s.opening :: inner.map (fun g => .group (g.deepen 1)) ++
      [.token s.closing]) 1),
    .token s.name] 0]

variable (s : Enclosure) {q : List Token} {e : Token} {inner : List Group}

theorem tokensOf_groups : Group.tokensOf (s.groups inner) = s.around (Group.tokensOf inner) := by
  have hinner : Element.tokensOf (inner.map fun g => .group (g.deepen 1)) = Group.tokensOf inner := by
    rw [Element.tokensOf_eq_flatMap, List.flatMap_map]
    simp [Element.tokens, Group.tokens_deepen, Group.tokensOf]
  simp [groups, around, Group.tokensOf, Group.tokens, Element.tokensOf, Element.tokens, hinner]

theorem balanced_groups (h : Balance.fault? (Group.tokensOf inner) = none) :
    Balance.fault? (Group.tokensOf (s.groups inner)) = none := by
  rw [Balance.fault?_eq_none_iff] at h ⊢
  rw [tokensOf_groups]
  simp only [around, List.map_cons, List.map_append, List.map_nil, s.select_kind, s.column_kind,
    s.source_kind, s.opening_kind, s.closing_kind, s.name_kind]
  exact .plain rfl rfl (.plain rfl rfl (.plain rfl rfl (.pair rfl h (.plain rfl rfl .nil))))

theorem retrieve?_select (next : List Token) :
    Group.retrieve? 0 0 (s.select :: s.column :: s.source :: next) =
      some (.ok ⟨.mk .select [.token s.select, .token s.column] 0, 2, s.source :: next⟩) := by
  rw [Group.retrieve?_ok_iff]
  refine ⟨s.select, _, .select, rfl, by rw [s.select_kind]; rfl, ?_⟩
  obtain ⟨hend, hlasts, hplain⟩ :=
    (Frame.begin 0 0 .select s.select (s.column :: s.source :: next)).takes_ident (s.source :: next)
      s.column_kind
  refine .take hend hlasts hplain (.stop ?_ nofun rfl)
  simp [Frame.endsAt, Frame.inJoinStart, Frame.push, Frame.begin, s.source_kind, GroupKind.closing?,
    GroupKind.ends]

def clause : Frame := Frame.begin 2 0 .fromClause s.source [s.opening]

def parens (next : List Token) : Frame := Frame.begin 3 1 .parens s.opening next

theorem parens_encloses {next : List Token} (hselect : ∃ t ∈ next.head?, t.kind = .keyword .SELECT) :
    (s.parens next).Encloses 4 1 0 where
  kind := rfl
  query := by
    obtain ⟨t, ht, hkind⟩ := hselect
    simp [parens, Frame.begin, Option.mem_def.mp ht, hkind]
  position := rfl
  indent := rfl

theorem retrieve?_source {next : List Token} (hselect : ∃ t ∈ next.head?, t.kind = .keyword .SELECT)
    (hclosing : s.closing ∈ next) : Group.retrieve? 2 0 (s.source :: s.opening :: next) =
      some ((s.parens next).readOn [s.clause] next) := by
  have hquery : next.head?.any (fun t => decide (t.kind = .keyword .SELECT)) = true :=
    (s.parens_encloses hselect).query
  have hbegin : Frame.begin 2 0 .fromClause s.source (s.opening :: next) = s.clause := rfl
  have hnested : s.clause.nested? s.opening next = some (s.parens next) := by
    simp [Frame.nested?, Frame.staysPlain, Frame.inJoinStart, clause, Frame.begin, s.opening_kind,
      TokenKind.isGroupMaker, TokenKind.isLineStart, GroupKind.ofStart?, hquery, parens]
    rfl
  have hclosable : (s.parens next).Closable next := by
    intro closer hcloser
    cases hcloser
    simpa using ⟨s.closing, hclosing, s.closing_kind⟩
  rw [Group.retrieve?, s.source_kind, show GroupKind.ofStart? (.keyword .FROM) = some .fromClause from rfl,
    Option.map_some, hbegin]
  refine congrArg some (Frame.readOn_opens (Frame.react_ok_iff.mpr
    (Or.inr (Or.inr (Or.inr ⟨_, ?_, ?_, hnested, hclosable, rfl⟩)))))
  · simp [Frame.endsAt, Frame.inJoinStart, clause, Frame.begin, s.opening_kind, GroupKind.closing?,
      GroupKind.ends]
  · simp [Frame.Lasts, s.opening_kind]

theorem readOn_name (he : e.kind = .eof) (g : Group) (n : Nat) :
    (s.clause.attach g n).readOn [] [s.name, e] =
      .ok ⟨.mk .fromClause [.token s.source, .group g, .token s.name] 0, 1 + n + 1, [e]⟩ := by
  obtain ⟨hend, hlasts, hplain⟩ := (s.clause.attach g n).takes_ident [e] s.name_kind
  refine Frame.Reads.readOn_nil (.take hend hlasts hplain (.stop ?_ nofun rfl))
  simp [Frame.endsAt, Frame.inJoinStart, Frame.push, Frame.attach, clause, Frame.begin, he,
    GroupKind.closing?]

end Enclosure

namespace Statement
variable (s : Enclosure) {q : List Token} {e : Token} {inner : List Group}

/-- The groups of a query are clauses and set operators, and the first is its SELECT clause. -/
theorem kinds_of_query (hselect : ∃ t ∈ q.head?, t.kind = .keyword .SELECT)
    (hretrieves : Group.Retrieves 0 (q ++ [e]) inner)
    (hkinds : inner.map Group.kind ∈ Grammar.statement.matches') :
    (∃ g gs, inner = g :: gs ∧ g.kind = .select) ∧ ∀ g ∈ inner, g.kind.inQuery = true ∨ g.kind = .tie := by
  obtain ⟨t, ht, hkind⟩ := hselect
  obtain ⟨q', rfl⟩ := List.head?_eq_some_iff.mp ht
  rw [List.cons_append] at hretrieves
  cases hretrieves with
  | done heof => cases heof.symm.trans hkind
  | @more _ _ r gs hr _ =>
    obtain ⟨_, _, htokens, hopened, _⟩ := Group.retrieve?_opened hr
    obtain ⟨rfl, -⟩ := List.cons.inj htokens
    have hfirst : r.group.kind = .select :=
      hopened.eq_of_clause (show GroupKind.ofStart? t.kind = some .select by rw [hkind]; rfl) rfl
    refine ⟨⟨_, _, rfl, hfirst⟩, fun g hg => ?_⟩
    rw [List.map_cons, hfirst] at hkinds
    refine Grammar.inQuery_of_mem_alphabet _ (Grammar.mem_alphabet (Grammar.query_of_select hkinds) _ ?_)
    rw [← hfirst, ← List.map_cons]
    exact List.mem_map_of_mem hg

theorem select_append (hselect : ∃ t ∈ q.head?, t.kind = .keyword .SELECT) (us : List Token) :
    ∃ t ∈ (q ++ us).head?, t.kind = .keyword .SELECT := by
  obtain ⟨t, ht, hkind⟩ := hselect
  obtain ⟨q', rfl⟩ := List.head?_eq_some_iff.mp ht
  exact ⟨t, rfl, hkind⟩

/-- The outer query is read up to its FROM clause, and then as the frames of the clause and the parentheses
read the inner query. -/
theorem readGroups_around (hselect : ∃ t ∈ q.head?, t.kind = .keyword .SELECT) :
    readGroups .start [] 0 (s.around q ++ [e]) =
      match (s.parens (q ++ [s.closing, s.name, e])).readOn [s.clause] (q ++ [s.closing, s.name, e]) with
      | .error err => .error err
      | .ok r => readGroups (.query Slot.query.tail)
          [r.group, .mk .select [.token s.select, .token s.column] 0] (2 + r.count) r.rest := by
  have htokens : s.around q ++ [e] =
      s.select :: s.column :: s.source :: s.opening :: (q ++ [s.closing, s.name, e]) := by
    simp [Enclosure.around]
  have hstart : Stage.start.next ([] : List Group).head? 0 s.select = .ok (some (.query Slot.query)) := by
    simp [Stage.next, Stage.lead, s.select_kind]
  have hfrom : ∀ last position, (Stage.query Slot.query).next last position s.source =
      .ok (some (.query Slot.query.tail)) := by
    intro last position
    simp only [Stage.next, s.source_kind]
    rfl
  have hsource := s.retrieve?_source (select_append hselect [s.closing, s.name, e]) (by simp)
  rw [htokens, readGroups_cons hstart (s.retrieve?_select _), readGroups_next (hfrom _ _)]
  dsimp only
  rw [Nat.zero_add, hsource]
  cases (s.parens _).readOn [s.clause] _ <;> rfl

/-- Behind the FROM clause the input ends. -/
theorem readGroups_eof (he : e.kind = .eof) (groups : List Group) (position : Nat) :
    readGroups (.query Slot.query.tail) groups position [e] = .ok (groups.reverse, position, e) := by
  have hnext : (Stage.query Slot.query.tail).next groups.head? position e = .ok none := by
    simp only [Stage.next, he]
    rfl
  rw [readGroups, hnext]

/-- A query that is read alone is read in parentheses, and its groups are the same, one level deeper; but if
its last group is that of a set operator, which holds its query itself, the parentheses are never closed. -/
theorem parseSingle_around (hq : ∀ t ∈ q, t.kind ≠ .eof) (he : e.kind = .eof)
    (hselect : ∃ t ∈ q.head?, t.kind = .keyword .SELECT) (h : parseSingle (q ++ [e]) = .ok inner) :
    parseSingle (s.around q ++ [e]) =
      if inner.getLast?.any (·.kind = .tie) then .error ⟨q.length + 6, .groupNeverClosed .parens⟩
      else .ok (s.groups inner) := by
  have hne : q ≠ [] := by
    rintro rfl
    simp at hselect
  obtain ⟨hretrieves, hkinds, -, hbalance⟩ := (parseSingle_ok_iff hne he hq).mp h
  obtain ⟨⟨first, others, hinner, hfirst⟩, hclauses⟩ := kinds_of_query hselect hretrieves hkinds
  have hparens := s.parens_encloses (select_append hselect [s.closing, s.name, e])
  rw [parseSingle, if_pos (endsWithEof_concat he), readFrom, readGroups_around s hselect]
  by_cases htie : inner.getLast?.any (·.kind = .tie) = true
  · rw [if_pos htie]
    rw [Option.any_eq_true] at htie
    obtain ⟨g, hg, htie⟩ := htie
    obtain ⟨gs, rfl⟩ := List.getLast?_eq_some_iff.mp hg
    obtain ⟨f, p, us, hf, hretrieves, hsuffix, hlength, -, hrun⟩ :=
      hparens.run gs [g] [s.name, e] he s.closing_kind hq hretrieves
        (fun g hg => hclauses g (List.mem_append_left _ hg)) fun hnil => absurd hnil (List.cons_ne_nil g [])
    have hswallow := hf.swallow s.clause [] he s.closing_kind s.name_kind
      (fun t ht => hq t (hsuffix.subset ht)) hretrieves (by simpa using htie)
    rw [hrun, hswallow, hlength, Nat.zero_add]
  · rw [if_neg htie]
    have hlast : ∀ g ∈ inner.getLast?, g.kind.inQuery = true := by
      intro g hg
      refine (hclauses g (List.mem_of_getLast? hg)).resolve_right fun hkind => htie ?_
      rw [Option.mem_def.mp hg]
      simp [hkind]
    have hall : inner ++ [] = inner := List.append_nil inner
    obtain ⟨f, p, us, hf, hnone, hsuffix, -, helements, hrun⟩ :=
      hparens.run inner [] [s.name, e] he s.closing_kind hq (hall.symm ▸ hretrieves) hclauses
        fun _ => hlast
    obtain rfl := hnone.eq_nil fun t ht => hq t (hsuffix.subset ht)
    have hgroup : f.elements = .token s.opening :: inner.map fun g => .group (g.deepen 1) := helements
    have hclosed := hf.closes s.clause [] [s.name, e] s.closing_kind
      (hinner ▸ hgroup) ((first.kind_deepen 1).trans hfirst)
    have hfault := s.balanced_groups (Option.map_eq_none_iff.mp hbalance)
    rw [hrun, List.nil_append, hclosed, s.readOn_name he, hgroup]
    dsimp only
    rw [readGroups_eof he]
    dsimp only
    rw [if_neg (not_not_intro he), show List.reverse _ = s.groups inner from rfl, hfault]

theorem exists_ok_of_any {ε α : Type} {x : Except ε α} {p : α → Bool} (h : x.toOption.any p = true) :
    ∃ a, x = .ok a ∧ p a = true := by
  cases x with
  | error e => cases h
  | ok a => exact ⟨a, rfl, h⟩

/-- The query `SELECT a UNION (SELECT b)` is read alone, but not in parentheses. -/
theorem parseSingle_around_of_union :
    ∃ inner,
      parseSingle ([⟨.keyword .SELECT, "SELECT"⟩, ⟨.ident, "a"⟩, ⟨.keyword .UNION, "UNION"⟩,
        ⟨.openParen, "("⟩, ⟨.keyword .SELECT, "SELECT"⟩, ⟨.ident, "b"⟩, ⟨.closeParen, ")"⟩] ++
          [Token.eof]) = .ok inner ∧
      parseSingle ((Enclosure.spelled "x" "y").around [⟨.keyword .SELECT, "SELECT"⟩, ⟨.ident, "a"⟩,
        ⟨.keyword .UNION, "UNION"⟩, ⟨.openParen, "("⟩, ⟨.keyword .SELECT, "SELECT"⟩, ⟨.ident, "b"⟩,
        ⟨.closeParen, ")"⟩] ++ [Token.eof]) = .error ⟨13, .groupNeverClosed .parens⟩ :=
  (exists_ok_of_any (p := fun inner => inner.getLast?.any (·.kind = .tie)) (by decide +kernel)).imp
    fun _ h => ⟨h.1, (parseSingle_around _ (by decide) rfl ⟨_, rfl, rfl⟩ h.1).trans (if_pos h.2)⟩

end Statement
end SqlLayout
