import SqlLayout.Proofs.Brackets
import SqlLayout.Proofs.Formatting
import SqlLayout.Proofs.Grammar

/-! Groups and brackets nest alike. A frame never takes an opening parenthesis or a CASE as a plain token,
so every opener begins a group, and that group ends with a closer. In a well-bracketed statement no
closer is left over for a clause, and then each group is delimited by a matching pair. -/

namespace SqlLayout
set_option autoImplicit false
open Balance

/-- Tokens that open the groups that need a closing token. -/
def TokenKind.opensPair : TokenKind → Bool
  | .openParen | .keyword .CASE => true
  | _ => false

def TokenKind.closesPair : TokenKind → Bool
  | .closeParen | .keyword .END => true
  | _ => false

def TokenKind.delimits (k : TokenKind) : Bool := k.opensPair || k.closesPair

/-- The kinds of the tokens that open a group that needs a closing token, the name of a call among
them. -/
def GroupKind.opening : GroupKind → List TokenKind
  | .caseExpr => [.keyword .CASE]
  | .call => [.function, .openParen]
  | .typeCall => [.type, .openParen]
  | .parens | .subquery => [.openParen]
  | _ => []

/-- What opens a group: a clause keyword, the opener itself, or the name of a call. -/
theorem GroupKind.opening_cases : ∀ k, ∀ kind ∈ ofStart? k,
    (kind.opening = [] ∧ k.opensPair = false) ∨ kind.opening = [k] ∨
      ((kind = .call ∨ kind = .typeCall) ∧ kind.opening = [k, .openParen]) := by
  decide +kernel

/-- The group and all groups in it are delimited by their opening and closing tokens. What stands
between these satisfies `inside`, and no other token directly in a group is barred. -/
inductive Group.Paired (bars : TokenKind → Bool) (inside : List TokenKind → Prop) : Group → Prop
  | mk {kind : GroupKind} {lead tail : List Token} {inner : List Element} {indent : Nat}
      (hlead : lead.map Token.kind = kind.opening)
      (htail : tail.map Token.kind = kind.closing?.toList)
      (hinside : kind.closing?.isSome = true → inside ((Element.tokensOf inner).map Token.kind))
      (htokens : ∀ t, .token t ∈ inner → bars t.kind = false)
      (hgroups : ∀ g, .group g ∈ inner → Paired bars inside g) :
      Paired bars inside (.mk kind (lead.map .token ++ inner ++ tail.map .token) indent)

/-- Every opener opens a group, but closers may stand anywhere. -/
abbrev Group.Opened : Group → Prop := Group.Paired TokenKind.opensPair fun _ => True

/-- Every name of a function is followed by a parenthesis. -/
def Called (ts : List Token) : Prop :=
  ts.IsChain fun t u => t.kind = .function → u.kind = .openParen

namespace Frame

/-- How far a frame has come: the name of a call has been read, and its parenthesis follows, or all
tokens have been read that open the group. -/
inductive Forms (f : Frame) : List Token → Prop
  | named {t : Token} {next : List Token} (hcall : f.kind = .call ∨ f.kind = .typeCall)
      (hbody : f.body = []) (hcount : f.count = 1)
      (hopening : [f.opener.kind, .openParen] = f.kind.opening) (hnext : t.kind = .openParen) :
      Forms f (t :: next)
  | inside {tokens : List Token} (lead : List Token) (inner : List Element)
      (helements : f.elements = lead.map .token ++ inner)
      (hlead : lead.map Token.kind = f.kind.opening)
      (hcount : f.kind = .call ∨ f.kind = .typeCall → 2 ≤ f.count)
      (htokens : ∀ t, .token t ∈ inner → t.kind.opensPair = false)
      (hgroups : ∀ g, .group g ∈ inner → g.Opened) : Forms f tokens

section Forms
variable {f : Frame} {t : Token} {next tokens : List Token}

theorem forms_begin {start indent : Nat} {kind : GroupKind}
    (hstart : GroupKind.ofStart? t.kind = some kind)
    (hcall : kind = .call ∨ kind = .typeCall → ∃ u ∈ next.head?, u.kind = .openParen) :
    (begin start indent kind t next).Forms next := by
  have hlength : kind = .call ∨ kind = .typeCall → kind.opening.length = 2 := by
    rintro (rfl | rfl) <;> rfl
  obtain ⟨hopening, hopens⟩ | hopening | ⟨hkind, hopening⟩ :=
    GroupKind.opening_cases t.kind kind hstart
  · refine .inside [] [.token t] rfl hopening.symm (fun hkind => ?_) (by simpa using hopens) (by simp)
    exact absurd (hlength hkind) (by simp [hopening])
  · refine .inside [t] [] rfl hopening.symm (fun hkind => ?_) (by simp) (by simp)
    exact absurd (hlength hkind) (by simp [hopening])
  · obtain ⟨u, hu, hparen⟩ := hcall hkind
    obtain ⟨next, rfl⟩ : ∃ rest, next = u :: rest := by
      cases next <;> simp_all
    exact .named hkind rfl rfl hopening.symm hparen

theorem exists_nested (next : List Token) (hopens : t.kind.opensPair = true)
    (hcount : f.kind = .call ∨ f.kind = .typeCall → 2 ≤ f.count) :
    ∃ child, f.nested? t next = some child := by
  have hkind : t.kind = .openParen ∨ t.kind = .keyword .CASE := by
    revert hopens
    unfold TokenKind.opensPair
    split <;> simp [*]
  have hstays : f.staysPlain t next = false := by
    unfold staysPlain
    split
    · obtain hkind | hkind := hkind <;> simp_all [TokenKind.isLineStart] 
      omega
    · obtain hkind | hkind := hkind <;> simp_all [TokenKind.isLineStart]
      omega
    · obtain hkind | hkind := hkind <;> simp_all [TokenKind.isLineStart]
    · obtain hkind | hkind := hkind <;> simp_all [TokenKind.isLineStart]
  have hjoin : f.inJoinStart t = false := by
    obtain hkind | hkind := hkind <;> simp [inJoinStart, hkind, TokenKind.isJoinStart]
  obtain hkind | hkind := hkind <;>
    simp [nested?, hstays, hjoin, hkind, TokenKind.isGroupMaker, GroupKind.ofStart?]

theorem Forms.push (h : f.Forms (t :: next)) (hplain : f.nested? t next = none) :
    (f.push t).Forms next := by
  cases h with
  | named hcall hbody hcount hopening hnext =>
    refine .inside [f.opener, t] [] ?_ ?_ ?_ (by simp) (by simp)
    · simp [elements, Frame.push, hbody]
    · simp [Frame.push, ← hopening, hnext]
    · simp [Frame.push, hcount]
  | @inside _ lead inner helements hlead hcount htokens hgroups =>
    refine .inside lead (inner ++ [.token t]) ?_ hlead ?_ ?_ (by simpa using hgroups)
    · rw [elements_push, helements, List.append_assoc]
    · exact fun hkind => Nat.le_succ_of_le (hcount hkind)
    · intro u hu
      obtain hu | hu := List.mem_append.mp hu
      · exact htokens u hu
      · obtain rfl : u = t := by simpa using hu
        by_contra hopens
        obtain ⟨child, hchild⟩ := exists_nested next (by simpa using hopens) hcount
        exact absurd hplain (by simp [hchild])

theorem Forms.attach {child : Frame} {g : Group} {m : Nat} {left : List Token}
    (h : f.Forms (t :: next)) (hnested : f.nested? t next = some child) (hg : g.Opened) :
    (f.attach g m).Forms left := by
  cases h with
  | named hcall hbody hcount hopening hnext =>
    have hstays : f.staysPlain t next = true := by
      obtain hcall | hcall := hcall <;> simp [staysPlain, hcall, hcount, hnext]
    simp [nested?, hstays] at hnested
  | @inside _ lead inner helements hlead hcount htokens hgroups =>
    refine .inside lead (inner ++ [.group g]) ?_ hlead ?_ (by simpa using htokens) ?_
    · rw [elements_attach, helements, List.append_assoc]
    · exact fun hkind => Nat.le_add_right_of_le (hcount hkind)
    · intro g' hg'
      obtain hg' | hg' := List.mem_append.mp hg'
      · exact hgroups g' hg'
      · obtain rfl : g' = g := by simpa using hg'
        exact hg

theorem opening_finalKind (f : Frame) :
    f.finalKind.opening = f.kind.opening ∧ f.finalKind.closing? = f.kind.closing? := by
  obtain hkind | ⟨hparens, hsubquery⟩ := f.finalKind_cases
  · rw [hkind]
    exact ⟨rfl, rfl⟩
  · rw [hparens, hsubquery]
    exact ⟨rfl, rfl⟩

theorem opened_of_finish (tail : List Token) {g : Group} {lead : List Token} {inner : List Element}
    (hfinish : f.finish = .ok g) (helements : f.elements = lead.map .token ++ inner ++ tail.map .token)
    (hlead : lead.map Token.kind = f.kind.opening)
    (htail : tail.map Token.kind = f.kind.closing?.toList)
    (htokens : ∀ t, .token t ∈ inner → t.kind.opensPair = false)
    (hgroups : ∀ g, .group g ∈ inner → g.Opened) : g.Opened := by
  obtain ⟨hopening, hclosing⟩ := f.opening_finalKind
  rw [finish_eq hfinish, helements]
  exact .mk (hlead.trans hopening.symm) (htail.trans (by rw [hclosing])) (fun _ => trivial) htokens
    hgroups

end Forms

/-- The parenthesis behind the name of a call is there when the call is opened. -/
theorem paren_of_nested {f child : Frame} {t : Token} {next : List Token}
    (hcalled : Called (t :: next)) (h : f.nested? t next = some child)
    (hnext : next ≠ []) (hkind : child.kind = .call ∨ child.kind = .typeCall) :
    ∃ u ∈ next.head?, u.kind = .openParen := by
  have hopened {kind : GroupKind} (hkind : child.kind = kind) : kind.OpenedBy t.kind := by
    obtain ⟨kind', hstart, rfl⟩ := nested?_eq h
    exact Or.inl (hkind ▸ hstart)
  obtain hkind | hkind := hkind
  · have hfunction : t.kind = .function := ((hopened hkind).eq_opener_iff .call rfl).mpr rfl
    obtain ⟨u, rest, rfl⟩ := List.exists_cons_of_ne_nil hnext
    exact ⟨u, rfl, hcalled.rel_head? rfl hfunction⟩
  · -- the name of a type opens a group only before a parenthesis
    have htype : t.kind = .type := ((hopened hkind).eq_opener_iff .typeCall rfl).mpr rfl
    have hstays : f.staysPlain t next = false := by
      by_contra hstays
      simp [nested?, hstays] at h
    simp only [staysPlain, htype, Bool.or_eq_false_iff] at hstays
    simpa [Option.any_eq_true] using hstays.1.2

theorem Reads.opened_groups {f : Frame} {tokens rest : List Token} {g : Group} {n : Nat}
    (h : f.Reads tokens g n rest) (hforms : f.Forms tokens) (hcalled : Called tokens) : g.Opened := by
  induction h with
  | @close f t next g hend hclosing hfinish =>
    cases hforms with
    | named hcall hbody hcount hopening hnext =>
      rw [hnext] at hclosing
      obtain hcall | hcall := hcall <;> simp [hcall, GroupKind.closing?] at hclosing
    | inside lead inner helements hlead hcount htokens hgroups =>
      refine opened_of_finish [t] hfinish ?_ hlead ?_ htokens hgroups
      · rw [elements_push, helements]
        rfl
      · exact (congrArg Option.toList hclosing).symm
  | @stop f t next g hend hclosing hfinish =>
    have hnone := closing?_of_stop hend hclosing
    cases hforms with
    | named hcall hbody hcount hopening hnext =>
      obtain hcall | hcall := hcall <;> simp [hcall, GroupKind.closing?] at hnone
    | inside lead inner helements hlead hcount htokens hgroups =>
      refine opened_of_finish [] hfinish ?_ hlead ?_ htokens hgroups
      · rw [helements, List.map_nil, List.append_nil]
      · rw [hnone]
        rfl
  | take hend hlasts hplain _ ih => exact ih (hforms.push hplain) hcalled.tail
  | @nest f child t next left rest inner g m n hend hlasts hnested hclosable hinner hmore ih ih' =>
    obtain ⟨kind, hstart, rfl⟩ := nested?_eq hnested
    have hnext : next ≠ [] := by
      rintro rfl
      cases hinner
    have hgroup := ih (forms_begin hstart (paren_of_nested hcalled hnested hnext)) hcalled.tail
    exact ih' (hforms.attach hnested hgroup) (hcalled.tail.suffix hinner.suffix)

end Frame

/-- What every clause has that is read where `P` holds of the tokens to come, the groups of a statement
have. -/
theorem Statement.readGroups_clauses {P : List Token → Prop} {G : Group → Prop}
    (hsuffix : ∀ {ts us : List Token}, us <:+ ts → P ts → P us)
    (hclause : ∀ {position n : Nat} {kind : GroupKind} {t : Token} {next rest : List Token} {g : Group},
      P (t :: next) → GroupKind.ofStart? t.kind = some kind → kind.closing? = none →
      (Frame.begin position 0 kind t next).Reads next g n rest → G g)
    {stage : Stage} {groups all : List Group} {position p : Nat} {tokens : List Token} {t : Token}
    (horderly : stage.Orderly) (h : readGroups stage groups position tokens = .ok (all, p, t))
    (htokens : P tokens) (hgroups : ∀ g ∈ groups, G g) : ∀ g ∈ all, G g := by
  induction stage, groups, position, tokens, h using readGroups_induction with
  | ends stage groups ts h hnext hall => simpa [hall] using hgroups
  | reads stage groups position u ts stage' r h hnext hr hmore ih =>
    obtain ⟨_, next, kind, hcons, hstart, hreads⟩ := Group.retrieve?_ok_iff.mp hr
    obtain ⟨rfl, rfl⟩ := List.cons.inj hcons
    have hfollows := Stage.follows_of_next horderly (Or.inl hstart) (Stage.next_eq_some_iff.mp hnext).2
    have hgroup := hclause htokens hstart hfollows.closing hreads
    exact ih hfollows.orderly (hsuffix (hreads.suffix.trans (List.suffix_cons u ts)) htokens)
      (List.forall_mem_cons.mpr ⟨hgroup, hgroups⟩)

theorem Statement.readGroups_opened {stage : Stage} {groups all : List Group} {position p : Nat}
    {tokens : List Token} {t : Token} (horderly : stage.Orderly)
    (h : readGroups stage groups position tokens = .ok (all, p, t)) (hcalled : Called tokens)
    (hgroups : ∀ g ∈ groups, g.Opened) : ∀ g ∈ all, g.Opened := by
  refine readGroups_clauses (P := Called) (fun hsuffix hcalled => hcalled.suffix hsuffix) ?_ horderly h
    hcalled hgroups
  intro position n kind u next rest g hcalled hstart hclosing hreads
  have hcall : ¬(kind = .call ∨ kind = .typeCall) := by
    rintro (rfl | rfl) <;> cases hclosing
  exact hreads.opened_groups (Frame.forms_begin hstart fun h => absurd h hcall) hcalled.tail

section Counting

theorem TokenKind.opensPair_iff {k : TokenKind} :
    k.opensPair = true ↔ k = .openParen ∨ k = .keyword .CASE := by
  unfold opensPair
  split <;> simp_all

theorem TokenKind.closesPair_iff {k : TokenKind} :
    k.closesPair = true ↔ k = .closeParen ∨ k = .keyword .END := by
  unfold closesPair
  split <;> simp_all

/-- An opener of a group awaits a closer of a group, and no other opener does. -/
theorem Balance.closesPair_of_closer? {k c : TokenKind} (h : closer? k = some c) :
    c.closesPair = k.opensPair ∧ k.closesPair = false ∧ c.opensPair = false := by
  unfold closer? at h
  split at h <;> cases h <;> decide

def openers (ts : List Token) : Nat := ts.countP fun t => t.kind.opensPair

def closers (ts : List Token) : Nat := ts.countP fun t => t.kind.closesPair

theorem Balance.WellBracketed.countP_eq {ks : List TokenKind} (h : WellBracketed ks) :
    ks.countP TokenKind.opensPair = ks.countP TokenKind.closesPair := by
  induction h with
  | nil => rfl
  | @plain k ks hopener hcloser _ ih =>
    have hopens : ¬k.opensPair = true := by
      rw [TokenKind.opensPair_iff]
      rintro (rfl | rfl) <;> cases hopener
    have hcloses : ¬k.closesPair = true := by
      rw [TokenKind.closesPair_iff]
      rintro (rfl | rfl) <;> cases hcloser
    rw [List.countP_cons_of_neg hopens, List.countP_cons_of_neg hcloses, ih]
  | @pair o c inner rest hpair _ _ ih ih' =>
    obtain ⟨hcloses, ho, hc⟩ := closesPair_of_closer? hpair
    simp only [List.countP_cons, List.countP_append, ih, ih', hcloses, ho, hc]
    omega

theorem Balance.WellBracketed.openers_eq {ts : List Token} (h : WellBracketed (ts.map Token.kind)) :
    openers ts = closers ts := by
  have hcount := h.countP_eq
  rwa [List.countP_map, List.countP_map] at hcount

/-- No closer stands alone: each is the last token of a group. -/
abbrev Group.Closed : Group → Prop := Group.Paired TokenKind.delimits fun _ => True

def Element.Closed : Element → Prop
  | .token t => t.kind.delimits = false
  | .group g => g.Closed

theorem openers_append (ts us : List Token) : openers (ts ++ us) = openers ts + openers us :=
  List.countP_append

theorem closers_append (ts us : List Token) : closers (ts ++ us) = closers ts + closers us :=
  List.countP_append

/-- Elements have no more openers than closers, and as many only if no closer stands alone. -/
theorem closed_elements {es : List Element}
    (h : ∀ e ∈ es, openers e.tokens ≤ closers e.tokens ∧
      (openers e.tokens = closers e.tokens → e.Closed)) :
    openers (Element.tokensOf es) ≤ closers (Element.tokensOf es) ∧
      (openers (Element.tokensOf es) = closers (Element.tokensOf es) → ∀ e ∈ es, e.Closed) := by
  induction es with
  | nil => exact ⟨Nat.le_refl _, by simp⟩
  | cons e es ih =>
    obtain ⟨hhead, htail⟩ := List.forall_mem_cons.mp h
    obtain ⟨hle, heq⟩ := ih htail
    simp only [Element.tokensOf, openers_append, closers_append]
    refine ⟨by omega, fun hsum => List.forall_mem_cons.mpr ⟨hhead.2 (by omega), heq (by omega)⟩⟩

theorem closed_token {t : Token} (hopens : t.kind.opensPair = false) :
    openers [t] ≤ closers [t] ∧ (openers [t] = closers [t] → (Element.token t).Closed) := by
  cases hcloses : t.kind.closesPair <;>
    simp [openers, closers, hopens, hcloses, Element.Closed, TokenKind.delimits]

/-- The opening tokens of a group hold as many openers as its closing token is one. -/
theorem GroupKind.countP_opening (kind : GroupKind) :
    kind.opening.countP TokenKind.opensPair = kind.closing?.toList.countP TokenKind.closesPair ∧
      kind.opening.countP TokenKind.closesPair = 0 ∧
      kind.closing?.toList.countP TokenKind.opensPair = 0 := by
  revert kind
  decide

theorem tokensOf_map_token (ts : List Token) : Element.tokensOf (ts.map .token) = ts := by
  induction ts with
  | nil => rfl
  | cons t ts ih => simp [Element.tokensOf, Element.tokens, ih]

theorem openers_eq {ts : List Token} {ks : List TokenKind} (h : ts.map Token.kind = ks) :
    openers ts = ks.countP TokenKind.opensPair ∧ closers ts = ks.countP TokenKind.closesPair := by
  rw [← h, List.countP_map, List.countP_map]
  exact ⟨rfl, rfl⟩

/-- A group has no more openers than closers, and as many only if no closer stands alone. -/
theorem Group.Opened.closed {g : Group} (h : g.Opened) :
    openers g.tokens ≤ closers g.tokens ∧ (openers g.tokens = closers g.tokens → g.Closed) := by
  induction h with
  | @mk kind lead tail inner indent hlead htail _ htokens hgroups ih =>
    have hinner := @closed_elements inner fun
      | .token t, ht => closed_token (htokens t ht)
      | .group g, hg => ih g hg
    have hcount := kind.countP_opening
    simp only [← openers_eq hlead, ← openers_eq htail] at hcount
    simp only [Group.tokens, Element.tokensOf_append, tokensOf_map_token, openers_append,
      closers_append]
    refine ⟨by omega, fun hsum => ?_⟩
    have hclosed := hinner.2 (by omega)
    exact .mk hlead htail (fun _ => trivial) (fun t ht => hclosed _ ht) fun g hg => hclosed _ hg

end Counting

section Settling

/-- Closers of brackets and braces, which close no group. -/
def Soft (awaited : List TokenKind) : Prop := ∀ c ∈ awaited, c.closesPair = false

/-- The innermost awaited closer, if there is one, closes a group. -/
def Guarded (awaited : List TokenKind) : Prop := ∀ c ∈ awaited.head?, c.closesPair = true

/-- Reading the kinds with awaited brackets above a guarded stack leaves that stack alone. -/
def Shielded (ks : List TokenKind) : Prop :=
  ∀ ⦃above below awaited⦄, Soft above → Guarded below → settle (above ++ below) ks = some awaited →
    ∃ above', Soft above' ∧ awaited = above' ++ below ∧ settle above ks = some above'

theorem Shielded.append {ks ls : List TokenKind} (hks : Shielded ks) (hls : Shielded ls) :
    Shielded (ks ++ ls) := by
  intro above below awaited habove hbelow h
  rw [settle_append, Option.bind_eq_some_iff] at h
  obtain ⟨middle, hmiddle, h⟩ := h
  obtain ⟨above', habove', rfl, hks⟩ := hks habove hbelow hmiddle
  obtain ⟨above'', habove'', rfl, hls⟩ := hls habove' hbelow h
  exact ⟨above'', habove'', rfl, by rw [settle_append, hks, Option.bind_some, hls]⟩

theorem shielded_nil : Shielded [] := by
  intro above below awaited habove _ h
  cases h
  exact ⟨above, habove, rfl, rfl⟩

theorem shielded_token {k : TokenKind} (hk : k.delimits = false) : Shielded [k] := by
  obtain ⟨hopens, hcloses⟩ := Bool.or_eq_false_iff.mp hk
  intro above below awaited habove hbelow h
  cases hopener : closer? k with
  | some c =>
    rw [settle_opener hopener] at h ⊢
    cases h
    refine ⟨c :: above, List.forall_mem_cons.mpr ⟨?_, habove⟩, rfl, rfl⟩
    rw [(closesPair_of_closer? hopener).1, hopens]
  | none =>
    cases hcloser : isCloser k with
    | false =>
      rw [settle_plain hopener hcloser] at h ⊢
      cases h
      exact ⟨above, habove, rfl, rfl⟩
    | true =>
      rw [settle_closer hopener hcloser] at h ⊢
      cases above with
      | nil =>
        -- the bracket would have to match a closer of a group
        cases below with
        | nil => cases h
        | cons c below =>
          simp only [List.nil_append, Option.ite_none_right_eq_some] at h
          have hc := hbelow c rfl
          rw [h.1, hcloses] at hc
          cases hc
      | cons c above =>
        simp only [List.cons_append, Option.ite_none_right_eq_some] at h
        obtain ⟨rfl, h⟩ := h
        cases h
        exact ⟨above, (List.forall_mem_cons.mp habove).2, rfl, by simp [settle]⟩

/-- The opening tokens of a group let its closing token be awaited. -/
theorem settle_opening {kind : GroupKind} {c : TokenKind} (h : kind.closing? = some c)
    (awaited : List TokenKind) :
    settle awaited kind.opening = some (c :: awaited) ∧ c.closesPair = true ∧ closer? c = none ∧
      isCloser c = true := by
  cases kind <;> cases h <;> exact ⟨rfl, rfl, rfl, rfl⟩

theorem opening_of_clause {kind : GroupKind} (h : kind.closing? = none) : kind.opening = [] := by
  revert h
  revert kind
  decide

theorem settle_pair {kind : GroupKind} {c : TokenKind} {inner : List TokenKind}
    (hclosing : kind.closing? = some c) (hinner : Shielded inner) {above below awaited : List TokenKind}
    (h : settle (above ++ below) (kind.opening ++ inner ++ [c]) = some awaited) :
    WellBracketed inner ∧ awaited = above ++ below ∧
      settle above (kind.opening ++ inner ++ [c]) = some above := by
  obtain ⟨hopening, hc, hopener, hcloser⟩ := settle_opening hclosing (above ++ below)
  rw [settle_append, settle_append, hopening, Option.bind_some, Option.bind_eq_some_iff] at h
  obtain ⟨middle, hmiddle, h⟩ := h
  obtain ⟨above', habove', rfl, hsettled⟩ :=
    @hinner [] _ _ (by simp [Soft]) (by simpa [Guarded] using hc) hmiddle
  rw [settle_closer hopener hcloser] at h
  cases above' with
  | nil =>
    have hwell : WellBracketed inner := wellBracketed_iff.mpr hsettled
    simp only [List.nil_append, if_true, settle, Option.some.injEq] at h
    refine ⟨hwell, h.symm, ?_⟩
    rw [settle_append, settle_append, (settle_opening hclosing above).1, Option.bind_some,
      hwell.settle, Option.bind_some, settle_closer hopener hcloser]
    simp [settle]
  | cons b above' =>
    -- a bracket inside would stay open
    simp only [List.cons_append, Option.ite_none_right_eq_some] at h
    have hb := habove' b List.mem_cons_self
    rw [h.1, hc] at hb
    cases hb

theorem shielded_elements {es : List Element}
    (h : ∀ e ∈ es, Shielded (e.tokens.map Token.kind)) :
    Shielded ((Element.tokensOf es).map Token.kind) := by
  induction es with
  | nil => exact shielded_nil
  | cons e es ih =>
    obtain ⟨hhead, htail⟩ := List.forall_mem_cons.mp h
    rw [Element.tokensOf, List.map_append]
    exact hhead.append (ih htail)

theorem Group.Closed.shielded {g : Group} (h : g.Closed) : Shielded (g.tokens.map Token.kind) := by
  induction h with
  | @mk kind lead tail inner indent hlead htail _ htokens hgroups ih =>
    have hinner := @shielded_elements inner fun
      | .token t, ht => shielded_token (htokens t ht)
      | .group g, hg => ih g hg
    simp only [Group.tokens, Element.tokensOf_append, tokensOf_map_token, List.map_append, hlead, htail]
    cases hclosing : kind.closing? with
    | none => simpa [opening_of_clause hclosing] using hinner
    | some c =>
      intro above below awaited habove _ h
      obtain ⟨-, hawaited, hsettled⟩ := settle_pair hclosing hinner h
      exact ⟨above, habove, hawaited, hsettled⟩

/-- The closers that are awaited before an element among others. -/
theorem exists_settle_of_mem {es : List Element} (h : ∀ e ∈ es, Shielded (e.tokens.map Token.kind))
    {above below awaited : List TokenKind} (habove : Soft above) (hbelow : Guarded below)
    (hsettled : settle (above ++ below) ((Element.tokensOf es).map Token.kind) = some awaited) :
    ∀ e ∈ es, ∃ above' awaited', Soft above' ∧
      settle (above' ++ below) (e.tokens.map Token.kind) = some awaited' := by
  induction es generalizing above with
  | nil => simp
  | cons e es ih =>
    obtain ⟨hhead, htail⟩ := List.forall_mem_cons.mp h
    rw [Element.tokensOf, List.map_append, settle_append, Option.bind_eq_some_iff] at hsettled
    obtain ⟨middle, hmiddle, hsettled⟩ := hsettled
    obtain ⟨above', habove', rfl, -⟩ := hhead habove hbelow hmiddle
    exact List.forall_mem_cons.mpr ⟨⟨above, _, habove, hmiddle⟩, ih htail habove' hsettled⟩

/-- The group and all groups in it are delimited by matching pairs. -/
abbrev Group.Matched : Group → Prop := Group.Paired TokenKind.delimits WellBracketed

theorem Group.Closed.matched {g : Group} (h : g.Closed) {above below awaited : List TokenKind}
    (habove : Soft above) (hbelow : Guarded below)
    (hsettled : settle (above ++ below) (g.tokens.map Token.kind) = some awaited) : g.Matched := by
  induction h generalizing above below awaited with
  | @mk kind lead tail inner indent hlead htail _ htokens hgroups ih =>
    have hshielded : ∀ e ∈ inner, Shielded (e.tokens.map Token.kind) := fun
      | .token t, ht => shielded_token (htokens t ht)
      | .group g, hg => Group.Closed.shielded (hgroups g hg)
    simp only [Group.tokens, Element.tokensOf_append, tokensOf_map_token, List.map_append, hlead, htail]
      at hsettled
    cases hclosing : kind.closing? with
    | none =>
      rw [hclosing, opening_of_clause hclosing, Option.toList_none, List.nil_append, List.append_nil]
        at hsettled
      refine .mk hlead htail (by simp [hclosing]) htokens fun g hg => ?_
      obtain ⟨above', awaited', habove', h⟩ :=
        exists_settle_of_mem hshielded habove hbelow hsettled _ hg
      exact ih g hg habove' hbelow h
    | some c =>
      rw [hclosing] at hsettled
      obtain ⟨hwell, -, -⟩ := settle_pair hclosing (shielded_elements hshielded) hsettled
      refine .mk hlead htail (fun _ => hwell) htokens fun g hg => ?_
      obtain ⟨above', awaited', habove', h⟩ :=
        @exists_settle_of_mem _ hshielded [] [] _ (by simp [Soft]) (by simp [Guarded]) hwell.settle _ hg
      exact ih g hg habove' (by simp [Guarded]) h

theorem tokensOf_map_group (groups : List Group) :
    Element.tokensOf (groups.map .group) = Group.tokensOf groups := by
  rw [Element.tokensOf_eq_flatMap, List.flatMap_map, Group.tokensOf]
  rfl

/-- If every opener opens a group, the groups of a well-bracketed statement are delimited by matching
pairs. -/
theorem matched_of_wellBracketed {groups : List Group} (hopened : ∀ g ∈ groups, g.Opened)
    (hwell : WellBracketed ((Group.tokensOf groups).map Token.kind)) : ∀ g ∈ groups, g.Matched := by
  rw [← tokensOf_map_group] at hwell
  have hclosed : ∀ g ∈ groups, g.Closed := by
    have hcount := @closed_elements (groups.map .group) (by
      simpa [Element.Closed, Element.tokens] using fun g hg => Group.Opened.closed (hopened g hg))
    intro g hg
    exact hcount.2 hwell.openers_eq (.group g) (List.mem_map_of_mem hg)
  have hsettled := @exists_settle_of_mem (groups.map .group) (by
    simpa [Element.tokens] using fun g hg => Group.Closed.shielded (hclosed g hg)) [] [] _
      (by simp [Soft]) (by simp [Guarded]) hwell.settle
  intro g hg
  obtain ⟨above, awaited, habove, h⟩ := hsettled (.group g) (List.mem_map_of_mem hg)
  exact Group.Closed.matched (hclosed g hg) habove (by simp [Guarded]) h

end Settling

end SqlLayout
