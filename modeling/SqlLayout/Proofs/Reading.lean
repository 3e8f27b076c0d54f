import SqlLayout.Layout

/-! Reading keeps the tokens. The open frames always hold the tokens that have been read, in their
order; so a group holds the tokens that it was read from, and the groups of a statement hold the
tokens of the statement. Every group begins with the token that opened it, so it can be laid out. -/

namespace SqlLayout
set_option autoImplicit false

namespace Frame

def tokens (f : Frame) : List Token := Element.tokensOf f.elements

def openTokens (top : Frame) : List Frame → List Token
  | [] => top.tokens
  | parent :: rest => openTokens parent rest ++ top.tokens

/-- The tokens that have been read when `t` has been offered, with `t` at the end. -/
def Outcome.tokens (t : Token) : Outcome → List Token
  | .pending top below => openTokens top below
  | .finished g _ taken => g.tokens ++ (if taken then [] else [t])

theorem elements_push (f : Frame) (t : Token) : (f.push t).elements = f.elements ++ [.token t] := by
  simp [elements, push]

theorem elements_attach (f : Frame) (g : Group) (n : Nat) :
    (f.attach g n).elements = f.elements ++ [.group g] := by
  simp [elements, attach]

@[simp] theorem tokens_begin (start indent : Nat) (kind : GroupKind) (t : Token)
    (next : List Token) : (begin start indent kind t next).tokens = [t] := rfl

@[simp] theorem tokens_push (f : Frame) (t : Token) : (f.push t).tokens = f.tokens ++ [t] := by
  simp [tokens, elements, push, Element.tokensOf, Element.tokens]

@[simp] theorem tokens_attach (f : Frame) (g : Group) (n : Nat) :
    (f.attach g n).tokens = f.tokens ++ g.tokens := by
  simp [tokens, elements, attach, Element.tokensOf, Element.tokens]

theorem openTokens_attach (parent : Frame) (g : Group) (n : Nat) (rest : List Frame) :
    openTokens (parent.attach g n) rest = openTokens parent rest ++ g.tokens := by
  cases rest <;> simp [openTokens]

theorem finish_eq {f : Frame} {g : Group} (h : f.finish = .ok g) :
    g = .mk f.finalKind f.elements f.indent := by
  unfold finish at h
  simp only at h
  split at h
  · split at h
    · cases h
    · exact (Except.ok.inj h).symm
  · exact (Except.ok.inj h).symm

theorem finish_tokens {f : Frame} {g : Group} (h : f.finish = .ok g) : g.tokens = f.tokens := by
  rw [finish_eq h]
  rfl

theorem map_ok {ε α β : Type} {x : Except ε α} {f : α → β} {b : β} (h : x.map f = .ok b) :
    ∃ a, x = .ok a ∧ f a = b := by
  cases x with
  | error e => cases h
  | ok a => exact ⟨a, rfl, Except.ok.inj h⟩

/-- The end of the input does not come before the closing token of the frame. -/
def Lasts (f : Frame) (t : Token) : Prop := ¬(f.kind.closing?.isSome && decide (t.kind = .eof)) = true

/-- The closing token of the frame, if it needs one, follows somewhere. -/
def Closable (f : Frame) (next : List Token) : Prop :=
  ∀ closer, f.kind.closing? = some closer → next.any (fun u => decide (u.kind = closer)) = true

/-- All that a frame can make of a token, and when it does so. -/
theorem react_ok_iff {f : Frame} {t : Token} {next : List Token} {r : Reaction} :
    f.react t next = .ok r ↔
      (∃ g, f.endsAt t = true ∧ f.kind.closing? = some t.kind ∧ (f.push t).finish = .ok g ∧
        r = .ends g (f.count + 1) true) ∨
      (∃ g, f.endsAt t = true ∧ f.kind.closing? ≠ some t.kind ∧ f.finish = .ok g ∧
        r = .ends g f.count false) ∨
      (f.endsAt t = false ∧ f.Lasts t ∧ f.nested? t next = none ∧ r = .takes (f.push t)) ∨
      (∃ child, f.endsAt t = false ∧ f.Lasts t ∧ f.nested? t next = some child ∧
        child.Closable next ∧ r = .opens child) := by
  constructor
  · intro h
    unfold react at h
    by_cases hend : f.endsAt t = true
    · rw [if_pos hend] at h
      split at h
      · rename_i hclose
        obtain ⟨g, hg, rfl⟩ := map_ok h
        exact Or.inl ⟨g, hend, hclose, hg, rfl⟩
      · rename_i hclose
        obtain ⟨g, hg, rfl⟩ := map_ok h
        exact Or.inr (Or.inl ⟨g, hend, hclose, hg, rfl⟩)
    · rw [if_neg hend] at h
      have hend' : f.endsAt t = false := by simpa using hend
      split at h
      · cases h
      · rename_i hlasts
        split at h
        · rename_i hnone
          exact Or.inr (Or.inr (Or.inl ⟨hend', hlasts, hnone, (Except.ok.inj h).symm⟩))
        · rename_i child hchild
          refine Or.inr (Or.inr (Or.inr ⟨child, hend', hlasts, hchild, ?_⟩))
          split at h
          · rename_i hclosing
            exact ⟨by simp [Closable, hclosing], (Except.ok.inj h).symm⟩
          · rename_i closer hclosing
            split at h
            · rename_i hany
              exact ⟨by simpa [Closable, hclosing] using hany, (Except.ok.inj h).symm⟩
            · cases h
  · rintro (⟨g, hend, hclose, hg, rfl⟩ | ⟨g, hend, hclose, hg, rfl⟩ | ⟨hend, hlasts, hnone, rfl⟩ |
      ⟨child, hend, hlasts, hchild, hclosable, rfl⟩)
    · rw [react, if_pos hend, if_pos hclose, hg]
      rfl
    · rw [react, if_pos hend, if_neg hclose, hg]
      rfl
    · rw [react, if_neg (by simp [hend]), if_neg hlasts, hnone]
    · rw [react, if_neg (by simp [hend]), if_neg hlasts, hchild]
      dsimp only
      split
      · rfl
      · rename_i closer hclosing
        rw [if_pos (hclosable closer hclosing)]

theorem react_cases {f : Frame} {t : Token} {next : List Token} {r : Reaction}
    (h : f.react t next = .ok r) :
    (∃ g, (f.push t).finish = .ok g ∧ f.kind.closing? = some t.kind ∧
      r = .ends g (f.count + 1) true) ∨
    (∃ g, f.finish = .ok g ∧ f.endsAt t = true ∧ r = .ends g f.count false) ∨
    (f.endsAt t = false ∧ f.nested? t next = none ∧ r = .takes (f.push t)) ∨
    (∃ child, f.endsAt t = false ∧ f.nested? t next = some child ∧ r = .opens child) := by
  obtain ⟨g, _, hclose, hg, rfl⟩ | ⟨g, hend, _, hg, rfl⟩ | ⟨hend, _, hnone, rfl⟩ |
    ⟨child, hend, _, hchild, _, rfl⟩ := react_ok_iff.mp h
  · exact Or.inl ⟨g, hg, hclose, rfl⟩
  · exact Or.inr (Or.inl ⟨g, hg, hend, rfl⟩)
  · exact Or.inr (Or.inr (Or.inl ⟨hend, hnone, rfl⟩))
  · exact Or.inr (Or.inr (Or.inr ⟨child, hend, hchild, rfl⟩))

theorem nested?_eq {f child : Frame} {t : Token} {next : List Token}
    (h : f.nested? t next = some child) :
    ∃ kind, GroupKind.ofStart? t.kind = some kind ∧
      child = begin f.position
        (if t.kind = .openParen && next.head?.any (·.kind = .keyword .SELECT) then f.indent + 1
          else f.indent) kind t next := by
  unfold nested? at h
  split at h
  · cases h
  · obtain ⟨kind, hkind, hchild⟩ := Option.map_eq_some_iff.mp h
    exact ⟨kind, hkind, hchild.symm⟩

theorem nested?_tokens {f child : Frame} {t : Token} {next : List Token}
    (h : f.nested? t next = some child) : child.tokens = [t] := by
  obtain ⟨kind, _, rfl⟩ := nested?_eq h
  exact tokens_begin ..

/-- Induction along the frames that a token is offered to, by what the innermost of them does. -/
theorem offer_induction (t : Token) (next : List Token) {motive : Frame → List Frame → Prop}
    (fails : ∀ top below e, top.react t next = .error e →
      offer t next top below = .error e → motive top below)
    (takes : ∀ top below, offer t next top below = .ok (.pending (top.push t) below) →
      motive top below)
    (opens : ∀ top below child, top.nested? t next = some child →
      offer t next top below = .ok (.pending child (top :: below)) → motive top below)
    (closes : ∀ top parent rest g, (top.push t).finish = .ok g →
      offer t next top (parent :: rest) = .ok (.pending (parent.attach g (top.count + 1)) rest) →
      motive top (parent :: rest))
    (hands : ∀ top parent rest g, top.finish = .ok g →
      offer t next top (parent :: rest) = offer t next (parent.attach g top.count) rest →
      motive (parent.attach g top.count) rest → motive top (parent :: rest))
    (closed : ∀ top g, (top.push t).finish = .ok g →
      offer t next top [] = .ok (.finished g (top.count + 1) true) → motive top [])
    (stopped : ∀ top g, top.finish = .ok g →
      offer t next top [] = .ok (.finished g top.count false) → motive top [])
    (top : Frame) (below : List Frame) : motive top below := by
  induction below generalizing top with
  | nil =>
    cases hr : top.react t next with
    | error e => exact fails top [] e hr (by rw [offer, hr]; rfl)
    | ok r =>
      obtain ⟨g, hg, _, rfl⟩ | ⟨g, hg, _, rfl⟩ | ⟨_, _, rfl⟩ | ⟨child, _, hchild, rfl⟩ :=
        react_cases hr
      · exact closed top g hg (by rw [offer, hr]; rfl)
      · exact stopped top g hg (by rw [offer, hr]; rfl)
      · exact takes top [] (by rw [offer, hr]; rfl)
      · exact opens top [] child hchild (by rw [offer, hr]; rfl)
  | cons parent rest ih =>
    cases hr : top.react t next with
    | error e => exact fails top _ e hr (by rw [offer, hr])
    | ok r =>
      obtain ⟨g, hg, _, rfl⟩ | ⟨g, hg, _, rfl⟩ | ⟨_, _, rfl⟩ | ⟨child, _, hchild, rfl⟩ :=
        react_cases hr
      · exact closes top parent rest g hg (by rw [offer, hr])
      · exact hands top parent rest g hg (by rw [offer, hr]) (ih _)
      · exact takes top _ (by rw [offer, hr])
      · exact opens top _ child hchild (by rw [offer, hr])

theorem offer_tokens {t : Token} {next : List Token} {top : Frame} {below : List Frame}
    {out : Outcome} (h : offer t next top below = .ok out) :
    out.tokens t = openTokens top below ++ [t] := by
  induction top, below using offer_induction t next with
  | fails top below e hr hout => cases hout.symm.trans h
  | takes top below hout =>
    cases hout.symm.trans h
    cases below <;> simp [Outcome.tokens, openTokens]
  | opens top below child hchild hout =>
    cases hout.symm.trans h
    simp [Outcome.tokens, openTokens, nested?_tokens hchild]
  | closes top parent rest g hg hout =>
    cases hout.symm.trans h
    simp [Outcome.tokens, openTokens_attach, openTokens, finish_tokens hg]
  | hands top parent rest g hg hout ih =>
    rw [ih (hout.symm.trans h), openTokens_attach, openTokens, finish_tokens hg]
  | closed top g hg hout =>
    cases hout.symm.trans h
    simp [Outcome.tokens, openTokens, finish_tokens hg]
  | stopped top g hg hout =>
    cases hout.symm.trans h
    simp [Outcome.tokens, openTokens, finish_tokens hg]

theorem readOn_tokens {top : Frame} {below : List Frame} {tokens : List Token} {r : Retrieved}
    (h : top.readOn below tokens = .ok r) :
    openTokens top below ++ tokens = r.group.tokens ++ r.rest := by
  induction tokens generalizing top below with
  | nil => simp [readOn] at h
  | cons t next ih =>
    simp only [readOn] at h
    split at h
    · cases h
    · rename_i top' below' hoffer
      have hstep := offer_tokens hoffer
      simp only [Outcome.tokens] at hstep
      rw [← ih h, hstep, List.append_assoc, List.singleton_append]
    · rename_i g count taken hoffer
      have hstep := offer_tokens hoffer
      simp only [Outcome.tokens] at hstep
      cases h
      rw [← List.singleton_append, ← List.append_assoc, ← hstep]
      cases taken <;> simp

/-- What the frames keep while they are open, and what their groups have when they are finished. -/
structure Keeps (F : Frame → Prop) (G : Group → Prop) : Prop where
  start : ∀ (start indent : Nat) (kind : GroupKind) (t : Token) (next : List Token),
    GroupKind.ofStart? t.kind = some kind → F (begin start indent kind t next)
  push : ∀ (f : Frame) (t : Token), F f → F (f.push t)
  attach : ∀ (f : Frame) (g : Group) (n : Nat), F f → G g → F (f.attach g n)
  finish : ∀ (f : Frame) (g : Group), F f → f.finish = .ok g → G g

/-- What has been reached satisfies what is kept. -/
def Outcome.Satisfies (F : Frame → Prop) (G : Group → Prop) : Outcome → Prop
  | .pending top below => F top ∧ ∀ f ∈ below, F f
  | .finished g _ _ => G g

section Keeping
variable {F : Frame → Prop} {G : Group → Prop}

theorem Keeps.nested (k : Keeps F G) {f child : Frame} {t : Token} {next : List Token}
    (h : f.nested? t next = some child) : F child := by
  obtain ⟨kind, hkind, rfl⟩ := nested?_eq h
  exact k.start _ _ _ _ _ hkind

theorem Keeps.offer (k : Keeps F G) {t : Token} {next : List Token} {top : Frame}
    {below : List Frame} {out : Outcome} (h : offer t next top below = .ok out)
    (htop : F top) (hbelow : ∀ f ∈ below, F f) : out.Satisfies F G := by
  induction top, below using offer_induction t next with
  | fails top below e hr hout => cases hout.symm.trans h
  | takes top below hout =>
    cases hout.symm.trans h
    exact ⟨k.push top t htop, hbelow⟩
  | opens top below child hchild hout =>
    cases hout.symm.trans h
    exact ⟨k.nested hchild, List.forall_mem_cons.mpr ⟨htop, hbelow⟩⟩
  | closes top parent rest g hg hout =>
    cases hout.symm.trans h
    obtain ⟨hparent, hrest⟩ := List.forall_mem_cons.mp hbelow
    exact ⟨k.attach _ _ _ hparent (k.finish _ g (k.push top t htop) hg), hrest⟩
  | hands top parent rest g hg hout ih =>
    obtain ⟨hparent, hrest⟩ := List.forall_mem_cons.mp hbelow
    exact ih (hout.symm.trans h) (k.attach _ _ _ hparent (k.finish _ g htop hg)) hrest
  | closed top g hg hout =>
    cases hout.symm.trans h
    exact k.finish _ g (k.push top t htop) hg
  | stopped top g hg hout =>
    cases hout.symm.trans h
    exact k.finish _ g htop hg

theorem Keeps.readOn (k : Keeps F G) {top : Frame} {below : List Frame} {tokens : List Token}
    {r : Retrieved} (h : top.readOn below tokens = .ok r) (htop : F top)
    (hbelow : ∀ f ∈ below, F f) : G r.group := by
  induction tokens generalizing top below with
  | nil => simp [Frame.readOn] at h
  | cons t next ih =>
    simp only [Frame.readOn] at h
    split at h
    · cases h
    · rename_i top' below' hoffer
      have hstep := k.offer hoffer htop hbelow
      exact ih h hstep.1 hstep.2
    · rename_i g count taken hoffer
      cases h
      exact k.offer hoffer htop hbelow

theorem Keeps.retrieve? (k : Keeps F G) {position indent : Nat} {tokens : List Token}
    {r : Retrieved} (h : Group.retrieve? position indent tokens = some (.ok r)) : G r.group := by
  cases tokens with
  | nil => simp [Group.retrieve?] at h
  | cons t next =>
    obtain ⟨kind, hkind, hr⟩ := Option.map_eq_some_iff.mp h
    exact k.readOn hr (k.start _ _ _ _ _ hkind) (by simp)

end Keeping
end Frame

theorem Group.retrieve?_tokens {position indent : Nat} {tokens : List Token} {r : Retrieved}
    (h : retrieve? position indent tokens = some (.ok r)) :
    tokens = r.group.tokens ++ r.rest := by
  cases tokens with
  | nil => simp [retrieve?] at h
  | cons t next =>
    obtain ⟨kind, _, hr⟩ := Option.map_eq_some_iff.mp h
    exact Frame.readOn_tokens hr

namespace Layout

theorem elementsFault?_eq_none {es : List Element} (h : ∀ e ∈ es, elementFault? e = none) :
    elementsFault? es = none := by
  induction es with
  | nil => rfl
  | cons e es ih =>
    have he := h e List.mem_cons_self
    have hes := ih fun e' he' => h e' (List.mem_cons_of_mem e he')
    simp [elementsFault?, he, hes]

theorem groupFault?_token_cons (kind : GroupKind) (t : Token) (es : List Element) (indent : Nat) :
    groupFault? (.mk kind (.token t :: es) indent) = elementsFault? es := by
  cases kind <;> rfl

theorem keeps_faultless :
    Frame.Keeps (fun f => ∀ e ∈ f.body, elementFault? e = none) (fun g => groupFault? g = none) where
  start := by
    intro start indent kind t next _
    simp [Frame.begin]
  push := by
    intro f t hf e he
    rcases List.mem_cons.mp he with rfl | he
    · rfl
    · exact hf e he
  attach := by
    intro f g n hf hg e he
    rcases List.mem_cons.mp he with rfl | he
    · exact hg
    · exact hf e he
  finish := by
    intro f g hf hg
    rw [Frame.finish_eq hg, Frame.elements, groupFault?_token_cons]
    exact elementsFault?_eq_none fun e he => hf e (List.mem_reverse.mp he)

end Layout

namespace Statement

/-- The tokens of a statement, its semicolon included. -/
def tokens (s : Statement) : List Token := Group.tokensOf s.groups ++ s.terminator.toList

theorem tokensOf_append (gs hs : List Group) :
    Group.tokensOf (gs ++ hs) = Group.tokensOf gs ++ Group.tokensOf hs := by
  simp [Group.tokensOf]

theorem readGroups_next {stage stage' : Stage} {groups : List Group} {position : Nat} {t : Token}
    {ts : List Token} (hnext : stage.next groups.head? position t = .ok (some stage')) :
    readGroups stage groups position (t :: ts) =
      match Group.retrieve? position 0 (t :: ts) with
      | none => .error ⟨position, .noClause t⟩
      | some (.error e) => .error e
      | some (.ok r) => readGroups stage' (r.group :: groups) (position + r.count) r.rest := by
  rw [readGroups, hnext]
  dsimp only
  split <;> simp_all

theorem readGroups_cons {stage stage' : Stage} {groups : List Group} {position : Nat} {t : Token}
    {ts : List Token} {r : Retrieved} (hnext : stage.next groups.head? position t = .ok (some stage'))
    (hr : Group.retrieve? position 0 (t :: ts) = some (.ok r)) :
    readGroups stage groups position (t :: ts) =
      readGroups stage' (r.group :: groups) (position + r.count) r.rest := by
  rw [readGroups_next hnext, hr]

/-- Induction along the groups of a statement that is read: they end, or one more is read. -/
theorem readGroups_induction {all : List Group} {p : Nat} {last : Token}
    {motive : (stage : Stage) → (groups : List Group) → (position : Nat) → (tokens : List Token) →
      readGroups stage groups position tokens = .ok (all, p, last) → Prop}
    (ends : ∀ stage groups ts h, stage.next groups.head? p last = .ok none →
      all = groups.reverse → motive stage groups p (last :: ts) h)
    (reads : ∀ stage groups position t ts stage' r h,
      stage.next groups.head? position t = .ok (some stage') →
      Group.retrieve? position 0 (t :: ts) = some (.ok r) →
      (hmore : readGroups stage' (r.group :: groups) (position + r.count) r.rest = .ok (all, p, last)) →
      motive stage' (r.group :: groups) (position + r.count) r.rest hmore →
      motive stage groups position (t :: ts) h)
    (stage : Stage) (groups : List Group) (position : Nat) (tokens : List Token)
    (h : readGroups stage groups position tokens = .ok (all, p, last)) :
    motive stage groups position tokens h := by
  induction stage, groups, position, tokens using readGroups.induct with
  | case1 stage groups position => exact absurd h (by simp [readGroups])
  | case2 stage groups position t ts e hnext => exact absurd h (by simp [readGroups, hnext])
  | case3 stage groups position t ts hnext =>
    have hout := h
    rw [readGroups, hnext] at hout
    cases hout
    exact ends stage groups ts h hnext rfl
  | case4 stage groups position t ts stage' hnext hr =>
    exact absurd h (by simp [readGroups_next hnext, hr])
  | case5 stage groups position t ts stage' hnext e hr =>
    exact absurd h (by simp [readGroups_next hnext, hr])
  | case6 stage groups position t ts stage' hnext r hr ih =>
    have hmore := h
    rw [readGroups_cons hnext hr] at hmore
    exact reads stage groups position t ts stage' r h hnext hr hmore (ih hmore)

theorem readGroups_tokens {stage : Stage} {groups gs : List Group} {position p : Nat}
    {tokens : List Token} {t : Token}
    (h : readGroups stage groups position tokens = .ok (gs, p, t)) :
    ∃ rest, Group.tokensOf groups.reverse ++ tokens = Group.tokensOf gs ++ t :: rest := by
  induction stage, groups, position, tokens, h using readGroups_induction with
  | ends stage groups ts h hnext hall => exact ⟨ts, by rw [hall]⟩
  | reads stage groups position u ts stage' r h hnext hr hmore ih =>
    obtain ⟨rest, hrest⟩ := ih
    refine ⟨rest, ?_⟩
    rw [← hrest, List.reverse_cons, tokensOf_append, List.append_assoc]
    congr 1
    simpa [Group.tokensOf] using Group.retrieve?_tokens hr

/-- What every group has that is read off a list of tokens, the groups of a statement have. -/
theorem readGroups_forall {G : Group → Prop}
    (hG : ∀ position tokens r, Group.retrieve? position 0 tokens = some (.ok r) → G r.group)
    {stage : Stage} {groups gs : List Group} {position p : Nat} {tokens : List Token} {t : Token}
    (h : readGroups stage groups position tokens = .ok (gs, p, t)) (hgroups : ∀ g ∈ groups, G g) :
    ∀ g ∈ gs, G g := by
  induction stage, groups, position, tokens, h using readGroups_induction with
  | ends stage groups ts h hnext hall => simpa [hall] using hgroups
  | reads stage groups position u ts stage' r h hnext hr hmore ih =>
    exact ih (List.forall_mem_cons.mpr ⟨hG _ _ _ hr, hgroups⟩)

/-- A statement is read when its groups reach the end of the input and its brackets nest. -/
theorem readFrom_ok_iff {base : Nat} {tokens : List Token} {groups : List Group} :
    readFrom base tokens = .ok groups ↔
      (∃ p t, readGroups .start [] base tokens = .ok (groups, p, t) ∧ t.kind = .eof) ∧
        Balance.fault? (Group.tokensOf groups) = none := by
  unfold readFrom
  constructor
  · intro h
    split at h
    · cases h
    · rename_i gs p t hread
      split at h
      · cases h
      · rename_i ht
        split at h
        · cases h
        · rename_i hfault
          cases h
          exact ⟨⟨p, t, hread, Decidable.not_not.mp ht⟩, hfault⟩
  · rintro ⟨⟨p, t, hread, ht⟩, hfault⟩
    simp [hread, ht, hfault]

/-- Groups that reach the end of the input hold all tokens before it. -/
theorem readGroups_body {stage : Stage} {base p : Nat} {body : List Token} {groups : List Group}
    {t : Token} (h : readGroups stage [] base (body ++ [Token.eof]) = .ok (groups, p, t))
    (heof : t.kind = .eof) (hbody : ∀ t ∈ body, t.kind ≠ .eof) : Group.tokensOf groups = body := by
  obtain ⟨rest, hrest⟩ := readGroups_tokens h
  simp only [List.reverse_nil, Group.tokensOf, List.flatMap_nil, List.nil_append] at hrest
  -- the only token of that kind is the last one
  rcases List.append_eq_append_iff.mp hrest with ⟨u, hu, hu'⟩ | ⟨u, hu, hu'⟩
  · cases u with
    | nil => simpa [Group.tokensOf] using hu
    | cons v vs =>
      cases vs <;> simp at hu'
  · cases u with
    | nil => simpa [Group.tokensOf] using hu.symm
    | cons v vs =>
      simp only [List.cons_append, List.cons.injEq] at hu'
      have hmem : t ∈ body := by
        rw [hu, hu'.1]
        simp
      exact absurd heof (hbody t hmem)

theorem readFrom_tokens {base : Nat} {body : List Token} {groups : List Group}
    (h : readFrom base (body ++ [Token.eof]) = .ok groups) (hbody : ∀ t ∈ body, t.kind ≠ .eof) :
    Group.tokensOf groups = body := by
  obtain ⟨⟨p, t, hread, heof⟩, -⟩ := readFrom_ok_iff.mp h
  exact readGroups_body hread heof hbody

theorem readFrom_forall {G : Group → Prop}
    (hG : ∀ position tokens r, Group.retrieve? position 0 tokens = some (.ok r) → G r.group)
    {base : Nat} {tokens : List Token} {groups : List Group} (h : readFrom base tokens = .ok groups) :
    ∀ g ∈ groups, G g := by
  obtain ⟨⟨p, t, hread, -⟩, -⟩ := readFrom_ok_iff.mp h
  exact readGroups_forall hG hread (by simp)

end Statement
end SqlLayout
