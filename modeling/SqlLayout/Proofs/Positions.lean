import SqlLayout.Proofs.Grammar
import SqlLayout.Proofs.Shifting

/-! Where errors stand. The open frames are aligned: a frame begins where the frame below has come to, and
the innermost stands before the next token. So an error points at a token that is there, and the statements
of a script are read one by one, with positions that count from the start of the script. -/

namespace SqlLayout
set_option autoImplicit false

theorem Statement.endsWithEof_cons {t : Token} {next : List Token} (h : endsWithEof (t :: next) = true) :
    (next = [] ∧ t.kind = .eof) ∨ endsWithEof next = true := by
  cases next with
  | nil =>
    left
    simpa [endsWithEof] using h
  | cons u next =>
    right
    rwa [endsWithEof, List.getLast?_cons_cons] at h

theorem GroupKind.closing?_ne_eof (kind : GroupKind) : kind.closing? ≠ some .eof := by
  cases kind <;> simp [closing?]

namespace Frame
variable {f : Frame} {t : Token} {next tokens : List Token} {e : ParseError}

/-- Every element has taken a token at least. -/
def Counted (f : Frame) : Prop := f.elements.length ≤ f.count

/-- The frames, from the innermost on, stand before the token at index `p`. -/
def Aligned (p : Nat) : Frame → List Frame → Prop
  | f, [] => f.Counted ∧ f.position = p
  | f, parent :: rest => f.Counted ∧ f.position = p ∧ Aligned f.start parent rest

theorem Aligned.counted {p : Nat} {below : List Frame} (h : f.Aligned p below) : f.Counted := by
  cases below <;> exact h.1

theorem Aligned.position {p : Nat} {below : List Frame} (h : f.Aligned p below) : f.position = p := by
  cases below with
  | nil => exact h.2
  | cons => exact h.2.1

theorem counted_begin (start indent : Nat) (kind : GroupKind) (t : Token) (next : List Token) :
    (begin start indent kind t next).Counted := Nat.le_refl 1

theorem Counted.push (h : f.Counted) (t : Token) : (f.push t).Counted := by
  unfold Counted at h ⊢
  rw [elements_push, List.length_append]
  exact Nat.add_le_add_right h 1

theorem Counted.attach (h : f.Counted) (g : Group) {n : Nat} (hn : 0 < n) : (f.attach g n).Counted := by
  unfold Counted at h ⊢
  rw [elements_attach, List.length_append]
  exact Nat.add_le_add h hn

theorem Counted.pos (h : f.Counted) : 0 < f.count :=
  Nat.lt_of_lt_of_le (by simp [elements]) h

theorem finish_of_closing {c : TokenKind} (h : f.kind.closing? = some c) :
    f.finish = .ok (.mk f.finalKind f.elements f.indent) := by
  have hnone : leadingKeywords? f.finalKind f.elements = none := by
    have hclosing := f.closing?_finalKind
    rw [h] at hclosing
    cases hkind : f.finalKind <;> simp [hkind, GroupKind.closing?] at hclosing <;> rfl
  unfold finish
  dsimp only
  rw [hnone]

/-- An operand is missed before the token that ends the clause. -/
theorem finish_error (hf : f.Counted) (h : f.finish = .error e) : e.position ≤ f.position := by
  unfold finish at h
  dsimp only at h
  split at h
  · split at h
    · cases h
      exact Nat.add_le_add_left hf _
    · cases h
  · cases h

/-- What a frame cannot make of a token shows at the token or before it. -/
theorem react_error (hf : f.Counted) (h : f.react t next = .error e) : e.position ≤ f.position := by
  unfold react at h
  split at h
  · split at h
    · rename_i hclosing
      rw [finish_of_closing (f := f.push t) hclosing] at h
      cases h
    · cases hfinish : f.finish with
      | error e' =>
        rw [hfinish] at h
        cases h
        exact finish_error hf hfinish
      | ok g =>
        rw [hfinish] at h
        cases h
  · split at h
    · cases h
      exact Nat.le_refl _
    · split at h
      · cases h
      · split at h
        · cases h
        · split at h
          · cases h
          · cases h
            exact Nat.le_refl _

section Aligned
variable {below : List Frame} {p : Nat}

theorem Aligned.push (h : f.Aligned p below) (t : Token) : (f.push t).Aligned (p + 1) below := by
  have hposition : (f.push t).position = p + 1 := by
    rw [← h.position]
    rfl
  cases below with
  | nil => exact ⟨h.1.push t, hposition⟩
  | cons parent rest => exact ⟨h.1.push t, hposition, h.2.2⟩

theorem Aligned.attach {n : Nat} (h : f.Aligned p below) (g : Group) (hn : 0 < n) :
    (f.attach g n).Aligned (p + n) below := by
  have hposition : (f.attach g n).position = p + n := by
    rw [← h.position]
    exact (Nat.add_assoc _ _ _).symm
  cases below with
  | nil => exact ⟨h.1.attach g hn, hposition⟩
  | cons parent rest => exact ⟨h.1.attach g hn, hposition, h.2.2⟩

theorem Aligned.nested {child : Frame} (h : f.Aligned p below) (hchild : f.nested? t next = some child) :
    child.Aligned (p + 1) (f :: below) := by
  obtain ⟨kind, _, rfl⟩ := nested?_eq hchild
  refine ⟨counted_begin _ _ _ _ _, ?_, ?_⟩
  · rw [← h.position]
    rfl
  · rwa [← h.position] at h

/-- A group that ends before the token at index `p` brings the frame below up to it. -/
theorem Aligned.hand {parent : Frame} {n : Nat} (h : f.Aligned p (parent :: below)) (g : Group)
    (hn : f.count ≤ n) : (parent.attach g n).Aligned (p + (n - f.count)) below := by
  have hattach := h.2.2.attach g (Nat.lt_of_lt_of_le h.counted.pos hn)
  have hposition : f.start + f.count = p := h.position
  rwa [show p + (n - f.count) = f.start + n by omega]

end Aligned

/-- What has become of the frames that stood before the token at index `p`. -/
def Outcome.Advances (p : Nat) : Except ParseError Outcome → Prop
  | .error e => e.position ≤ p
  | .ok (.pending top below) => top.Aligned (p + 1) below
  | .ok (.finished _ _ _) => True

/-- No token makes the frames fail behind it, and those that stay open stand before the next one. -/
theorem offer_advances (t : Token) (next : List Token) {below : List Frame} {p : Nat}
    (h : f.Aligned p below) :
    Outcome.Advances p (offer t next f below) := by
  induction f, below using offer_induction t next with
  | fails f below e hreact hout =>
    have hle := react_error h.counted hreact
    rw [h.position] at hle
    exact hout ▸ hle
  | takes f below hout => exact hout ▸ h.push t
  | opens f below child hchild hout => exact hout ▸ h.nested hchild
  | closes f parent rest g hg hout =>
    have hbelow := h.hand g (Nat.le_succ f.count)
    rw [Nat.succ_sub (Nat.le_refl _), Nat.sub_self] at hbelow
    exact hout ▸ hbelow
  | hands f parent rest g hg hout ih =>
    have hbelow := h.hand g (Nat.le_refl f.count)
    rw [Nat.sub_self] at hbelow
    exact hout ▸ ih hbelow
  | closed f g hg hout => exact hout ▸ trivial
  | stopped f g hg hout => exact hout ▸ trivial

theorem endsAt_eof (ht : t.kind = .eof) (hlasts : f.Lasts t) : f.endsAt t ≠ false := by
  have hclause : f.kind.closing? = none := by simpa [Lasts, ht] using hlasts
  simp [endsAt, inJoinStart, hclause, ht, TokenKind.isJoinStart]

/-- At the end of the input every group ends that can be finished. -/
theorem react_eof {r : Reaction} (ht : t.kind = .eof) (h : f.react t next = .ok r) :
    ∃ g, r = .ends g f.count false := by
  obtain ⟨g, _, hclosing, _⟩ | ⟨g, _, _, _, rfl⟩ | ⟨hend, hlasts, _⟩ | ⟨_, hend, hlasts, _⟩ :=
    react_ok_iff.mp h
  · exact absurd (ht ▸ hclosing) f.kind.closing?_ne_eof
  · exact ⟨g, rfl⟩
  · exact absurd hend (endsAt_eof ht hlasts)
  · exact absurd hend (endsAt_eof ht hlasts)

theorem offer_eof {below : List Frame} (ht : t.kind = .eof) {top : Frame} {open_ : List Frame} :
    offer t next f below ≠ .ok (.pending top open_) := by
  intro h
  induction below generalizing f with
  | nil =>
    obtain ⟨r, hreact, hout⟩ := map_ok h
    obtain ⟨g, rfl⟩ := react_eof ht hreact
    cases hout
  | cons parent rest ih =>
    rw [offer] at h
    cases hreact : f.react t next with
    | error e => simp [hreact] at h
    | ok r =>
      obtain ⟨g, rfl⟩ := react_eof ht hreact
      rw [hreact] at h
      exact ih h

/-- Reading on fails at a token that is there, when the last token is the end of the input. -/
theorem readOn_error {below : List Frame} {p : Nat} (h : f.Aligned p below)
    (hends : Statement.endsWithEof tokens = true) (herror : f.readOn below tokens = .error e) :
    e.position < p + tokens.length := by
  induction tokens generalizing f below p with
  | nil => cases hends
  | cons t next ih =>
    rw [readOn] at herror
    have hadvances := offer_advances t next h
    rw [List.length_cons]
    cases hoffer : offer t next f below with
    | error e' =>
      rw [hoffer] at herror hadvances
      cases herror
      exact Nat.lt_of_le_of_lt hadvances (by omega)
    | ok outcome =>
      rw [hoffer] at herror hadvances
      cases outcome with
      | finished => cases herror
      | pending top below' =>
        obtain ⟨rfl, ht⟩ | hends := Statement.endsWithEof_cons hends
        · exact absurd hoffer (offer_eof ht)
        · have hlt := ih hadvances hends herror
          omega

/-- A frame that has read its group has counted its tokens. -/
theorem Reads.count_add {rest : List Token} {g : Group} {n : Nat} (h : f.Reads tokens g n rest) :
    n + rest.length = f.count + tokens.length := by
  induction h with
  | close => simp only [List.length_cons]; omega
  | stop => rfl
  | @take f t next _ _ _ _ _ _ _ ih =>
    rw [ih, List.length_cons, show (f.push t).count = f.count + 1 from rfl]
    omega
  | @nest f child t next left _ inner _ m _ _ _ hnested _ _ _ ih ih' =>
    obtain ⟨kind, _, rfl⟩ := nested?_eq hnested
    rw [ih', List.length_cons, show (f.attach inner m).count = f.count + m from rfl]
    rw [show (begin _ _ kind t next).count = 1 from rfl] at ih
    omega

theorem Reads.endsWithEof {rest : List Token} {g : Group} {n : Nat} (h : f.Reads tokens g n rest)
    (hends : Statement.endsWithEof tokens = true) : Statement.endsWithEof rest = true := by
  induction h with
  | @close f t next _ _ hclosing _ =>
    obtain ⟨_, ht⟩ | hends := Statement.endsWithEof_cons hends
    · exact absurd (ht ▸ hclosing) f.kind.closing?_ne_eof
    · exact hends
  | stop => exact hends
  | take _ _ _ hmore ih =>
    obtain ⟨rfl, _⟩ | hends := Statement.endsWithEof_cons hends
    · cases hmore
    · exact ih hends
  | nest _ _ _ _ hinner _ ih ih' =>
    obtain ⟨rfl, _⟩ | hends := Statement.endsWithEof_cons hends
    · cases hinner
    · exact ih' (ih hends)

end Frame

section Retrieve
variable {position indent : Nat} {tokens : List Token} {e : ParseError} {r : Retrieved}

theorem Group.retrieve?_error (h : retrieve? position indent tokens = some (.error e))
    (hends : Statement.endsWithEof tokens = true) : e.position < position + tokens.length := by
  cases tokens with
  | nil => cases h
  | cons t next =>
    obtain ⟨kind, hstart, hread⟩ := Option.map_eq_some_iff.mp h
    obtain ⟨rfl, ht⟩ | hends := Statement.endsWithEof_cons hends
    · exact absurd ht (GroupKind.OpenedBy.ne_eof (Or.inl hstart))
    · have haligned : (Frame.begin position indent kind t next).Aligned (position + 1) [] :=
        ⟨Frame.counted_begin _ _ _ _ _, rfl⟩
      have hlt := Frame.readOn_error haligned hends hread
      rw [List.length_cons]
      omega

theorem Group.retrieve?_count (h : retrieve? position indent tokens = some (.ok r)) :
    r.count + r.rest.length = tokens.length := by
  obtain ⟨t, next, kind, rfl, _, hreads⟩ := retrieve?_ok_iff.mp h
  rw [hreads.count_add, List.length_cons, Nat.add_comm]
  rfl

theorem Group.retrieve?_endsWithEof (h : retrieve? position indent tokens = some (.ok r))
    (hends : Statement.endsWithEof tokens = true) : Statement.endsWithEof r.rest = true := by
  obtain ⟨t, next, kind, rfl, hstart, hreads⟩ := retrieve?_ok_iff.mp h
  obtain ⟨_, ht⟩ | hends := Statement.endsWithEof_cons hends
  · exact absurd ht (GroupKind.OpenedBy.ne_eof (Or.inl hstart))
  · exact hreads.endsWithEof hends

end Retrieve

namespace Stage
variable {last : Option Group} {position : Nat} {t : Token} {stage stage' : Stage} {e : ParseError}

/-- A set operator that waits for its query stands before the given index. -/
def Behind (position : Nat) : Stage → Prop
  | .tied _ at_ => at_ < position
  | _ => True

theorem lead_error (h : lead position t = .error e) : e.position = position := by
  unfold lead at h
  split at h <;> cases h
  rfl

theorem requireOperand_error (h : requireOperand last position = .error e) : e.position = position := by
  unfold requireOperand at h
  split at h <;> cases h
  rfl

theorem requireOperand_bind_error {next : Option Stage}
    (h : (requireOperand last position >>= fun _ => .ok next) = .error e) : e.position = position := by
  cases hrequire : requireOperand last position with
  | error e' =>
    rw [hrequire] at h
    cases h
    exact requireOperand_error hrequire
  | ok => simp [hrequire, bind, Except.bind] at h

/-- The grammar refuses a token where it stands, or a set operator before it. -/
theorem next_error (hbehind : stage.Behind position) (h : next last position t stage = .error e) :
    e.position ≤ position := by
  cases stage with
  | start =>
    simp only [next] at h
    split at h
    · cases h
    · split at h
      · cases h
      · exact Nat.le_of_eq (lead_error h)
  | body => exact Nat.le_of_eq (lead_error h)
  | query left =>
    simp only [next] at h
    split at h <;> cases h
  | tied operator at_ =>
    simp only [next] at h
    split at h
    · cases h
    · split at h <;> cases h
      exact Nat.le_of_lt hbehind
  | update => exact Nat.le_of_eq (requireOperand_bind_error h)
  | delete =>
    simp only [next] at h
    split at h
    · cases h
    · exact Nat.le_of_eq (requireOperand_bind_error h)
  | insert | values | tail left => cases h

theorem tailNext_behind {left : List Slot} {k : Nat} (h : tailNext left t = some stage) : stage.Behind k := by
  obtain ⟨left', _, rfl⟩ := Option.map_eq_some_iff.mp h
  trivial

theorem rowsNext_behind {k : Nat} (h : rowsNext t = some stage) : stage.Behind k := by
  unfold rowsNext at h
  split at h
  · cases h
    trivial
  · exact tailNext_behind h

theorem lead_behind {k : Nat} (h : lead position t = .ok (some stage)) : stage.Behind k := by
  unfold lead at h
  split at h <;> cases h <;> trivial

theorem next_behind {k : Nat} (hk : position < k) (h : next last position t stage = .ok (some stage')) :
    stage'.Behind k := by
  cases stage with
  | start =>
    simp only [next] at h
    split at h
    · cases h
    · split at h
      · cases h
        trivial
      · exact lead_behind h
  | body => exact lead_behind h
  | query left =>
    simp only [next] at h
    split at h
    · cases h
      trivial
    · split at h <;> cases h
      exact hk
  | tied operator at_ =>
    simp only [next] at h
    split at h
    · cases h
      trivial
    · split at h <;> cases h
  | update => exact tailNext_behind (requireOperand_bind.mp h).2
  | delete =>
    simp only [next] at h
    split at h
    · cases h
      trivial
    · exact tailNext_behind (requireOperand_bind.mp h).2
  | insert =>
    simp only [next] at h
    split at h
    · cases h
      trivial
    · exact rowsNext_behind (Except.ok.inj h)
  | values => exact rowsNext_behind (Except.ok.inj h)
  | tail left => exact tailNext_behind (Except.ok.inj h)

end Stage

/-- What breaks the nesting of the brackets is one of the tokens, or an opener that waits. -/
theorem Balance.faultFrom_index {index i : Nat} {open_ : List Waiting} {ts : List Token} {t : Token}
    (hopen : ∀ w ∈ open_, w.index < index) (h : faultFrom index open_ ts = some (i, t)) :
    i < index + ts.length := by
  induction ts generalizing index open_ with
  | nil =>
    obtain ⟨w, hw, hfault⟩ := Option.map_eq_some_iff.mp h
    cases hfault
    exact hopen w (List.mem_of_head? hw)
  | cons u us ih =>
    have hlater : ∀ w ∈ open_, w.index < index + 1 := fun w hw => Nat.lt_succ_of_lt (hopen w hw)
    have hmore : ∀ {open_ : List Waiting}, (∀ w ∈ open_, w.index < index + 1) →
        faultFrom (index + 1) open_ us = some (i, t) → i < index + (us.length + 1) := by
      intro open_ hopen h
      have hlt := ih hopen h
      omega
    rw [faultFrom.eq_def] at h
    dsimp only at h
    rw [List.length_cons]
    split at h
    · exact hmore (List.forall_mem_cons.mpr ⟨Nat.lt_succ_self index, hlater⟩) h
    · split at h
      · split at h
        · split at h
          · exact hmore (fun w hw => hlater w (List.mem_cons_of_mem _ hw)) h
          · cases h
            omega
        · cases h
          omega
      · exact hmore hlater h

namespace Statement
variable {base position : Nat} {tokens : List Token} {e : ParseError}

theorem endsWithEof_concat {body : List Token} {t : Token} (ht : t.kind = .eof) :
    endsWithEof (body ++ [t]) = true := by
  simp [endsWithEof, ht]

theorem readGroups_error {stage : Stage} {groups : List Group} (hbehind : stage.Behind position)
    (hends : endsWithEof tokens = true) (h : readGroups stage groups position tokens = .error e) :
    e.position < position + tokens.length := by
  fun_induction readGroups stage groups position tokens with
  | case1 => cases hends
  | case2 stage groups position t ts e' hnext =>
    cases h
    have hle := Stage.next_error hbehind hnext
    rw [List.length_cons]
    omega
  | case3 => cases h
  | case4 stage groups position t ts =>
    cases h
    exact Nat.lt_add_of_pos_right (Nat.succ_pos ts.length)
  | case5 stage groups position t ts stage' hnext e' hr =>
    cases h
    exact Group.retrieve?_error hr hends
  | case6 stage groups position t ts stage' hnext r hr ih =>
    have hlength := Group.retrieve?_length_lt hr
    have hcount := Group.retrieve?_count hr
    have hlt := ih (Stage.next_behind (by omega) hnext) (Group.retrieve?_endsWithEof hr hends) h
    omega

theorem readGroups_position {stage : Stage} {groups all : List Group} {p : Nat} {t : Token}
    (h : readGroups stage groups position tokens = .ok (all, p, t)) : p < position + tokens.length := by
  induction stage, groups, position, tokens, h using readGroups_induction with
  | ends stage groups ts h hnext hall => exact Nat.lt_add_of_pos_right (Nat.succ_pos ts.length)
  | reads stage groups position u ts stage' r h hnext hr hmore ih =>
    have hcount := Group.retrieve?_count hr
    omega

theorem readFrom_error (hends : endsWithEof tokens = true) (h : readFrom base tokens = .error e) :
    e.position < base + tokens.length := by
  unfold readFrom at h
  split at h
  · rename_i e' hread
    cases h
    have hstart : Stage.Behind base .start := trivial
    exact readGroups_error hstart hends hread
  · rename_i groups position t hread
    split at h
    · cases h
      exact readGroups_position hread
    · split at h
      · rename_i fault hfault
        cases h
        have hindex := Balance.faultFrom_index (by simp) hfault
        obtain ⟨rest, htokens⟩ := readGroups_tokens hread
        have hlength := congrArg List.length htokens
        simp only [List.reverse_nil, Group.tokensOf, List.flatMap_nil, List.nil_append,
          List.length_append, List.length_cons] at hlength hindex
        simp only [unbalancedError]
        omega
      · cases h

theorem parseFrom_error {body : List Token} (hends : endsWithEof tokens = true)
    (h : parseFrom base body tokens = .error e) : e.position < base + body.length + tokens.length := by
  have hstatement : ∀ {base : Nat} {body : List Token} {e : ParseError},
      readFrom base (body.reverse ++ [Token.eof]) = .error e → e.position < base + body.length + 1 := by
    intro base body e h
    have hlt := readFrom_error (endsWithEof_concat rfl) h
    rwa [List.length_append, List.length_reverse, ← Nat.add_assoc] at hlt
  induction tokens generalizing base body with
  | nil => cases hends
  | cons t ts ih =>
    rw [parseFrom] at h
    rw [List.length_cons]
    split at h
    · split at h
      · cases h
      · cases hread : readFrom base (body.reverse ++ [Token.eof]) with
        | error e' =>
          rw [hread] at h
          cases h
          have hlt := hstatement hread
          omega
        | ok groups => simp [hread, Except.map] at h
    · rename_i ht
      obtain ⟨_, heof⟩ | hends := endsWithEof_cons hends
      · exact absurd heof ht
      split at h
      · split at h
        · cases h
          dsimp only
          omega
        · split at h
          · rename_i e' hread
            cases h
            have hlt := hstatement hread
            omega
          · cases hmore : parseFrom (base + body.length + 1) [] ts with
            | error e' =>
              rw [hmore] at h
              cases h
              have hlt := ih hends hmore
              rw [List.length_nil] at hlt
              omega
            | ok rest => simp [hmore, Except.map] at h
      · have hlt := ih hends h
        rw [List.length_cons] at hlt
        omega

theorem parseFrom_shift (k base : Nat) (body tokens : List Token) :
    parseFrom (base + k) body tokens = (parseFrom base body tokens).mapError (ParseError.shift k) := by
  induction tokens generalizing base body with
  | nil => rfl
  | cons t ts ih =>
    rw [parseFrom, parseFrom, readFrom_shift]
    split
    · split
      · rfl
      · cases readFrom base (body.reverse ++ [Token.eof]) <;> rfl
    · split
      · split
        · rfl
        · cases readFrom base (body.reverse ++ [Token.eof]) with
          | error e => rfl
          | ok groups =>
            rw [show base + k + body.length + 1 = base + body.length + 1 + k by omega]
            dsimp only [Except.mapError]
            rw [ih]
            cases parseFrom (base + body.length + 1) [] ts <;> rfl
      · exact ih base (t :: body)

theorem exists_of_not_isOk {ε α : Type} {x : Except ε α} (h : x.isOk = false) : ∃ err, x = .error err := by
  cases x with
  | error err => exact ⟨err, rfl⟩
  | ok a => cases h

/-- The first statement of a script is read alone, and the script behind its semicolon alone, with the
positions of its errors counted from the start of the whole. An error stands at one of the tokens. -/
theorem parse_reads_statement_by_statement {body rest : List Token} {semicolon e : Token} (hne : body ≠ [])
    (hbody : ∀ t ∈ body, t.kind ≠ .eof ∧ t.kind ≠ .semicolon) (hsemicolon : semicolon.kind = .semicolon)
    (he : e.kind = .eof) :
    (parse (body ++ semicolon :: (rest ++ [e])) =
      match parseSingle (body ++ [Token.eof]) with
      | .error err => .error err
      | .ok groups =>
        match parse (rest ++ [e]) with
        | .error err => .error ⟨body.length + 1 + err.position, err.fault⟩
        | .ok statements => .ok (⟨groups, some semicolon⟩ :: statements)) ∧
      ∀ err, parse (body ++ semicolon :: (rest ++ [e])) = .error err →
        err.position < (body ++ semicolon :: (rest ++ [e])).length := by
  have hscript : body ++ semicolon :: (rest ++ [e]) = (body ++ semicolon :: rest) ++ [e] := by simp
  have hparse : ∀ ts, parse (ts ++ [e]) = parseFrom 0 [] (ts ++ [e]) :=
    fun ts => if_pos (endsWithEof_concat he)
  have hsingle : parseSingle (body ++ [Token.eof]) = readFrom 0 (body ++ [Token.eof]) :=
    if_pos (endsWithEof_concat rfl)
  constructor
  · rw [hscript, hparse, hparse, hsingle, ← hscript, parseFrom_append hbody, parseFrom,
      if_neg (by rw [hsemicolon]; simp), if_pos hsemicolon, List.append_nil, List.reverse_reverse,
      if_neg (by simpa using hne)]
    cases readFrom 0 (body ++ [Token.eof]) with
    | error err => rfl
    | ok groups =>
      dsimp only
      rw [List.length_reverse, Nat.add_assoc, parseFrom_shift]
      cases parseFrom 0 [] (rest ++ [e]) with
      | ok statements => rfl
      | error err =>
        exact congrArg (fun p => Except.error (ParseError.mk p err.fault)) (Nat.add_comm _ _)
  · intro err h
    rw [hscript, hparse] at h
    have hlt := parseFrom_error (endsWithEof_concat he) h
    rw [hscript]
    simpa using hlt

theorem parse_reads_statement_by_statement_of_select_from :
    ∃ err,
      parse ([⟨.keyword .SELECT, "SELECT"⟩, ⟨.ident, "a"⟩] ++ ⟨.semicolon, ";"⟩ ::
        ([⟨.keyword .SELECT, "SELECT"⟩, ⟨.keyword .FROM, "FROM"⟩] ++ [Token.eof])) = .error err ∧
      err.position < 6 :=
  (exists_of_not_isOk (by decide +kernel)).imp fun err h =>
    ⟨h, (parse_reads_statement_by_statement (by simp) (by decide) rfl rfl).2 err h⟩

end Statement
end SqlLayout
