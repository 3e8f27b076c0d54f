import SqlLayout.Proofs.Script

/-! Where the tokens stand. A reader is told the index of its first token, and counts on from there. The
index shows in the positions of errors and nowhere else: the tokens behind other tokens are read as the
same statements, or with the same error further on. So scripts that stand one behind the other are read
one after the other. -/

namespace SqlLayout
set_option autoImplicit false

/-- The error, `k` tokens further on. -/
def ParseError.shift (k : Nat) (e : ParseError) : ParseError := ⟨e.position + k, e.fault⟩

namespace Frame

def shift (k : Nat) (f : Frame) : Frame := { f with start := f.start + k }

def Reaction.shift (k : Nat) : Reaction → Reaction
  | .takes f => .takes (f.shift k)
  | .opens child => .opens (child.shift k)
  | .ends g count taken => .ends g count taken

def Outcome.shift (k : Nat) : Outcome → Outcome
  | .pending top below => .pending (top.shift k) (below.map (Frame.shift k))
  | .finished g count taken => .finished g count taken

variable (k : Nat) (f : Frame) (t : Token) (next : List Token)

theorem position_shift : (f.shift k).position = f.position + k := by
  simp only [position, shift]
  omega

theorem finish_shift : (f.shift k).finish = f.finish.mapError (ParseError.shift k) := by
  have hposition : f.start + k + f.elements.length = f.start + f.elements.length + k := by omega
  unfold finish
  dsimp only
  rw [show (f.shift k).finalKind = f.finalKind from rfl, show (f.shift k).elements = f.elements from rfl]
  split
  · split
    · exact congrArg (fun position => Except.error (ParseError.mk position (.missingOperand f.opener)))
        hposition
    · rfl
  · rfl

theorem nested?_shift : (f.shift k).nested? t next = (f.nested? t next).map (Frame.shift k) := by
  unfold nested?
  rw [position_shift, show (f.shift k).staysPlain t next = f.staysPlain t next from rfl,
    show (f.shift k).inJoinStart t = f.inJoinStart t from rfl]
  split
  · rfl
  · rw [Option.map_map]
    rfl

theorem react_shift : (f.shift k).react t next =
    ((f.react t next).map (Reaction.shift k)).mapError (ParseError.shift k) := by
  unfold react
  rw [show (f.shift k).endsAt t = f.endsAt t from rfl, show (f.shift k).kind = f.kind from rfl,
    show (f.shift k).push t = (f.push t).shift k from rfl, finish_shift, finish_shift, nested?_shift,
    position_shift]
  split
  · split
    · cases (f.push t).finish <;> rfl
    · cases f.finish <;> rfl
  · split
    · rfl
    · cases f.nested? t next with
      | none => rfl
      | some child =>
        rw [Option.map_some]
        dsimp only
        rw [show (child.shift k).kind = child.kind from rfl]
        split
        · rfl
        · split <;> rfl

theorem offer_shift (below : List Frame) :
    offer t next (f.shift k) (below.map (Frame.shift k)) =
      ((offer t next f below).map (Outcome.shift k)).mapError (ParseError.shift k) := by
  induction below generalizing f with
  | nil =>
    rw [List.map_nil, offer, offer, react_shift]
    cases f.react t next with
    | error e => rfl
    | ok r => cases r <;> rfl
  | cons parent rest ih =>
    rw [List.map_cons, offer, offer, react_shift]
    cases f.react t next with
    | error e => rfl
    | ok r =>
      cases r with
      | takes g => rfl
      | opens child => rfl
      | ends g n taken =>
        cases taken with
        | true => rfl
        | false => exact ih (parent.attach g n)

theorem readOn_shift (top : Frame) (below : List Frame) (tokens : List Token) :
    (top.shift k).readOn (below.map (Frame.shift k)) tokens =
      (top.readOn below tokens).mapError (ParseError.shift k) := by
  induction tokens generalizing top below with
  | nil =>
    rw [readOn, readOn, position_shift]
    rfl
  | cons t next ih =>
    rw [readOn, readOn, offer_shift]
    cases offer t next top below with
    | error e => rfl
    | ok outcome =>
      cases outcome with
      | pending top below => exact ih top below
      | finished g n taken => rfl

end Frame

theorem Group.retrieve?_shift (k position indent : Nat) (tokens : List Token) :
    retrieve? (position + k) indent tokens =
      (retrieve? position indent tokens).map (Except.mapError (ParseError.shift k)) := by
  cases tokens with
  | nil => rfl
  | cons t next =>
    rw [retrieve?, retrieve?, Option.map_map]
    congr 1
    funext kind
    exact Frame.readOn_shift k (Frame.begin position indent kind t next) [] next

/-- The stage, `k` tokens further on. -/
def Stage.shift (k : Nat) : Stage → Stage
  | .tied operator position => .tied operator (position + k)
  | stage => stage

theorem Stage.lead_shift (k position : Nat) (t : Token) :
    lead (position + k) t =
      ((lead position t).map (Option.map (Stage.shift k))).mapError (ParseError.shift k) := by
  unfold lead
  split <;> rfl

theorem Stage.requireOperand_shift (k position : Nat) (last : Option Group) :
    requireOperand last (position + k) =
      (requireOperand last position).mapError (ParseError.shift k) := by
  unfold requireOperand
  split <;> rfl

theorem Stage.tailNext_shift (k : Nat) (left : List Slot) (t : Token) :
    (tailNext left t).map (Stage.shift k) = tailNext left t := by
  rw [tailNext, Option.map_map]
  rfl

theorem Stage.rowsNext_shift (k : Nat) (t : Token) :
    (rowsNext t).map (Stage.shift k) = rowsNext t := by
  unfold rowsNext
  split
  · rfl
  · exact tailNext_shift k _ t

theorem Stage.next_shift (k : Nat) (last : Option Group) (position : Nat) (t : Token) (stage : Stage) :
    (stage.shift k).next last (position + k) t =
      ((stage.next last position t).map (Option.map (Stage.shift k))).mapError
        (ParseError.shift k) := by
  cases stage with
  | start =>
    simp only [shift, next]
    split
    · rfl
    · split
      · rfl
      · exact lead_shift k position t
  | body => exact lead_shift k position t
  | query left =>
    simp only [shift, next]
    cases Slot.fill? t.kind left with
    | some left => rfl
    | none =>
      dsimp only
      split <;> rfl
  | tied operator at_ =>
    simp only [shift, next]
    split
    · rfl
    · split <;> rfl
  | update =>
    simp only [shift, next, requireOperand_shift]
    cases requireOperand last position with
    | error e => rfl
    | ok => exact congrArg Except.ok (tailNext_shift k _ t).symm
  | delete =>
    simp only [shift, next, requireOperand_shift]
    split
    · rfl
    · cases requireOperand last position with
      | error e => rfl
      | ok => exact congrArg Except.ok (tailNext_shift k _ t).symm
  | insert =>
    simp only [shift, next]
    split
    · rfl
    · exact congrArg Except.ok (rowsNext_shift k t).symm
  | values => exact congrArg Except.ok (rowsNext_shift k t).symm
  | tail left => exact congrArg Except.ok (tailNext_shift k left t).symm

namespace Statement

theorem readGroups_shift (k : Nat) (stage : Stage) (groups : List Group) (position : Nat)
    (tokens : List Token) :
    readGroups (stage.shift k) groups (position + k) tokens =
      ((readGroups stage groups position tokens).map fun (all, p, t) => (all, p + k, t)).mapError
        (ParseError.shift k) := by
  have hmore : ∀ {stage stage' : Stage} {groups : List Group} {position : Nat} {t : Token},
      stage.next groups.head? position t = .ok (some stage') →
        (stage.shift k).next groups.head? (position + k) t = .ok (some (stage'.shift k)) := by
    intro stage stage' groups position t hnext
    rw [Stage.next_shift, hnext]
    rfl
  fun_induction readGroups stage groups position tokens with
  | case1 stage groups position =>
    rw [readGroups]
    rfl
  | case2 stage groups position t ts e hnext =>
    rw [readGroups, Stage.next_shift, hnext]
    rfl
  | case3 stage groups position t ts hnext =>
    rw [readGroups, Stage.next_shift, hnext]
    rfl
  | case4 stage groups position t ts stage' hnext hr =>
    rw [readGroups_next (hmore hnext), Group.retrieve?_shift, hr]
    rfl
  | case5 stage groups position t ts stage' hnext e hr =>
    rw [readGroups_next (hmore hnext), Group.retrieve?_shift, hr]
    rfl
  | case6 stage groups position t ts stage' hnext r hr ih =>
    rw [readGroups_next (hmore hnext), Group.retrieve?_shift, hr]
    rw [show position + r.count + k = position + k + r.count by omega] at ih
    exact ih

theorem readFrom_shift (k base : Nat) (tokens : List Token) :
    readFrom (base + k) tokens = (readFrom base tokens).mapError (ParseError.shift k) := by
  have hgroups := readGroups_shift k .start [] base tokens
  unfold readFrom
  rw [show Stage.start = Stage.start.shift k from rfl, hgroups, show Stage.start.shift k = Stage.start from rfl]
  cases readGroups .start [] base tokens with
  | error e => rfl
  | ok r =>
    obtain ⟨groups, position, t⟩ := r
    rw [show ((Except.ok (groups, position, t) : Except ParseError _).map fun (all, p, t) =>
      (all, p + k, t)).mapError (ParseError.shift k) = .ok (groups, position + k, t) from rfl]
    dsimp only
    split
    · rfl
    · cases Balance.fault? (Group.tokensOf groups) with
      | none => rfl
      | some fault =>
        refine congrArg Except.error ?_
        simp only [unbalancedError, ParseError.shift, Nat.add_right_comm]

theorem Parses.shift {base : Nat} {ts : List Token} {ss : List Statement} (h : Parses base ts ss)
    (k : Nat) : Parses (base + k) ts ss := by
  have hread : ∀ {base : Nat} {body : List Token} {groups : List Group},
      readFrom base body = .ok groups → readFrom (base + k) body = .ok groups := by
    intro base body groups h
    rw [readFrom_shift, h]
    rfl
  induction h with
  | nil => exact .nil
  | last hne hbody h => exact .last hne hbody (hread h)
  | @cons base body ts groups semicolon ss hne hbody h hsemicolon _ ih =>
    refine .cons hne hbody (hread h) hsemicolon ?_
    rwa [Nat.add_right_comm base k, Nat.add_right_comm (base + body.length) k]

/-- Behind a semicolon another script may follow. -/
theorem Parses.append {base : Nat} {ts us : List Token} {ss ss' : List Statement}
    (h : Parses base ts ss) (hlast : ∀ t ∈ ts.getLast?, t.kind = .semicolon)
    (h' : Parses (base + ts.length) us ss') : Parses base (ts ++ us) (ss ++ ss') := by
  induction h with
  | nil => exact h'
  | @last base body groups hne hbody hread =>
    have hmem := List.getLast?_eq_some_getLast hne
    exact absurd (hlast _ hmem) (hbody _ (List.getLast_mem hne)).2
  | @cons base body ts groups semicolon ss hne hbody hread hsemicolon _ ih =>
    rw [List.append_assoc, List.cons_append, List.cons_append]
    refine .cons hne hbody hread hsemicolon (ih ?_ ?_)
    · intro t ht
      apply hlast t
      rw [List.getLast?_append, List.getLast?_cons, Option.mem_def.mp ht]
      rfl
    · rwa [List.length_append, List.length_cons,
        show base + (body.length + (ts.length + 1)) = base + body.length + 1 + ts.length by omega] at h'

/-- Scripts that stand one behind the other, the first with its last semicolon, are read one after the
other. -/
theorem parse_append {ts us : List Token} {ss ss' : List Statement} (hts : ∀ t ∈ ts, t.kind ≠ .eof)
    (hus : ∀ t ∈ us, t.kind ≠ .eof) (hlast : ∀ t ∈ ts.getLast?, t.kind = .semicolon)
    (h : parse (ts ++ [Token.eof]) = .ok ss) (h' : parse (us ++ [Token.eof]) = .ok ss') :
    parse (ts ++ us ++ [Token.eof]) = .ok (ss ++ ss') := by
  have hfirst := (parse_ok_iff rfl hts).mp h
  have hsecond := ((parse_ok_iff rfl hus).mp h').shift ts.length
  exact (hfirst.append hlast hsecond).parse rfl

end Statement
end SqlLayout
