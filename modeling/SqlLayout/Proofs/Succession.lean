import SqlLayout.Proofs.Content
import SqlLayout.Proofs.Sequel
import SqlLayout.Proofs.Shifting

/-! Scripts that stand one behind the other. The layout of a script is built on what has been laid out
before, and a semicolon leaves nothing over for the tokens behind it: no white space and no hold on the
next token. A statement begins a line of its own. So the lines of the second script are those that it has
alone, and the spaces before lines and the comparison of contents go through each script on its own. -/

namespace SqlLayout
set_option autoImplicit false

namespace Draft

/-- The draft with other pieces before its own. -/
def behind (before : List Piece) (d : Draft) : Draft := { d with pieces := d.pieces ++ before }

variable {style : CommaStyle} {before : List Piece} {t : Token} {d e e' : Draft}

theorem spaced_behind (d : Draft) (t : Token) :
    (d.behind before).spaced t = (d.spaced t).behind before := by
  unfold spaced
  rw [show (d.behind before).glue = d.glue from rfl]
  split <;> rfl

theorem Steps.eq_behind (h : Steps style t t d (d.behind before) e e') : e' = e.behind before := by
  cases h with
  | line indent pad => rfl
  | inline =>
    unfold Draft.inline
    split
    · rfl
    · exact spaced_behind d t
  | spaced => exact spaced_behind d t
  | tight => rfl
  | columnComma indent => cases style <;> rfl

theorem text_behind (o : Options) (pieces : List Piece) (d : Draft) :
    (d.behind pieces).text o =
      (pieces.reverse.flatMap fun p => p.gap ++ (p.token.render o).toList) ++ d.text o := by
  simp [text, behind]

end Draft

namespace Layout
variable {before : List Piece}

mutual

theorem putElement_behind (style : CommaStyle) (s : Setting) (c : Cursor) (e : Element) (d : Draft) :
    putElement style s c e (d.behind before) = (putElement style s c e d).behind before := by
  match e with
  | .token t =>
    rw [putElement, putElement]
    exact putToken_steps_self.eq_behind
  | .group g =>
    rw [putElement, putElement]
    exact putGroup_behind style _ g d

theorem putGroup_behind (style : CommaStyle) (place : Placement) (g : Group) (d : Draft) :
    putGroup style place g (d.behind before) = (putGroup style place g d).behind before := by
  match g with
  | .mk kind elements indent =>
    rw [putGroup, putGroup]
    exact putElements_behind style _ {} elements d

theorem putElements_behind (style : CommaStyle) (s : Setting) (c : Cursor) (es : List Element)
    (d : Draft) :
    putElements style s c es (d.behind before) = (putElements style s c es d).behind before := by
  match es with
  | [] => rw [putElements, putElements]
  | e :: es =>
    rw [putElements_cons, putElements_cons, putElement_behind style s c e d]
    exact putElements_behind style s _ es _

end

theorem putGroups_behind (style : CommaStyle) (groups : List Group) (d : Draft) :
    putGroups style groups (d.behind before) = (putGroups style groups d).behind before := by
  induction groups generalizing d with
  | nil => rfl
  | cons g groups ih =>
    rw [putGroups, List.foldl_cons, putGroup_behind]
    exact ih _

theorem putStatement_behind (style : CommaStyle) (s : Statement) (d : Draft) :
    putStatement style (d.behind before) s = (putStatement style d s).behind before := by
  unfold putStatement
  dsimp only
  rw [putGroups_behind]
  cases s.terminator <;> rfl

theorem foldl_putStatement_behind (style : CommaStyle) (ss : List Statement) (d : Draft) :
    ss.foldl (putStatement style) (d.behind before) =
      (ss.foldl (putStatement style) d).behind before := by
  induction ss generalizing d with
  | nil => rfl
  | cons s ss ih =>
    rw [List.foldl_cons, putStatement_behind]
    exact ih _

/-- Behind its last semicolon a script leaves nothing over. -/
theorem draft_of_terminated (style : CommaStyle) {ss : List Statement}
    (h : ∀ s ∈ ss.getLast?, ∃ t ∈ s.terminator, t.kind = .semicolon) :
    draft style ss = ({} : Draft).behind (draft style ss).pieces := by
  rcases List.eq_nil_or_concat' ss with rfl | ⟨ss, s, rfl⟩
  · rfl
  · obtain ⟨t, ht, hkind⟩ := h s (by simp)
    have hlast : draft style (ss ++ [s]) =
        (putGroups style s.groups (draft style ss)).tight t := by
      rw [draft, List.foldl_append, List.foldl_cons, List.foldl_nil, putStatement, Option.mem_def.mp ht]
      rfl
    rw [hlast]
    simp [Draft.behind, Draft.tight, hkind, TokenKind.isOpening, Token.isCast]

theorem draft_append (style : CommaStyle) {ss ss' : List Statement}
    (h : ∀ s ∈ ss.getLast?, ∃ t ∈ s.terminator, t.kind = .semicolon) :
    draft style (ss ++ ss') = (draft style ss').behind (draft style ss).pieces := by
  calc draft style (ss ++ ss')
      = ss'.foldl (putStatement style) (draft style ss) := List.foldl_append
    _ = ss'.foldl (putStatement style) (({} : Draft).behind (draft style ss).pieces) := by
        rw [← draft_of_terminated style h]
    _ = (draft style ss').behind (draft style ss).pieces := foldl_putStatement_behind style ss' {}

theorem text_draft_append (o : Options) {ss ss' : List Statement}
    (h : ∀ s ∈ ss.getLast?, ∃ t ∈ s.terminator, t.kind = .semicolon) :
    (draft o.commaStyle (ss ++ ss')).text o =
      (draft o.commaStyle ss).text o ++ (draft o.commaStyle ss').text o := by
  have hfirst : (draft o.commaStyle ss).text o =
      (draft o.commaStyle ss).pieces.reverse.flatMap fun p => p.gap ++ (p.token.render o).toList := by
    rw [draft_of_terminated o.commaStyle h, Draft.text_behind]
    simp [Draft.text, Draft.behind]
  rw [draft_append o.commaStyle h, Draft.text_behind, hfirst]

end Layout

/-- The keywords that a statement begins with. -/
def TokenKind.leads : TokenKind → Bool
  | .keyword .SELECT | .keyword .UPDATE | .keyword .DELETE | .keyword .INSERT | .keyword .LOCK
  | .keyword .WITH => true
  | _ => false

theorem TokenKind.leads_iff {k : TokenKind} :
    k.leads = true ↔ k = .keyword .SELECT ∨ k = .keyword .UPDATE ∨ k = .keyword .DELETE ∨
      k = .keyword .INSERT ∨ k = .keyword .LOCK ∨ k = .keyword .WITH := by
  unfold leads
  split <;> simp_all

theorem Stage.leads_of_start {last : Option Group} {position : Nat} {t : Token} {stage : Stage}
    (h : Stage.start.next last position t = .ok (some stage)) : t.kind.leads = true := by
  rw [next] at h
  split at h
  · cases h
  · split at h
    · rename_i hwith
      rw [hwith]
      rfl
    · unfold lead at h
      split at h <;> simp_all [TokenKind.leads]

/-- The group begins with a keyword that a statement begins with. -/
def Group.Leads (g : Group) : Prop :=
  ∃ kind t es indent, g = .mk kind (.token t :: es) indent ∧ t.kind.leads = true ∧
    GroupKind.ofStart? t.kind = some kind

theorem Group.leads_of_retrieve? {position indent : Nat} {t : Token} {ts : List Token} {r : Retrieved}
    (h : retrieve? position indent (t :: ts) = some (.ok r)) (ht : t.kind.leads = true) :
    r.group.Leads := by
  obtain ⟨u, next, kind, htokens, hkind, hreads⟩ := retrieve?_ok_iff.mp h
  obtain ⟨rfl, rfl⟩ := List.cons.inj htokens
  obtain ⟨⟨es, helements⟩, hgroup⟩ := hreads.opened
  generalize r.group = g at helements hgroup
  obtain ⟨kind', elements, indent'⟩ := g
  obtain rfl : elements = .token t :: es := helements
  have hsame : kind' = kind := by
    refine hgroup.resolve_right ?_
    rintro ⟨hparens, -⟩
    obtain rfl : kind = .parens := hparens
    rcases TokenKind.leads_iff.mp ht with hk | hk | hk | hk | hk | hk <;>
      · rw [hk] at hkind
        cases hkind
  exact ⟨kind, t, es, indent', by rw [hsame], ht, hkind⟩

theorem Statement.leads_of_readFrom {base : Nat} {tokens : List Token} {g : Group}
    {groups : List Group} (h : readFrom base tokens = .ok (g :: groups)) : g.Leads := by
  obtain ⟨⟨p, e, hread, -⟩, -⟩ := readFrom_ok_iff.mp h
  cases tokens with
  | nil => simp [readGroups] at hread
  | cons t ts =>
    cases hnext : Stage.start.next none base t with
    | error => simp [readGroups, hnext] at hread
    | ok stage =>
      cases stage with
      | none => simp [readGroups, hnext] at hread
      | some stage =>
        rw [readGroups_next (by exact hnext)] at hread
        cases hr : Group.retrieve? base 0 (t :: ts) with
        | none => simp [hr] at hread
        | some result =>
          cases result with
          | error => simp [hr] at hread
          | ok r =>
            rw [hr] at hread
            obtain ⟨more, hmore⟩ := readGroups_extends hread
            obtain ⟨rfl, -⟩ := List.cons.inj hmore
            exact Group.leads_of_retrieve? hr (Stage.leads_of_start hnext)

namespace Layout

theorem putToken_leading {kind : GroupKind} {t : Token} (ht : t.kind.leads = true)
    (hkind : GroupKind.ofStart? t.kind = some kind) (style : CommaStyle) (indent : Nat)
    (place : Placement) (d : Draft) :
    putToken style ⟨kind, indent, place⟩ {} t d = d.line indent 0 t := by
  rcases TokenKind.leads_iff.mp ht with hk | hk | hk | hk | hk | hk <;>
    · rw [hk] at hkind
      cases hkind
      simp [putToken, manner, putColumnToken, hk, TokenKind.isColumnListKeyword,
        TokenKind.needsNewlineBefore]

theorem putGroup_leads {g : Group} (hg : g.Leads) (style : CommaStyle) (place : Placement) :
    ∃ n t, t.kind.leads = true ∧
      [⟨'\n' :: List.replicate n ' ', t⟩] <:+ (putGroup style place g {}).pieces := by
  obtain ⟨kind, t, es, indent, rfl, ht, hkind⟩ := hg
  refine ⟨2 * (indent + place.bonus) + 0, t, ht, ?_⟩
  rw [putGroup, putElements_cons, putElement, putToken_leading ht hkind]
  exact (putElements_puts style _ _ es (({} : Draft).line (indent + place.bonus) 0 t)).suffix

/-- The layout of a script begins on a line of its own, with a leading keyword. -/
theorem head_layoutPieces (o : Options) {tokens : List Token} {ss : List Statement}
    (h : Statement.parse tokens = .ok ss) (hne : ss ≠ []) :
    ∃ n t rest, t.kind.leads = true ∧
      layoutPieces o ss = ⟨'\n' :: List.replicate n ' ', t⟩ :: rest := by
  obtain ⟨s, ss, rfl⟩ := List.exists_cons_of_ne_nil hne
  obtain ⟨base, body, hne, hbody, hread⟩ := (Statement.parse_parsed h s List.mem_cons_self).read
  have htokens := Statement.readFrom_tokens hread hbody
  obtain ⟨g, groups, hgroups⟩ : ∃ g groups, s.groups = g :: groups := by
    refine List.exists_cons_of_ne_nil ?_
    intro hnil
    rw [hnil] at htokens
    exact hne htokens.symm
  obtain ⟨n, t, ht, hfirst⟩ :=
    putGroup_leads (Statement.leads_of_readFrom (hgroups ▸ hread)) o.commaStyle {}
  have hstatement : [⟨'\n' :: List.replicate n ' ', t⟩] <:+ (putStatement o.commaStyle {} s).pieces := by
    have hmore := (putGroups_puts o.commaStyle groups (putGroup o.commaStyle {} g {})).suffix
    unfold putStatement
    rw [hgroups]
    cases s.terminator with
    | none => exact hfirst.trans hmore
    | some t => exact (hfirst.trans hmore).trans (List.suffix_cons _ _)
  obtain ⟨more, hmore⟩ :=
    hstatement.trans (foldl_putStatement_puts o.commaStyle ss _).suffix
  have hpieces : (draft o.commaStyle (s :: ss)).pieces =
      more ++ [⟨'\n' :: List.replicate n ' ', t⟩] := hmore.symm
  exact ⟨n, t, more.reverse, ht, by rw [layoutPieces, hpieces, List.reverse_concat]⟩

theorem head_text_draft (o : Options) {tokens : List Token} {ss : List Statement}
    (h : Statement.parse tokens = .ok ss) :
    (draft o.commaStyle ss).text o = [] ∨ ((draft o.commaStyle ss).text o).head? = some '\n' := by
  by_cases hnil : ss = []
  · rw [hnil]
    exact Or.inl rfl
  · obtain ⟨n, t, rest, -, hpieces⟩ := head_layoutPieces o h hnil
    rw [layoutPieces] at hpieces
    exact Or.inr (by simp [Draft.text, hpieces])

end Layout

section Pad
variable (n : Nat)

/-- Whether a line begins before a newline makes no difference. -/
theorem padFrom_newline {text : List Char} (h : text = [] ∨ text.head? = some '\n')
    (atStart atStart' : Bool) : padFrom n atStart text = padFrom n atStart' text := by
  rcases h with rfl | h
  · rfl
  · cases text with
    | nil => rfl
    | cons c cs =>
      obtain rfl : c = '\n' := Option.some.inj h
      simp [padFrom]

/-- Text that begins with a line is padded as it is alone. -/
theorem pad_append {x y : List Char} (h : y = [] ∨ y.head? = some '\n') :
    pad n (x ++ y) = pad n x ++ pad n y := by
  rw [pad, padFrom_append, padFrom_newline n h _ true]
  rfl

end Pad

namespace Token
variable {d : Dialect} (tame : d.Tame) (o : Options) {c : Char}
include tame

/-- The characters that a token is printed with are those of its text, or stand in words of the
vocabulary. -/
theorem mem_spelling_of_made {ls : List Lexeme} {s : Spaced} (hs : Made d ls s)
    (hmark : ∀ l ∈ ls, ∀ kind, l.shape = .mark kind → kind.isPunctuation = true)
    (hc : c ∈ (s.token.spelling o).toList) :
    (∃ l ∈ ls, c ∈ l.text.toList) ∨ Text.isWordChar c = true ∨ c = ' ' := by
  have hvocabulary : ∀ {word : String}, isVocabulary word = true → c ∈ word.toList →
      Text.isWordChar c = true := by
    intro word hword hmem
    simp only [isVocabulary, Lexeme.isPlainWord, Bool.and_eq_true] at hword
    exact List.all_eq_true.mp hword.1.2 c hmem
  rcases hs with ⟨words, hwords, htoken⟩ | ⟨l, hl, rest, htoken⟩
  · right
    obtain ⟨first, more, rfl, hspelling, hplain⟩ := compound_spelling o hwords
    have hcased : ∀ w ∈ first :: more, c ∈ (cased o w).toList → Text.isWordChar c = true :=
      fun w hw => hvocabulary (cased_vocabulary o (hplain w hw).1).1
    rw [htoken, hspelling, String.toList_ofList, List.mem_append] at hc
    rcases hc with hc | hc
    · exact Or.inl (hcased first List.mem_cons_self hc)
    · obtain ⟨w, hw, hc⟩ := List.mem_flatMap.mp hc
      rcases List.mem_cons.mp hc with hspace | hc
      · exact Or.inr hspace
      · exact Or.inl (hcased w (List.mem_cons_of_mem first hw) hc)
  · rw [htoken] at hc
    unfold ofLexeme at hc
    cases hshape : l.shape with
    | quoted =>
      rw [hshape] at hc
      exact Or.inl ⟨l, hl, hc⟩
    | operator =>
      rw [hshape] at hc
      exact Or.inl ⟨l, hl, hc⟩
    | mark kind =>
      rw [hshape] at hc
      have hverbatim := (TokenKind.shape_mark (hmark l hl kind hshape)).2
      exact Or.inl ⟨l, hl, by simpa [spelling, hverbatim] using hc⟩
    | word =>
      rw [hshape] at hc
      dsimp only at hc
      by_cases hident : (ofWord d l.text (startsWithParen rest)).kind = .ident
      · rw [ofWord_ident hident] at hc
        exact Or.inl ⟨l, hl, hc⟩
      · exact Or.inr (Or.inl (hvocabulary (ofWord_spelling tame o hident).1 hc))

/-- The characters that a token is printed with are those of the source, or stand in words of the
vocabulary. -/
theorem mem_spelling_of_tokenize {source : String} {ts : List Token}
    (h : tokenize d source = .ok (ts ++ [Token.eof])) {t : Token} (ht : t ∈ ts)
    (hc : c ∈ (t.spelling o).toList) :
    c ∈ source.toList ∨ Text.isWordChar c = true ∨ c = ' ' := by
  obtain ⟨scraps, tail, hlegible, htext, hts⟩ := tokenize_ok h
  have hitem : ∀ s ∈ classify d (Scrap.lexemes false true scraps),
      c ∈ (s.token.spelling o).toList → c ∈ source.toList ∨ Text.isWordChar c = true ∨ c = ' ' := by
    intro s hs hc
    refine (mem_spelling_of_made tame o (classify_mem hs) (hlegible.isPunctuation false true) hc).imp_left ?_
    rintro ⟨l, hl, hc⟩
    rw [htext]
    exact List.mem_append_left tail (Scrap.mem_flat_of_lexemes hl hc)
  rw [List.append_cancel_right hts] at ht
  rcases resolve_mem ht with ⟨chain, literal, hchain, hliteral, hprefixes, rfl⟩ | ⟨s, hs, rest, rfl⟩
  · obtain ⟨p, -, hcompletes⟩ := hprefixes.completes
    rw [Unjoined.spelling_part (Or.inr rfl), String.toList_append, Unjoined.toList_joinedText,
      String.toList_empty, List.nil_append, List.mem_append, List.mem_flatMap] at hc
    rcases hc with ⟨s, hs, hc⟩ | hc
    · apply hitem s (hchain hs)
      rwa [Unjoined.spelling_part (Or.inl (hcompletes.parts s hs))]
    · apply hitem literal hliteral
      rwa [Unjoined.spelling_part (Or.inr hprefixes.kind)]
  · rw [spelling_kindInContext] at hc
    exact hitem s hs hc

end Token

namespace Statement

/-- A script whose last token is a semicolon ends with a statement that has one. -/
theorem Parses.terminated {base : Nat} {ts : List Token} {ss : List Statement} (h : Parses base ts ss)
    (hlast : ∀ t ∈ ts.getLast?, t.kind = .semicolon) :
    ∀ s ∈ ss.getLast?, ∃ t ∈ s.terminator, t.kind = .semicolon := by
  induction h with
  | nil => simp
  | @last base body groups hne hbody hread =>
    have hmem := List.getLast?_eq_some_getLast hne
    exact absurd (hlast _ hmem) (hbody _ (List.getLast_mem hne)).2
  | @cons base body ts groups semicolon ss hne hbody hread hsemicolon hmore ih =>
    intro s hs
    cases ss with
    | nil =>
      obtain rfl : _ = s := by simpa using hs
      exact ⟨semicolon, rfl, hsemicolon⟩
    | cons s' ss =>
      refine ih (fun t ht => ?_) s (by simpa [List.getLast?_cons_cons] using hs)
      apply hlast t
      rw [List.getLast?_append, List.getLast?_cons, Option.mem_def.mp ht]
      rfl

end Statement

/-- A text is formatted when it is read and its layout has its content. -/
theorem format_of_read {o : Options} {source : String} {tokens : List Token} {ss : List Statement}
    (htokens : tokenize o.dialect source = .ok tokens) (hparse : Statement.parse tokens = .ok ss)
    (hcontent : content source.toList =
      content (pad o.distance ((Layout.draft o.commaStyle ss).text o))) :
    format o source =
      .ok (String.ofList (pad o.distance ((Layout.draft o.commaStyle ss).text o))) := by
  unfold format layOut
  rw [htokens]
  dsimp only
  rw [hparse]
  dsimp only
  rw [Statement.parse_faultless hparse]
  dsimp only
  rw [if_pos (by simpa [sameContent] using hcontent)]

/-- Scripts are formatted statement by statement: behind a script that ends with a semicolon, another is
formatted as it is alone. -/
theorem format_append {o : Options} (hdialects : ∀ r ∈ o.dialects, r = .postgres ∨ r = .postgis)
    {first second x y : String} {ts : List Token} (hesc : '\x1b' ∉ first.toList)
    (htokens : tokenize o.dialect first = .ok (ts ++ [Token.eof]))
    (hlast : ∃ t ∈ ts.getLast?, t.kind = .semicolon)
    (hfirst : format o first = .ok x) (hsecond : format o second = .ok y) :
    format o (first ++ second) = .ok (x ++ y) := by
  have tame : o.dialect.Tame := (Dialect.shipped_strict hdialects).1.tame
  obtain ⟨ts', ss, htokens', heof, hparse, hx, hcontent⟩ := format_ok hfirst
  obtain ⟨us, ss', husTokens, heof', hparse', hy, hcontent'⟩ := format_ok hsecond
  obtain rfl : ts = ts' := List.append_cancel_right (Except.ok.inj (htokens.symm.trans htokens'))
  have hsemicolon : ∀ t ∈ ts.getLast?, t.kind = .semicolon := by
    obtain ⟨t, ht, hkind⟩ := hlast
    intro u hu
    rwa [Option.mem_unique hu ht]
  have hparses := (Statement.parse_ok_iff rfl heof).mp hparse
  have hparses' := (Statement.parse_ok_iff rfl heof').mp hparse'
  have htext : (Layout.draft o.commaStyle (ss ++ ss')).text o =
      (Layout.draft o.commaStyle ss).text o ++ (Layout.draft o.commaStyle ss').text o :=
    Layout.text_draft_append o (hparses.terminated hsemicolon)
  have hout : x.toList ++ y.toList =
      pad o.distance ((Layout.draft o.commaStyle (ss ++ ss')).text o) := by
    rw [htext, pad_append o.distance (Layout.head_text_draft o hparse'), hx, hy]
  have hspellings : ∀ t ∈ ts, '\x1b' ∉ (t.spelling o).toList := by
    intro t ht hmem
    rcases Token.mem_spelling_of_tokenize tame o htokens ht hmem with h | h | h
    · exact hesc h
    · cases h
    · cases h
  -- no escape sequence begins in the first source or is left open by its layout
  have hsource : content (first ++ second).toList = content first.toList ++ content second.toList := by
    rw [String.toList_append, content_append (visible_plain hesc)]
  have hlaid : content (x.toList ++ y.toList) = content x.toList ++ content y.toList := by
    rw [hout, hx, hy, content_pad, content_pad, content_pad, htext,
      content_append (visible_layout heof hparse hspellings)]
  have hformat := format_of_read
    (tokenize_append tame htokens hlast husTokens hparses'.isLink_head)
    (Statement.parse_append heof heof' hsemicolon hparse hparse')
    (by rw [← hout, hsource, hlaid, hcontent, hcontent'])
  rw [hformat, ← hout, ← String.toList_append, String.ofList_toList]

theorem format_append_two_queries :
    format ⟨2, .right, true, false, [.postgis]⟩ ("select a;" ++ " select b, 'c'") =
      .ok ("\n  select\n    a;" ++ "\n  select\n    b,\n    'c'") := by
  have htokens : tokenize (Options.dialect ⟨2, .right, true, false, [.postgis]⟩) "select a;" =
      .ok ([⟨.keyword .SELECT, "SELECT"⟩, ⟨.ident, "a"⟩, ⟨.semicolon, ";"⟩] ++ [Token.eof]) := by
    decide +kernel
  refine format_append (by simp) (by decide +kernel) htokens ⟨_, rfl, rfl⟩ ?_ (by decide +kernel)
  rw [format, htokens]
  decide +kernel

end SqlLayout
