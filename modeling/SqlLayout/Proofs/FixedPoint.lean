import SqlLayout.Proofs.Alignment
import SqlLayout.Proofs.Document

/-! Documents that stay as they are. Formatting a document reads it again, so a document is a fixed
point when it is read as the script that it was made of, or as one that looks the same. Three things
stand in the way: a literal without end takes the newline at the end of the document, lines that begin
inside literals are padded once more, and AND and OR are read as the lines of the document begin. The
last does no harm where plain AND and OR begin no line and end no clause. -/

namespace SqlLayout
set_option autoImplicit false
open Token

/-- The document of a script. -/
def document (o : Options) (statements : List Statement) : String :=
  asDocument (String.ofList (pad o.distance ((Layout.draft o.commaStyle statements).text o)))

/-- The tokens of a script are read as a script with the same document, when AND and OR are marked as
the lines of the document begin. -/
def Settled (o : Options) (statements : List Statement) : Prop :=
  ∃ again, Statement.parse
      (Piece.relined false (Piece.unled (layoutPieces o statements)) ++ [Token.eof]) = .ok again ∧
    document o again = document o statements

/-- AND and OR begin lines only where they open a group, and end a clause only where they do so. -/
structure Aligned (o : Options) (statements : List Statement) : Prop where
  calm : ∀ p ∈ layoutPieces o statements, p.Calm
  uncut : ∀ s ∈ statements, ∀ g ∈ s.groups, g.uncut = true

theorem relined_unled {o : Options} {statements : List Statement} {d : Draft}
    (h : (Layout.draft o.commaStyle statements).Relines d)
    (hhead : ∀ p ∈ (layoutPieces o statements).head?, p.token.kind.isLink = false) :
    Piece.relined false (Piece.unled (layoutPieces o statements)) = d.tokens := by
  have htokens : d.tokens = (layoutPieces o statements).map fun p => p.reline.token := by
    rw [Draft.tokens, h.pieces, ← List.map_reverse, List.map_map]
    rfl
  rw [htokens, Piece.relined_eq_map]
  cases hpieces : layoutPieces o statements with
  | nil => rfl
  | cons p pieces =>
    rw [hpieces] at hhead
    have hlink := hhead p rfl
    rw [Piece.unled, List.map_cons, List.map_cons, Piece.reline, Piece.reline, reline_eq_self hlink,
      reline_eq_self hlink]

/-- Where AND and OR are aligned, the document is read as the faded script, which looks the same. -/
theorem settled_of_aligned {o : Options} {ts : List Token} {statements : List Statement}
    (heof : ∀ t ∈ ts, t.kind ≠ .eof)
    (hparse : Statement.parse (ts ++ [Token.eof]) = .ok statements)
    (haligned : Aligned o statements) : Settled o statements := by
  have hparses := (Statement.parse_ok_iff rfl heof).mp hparse
  have hparsed := Statement.parse_parsed hparse
  have hterminator := fun s hs => (hparsed s hs).terminator
  have hrelines : (Layout.draft o.commaStyle statements).Relines
      (Layout.draft o.commaStyle (statements.map Statement.faded)) :=
    Layout.relines_draft
      (fun s hs g hg => ⟨(hparsed s hs).marked g hg, haligned.uncut s hs g hg⟩) hterminator
      fun p hp => haligned.calm p (List.mem_reverse.mpr hp)
  have hlaid := parse_laidOut o heof hparse
  have hhead : ∀ p ∈ (layoutPieces o statements).head?, p.token.kind.isLink = false := by
    intro p hp
    apply hparses.isLink_head
    rw [← hlaid.tokens, List.head?_map, Option.mem_def.mp hp]
    rfl
  have hfaded := hparses.faded haligned.uncut
  refine ⟨statements.map Statement.faded, ?_, ?_⟩
  · rw [relined_unled hrelines hhead, Layout.draft_tokens]
    exact hfaded.parse rfl
  · rw [document, document, hrelines.text]

theorem ne_eof_of_tokenize {d : Dialect} {text : String} {ts : List Token}
    (htokens : tokenize d text = .ok (ts ++ [Token.eof])) : ∀ t ∈ ts, t.kind ≠ .eof := by
  obtain ⟨us, hus, heof, -⟩ := tokenize_tokens htokens
  obtain rfl := List.append_cancel_right hus
  exact heof

theorem formatDocument_ok_iff {o : Options} {source : ByteArray} {doc : String} :
    formatDocument o source = .ok doc ↔
      ∃ text ts statements, Text.decode source = .ok text ∧
        tokenize o.dialect text = .ok (ts ++ [Token.eof]) ∧
        Statement.parse (ts ++ [Token.eof]) = .ok statements ∧
        content text.toList = content doc.toList ∧ document o statements = doc := by
  constructor
  · intro h
    unfold formatDocument formatBytes at h
    cases hdecode : Text.decode source with
    | error position =>
      rw [hdecode] at h
      cases h
    | ok text =>
      simp only [hdecode] at h
      cases hformat : format o text with
      | error e =>
        rw [hformat] at h
        cases h
      | ok out =>
        rw [hformat] at h
        obtain rfl : asDocument out = doc := Except.ok.inj h
        obtain ⟨ts, statements, htokens, -, hparse, hout, hcontent⟩ := format_ok hformat
        refine ⟨text, ts, statements, rfl, htokens, hparse, ?_, ?_⟩
        · rw [content_asDocument]
          exact hcontent
        · rw [document, ← hout, String.ofList_toList]
  · rintro ⟨text, ts, statements, hdecode, htokens, hparse, hcontent, rfl⟩
    have hsame : sameContent text.toList
        (pad o.distance ((Layout.draft o.commaStyle statements).text o)) = true := by
      rw [document, content_asDocument, String.toList_ofList] at hcontent
      rw [sameContent, hcontent, beq_self_eq_true]
    simp [formatDocument, formatBytes, hdecode, format, htokens, hparse, layOut,
      Statement.parse_faultless hparse, hsame, Except.map, document]

theorem Token.mem_bodies {ts : List Token} {t : Token} (ht : t ∈ ts) (hkind : t.kind = .string) :
    t.body ∈ bodies ts :=
  List.mem_map_of_mem (List.mem_filter.mpr ⟨ht, by simpa using hkind⟩)

theorem Token.padded_eq_iff {n : Nat} {ts : List Token} :
    (∀ t ∈ ts, t.padded n = t) ↔ n = 0 ∨ ∀ t ∈ ts, t.kind = .string → Unbroken t.text.toList := by
  have hpadded : ∀ t : Token, t.padded n = t ↔ n = 0 ∨ (t.kind = .string → Unbroken t.text.toList) := by
    intro t
    obtain ⟨kind, text⟩ := t
    unfold Token.padded
    split
    · rename_i hkind
      obtain rfl : kind = .string := hkind
      simp only [Token.mk.injEq, true_and, forall_const]
      rw [← String.toList_inj, String.toList_ofList, padFrom_eq_self_iff]
      simp
    · rename_i hkind
      simp [hkind]
  simp only [hpadded]
  by_cases hn : n = 0
  · simp [hn]
  · simp [hn]

section Reading
variable {o : Options} {text : String} {ts : List Token} {statements : List Statement}
  (hcolor : o.colorized = false) (strict : o.dialect.Strict)
  (hsource : tokenize o.dialect text = .ok (ts ++ [Token.eof])) (hlaid : LaidOut o ts statements)
include hcolor strict hsource hlaid

theorem toList_document :
    ∃ ending, Scrap.isBlank ending ∧ (ending = [] → ts = []) ∧
      (document o statements).toList = padFrom o.distance true
        (Piece.flat o (Piece.unled (layoutPieces o statements)) ++ layoutTail o statements) ++
          ending := by
  have hlined := (readable_layout strict hsource hlaid).lined strict
  have hnone : layoutPieces o statements = [] → layoutTail o statements = [] := by
    intro hnil
    refine hlaid.last.resolve_right ?_
    rintro ⟨p, hp, -⟩
    rw [hnil] at hp
    cases hp
  have hbody : dropNewline
      (String.ofList (pad o.distance ((Layout.draft o.commaStyle statements).text o))).toList =
      padFrom o.distance true
        (Piece.flat o (Piece.unled (layoutPieces o statements)) ++ layoutTail o statements) := by
    rw [String.toList_ofList, draft_text hcolor, pad, dropNewline_padFrom,
      Piece.dropNewline_flat hlined hnone]
  obtain ⟨ending, hblank, hending, hdocument⟩ := toList_asDocument
    (String.ofList (pad o.distance ((Layout.draft o.commaStyle statements).text o)))
  rw [hbody] at hending hdocument
  refine ⟨ending, hblank, ?_, hdocument⟩
  intro hnil
  rw [← hlaid.tokens]
  have hempty := (padFrom_eq_nil_iff _ _ _).mp (hending.mp hnil)
  cases hpieces : layoutPieces o statements with
  | nil => rfl
  | cons p pieces =>
    obtain ⟨c, cs, hcs, -⟩ := (hlined p (by rw [hpieces]; exact List.mem_cons_self)).head
    rw [hpieces, Piece.unled, Piece.flat_cons, hcs] at hempty
    simp at hempty

theorem document_bodies :
    ∃ us, tokenize o.dialect (document o statements) = .ok (us ++ [Token.eof]) ∧
      (((∀ t ∈ ts, t.isOpen = false) ∧ bodies us = (bodies ts).map (padFrom o.distance false)) ∨
        ∃ first t last, ts = first ++ [t] ∧ t.isOpen = true ∧
          bodies us = (bodies first).map (padFrom o.distance false) ++ [last] ∧
          t.body.length < last.length ∧ Lexeme.isClosed last = false) := by
  have hreadable := (readable_layout strict hsource hlaid).unled
  have htokens : (Piece.unled (layoutPieces o statements)).map Piece.token = ts := by
    rw [Piece.unled_tokens, hlaid.tokens]
  obtain ⟨ending, hblank, hending, hdocument⟩ := toList_document hcolor strict hsource hlaid
  rw [← String.ofList_toList (s := document o statements), hdocument]
  rcases open_cases (closed_of_tokenize strict.tame hsource) with hclosed | ⟨first, t, hts, hopen⟩
  · obtain ⟨us, hus, hbodies⟩ :=
      hreadable.tokenize_closed strict o.distance hblank (by rw [htokens]; exact hclosed)
    rw [htokens] at hbodies
    exact ⟨us, hus, Or.inl ⟨hclosed, hbodies⟩⟩
  · obtain ⟨us, hus, hbodies, hstill⟩ :=
      hreadable.tokenize_open strict o.distance hblank (htokens.trans hts) hopen
    refine ⟨us, hus, Or.inr ⟨first, t, _, hts, hopen, hbodies, ?_, hstill⟩⟩
    have hle := length_le_padFrom o.distance false t.body
    have hpos : 0 < ending.length := by
      rw [List.length_pos_iff]
      intro hnil
      rw [hending hnil] at hts
      simp at hts
    rw [List.length_append]
    omega

/-- A document without open literals and with unpadded literals is read as the tokens of its source,
with AND and OR as its lines begin. -/
theorem tokenize_document (hcontent : content text.toList = content (document o statements).toList)
    (hstray : ts.IsChain fun t u => ¬StrayColon t u) (hclosed : ∀ t ∈ ts, t.isOpen = false)
    (hwhole : ∀ t ∈ ts, t.padded o.distance = t) :
    tokenize o.dialect (document o statements) =
      .ok (Piece.relined false (Piece.unled (layoutPieces o statements)) ++ [Token.eof]) := by
  have hreadable := (readable_layout strict hsource hlaid).unled
  have htokens : (Piece.unled (layoutPieces o statements)).map Piece.token = ts := by
    rw [Piece.unled_tokens, hlaid.tokens]
  obtain ⟨ending, hblank, -, hdocument⟩ := toList_document hcolor strict hsource hlaid
  obtain ⟨rest, -, hflat, hpadded⟩ := hreadable.padded strict o.distance true
  have hsame : (Piece.padded o o.distance true (Piece.unled (layoutPieces o statements))).map
      Piece.token = ts := by
    rw [Piece.padded_tokens, htokens]
    exact (List.map_congr_left hwhole).trans ts.map_id
  rw [hflat, List.append_assoc] at hdocument
  obtain ⟨us, hus, -, hops⟩ := tokenize_tokens hsource
  obtain rfl := List.append_cancel_right hus
  rw [← String.ofList_toList (s := document o statements), hdocument] at hcontent ⊢
  rw [String.toList_ofList] at hcontent
  rw [tokenize_flat strict.tame (by rw [hsame]; exact hsource) hpadded.blank hpadded.apart ?_
    (isBlank_append hpadded.end_blank hblank) (Or.inr ?_) hcontent, Piece.relined_padded]
  · rw [htokens]
    exact hwhole
  · apply unstray_of_tokens strict.tame
    · intro p hp
      exact hops p.token (hsame ▸ List.mem_map_of_mem hp)
    · rw [hsame]
      exact hstray
  · intro p hp
    exact hclosed p.token (hsame ▸ List.mem_map_of_mem (List.mem_of_getLast? hp))

/-- If the document is formatted to itself, no literal is open and none is padded. -/
theorem closed_of_fixed {us : List Token} {again : List Statement}
    (htokens : tokenize o.dialect (document o statements) = .ok (us ++ [Token.eof]))
    (hagain : LaidOut o us again) (hsame : document o again = document o statements) :
    (∀ t ∈ ts, t.isOpen = false) ∧
      (o.distance = 0 ∨ ∀ t ∈ ts, t.kind = .string → Unbroken t.text.toList) := by
  obtain ⟨us', hus, hbodies⟩ := document_bodies hcolor strict hsource hlaid
  obtain ⟨vs, hvs, hbodies'⟩ := document_bodies hcolor strict htokens hagain
  rw [hsame] at hvs
  obtain rfl := List.append_cancel_right (Except.ok.inj (htokens.symm.trans hus))
  obtain rfl := List.append_cancel_right (Except.ok.inj (htokens.symm.trans hvs))
  rcases hbodies' with ⟨hclosed, hfixed⟩ | ⟨first, t, last, rfl, hopen, hlast, hlt, -⟩
  · rcases hbodies with ⟨hclosed', hpadded⟩ | ⟨first, t, last, -, -, hpadded, -, hstill⟩
    · refine ⟨hclosed', or_iff_not_imp_left.mpr fun hdistance t ht hkind => ?_⟩
      have hknown := known_of_tokenize strict o hsource t ht
      have hmem : padFrom o.distance false t.body ∈ bodies us := by
        rw [hpadded]
        exact List.mem_map_of_mem (mem_bodies ht hkind)
      have htwice := List.map_inj_left.mp (hfixed.symm.trans (List.map_id _).symm) _ hmem
      have hunbroken := ((padFrom_eq_self_iff _ _ _).mp htwice).resolve_left hdistance
      exact (hknown.unbroken_iff strict hkind).mpr (unbroken_of_padFrom _ hdistance false hunbroken.1)
    · -- the last literal of the document would be open
      have hmem : last ∈ bodies us := by
        rw [hpadded]
        simp
      obtain ⟨u, hu, rfl⟩ := List.mem_map.mp hmem
      obtain ⟨hu, hkind⟩ := List.mem_filter.mp hu
      have hopen := hclosed u hu
      rw [isOpen_eq, hkind, hstill] at hopen
      cases hopen
  · -- an open literal grows every time
    have hkind : t.kind = .string := by
      rw [isOpen_eq, Bool.and_eq_true, decide_eq_true_eq] at hopen
      exact hopen.1
    rw [bodies_concat _ hkind] at hlast
    obtain ⟨-, hbody⟩ := List.append_inj' hlast rfl
    rw [List.cons.inj hbody |>.1] at hlt
    exact absurd hlt (Nat.lt_irrefl _)

end Reading

theorem laidOut_of_tokenize {o : Options} {text : String} {ts : List Token}
    {statements : List Statement} (htokens : tokenize o.dialect text = .ok (ts ++ [Token.eof]))
    (hparse : Statement.parse (ts ++ [Token.eof]) = .ok statements) : LaidOut o ts statements :=
  parse_laidOut o (ne_eof_of_tokenize htokens) hparse

/-- A document is formatted to itself exactly when no literal is open, no line that begins inside a
literal is padded, and AND and OR are read as a script with the same document. They are when they are
aligned. -/
theorem formatDocument_fixed_iff {o : Options} {source : ByteArray} {text doc : String} {ts : List Token}
    {statements : List Statement} (hcolor : o.colorized = false) (strict : o.dialect.Strict)
    (hdecode : Text.decode source = .ok text)
    (htokens : tokenize o.dialect text = .ok (ts ++ [Token.eof]))
    (hparse : Statement.parse (ts ++ [Token.eof]) = .ok statements)
    (hstray : ts.IsChain fun t u => ¬StrayColon t u)
    (h : formatDocument o source = .ok doc) :
    (formatDocument o doc.toUTF8 = .ok doc ↔
      (∀ t ∈ ts, t.isOpen = false) ∧
      (o.distance = 0 ∨ ∀ t ∈ ts, t.kind = .string → Unbroken t.text.toList) ∧
      Settled o statements) ∧
    (Aligned o statements → Settled o statements) := by
  obtain ⟨text', ts', statements', hdecode', htokens', hparse', hcontent, rfl⟩ :=
    formatDocument_ok_iff.mp h
  obtain rfl := Except.ok.inj (hdecode.symm.trans hdecode')
  obtain rfl := List.append_cancel_right (Except.ok.inj (htokens.symm.trans htokens'))
  obtain rfl := Except.ok.inj (hparse.symm.trans hparse')
  have hlaid := laidOut_of_tokenize htokens hparse
  have hread := tokenize_document hcolor strict htokens hlaid hcontent hstray
  refine ⟨⟨fun hagain => ?_, ?_⟩, settled_of_aligned (ne_eof_of_tokenize htokens) hparse⟩
  · obtain ⟨text', us, again, hdecode', hus, hagain, -, hsame⟩ := formatDocument_ok_iff.mp hagain
    obtain rfl := Except.ok.inj ((Text.decode_toUTF8 _).symm.trans hdecode')
    obtain ⟨hclosed, hwhole⟩ :=
      closed_of_fixed hcolor strict htokens hlaid hus (laidOut_of_tokenize hus hagain) hsame
    refine ⟨hclosed, hwhole, again, ?_, hsame⟩
    rw [Except.ok.inj ((hread hclosed (padded_eq_iff.mpr hwhole)).symm.trans hus)]
    exact hagain
  · rintro ⟨hclosed, hwhole, again, hagain, hsame⟩
    exact formatDocument_ok_iff.mpr ⟨_, _, again, Text.decode_toUTF8 _,
      hread hclosed (padded_eq_iff.mpr hwhole), hagain, rfl, hsame⟩

theorem formatDocument_extends_open_literal :
    formatDocument {} "SELECT 'abc".toUTF8 = .ok "SELECT\n  'abc\n" ∧
      formatDocument {} "SELECT\n  'abc\n".toUTF8 ≠ .ok "SELECT\n  'abc\n" := by
  have hformat : formatDocument {} "SELECT 'abc".toUTF8 = .ok "SELECT\n  'abc\n" := by
    decide +kernel
  refine ⟨hformat, fun hfixed => ?_⟩
  have htokens : tokenize ({} : Options).dialect "SELECT 'abc" =
      .ok ([⟨.keyword .SELECT, "SELECT"⟩, ⟨.string, "'abc"⟩] ++ [Token.eof]) := by
    decide +kernel
  obtain ⟨statements, hparse⟩ := Statement.exists_of_isOk (show (Statement.parse
    ([⟨.keyword .SELECT, "SELECT"⟩, ⟨.string, "'abc"⟩] ++ [Token.eof])).isOk = true by decide +kernel)
  have strict : ({} : Options).dialect.Strict := Dialect.builtin_strict
  have hiff := formatDocument_fixed_iff rfl strict (Text.decode_toUTF8 _) htokens hparse (by decide)
    hformat
  have hclosed := (hiff.1.mp hfixed).1
  revert hclosed
  decide

end SqlLayout
