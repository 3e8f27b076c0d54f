import SqlLayout.Proofs.Padding
import SqlLayout.Proofs.Visible

/-! The distance of a text from the margin. Padding works line by line, and distances add up. It shows
nothing, not even inside an escape sequence that is left open, so the safeguard judges a padded layout
as it judges the layout itself. The distance therefore takes part in nothing but the padding. -/

namespace SqlLayout
set_option autoImplicit false

/-- Put `n` spaces before a line, unless it is empty. -/
def padLine (n : Nat) (line : List Char) : List Char :=
  if line = [] then [] else List.replicate n ' ' ++ line

theorem padLine_cons (n : Nat) (c : Char) (line : List Char) :
    padLine n (c :: line) = List.replicate n ' ' ++ c :: line := rfl

/-- Every line but the first is padded, and the first is padded when the text begins a line. -/
theorem padFrom_eq_lines (n : Nat) (atStart : Bool) {text line : List Char} {lines : List (List Char)}
    (h : text.splitOn '\n' = line :: lines) :
    padFrom n atStart text =
      ['\n'].intercalate ((if atStart then padLine n line else line) :: lines.map (padLine n)) := by
  induction text generalizing atStart line lines with
  | nil =>
    rw [List.splitOn_nil] at h
    obtain ⟨rfl, rfl⟩ := List.cons.inj h
    cases atStart <;> rfl
  | cons c text ih =>
    obtain ⟨next, rest, hsplit⟩ := List.exists_cons_of_ne_nil (List.splitOn_ne_nil '\n' text)
    rw [List.splitOn_cons_eq_if_modifyHead, hsplit] at h
    rw [padFrom]
    by_cases hc : c = '\n'
    · rw [if_pos (by simpa using hc)] at h
      obtain ⟨rfl, rfl⟩ := List.cons.inj h
      rw [if_pos hc, hc, ih true hsplit, List.map_cons,
        List.intercalate_cons_of_ne_nil (List.cons_ne_nil _ _)]
      cases atStart <;> rfl
    · rw [if_neg (by simpa using hc)] at h
      obtain ⟨rfl, rfl⟩ := List.cons.inj h
      have hjoin : ∀ before line : List Char,
          ['\n'].intercalate ((before ++ line) :: rest.map (padLine n)) =
            before ++ ['\n'].intercalate (line :: rest.map (padLine n)) := by
        intro before line
        cases rest <;> simp [List.intercalate_cons_cons]
      have hmore := ih false hsplit
      rw [if_neg Bool.false_ne_true] at hmore
      rw [if_neg hc, hmore]
      cases atStart with
      | true =>
        rw [if_pos rfl, if_pos rfl, padLine_cons, hjoin]
        exact congrArg _ (hjoin [c] next).symm
      | false => exact (hjoin [c] next).symm

theorem pad_eq_lines (n : Nat) (text : List Char) :
    pad n text = ['\n'].intercalate ((text.splitOn '\n').map (padLine n)) := by
  obtain ⟨line, lines, hsplit⟩ := List.exists_cons_of_ne_nil (List.splitOn_ne_nil '\n' text)
  rw [hsplit, pad, padFrom_eq_lines n true hsplit]
  rfl

theorem padFrom_spaces (n k : Nat) (text : List Char) :
    padFrom n false (List.replicate k ' ' ++ text) = List.replicate k ' ' ++ padFrom n false text := by
  induction k with
  | zero => rfl
  | succ k ih =>
    rw [List.replicate_succ, List.cons_append, padFrom, if_neg (by decide), if_neg (by decide), ih]
    rfl

theorem padFrom_padFrom (a b : Nat) (atStart : Bool) (text : List Char) :
    padFrom b atStart (padFrom a atStart text) = padFrom (a + b) atStart text := by
  induction text generalizing atStart with
  | nil => rfl
  | cons c text ih =>
    by_cases hc : c = '\n'
    · simp [padFrom, hc, ih]
    · have hfalse : padFrom b false (padFrom a false (c :: text)) =
          padFrom (a + b) false (c :: text) := by
        simp [padFrom, hc, ih]
      cases atStart with
      | false => exact hfalse
      | true =>
        rw [padFrom_true a hc, padFrom_true (a + b) hc, ← hfalse]
        cases a with
        | zero =>
          -- nothing stands before the line yet
          rw [padFrom_zero, Nat.zero_add]
          exact padFrom_true b hc text
        | succ a =>
          -- the line begins with a space, which is padded like any other character
          have hspace : ' ' ≠ '\n' := by decide
          generalize padFrom (a + 1) false (c :: text) = line
          calc padFrom b true (List.replicate (a + 1) ' ' ++ line)
              = List.replicate b ' ' ++ padFrom b false (List.replicate (a + 1) ' ' ++ line) :=
                padFrom_true b hspace _
            _ = List.replicate b ' ' ++ (List.replicate (a + 1) ' ' ++ padFrom b false line) := by
                rw [padFrom_spaces]
            _ = List.replicate (a + 1 + b) ' ' ++ padFrom b false line := by
                rw [← List.append_assoc, ← List.replicate_add, Nat.add_comm b]

/-- The distance pads the lines of the text that is printed without one, and changes nothing else. A text
that fails at one distance fails in the same way at any other. Distances add up, and padding puts its
spaces before each line that is not empty. -/
theorem format_distance (o : Options) (distance : Nat) (source : String) :
    format { o with distance := distance } source =
        (format { o with distance := 0 } source).map
          (fun text => String.ofList (pad distance text.toList)) ∧
    (∀ a b text, pad b (pad a text) = pad (a + b) text) ∧
    ∀ n text, pad n text = ['\n'].intercalate ((text.splitOn '\n').map (padLine n)) := by
  refine ⟨?_, fun a b text => padFrom_padFrom a b true text, pad_eq_lines⟩
  -- the stages before the padding do not read the distance
  have hdialect : Options.dialect { o with distance := distance } = o.dialect := rfl
  have hdialect' : Options.dialect { o with distance := 0 } = o.dialect := rfl
  have hlayOut : layOut { o with distance := distance } = layOut o := rfl
  have hlayOut' : layOut { o with distance := 0 } = layOut o := rfl
  unfold format
  rw [hdialect, hdialect', hlayOut, hlayOut']
  cases tokenize o.dialect source with
  | error e => rfl
  | ok tokens =>
    dsimp only
    cases Statement.parse tokens with
    | error e => rfl
    | ok statements =>
      dsimp only
      cases layOut o statements with
      | error fault => rfl
      | ok text =>
        have hjudge : sameContent source.toList (pad distance text) =
            sameContent source.toList (pad 0 text) := by
          rw [sameContent, sameContent, content_pad, content_pad]
        have hzero : pad 0 text = text := padFrom_zero true text
        dsimp only
        rw [hjudge, hzero]
        cases sameContent source.toList text with
        | false => rfl
        | true => simp [Except.map]

end SqlLayout
