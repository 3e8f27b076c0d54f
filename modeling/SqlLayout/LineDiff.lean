/-! Differences between two texts, line by line. The shortest edit script is found by searching from
both ends until the two searches meet; the script is then tidied, and printed in hunks with three
lines of context. -/

namespace SqlLayout
set_option autoImplicit false

namespace LineDiff

/-- The lines of a text with the marks that end them: a newline, a carriage return, or both. `line`
holds what has been read of the current line, backwards. -/
def splitFrom (line : List Char) : List Char → List String
  | [] => if line.isEmpty then [] else [String.ofList line.reverse]
  | '\r' :: '\n' :: cs => String.ofList ('\n' :: '\r' :: line).reverse :: splitFrom [] cs
  | c :: cs =>
    if c = '\r' || c = '\n' then String.ofList (c :: line).reverse :: splitFrom [] cs
    else splitFrom (c :: line) cs

def lines (text : String) : List String := splitFrom [] text.toList

/-- A step of an edit script: lines that stay, go, come, or go and come. Indices count the lines of
the old and the new text. -/
inductive Edit where
  | keep (old new len : Nat)
  | delete (old len new : Nat)
  | insert (old new len : Nat)
  | replace (old oldLen new newLen : Nat)
deriving DecidableEq, Repr

namespace Edit

def oldStart : Edit → Nat
  | .keep old _ _ | .delete old _ _ | .insert old _ _ | .replace old _ _ _ => old

def newStart : Edit → Nat
  | .keep _ new _ | .delete _ _ new | .insert _ new _ | .replace _ _ new _ => new

def oldLen : Edit → Nat
  | .keep _ _ len | .delete _ len _ => len
  | .insert _ _ _ => 0
  | .replace _ oldLen _ _ => oldLen

def newLen : Edit → Nat
  | .keep _ _ len | .insert _ _ len => len
  | .delete _ _ _ => 0
  | .replace _ _ _ newLen => newLen

def oldEnd (e : Edit) : Nat := e.oldStart + e.oldLen

def newEnd (e : Edit) : Nat := e.newStart + e.newLen

def adjust (start len : Nat → Nat) : Edit → Edit
  | .keep old new n => .keep (start old) (start new) (len n)
  | .delete old n new => .delete (start old) (len n) (start new)
  | .insert old new n => .insert (start old) (start new) (len n)
  | e => e

def isEmpty (e : Edit) : Bool := e.oldLen = 0 && e.newLen = 0

end Edit

structure Texts where
  old : Array String
  new : Array String

structure Part where
  start : Nat
  stop : Nat

def Part.len (p : Part) : Nat := p.stop - p.start

def Texts.agree (t : Texts) (i j : Nat) : Bool := t.old.getD i "" == t.new.getD j ""

def commonFrom (t : Texts) (i j : Nat) : Nat → Nat
  | 0 => 0
  | n + 1 => if t.agree i j then commonFrom t (i + 1) (j + 1) n + 1 else 0

def commonBefore (t : Texts) (i j : Nat) : Nat → Nat
  | 0 => 0
  | n + 1 => if t.agree (i - 1) (j - 1) then commonBefore t (i - 1) (j - 1) n + 1 else 0

def commonHead (t : Texts) (a b : Part) : Nat := commonFrom t a.start b.start (min a.len b.len)

def commonTail (t : Texts) (a b : Part) : Nat := commonBefore t a.stop b.stop (min a.len b.len)

/-- For each diagonal, how far a search has come. Diagonals run from `-size` to `size`. -/
structure Reach where
  size : Nat
  far : Array Nat

namespace Reach

def start (size : Nat) : Reach := ⟨size, Array.replicate (2 * size + 1) 0⟩

def get (r : Reach) (k : Int) : Nat := r.far.getD (k + r.size).toNat 0

def set (r : Reach) (k : Int) (x : Nat) : Reach :=
  { r with far := r.far.setIfInBounds (k + r.size).toNat x }

/-- How far the search comes on a diagonal with one step more, before lines that agree. -/
def step (r : Reach) (d k : Int) : Nat :=
  if k = -d ∨ (k ≠ d ∧ r.get (k - 1) < r.get (k + 1)) then r.get (k + 1) else r.get (k - 1) + 1

end Reach

def diagonals (d : Nat) : List Int := (List.range (d + 1)).map fun (i : Nat) => (d : Int) - 2 * (i : Int)

structure Searches where
  forward : Reach
  backward : Reach

/-- One more step forward on the given diagonals. Gives the point where the searches meet, or the
searches. -/
def stepForward (t : Texts) (a b : Part) (d : Nat) (s : Searches) :
    List Int → (Nat × Nat) ⊕ Searches
  | [] => .inr s
  | k :: ks =>
    let delta := (a.len : Int) - (b.len : Int)
    let x := s.forward.step d k
    let y := ((x : Int) - k).toNat
    let run :=
      if x < a.len ∧ y < b.len then
        commonHead t ⟨a.start + x, a.stop⟩ ⟨b.start + y, b.stop⟩
      else 0
    let s := { s with forward := s.forward.set k (x + run) }
    if delta % 2 ≠ 0 ∧ (k - delta).natAbs + 1 ≤ d ∧
        a.len ≤ s.forward.get k + s.backward.get (-(k - delta)) then
      .inl (a.start + x, b.start + y)
    else stepForward t a b d s ks

def stepBackward (t : Texts) (a b : Part) (d : Nat) (s : Searches) :
    List Int → (Nat × Nat) ⊕ Searches
  | [] => .inr s
  | k :: ks =>
    let delta := (a.len : Int) - (b.len : Int)
    let x := s.backward.step d k
    let y := ((x : Int) - k).toNat
    let run :=
      if x < a.len ∧ y < b.len then
        commonTail t ⟨a.start, a.start + a.len - x⟩ ⟨b.start, b.start + b.len - y⟩
      else 0
    let s := { s with backward := s.backward.set k (x + run) }
    if delta % 2 = 0 ∧ (k - delta).natAbs ≤ d ∧
        a.len ≤ s.backward.get k + s.forward.get (-(k - delta)) then
      .inl (a.start + (a.len - (x + run)), b.start + (b.len - (y + run)))
    else stepBackward t a b d s ks

/-- Search on with more and more steps, of which `left` are left, until the searches meet. -/
def meetFrom (t : Texts) (a b : Part) (s : Searches) : (left d : Nat) → Option (Nat × Nat)
  | 0, _ => none
  | left + 1, d =>
    match stepForward t a b d s (diagonals d) with
    | .inl point => some point
    | .inr s =>
      match stepBackward t a b d s (diagonals d) with
      | .inl point => some point
      | .inr s => meetFrom t a b s left (d + 1)

def meet? (t : Texts) (a b : Part) : Option (Nat × Nat) :=
  let limit := (a.len + b.len + 1) / 2 + 1
  meetFrom t a b ⟨.start (limit + 1), .start (limit + 1)⟩ limit 0

/-- The edit script between two parts. Lines that agree at both ends are kept, and the rest is split
at a point of the script. The fuel is more than the number of lines. -/
def script (t : Texts) : Nat → Part → Part → List Edit
  | 0, a, b => [.delete a.start a.len b.start, .insert a.start b.start b.len]
  | fuel + 1, a, b =>
    let head := commonHead t a b
    let keptHead := if head = 0 then [] else [Edit.keep a.start b.start head]
    let a : Part := ⟨a.start + head, a.stop⟩
    let b : Part := ⟨b.start + head, b.stop⟩
    let tail := commonTail t a b
    let keptTail := if tail = 0 then [] else [Edit.keep (a.stop - tail) (b.stop - tail) tail]
    let a : Part := ⟨a.start, a.stop - tail⟩
    let b : Part := ⟨b.start, b.stop - tail⟩
    let middle :=
      if a.len = 0 ∧ b.len = 0 then []
      else if b.len = 0 then [.delete a.start a.len b.start]
      else if a.len = 0 then [.insert a.start b.start b.len]
      else match meet? t a b with
        | some (x, y) =>
          script t fuel ⟨a.start, x⟩ ⟨b.start, y⟩ ++ script t fuel ⟨x, a.stop⟩ ⟨y, b.stop⟩
        | none => [.delete a.start a.len b.start, .insert a.start b.start b.len]
    keptHead ++ middle ++ keptTail

/-- A step of the script that is being moved, the steps before it (nearest first), and those behind
it. -/
structure Focus where
  before : List Edit
  this : Edit
  behind : List Edit

/-- Move a step up as far as it goes: an insertion past lines that it could as well begin with, and
insertions and deletions past each other. Steps of one kind that meet become one. -/
def moveUp (t : Texts) : Nat → Focus → Focus
  | 0, f => f
  | fuel + 1, f =>
    match f.before with
    | [] => f
    | prev :: before =>
      match f.this, prev with
      | .insert _ _ _, .keep _ _ _ =>
        let n := commonTail t ⟨prev.oldStart, prev.oldEnd⟩ ⟨f.this.newStart, f.this.newEnd⟩
        if 0 < n then
          let behind := match f.behind with
            | .keep old new len :: rest => .keep (old - n) (new - n) (len + n) :: rest
            | rest => .keep (prev.oldEnd - n) (f.this.newEnd - n) n :: rest
          let this := f.this.adjust (· - n) id
          let prev := prev.adjust id (· - n)
          moveUp t fuel ⟨if prev.isEmpty then before else prev :: before, this, behind⟩
        else if prev.isEmpty then moveUp t fuel { f with before := before }
        else f
      | .delete _ _ _, .keep _ _ _ =>
        if prev.isEmpty then moveUp t fuel { f with before := before } else f
      | .insert _ _ _, .delete _ _ _ | .delete _ _ _, .insert _ _ _ =>
        moveUp t fuel ⟨before, f.this, prev :: f.behind⟩
      | .insert _ _ n, .insert _ _ _ => moveUp t fuel ⟨before, prev.adjust id (· + n), f.behind⟩
      | .delete _ n _, .delete _ _ _ => moveUp t fuel ⟨before, prev.adjust id (· + n), f.behind⟩
      | _, _ => f

def moveDown (t : Texts) : Nat → Focus → Focus
  | 0, f => f
  | fuel + 1, f =>
    match f.behind with
    | [] => f
    | next :: behind =>
      match f.this, next with
      | .insert _ _ _, .keep _ _ _ =>
        let n := commonHead t ⟨next.oldStart, next.oldEnd⟩ ⟨f.this.newStart, f.this.newEnd⟩
        if 0 < n then
          let before := match f.before with
            | .keep old new len :: rest => .keep old new (len + n) :: rest
            | rest => .keep next.oldStart f.this.newStart n :: rest
          let this := f.this.adjust (· + n) id
          let next := next.adjust (· + n) (· - n)
          moveDown t fuel ⟨before, this, if next.isEmpty then behind else next :: behind⟩
        else if next.isEmpty then moveDown t fuel { f with behind := behind }
        else f
      | .delete _ _ _, .keep _ _ _ =>
        if next.isEmpty then moveDown t fuel { f with behind := behind } else f
      | .insert _ _ _, .delete _ _ _ | .delete _ _ _, .insert _ _ _ =>
        moveDown t fuel ⟨next :: f.before, f.this, behind⟩
      | .insert _ _ _, .insert _ _ n =>
        moveDown t fuel ⟨f.before, f.this.adjust id (· + n), behind⟩
      | .delete _ _ _, .delete _ n _ =>
        moveDown t fuel ⟨f.before, f.this.adjust id (· + n), behind⟩
      | _, _ => f

/-- Move every step that `moves` up and then down again. -/
def settle (t : Texts) (moves : Edit → Bool) (moveFuel : Nat) :
    Nat → List Edit → List Edit → List Edit
  | 0, before, behind => before.reverse ++ behind
  | _, before, [] => before.reverse
  | fuel + 1, before, e :: behind =>
    if moves e then
      let f := moveDown t moveFuel (moveUp t moveFuel ⟨before, e, behind⟩)
      settle t moves moveFuel fuel (f.this :: f.before) f.behind
    else settle t moves moveFuel fuel (e :: before) behind

def isDelete : Edit → Bool
  | .delete _ _ _ => true
  | _ => false

def isInsert : Edit → Bool
  | .insert _ _ _ => true
  | _ => false

def tidy (t : Texts) (edits : List Edit) : List Edit :=
  let moveFuel := t.old.size + t.new.size + edits.length + 1
  let fuel := 2 * moveFuel
  settle t isInsert moveFuel fuel [] (settle t isDelete moveFuel fuel [] edits)

def change : Option Edit → Option Edit → List Edit
  | some (.delete old n _), some (.insert _ new m) => [.replace old n new m]
  | some d, none => [d]
  | none, some i => [i]
  | _, _ => []

/-- Put deletions and insertions that stand together into one step, and lines that are kept. -/
def join (kept deleted inserted : Option Edit) : List Edit → List Edit
  | [] => kept.toList ++ change deleted inserted
  | e :: rest =>
    match e with
    | .keep _ _ n =>
      let kept := match kept with
        | some k => k.adjust id (· + n)
        | none => e
      change deleted inserted ++ join (some kept) none none rest
    | .delete _ n _ =>
      let deleted := match deleted with
        | some d => d.adjust id (· + n)
        | none => e
      kept.toList ++ join none (some deleted) inserted rest
    | .insert _ _ n =>
      let inserted := match inserted with
        | some i => i.adjust id (· + n)
        | none => e
      kept.toList ++ join none deleted (some inserted) rest
    | .replace _ _ _ _ => kept.toList ++ change deleted inserted ++ e :: join none none none rest

def edits (t : Texts) : List Edit :=
  let all := script t (t.old.size + t.new.size + 1) ⟨0, t.old.size⟩ ⟨0, t.new.size⟩
  join none none none (tidy t all)

def radius : Nat := 3

/-- Of the lines kept at the start, only those near the first change. -/
def trimHead : List Edit → List Edit
  | .keep old new len :: rest =>
    let n := len - radius
    .keep (old + n) (new + n) (len - n) :: rest
  | es => es

def trimTail (es : List Edit) : List Edit :=
  match es.reverse with
  | .keep old new len :: rest => (.keep old new (min len radius) :: rest).reverse
  | _ => es

/-- Divide a script where many lines are kept. `group` holds the current group, backwards. -/
def divide (group : List Edit) : List Edit → List (List Edit)
  | [] =>
    match group with
    | [] | [.keep _ _ _] => []
    | _ => [group.reverse]
  | .keep old new len :: rest =>
    if 2 * radius < len then
      let n := len - radius
      (.keep old new radius :: group).reverse :: divide [.keep (old + n) (new + n) (len - n)] rest
    else divide (.keep old new len :: group) rest
  | e :: rest => divide (e :: group) rest

def rangeText (start stop : Nat) : String :=
  let len := stop - start
  if len = 1 then Nat.repr (start + 1)
  else Nat.repr (if len = 0 then start else start + 1) ++ "," ++ Nat.repr len

/-- A line of a hunk. One that has no mark at its end is followed by a remark. -/
def lineText (mark : String) (line : String) : String :=
  match line.toList.getLast? with
  | some '\n' | some '\r' => mark ++ line
  | _ => mark ++ line ++ "\n\\ No newline at end of file\n"

def linesText (mark : String) (ls : Array String) (start len : Nat) : String :=
  String.join ((ls.extract start (start + len)).toList.map (lineText mark))

def editText (t : Texts) : Edit → String
  | .keep old _ len => linesText " " t.old old len
  | .delete old len _ => linesText "-" t.old old len
  | .insert _ new len => linesText "+" t.new new len
  | .replace old n new m => linesText "-" t.old old n ++ linesText "+" t.new new m

def hunkText (t : Texts) (group : List Edit) : String :=
  match group.head?, group.getLast? with
  | some first, some last =>
    "@@ -" ++ rangeText first.oldStart last.oldEnd ++ " +" ++
      rangeText first.newStart last.newEnd ++ " @@\n" ++ String.join (group.map (editText t))
  | _, _ => ""

def unified (name old new : String) : String :=
  let t : Texts := ⟨(lines old).toArray, (lines new).toArray⟩
  match divide [] (trimTail (trimHead (edits t))) with
  | [] => ""
  | hunks => "--- " ++ name ++ "\n+++ " ++ name ++ "\n" ++ String.join (hunks.map (hunkText t))

end LineDiff
end SqlLayout
