import SqlLayout.Text.CaseData

/-! Letter case. Upper case is taken character by character, and one character may become several.
Lower case follows the one rule that looks at the context: a capital sigma that ends a word takes
its final form. -/

namespace SqlLayout.Text
set_option autoImplicit false

def asciiUpper (c : Char) : Char :=
  if 'a' ≤ c ∧ c ≤ 'z' then Char.ofNat (c.toNat - 32) else c

def asciiLower (c : Char) : Char :=
  if 'A' ≤ c ∧ c ≤ 'Z' then Char.ofNat (c.toNat + 32) else c

def mapped (runs : List CaseData.Run) (c : Char) : Char :=
  match runs.findSome? (·.move? c.toNat) with
  | some n => Char.ofNat n
  | none => c

def upperChar (c : Char) : List Char :=
  if c.toNat < 128 then [asciiUpper c]
  else match CaseData.toUpperSeveral.lookup c.toNat with
    | some ns => ns.map Char.ofNat
    | none => [mapped CaseData.toUpper c]

def lowerChar (c : Char) : List Char :=
  if c.toNat < 128 then [asciiLower c]
  else if c = 'İ' then ['i', Char.ofNat 0x307]
  else [mapped CaseData.toLower c]

def upper (s : String) : String := String.ofList (s.toList.flatMap upperChar)

def inRanges (ranges : List (Nat × Nat)) (c : Char) : Bool :=
  ranges.any fun r => r.1 ≤ c.toNat && c.toNat ≤ r.2

/-- After characters that do not count, a letter with case follows. -/
def meetsCased (cs : List Char) : Bool :=
  match cs.dropWhile (inRanges CaseData.ignorable) with
  | c :: _ => inRanges CaseData.cased c
  | [] => false

/-- Lower case of a text, with `before` (nearest first) as the text to its left: a capital sigma
takes its final form when a word ends with it. -/
def lowerAfter (before : List Char) : List Char → List Char
  | [] => []
  | c :: cs =>
    (if c = 'Σ' then [if meetsCased before && !meetsCased cs then 'ς' else 'σ'] else lowerChar c) ++
      lowerAfter (c :: before) cs

/-- The number of characters in the leading blocks of sixteen that hold ASCII alone. -/
def asciiBlocks (cs : List Char) : Nat :=
  (cs.takeWhile (·.toNat < 128)).length / 16 * 16

/-- Lower case of a text. Its leading ASCII blocks are mapped as they stand and are no context for
what follows them. -/
def lower (s : String) : String :=
  let n := asciiBlocks s.toList
  String.ofList ((s.toList.take n).map asciiLower ++ lowerAfter [] (s.toList.drop n))

def asciiLowerText (s : String) : String := String.ofList (s.toList.map asciiLower)

def spells (word s : String) : Bool := s.toList.map asciiUpper == word.toList

end SqlLayout.Text
