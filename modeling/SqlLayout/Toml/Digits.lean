/-! Digits of numbers, in any base up to 36. -/

namespace SqlLayout.Toml
set_option autoImplicit false

/-- Digits without the underscores, each of which must stand between two digits. When `between`
holds, a digit has been read right before. -/
def ungroup (isDigit : Char → Bool) (between : Bool) : List Char → Option (List Char)
  | [] => if between then some [] else none
  | '_' :: cs => if between then ungroup isDigit false cs else none
  | c :: cs => if isDigit c then (ungroup isDigit true cs).map (c :: ·) else none

def digitValue (c : Char) : Nat :=
  if c.isDigit then c.toNat - '0'.toNat
  else if 'a' ≤ c ∧ c ≤ 'z' then c.toNat - 'a'.toNat + 10
  else if 'A' ≤ c ∧ c ≤ 'Z' then c.toNat - 'A'.toNat + 10
  else 36

def ofDigits (base : Nat) (ds : List Char) : Nat :=
  ds.foldl (fun n c => n * base + digitValue c) 0

end SqlLayout.Toml
