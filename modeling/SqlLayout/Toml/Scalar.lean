import SqlLayout.Toml.Moment

/-! Numbers, truth values and points in time. A scalar is cut off whole, up to the next blank, comma,
bracket or comment, and then has to be one of them from end to end. -/

namespace SqlLayout.Toml
set_option autoImplicit false

def splitSign : List Char → Bool × List Char
  | '-' :: cs => (true, cs)
  | '+' :: cs => (false, cs)
  | cs => (false, cs)

def decimal? (cs : List Char) : Option (List Char) :=
  match ungroup Char.isDigit false cs with
  | some ('0' :: _ :: _) => none
  | ds => ds

def inRange (n : Int) : Option Int :=
  if -9223372036854775808 ≤ n ∧ n ≤ 9223372036854775807 then some n else none

def integer? (cs : List Char) : Option Int :=
  let based (base : Nat) (ds : List Char) : Option Int :=
    (ungroup (digitValue · < base) false ds).bind fun ds => inRange (ofDigits base ds)
  match cs with
  | '0' :: 'x' :: ds => based 16 ds
  | '0' :: 'o' :: ds => based 8 ds
  | '0' :: 'b' :: ds => based 2 ds
  | cs =>
    let (negative, ds) := splitSign cs
    (decimal? ds).bind fun ds =>
      inRange (if negative then -(ofDigits 10 ds : Int) else ofDigits 10 ds)

/-- The number that the digits of an exponent stand for. It stops growing once it is far beyond the
exponents of doubles. -/
def exponentOf (ds : List Char) : Nat :=
  ds.foldl (fun e c => if e < 65536 then e * 10 + digitValue c else e) 0

/-- Whether the number `digits`, with `places` of its digits behind the point and times ten to the
`exponent`, is at least the number where doubles end. -/
def isHuge (digits : List Char) (places : Nat) (exponent : Int) : Bool :=
  let digits := digits.dropWhile (· = '0')
  let mantissa := ofDigits 10 digits
  let power := exponent - places
  let limit := Nat.pow 2 1024 - Nat.pow 2 970
  if mantissa = 0 then false
  else if 400 < power + digits.length then true
  else if power < 0 then
    power.natAbs ≤ digits.length && limit * Nat.pow 10 power.natAbs ≤ mantissa
  else limit ≤ mantissa * Nat.pow 10 power.natAbs

def isFloat (cs : List Char) : Bool :=
  let (negative, body) := splitSign cs
  if body = "inf".toList || body = "nan".toList then true
  else
    let (mantissa, tail) := body.span fun c => c ≠ 'e' && c ≠ 'E'
    let (whole, behind) := mantissa.span (· ≠ '.')
    let fraction? := match behind with
      | [] => some []
      | _ :: ds => ungroup Char.isDigit false ds
    let exponent? := match tail with
      | [] => some 0
      | _ :: e =>
        let (down, ds) := splitSign e
        (ungroup Char.isDigit false ds).map fun ds =>
          if down then -(exponentOf ds : Int) else exponentOf ds
    match decimal? whole, fraction?, exponent? with
    | some ds, some fs, some e =>
      (behind ≠ [] || tail ≠ []) && (negative || !isHuge (ds ++ fs) fs.length e)
    | _, _, _ => false

def scalar? (cs : List Char) : Option Value :=
  if cs = "true".toList then some (.boolean true)
  else if cs = "false".toList then some (.boolean false)
  else match moment? .plain cs with
    | some text => some (.moment (String.ofList text))
    | none =>
      if isFloat cs then some (.float (String.ofList cs))
      else (integer? cs).map .integer

def endsScalar (c : Char) : Bool :=
  c = ' ' || c = '\t' || c = '\n' || c = '\r' || c = ',' || c = ']' || c = '\x7d' || c = '#'

/-- Cut a scalar off. A date and a time of day behind one blank are one scalar. -/
def splitScalar (cs : List Char) : List Char × List Char :=
  let (first, rest) := cs.span (!endsScalar ·)
  match date? first, rest with
  | some (_, []), ' ' :: c :: more =>
    if c.isDigit then
      let (second, rest) := (c :: more).span (!endsScalar ·)
      (first ++ ' ' :: second, rest)
    else (first, rest)
  | _, _ => (first, rest)

end SqlLayout.Toml
