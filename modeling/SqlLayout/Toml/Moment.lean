import SqlLayout.Toml.Digits
import SqlLayout.Toml.Value

/-! Points in time, dates and times of day. They are written as they stand; or a table stands for
one, whose first key is reserved for this and holds the text as a string. In such a text an offset may
go a little beyond what is written as it stands. -/

namespace SqlLayout.Toml
set_option autoImplicit false

/-- How far the hours and the minutes of an offset may go. -/
structure OffsetLimits where
  hour : Nat
  minute : Nat
deriving DecidableEq, Repr

def OffsetLimits.plain : OffsetLimits := ⟨23, 59⟩

/-- The limits in a text that a table holds: two digits each, so the minutes may be more than an
hour. -/
def OffsetLimits.wide : OffsetLimits := ⟨99, 99⟩

def offsetLimit : Nat := 1440

def twoDigits (limit : Nat) (a b : Char) : Bool :=
  a.isDigit && b.isDigit && ofDigits 10 [a, b] ≤ limit

def twoDigitText (n : Nat) : List Char := [Nat.digitChar (n / 10), Nat.digitChar (n % 10)]

def daysIn (year month : Nat) : Nat :=
  if month = 2 then
    if year % 4 = 0 && (year % 100 ≠ 0 || year % 400 = 0) then 29 else 28
  else if month = 4 || month = 6 || month = 9 || month = 11 then 30
  else 31

def date? : List Char → Option (List Char × List Char)
  | y1 :: y2 :: y3 :: y4 :: '-' :: m1 :: m2 :: '-' :: d1 :: d2 :: rest =>
    let year := [y1, y2, y3, y4]
    let month := ofDigits 10 [m1, m2]
    let day := ofDigits 10 [d1, d2]
    if year.all Char.isDigit && twoDigits 12 m1 m2 && twoDigits 31 d1 d2 && 1 ≤ month && 1 ≤ day &&
        day ≤ daysIn (ofDigits 10 year) month then
      some (year ++ ['-', m1, m2, '-', d1, d2], rest)
    else none
  | _ => none

/-- The digits of a part of a second in their normal form: at most nine, and no zeros at the end. -/
def fractionText (ds : List Char) : List Char :=
  match (ds.take 9).reverse.dropWhile (· = '0') with
  | [] => []
  | backwards => '.' :: backwards.reverse

def time? : List Char → Option (List Char × List Char)
  | h1 :: h2 :: ':' :: m1 :: m2 :: ':' :: s1 :: s2 :: rest =>
    if twoDigits 23 h1 h2 && twoDigits 59 m1 m2 && twoDigits 60 s1 s2 then
      let clock := [h1, h2, ':', m1, m2, ':', s1, s2]
      match rest with
      | '.' :: more =>
        let (ds, rest) := more.span Char.isDigit
        if ds.isEmpty then none else some (clock ++ fractionText ds, rest)
      | rest => some (clock, rest)
    else none
  | _ => none

/-- An offset in its normal form: hours and minutes, with a plus when both are zero. -/
def offsetText (behind : Bool) (minutes : Nat) : List Char :=
  (if behind && minutes ≠ 0 then '-' else '+') ::
    (twoDigitText (minutes / 60) ++ ':' :: twoDigitText (minutes % 60))

def offset? (limits : OffsetLimits) : List Char → Option (List Char)
  | ['Z'] | ['z'] => some ['Z']
  | [sign, h1, h2, ':', m1, m2] =>
    let minutes := ofDigits 10 [h1, h2] * 60 + ofDigits 10 [m1, m2]
    if (sign = '+' || sign = '-') && twoDigits limits.hour h1 h2 &&
        twoDigits limits.minute m1 m2 && minutes ≤ offsetLimit then
      some (offsetText (sign = '-') minutes)
    else none
  | [] => some []
  | _ => none

def timeWithOffset? (limits : OffsetLimits) (cs : List Char) : Option (List Char) := do
  let (clock, rest) ← time? cs
  let offset ← offset? limits rest
  some (clock ++ offset)

def moment? (limits : OffsetLimits) (cs : List Char) : Option (List Char) :=
  match date? cs with
  | some (day, []) => some day
  | some (day, mark :: rest) =>
    if mark = 'T' || mark = 't' || mark = ' ' then
      (timeWithOffset? limits rest).map fun time => day ++ 'T' :: time
    else none
  | none =>
    match time? cs with
    | some (clock, []) => some clock
    | _ => none

def momentKey : String := "$__toml_private_datetime"

def heldMoment? : Value → Option Value
  | .string s => (moment? .wide s.toList).map fun text => .moment (String.ofList text)
  | _ => none

mutual

/-- A value in which the tables that stand for points in time have been read; `none` when one of
them holds no such text. Only the first key of a table decides, and what follows it is dropped. -/
def Value.withMoments? : Value → Option Value
  | .array items => (itemsWithMoments? items).map .array
  | .table fields =>
    match fields.head? with
    | some (key, v) =>
      if key = momentKey then heldMoment? v else (fieldsWithMoments? fields).map .table
    | none => some (.table [])
  | v => some v

def itemsWithMoments? : List Value → Option (List Value)
  | [] => some []
  | v :: rest => do
    let v ← v.withMoments?
    let rest ← itemsWithMoments? rest
    some (v :: rest)

def fieldsWithMoments? : List (String × Value) → Option (List (String × Value))
  | [] => some []
  | (key, v) :: rest => do
    let v ← v.withMoments?
    let rest ← fieldsWithMoments? rest
    some ((key, v) :: rest)

end

end SqlLayout.Toml
