/-! Decoding of UTF-8. -/

namespace SqlLayout.Text
set_option autoImplicit false

def isContinuation (b : UInt8) : Bool := 0x80 ≤ b && b ≤ 0xBF

/-- Whether two bytes may begin a character of three: nothing that fits in two bytes, and no
surrogate. -/
def beginsThree (a b : UInt8) : Bool :=
  (a == 0xE0 && 0xA0 ≤ b && b ≤ 0xBF) ||
  (((0xE1 ≤ a && a ≤ 0xEC) || a == 0xEE || a == 0xEF) && isContinuation b) ||
  (a == 0xED && 0x80 ≤ b && b ≤ 0x9F)

/-- Whether two bytes may begin a character of four: nothing that fits in three bytes, and nothing
beyond the last code point. -/
def beginsFour (a b : UInt8) : Bool :=
  (a == 0xF0 && 0x90 ≤ b && b ≤ 0xBF) ||
  (0xF1 ≤ a && a ≤ 0xF3 && isContinuation b) ||
  (a == 0xF4 && 0x80 ≤ b && b ≤ 0x8F)

/-- The number of bytes before the first one that is no part of a character. -/
def validUpTo : List UInt8 → Nat
  | [] => 0
  | a :: as =>
    if a < 0x80 then 1 + validUpTo as
    else match as with
      | [] => 0
      | b :: bs =>
        if 0xC2 ≤ a && a ≤ 0xDF && isContinuation b then 2 + validUpTo bs
        else match bs with
          | [] => 0
          | c :: cs =>
            if beginsThree a b && isContinuation c then 3 + validUpTo cs
            else match cs with
              | [] => 0
              | d :: ds =>
                if beginsFour a b && isContinuation c && isContinuation d then 4 + validUpTo ds
                else 0

def decode (bytes : ByteArray) : Except Nat String :=
  match String.fromUTF8? bytes with
  | some text => .ok text
  | none => .error (validUpTo bytes.toList)

end SqlLayout.Text
