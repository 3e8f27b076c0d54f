/-! Longest match of operators. The operators that still fit are kept as what is left of each of
them, and shrink with every character that is read. -/

namespace SqlLayout.Operator
set_option autoImplicit false

/-- What is left of the operators that begin with `c`. -/
def residuals (c : Char) (ops : List (List Char)) : List (List Char) :=
  ops.filterMap fun op => match op with
    | [] => none
    | d :: rest => if d = c then some rest else none

/-- The length of the longest operator that begins the text; zero when none does. -/
def longest (ops : List (List Char)) : List Char → Nat
  | [] => 0
  | c :: cs =>
    match residuals c ops with
    | [] => 0
    | left =>
      match longest left cs with
      | 0 => if left.contains [] then 1 else 0
      | n + 1 => n + 2

theorem longest_le_length (ops : List (List Char)) (cs : List Char) :
    longest ops cs ≤ cs.length := by
  fun_induction longest ops cs <;> grind

end SqlLayout.Operator
