/-! Quoted literals. A literal opens with a quote and runs to the next quote of the same kind that
is not doubled; without one it runs to the end of the text. -/

namespace SqlLayout.Quoted
set_option autoImplicit false

/-- The part of a literal behind its opening quote `q`, and what follows the literal. -/
def split (q : Char) : List Char → List Char × List Char
  | [] => ([], [])
  | c :: cs =>
    if c = q then
      match cs with
      | d :: ds =>
        if d = q then
          let (body, rest) := split q ds
          (c :: d :: body, rest)
        else ([c], cs)
      | [] => ([c], [])
    else
      let (body, rest) := split q cs
      (c :: body, rest)

theorem split_append (q : Char) (cs : List Char) : (split q cs).1 ++ (split q cs).2 = cs := by
  fun_induction split q cs <;> simp_all

end SqlLayout.Quoted
