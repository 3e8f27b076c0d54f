import SqlLayout.Toml.Value

/-! Tables while they are being defined. A table is defined once: by a header, by the dotted keys of
one table, or on one line. A table that only stands on the way to another is implicit until then. -/

namespace SqlLayout.Toml
set_option autoImplicit false

mutual

inductive Item where
  | value (v : Value)
  | table (t : Draft)
  | tables (ts : List Draft)

inductive Draft where
  | mk (implicit dotted : Bool) (items : List (String × Item))

end

namespace Draft

def empty : Draft := .mk false false []

def items : Draft → List (String × Item)
  | .mk _ _ items => items

def implicit : Draft → Bool
  | .mk implicit _ _ => implicit

def dotted : Draft → Bool
  | .mk _ dotted _ => dotted

def set (t : Draft) (key : String) (item : Item) : Draft :=
  .mk t.implicit t.dotted
    (if (t.items.lookup key).isSome then
      t.items.map fun (k, old) => (k, if k = key then item else old)
    else t.items ++ [(key, item)])

def erase (t : Draft) (key : String) : Draft :=
  .mk t.implicit t.dotted (t.items.filter (·.1 ≠ key))

/-- Change the table that a path leads to. Tables that are missing on the way are made. A dotted key
leads only through tables that other dotted keys have made. -/
def change (dotted : Bool) (f : Draft → Option Draft) : List String → Draft → Option Draft
  | [], t => f t
  | key :: path, t =>
    match t.items.lookup key with
    | none => (change dotted f path (.mk true dotted [])).map fun u => t.set key (.table u)
    | some (.value _) => none
    | some (.tables []) => none
    | some (.tables (last :: others)) =>
      (change dotted f path last).map fun u => t.set key (.tables (u :: others))
    | some (.table u) =>
      if dotted && !u.implicit then none
      else (change dotted f path u).map fun u => t.set key (.table u)

def assign (path : List String) (key : String) (v : Value) (t : Draft) : Option Draft :=
  t.change true (fun u =>
    if u.dotted == path.isEmpty || (u.items.lookup key).isSome then none
    else some (u.set key (.value v))) path

/-- Define the table of a header. A table that was implicit moves behind the entries beside it. -/
def define (path : List String) (key : String) (t : Draft) : Option Draft :=
  t.change false (fun u =>
    match u.items.lookup key with
    | none => some (u.set key (.table empty))
    | some (.table old) =>
      if old.implicit && !old.dotted then
        some ((u.erase key).set key (.table (.mk false false old.items)))
      else none
    | some _ => none) path

def append (path : List String) (key : String) (t : Draft) : Option Draft :=
  t.change false (fun u =>
    match u.items.lookup key with
    | none => some (u.set key (.tables [empty]))
    | some (.tables ts) => some (u.set key (.tables (empty :: ts)))
    | some _ => none) path

end Draft

mutual

def Draft.toValue : Draft → Value
  | .mk _ _ items => .table (fieldsOf items)

def Item.toValue : Item → Value
  | .value v => v
  | .table t => t.toValue
  | .tables ts => .array (valuesOf ts).reverse

def fieldsOf : List (String × Item) → List (String × Value)
  | [] => []
  | (key, item) :: rest => (key, item.toValue) :: fieldsOf rest

def valuesOf : List Draft → List Value
  | [] => []
  | t :: ts => t.toValue :: valuesOf ts

end

end SqlLayout.Toml
