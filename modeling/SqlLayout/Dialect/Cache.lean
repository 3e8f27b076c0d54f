import SqlLayout.Dialect

/-! A cache of built dialects, keyed by the whole list of their registries. When it is full, a new
dialect takes the place of the one that was inserted first; finding a dialect does not renew it. -/

namespace SqlLayout.Dialect
set_option autoImplicit false

/-- A dialect together with the number of its building, which tells two buildings of one vocabulary
apart. -/
structure Built where
  serial : Nat
  dialect : Dialect
deriving DecidableEq, Repr

structure Cache where
  capacity : Nat
  entries : List (List Registry × Built) := []
  /-- The keys of the entries, the oldest first. -/
  order : List (List Registry) := []
  buildings : Nat := 0
deriving Repr

namespace Cache

def empty (capacity : Nat) : Cache := { capacity := max capacity 1 }

/-- The room of the shared cache. -/
def sharedCapacity : Nat := 64

def dropOldest (c : Cache) : Cache :=
  if c.capacity ≤ c.entries.length then
    match c.order with
    | [] => c
    | oldest :: rest =>
      { c with entries := c.entries.filter (·.1 ≠ oldest), order := rest }
  else c

def getOrBuild (c : Cache) (rs : List Registry) : Built × Cache :=
  match c.entries.lookup rs with
  | some b => (b, c)
  | none =>
    let b : Built := ⟨c.buildings, ofRegistries rs⟩
    let room := c.dropOldest
    (b, { room with
      entries := (rs, b) :: room.entries
      order := room.order ++ [rs]
      buildings := c.buildings + 1 })

/-- The dialect of a list of registries, and the number of its building; the built-in dialect is
shared by all and has no number. -/
def acquire (c : Cache) (rs : List Registry) : (Dialect × Option Nat) × Cache :=
  if rs.isEmpty then ((builtin, none), c)
  else
    let (b, c) := c.getOrBuild rs
    ((b.dialect, some b.serial), c)

end Cache
end SqlLayout.Dialect
