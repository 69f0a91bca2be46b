/-!
# Tables in key order

A table is a list of entries in strictly increasing order of their keys, so it is iterated in key
order and two tables with the same entries are the same list.
-/

namespace Widgetry

/-- Entries in increasing key order, each key once. -/
abbrev Table (κ α : Type) := List (κ × α)

namespace Table

variable {κ α : Type} [Ord κ]

def get? : Table κ α → κ → Option α
  | [], _ => none
  | (key, value) :: rest, k =>
      match compare k key with
      | .eq => some value
      | _ => get? rest k

def insert : Table κ α → κ → α → Table κ α
  | [], k, v => [(k, v)]
  | (key, value) :: rest, k, v =>
      match compare k key with
      | .lt => (k, v) :: (key, value) :: rest
      | .eq => (k, v) :: rest
      | .gt => (key, value) :: insert rest k v

def erase : Table κ α → κ → Table κ α
  | [], _ => []
  | (key, value) :: rest, k =>
      match compare k key with
      | .eq => rest
      | _ => (key, value) :: erase rest k

def contains (t : Table κ α) (k : κ) : Bool := (t.get? k).isSome

def ofList (entries : List (κ × α)) : Table κ α :=
  entries.foldl (fun t e => t.insert e.1 e.2) []

def overlay (base top : Table κ α) : Table κ α :=
  top.foldl (fun t e => t.insert e.1 e.2) base

def keys (t : Table κ α) : List κ := t.map Prod.fst

end Table

end Widgetry
