import Widgetry.Binding.Basic
import Widgetry.Json.Basic

/-!
# Data contexts

The data and settings a widget is shown with, absolute paths into them, and the paths at which two
contexts differ.
-/

namespace Widgetry

def Json.at? : Json → List Segment → Option Json
  | v, [] => some v
  | .object fields, .key k :: rest => (Table.get? fields k).bind fun v => v.at? rest
  | .array items, .index i :: rest => items[i]?.bind fun v => v.at? rest
  | _, _ :: _ => none

structure Context where
  data : Json
  settings : Table String Json

inductive DataRoot where
  | data
  | settings
deriving DecidableEq, Repr

structure DataPath where
  root : DataRoot
  segments : List Segment
deriving DecidableEq, Repr

namespace DataPath

def setting (key : String) : DataPath := ⟨.settings, [.key key]⟩

/-- Whether one list is the start of the other. -/
def agree : List Segment → List Segment → Bool
  | a :: as, b :: bs => a == b && agree as bs
  | _, _ => true

/-- Whether one path leads to the other, so that a change at one may show at the other. -/
def overlaps (p q : DataPath) : Bool := p.root == q.root && agree p.segments q.segments

def rootText : DataRoot → String
  | .data => "data"
  | .settings => "settings"

def render (p : DataPath) : String := rootText p.root ++ Binding.renderSegments p.segments

end DataPath

/-- The place a binding names when the item at hand stands at a given path; a size has none. -/
def Binding.absolute? (item : List Segment) (b : Binding) : Option DataPath :=
  match b.scope with
  | .item => some ⟨.data, item ++ b.segments⟩
  | .data => some ⟨.data, b.segments⟩
  | .settings => some ⟨.settings, b.segments⟩
  | .size => none

mutual

/-- Paths, continuing a given one, at which two values differ. Arrays of different length differ as
a whole. -/
def Json.diff (path : List Segment) : Json → Json → List (List Segment)
  | .object as, b =>
      if (Json.object as).same b then []
      else match b with
        | .object bs => Json.diffFields path as bs
        | _ => [path]
  | .array as, b =>
      if (Json.array as).same b then []
      else match b with
        | .array bs => if as.length = bs.length then Json.diffItems path 0 as bs else [path]
        | _ => [path]
  | a, b => if a.same b then [] else [path]

def Json.diffItems (path : List Segment) (i : Nat) : List Json → List Json → List (List Segment)
  | a :: as, b :: bs => Json.diff (path ++ [.index i]) a b ++ Json.diffItems path (i + 1) as bs
  | _, _ => []

/-- Walks both tables in key order; a key on one side only is a difference. -/
def Json.diffFields (path : List Segment) :
    List (String × Json) → List (String × Json) → List (List Segment)
  | [], bs => bs.map fun e => path ++ [.key e.1]
  | (k, a) :: as, bs =>
      let added := bs.takeWhile fun e => compare e.1 k == .lt
      let rest := bs.dropWhile fun e => compare e.1 k == .lt
      (added.map fun e => path ++ [.key e.1]) ++
        match rest with
        | (l, b) :: later =>
            if l = k then Json.diff (path ++ [.key k]) a b ++ Json.diffFields path as later
            else (path ++ [.key k]) :: Json.diffFields path as rest
        | [] => (path ++ [.key k]) :: Json.diffFields path as []

end

def diffSettings : Table String Json → Table String Json → List String
  | [], bs => bs.map Prod.fst
  | (k, a) :: as, bs =>
      let added := bs.takeWhile fun e => compare e.1 k == .lt
      let rest := bs.dropWhile fun e => compare e.1 k == .lt
      added.map Prod.fst ++
        match rest with
        | (l, b) :: later =>
            if l = k then (if a.same b then [] else [k]) ++ diffSettings as later
            else k :: diffSettings as rest
        | [] => k :: diffSettings as []

namespace Context

def lookup? (c : Context) (p : DataPath) : Option Json :=
  match p.root, p.segments with
  | .data, segments => c.data.at? segments
  | .settings, .key k :: rest => (c.settings.get? k).bind fun v => v.at? rest
  | .settings, _ => none

def diff (c d : Context) : List DataPath :=
  (Json.diff [] c.data d.data).map (⟨.data, ·⟩) ++ (diffSettings c.settings d.settings).map .setting

def same (c d : Context) : Bool :=
  c.data.same d.data && Json.sameFields c.settings d.settings

end Context

end Widgetry
