import Widgetry.Table

/-!
# View trees

Views are numbered in the order of their creation. A tree is changed by operations only, so it is the
replay of a list of them.
-/

namespace Widgetry

/-- A view: its tag, its properties and the numbers of its children. -/
structure View where
  tag : String
  properties : Table String String
  children : List Nat
deriving DecidableEq, Repr

structure ViewTree where
  views : Array View
deriving DecidableEq, Repr

/-- A change of a view tree. `create` names the number that the new view gets. -/
inductive ViewOp where
  | create (view : Nat) (tag : String)
  | append (parent child : Nat)
  | set (view : Nat) (name value : String)
  | remove (view : Nat) (name : String)
  | clear (view : Nat)
deriving DecidableEq, Repr

def ViewOp.isWrite : ViewOp → Bool
  | .set _ _ _ => true
  | .remove _ _ => true
  | _ => false

namespace ViewTree

def empty : ViewTree := ⟨#[]⟩

def size (t : ViewTree) : Nat := t.views.size

def view? (t : ViewTree) (v : Nat) : Option View := t.views[v]?

def property? (t : ViewTree) (v : Nat) (name : String) : Option String :=
  (t.view? v).bind fun view => view.properties.get? name

def children (t : ViewTree) (v : Nat) : List Nat := ((t.view? v).map View.children).getD []

/-- Changes a view; a number that is not in use changes nothing. -/
def modify (t : ViewTree) (v : Nat) (f : View → View) : ViewTree := ⟨t.views.modify v f⟩

def apply (t : ViewTree) : ViewOp → ViewTree
  | .create _ tag => ⟨t.views.push ⟨tag, [], []⟩⟩
  | .append parent child =>
      t.modify parent fun view => { view with children := view.children ++ [child] }
  | .set v name value =>
      t.modify v fun view => { view with properties := view.properties.insert name value }
  | .remove v name =>
      t.modify v fun view => { view with properties := view.properties.erase name }
  | .clear v => t.modify v fun view => { view with children := [] }

def replay (t : ViewTree) (ops : List ViewOp) : ViewTree := ops.foldl apply t

def findWithin (t : ViewTree) (name value : String) : Nat → Nat → Option Nat
  | 0, _ => none
  | fuel + 1, v =>
      if t.property? v name = some value then some v
      else (t.children v).findSome? (findWithin t name value fuel)

/-- The first view in document order, from `v` down, whose property has a value. -/
def find? (t : ViewTree) (v : Nat) (name value : String) : Option Nat :=
  t.findWithin name value t.size v

end ViewTree

end Widgetry
