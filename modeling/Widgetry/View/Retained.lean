import Widgetry.Expr.Evaluation
import Widgetry.View.Dialect
import Widgetry.View.Tree

/-!
# Retained state of a rendered widget

What a view tree depends on: properties with the formulas they show, and slots, whose children are
there or not by the data.
-/

namespace Widgetry

structure Formula where
  item : List Segment
  term : Term

namespace Formula

def eval (f : Formula) (c : Context) : Outcome := f.term.eval f.item c

def deps (f : Formula) : List DataPath := f.term.deps f.item

def missing? (f : Formula) (c : Context) : Option String :=
  match f.eval c with
  | .error (.missing shown) => some shown
  | _ => none

end Formula

/-- A property that can change: the views and native names it is written to, and its last form. -/
structure BoundProperty where
  views : List Nat
  names : List String
  encoding : Encoding
  formula : Formula
  last : Option String

inductive SlotKind where
  | forEach (items : Option DataPath) (limit : Option Nat) (spacing : Option Formula)
  | conditional (condition : Formula)

/-- What selects the children of a slot: how many items, or which branch. -/
inductive SlotKey where
  | count (n : Nat)
  | branch (taken : Bool)
deriving DecidableEq, Repr

/-- Where a slot stands: its view, the child indices of its element, the path of the item at hand,
and what its children get from around them. -/
structure SlotSite where
  view : Nat
  element : List Nat
  item : List Segment
  flow : Flow
  inherited : List (String × String)
  kind : SlotKind

/-- A view whose children depend on the data, with what was built for its key. -/
structure Slot where
  site : SlotSite
  key : SlotKey
  properties : List BoundProperty
  slots : List Slot

structure Retained where
  properties : List BoundProperty
  slots : List Slot

def SlotKind.deps : SlotKind → List DataPath
  | .forEach items _ _ => items.toList
  | .conditional condition => condition.deps

/-- The formula of a slot that no bound property may show. -/
def SlotKind.formula? : SlotKind → Option Formula
  | .forEach _ _ spacing => spacing
  | .conditional condition => some condition

namespace Slot

def retained (s : Slot) : Retained := ⟨s.properties, s.slots⟩

mutual

def boundCount : Slot → Nat
  | ⟨_, _, properties, slots⟩ => properties.length + boundCounts slots

def boundCounts : List Slot → Nat
  | [] => 0
  | s :: ss => boundCount s + boundCounts ss

end

mutual

def missing (c : Context) : Slot → List String
  | ⟨_, _, properties, slots⟩ =>
      properties.filterMap (fun p => p.formula.missing? c) ++ missingAll c slots

def missingAll (c : Context) : List Slot → List String
  | [] => []
  | s :: ss => (s.site.kind.formula?.bind fun f => f.missing? c).toList ++ missing c s
      ++ missingAll c ss

end

end Slot

namespace Retained

def empty : Retained := ⟨[], []⟩

def boundCount (s : Retained) : Nat := s.properties.length + Slot.boundCounts s.slots

def missing (s : Retained) (c : Context) : List String :=
  let all := s.properties.filterMap (fun p => p.formula.missing? c) ++ Slot.missingAll c s.slots
  Table.keys (Table.ofList (all.map fun b => (b, ())))

end Retained

end Widgetry
