import Widgetry.Location
import Widgetry.Proofs.Context.Changes

/-!
# Locations and what stands there

A location is followed into a document step by step. Locations that part at some step have nothing
below in common.
-/

namespace Widgetry

open List

def Step.segment : Step → Segment
  | .field name => .key name
  | .index i => .index i

namespace Location

def find? (l : Location) (document : Json) : Option Json := document.at? (l.steps.map Step.segment)

def indices (l : Location) (is : List Nat) : Location := ⟨l.steps ++ is.map .index⟩

theorem indices_cons (l : Location) (i : Nat) (is : List Nat) :
    l.indices (i :: is) = (l.index i).indices is := by
  simp [indices, index]

section Following

variable {l : Location} {document : Json}

theorem find?_root (document : Json) : root.find? document = some document := rfl

theorem find?_step (l : Location) (s : Step) (document : Json) :
    find? ⟨l.steps ++ [s]⟩ document = (l.find? document).bind fun v => v.at? [s.segment] := by
  rw [find?, map_append, Json.at?_append]
  rfl

theorem find?_field {fields : List (String × Json)} (h : l.find? document = some (.object fields))
    (name : String) : (l.field name).find? document = Table.get? fields name := by
  rw [field, find?_step, h]
  simp [Step.segment, Json.at?]

theorem find?_index {items : List Json} (h : l.find? document = some (.array items)) (i : Nat) :
    (l.index i).find? document = items[i]? := by
  rw [index, find?_step, h]
  simp [Step.segment, Json.at?]

end Following

/-! ### Values in a row -/

/-- Values with their locations, the first one standing at an index. -/
def numbered (l : Location) (i : Nat) (vs : List Json) : List (Location × Json) :=
  (vs.zipIdx i).map fun v => (l.index v.2, v.1)

theorem numbered_cons (l : Location) (i : Nat) (v : Json) (vs : List Json) :
    l.numbered i (v :: vs) = (l.index i, v) :: l.numbered (i + 1) vs := rfl

/-- Values at the end of an array are where they are counted to be. -/
theorem find?_of_mem_numbered {l : Location} {document : Json} (front : List Json) {vs : List Json}
    (h : l.find? document = some (.array (front ++ vs))) {s : Location × Json}
    (hs : s ∈ l.numbered front.length vs) : s.1.find? document = some s.2 := by
  obtain ⟨⟨v, i⟩, hv, rfl⟩ := mem_map.mp hs
  obtain ⟨hle, hget⟩ := mem_zipIdx_iff_le_and_getElem?_sub.mp hv
  rw [find?_index h, List.getElem?_append_right hle, hget]

/-! ### Locations apart -/

/-- Neither location is on the way to the other. -/
def Apart (a b : Location) : Prop := ¬a.steps <+: b.steps ∧ ¬b.steps <+: a.steps

theorem Apart.ne {a b c d : Location} (h : a.Apart b) (hc : a.steps <+: c.steps)
    (hd : b.steps <+: d.steps) : c ≠ d := by
  rintro rfl
  rcases prefix_or_prefix_of_prefix hc hd with hab | hba
  · exact h.1 hab
  · exact h.2 hba

theorem apart_of_ne (steps : List Step) {s t : Step} (h : s ≠ t) (as bs : List Step) :
    Apart ⟨steps ++ s :: as⟩ ⟨steps ++ t :: bs⟩ := by
  simp only [Apart, prefix_append_right_inj, cons_prefix_cons]
  exact ⟨fun hst => h hst.1, fun hts => h hts.1.symm⟩

theorem apart_field (l : Location) {a b : String} (h : a ≠ b) : (l.field a).Apart (l.field b) :=
  apart_of_ne l.steps (by simpa using h) [] []

theorem apart_index (l : Location) {i j : Nat} (h : i ≠ j) : (l.index i).Apart (l.index j) :=
  apart_of_ne l.steps (by simpa using h) [] []

theorem pairwise_numbered (l : Location) (i : Nat) (vs : List Json) :
    (l.numbered i vs).Pairwise fun s t => s.1.Apart t.1 := by
  induction vs generalizing i with
  | nil => exact .nil
  | cons v vs ih =>
    rw [numbered_cons]
    refine .cons ?_ (ih (i + 1))
    intro s hs
    obtain ⟨⟨w, j⟩, hw, rfl⟩ := mem_map.mp hs
    exact l.apart_index (by have := (mem_zipIdx_iff_le_and_getElem?_sub.mp hw).1; omega)

end Location

end Widgetry
