import Widgetry.Proofs.Element.Origin
import Widgetry.Proofs.Source.Failure
import Widgetry.Proofs.View.Failure

/-!
# What errors point at

A layout that was read is refused by generation and rendering with an error that carries the location
of a property or of a node of an expression. The location of a property is made from its name, not
from the key it was read from, so a condition that is written under the other name of `visible` is
reported where there may be nothing.
-/

namespace Widgetry.Layout

/-- The location leads to a value, or to the visibility of an element that states it under its other
name. -/
def Leads (l : Layout) (document : Json) (place : Location) : Prop :=
  (∃ v, place.find? document = some v) ∨
    ∃ d ∈ l.root.walk, place = d.place.field "visible" ∧
      ∃ v, (d.place.field "visibleIf").find? document = some v

variable {fields : List (String × Json)} {l : Layout}

theorem suits_of_read (hordered : (Json.object fields).ordered = true)
    (h : read (.object fields) = .ok l) :
    l.root.Suits (l.Leads (.object fields)) fun _ => True := by
  intro d hd f hf
  obtain ⟨fs, hfind, hsorted, hread⟩ := (found_of_read hordered h).of_mem_walk d hd
  obtain ⟨key, v, hnamed, hfound, hvalue⟩ :=
    Element.found_of_property hfind (Json.ordered_object.mp hsorted).1 hread hf
  refine ⟨?_, fun e he positions n hn => .inl ?_, fun _ _ _ => trivial⟩
  · obtain rfl | ⟨rfl, hvisible⟩ := hnamed
    · exact .inl ⟨v, hfound⟩
    · exact .inr ⟨d, hd, by rw [hvisible]; rfl, v, hfound⟩
  · rw [he] at hvalue
    obtain ⟨-, hstands⟩ | ⟨items, -, hexpr⟩ := PropertyValue.written_of_read hvalue
    · rw [hstands positions n hn]
      exact ⟨v, hfound⟩
    · obtain ⟨w, hw, -⟩ := Expr.found_of_node? hfound hexpr hn
      exact ⟨w, hw⟩

/-- Where generation or rendering of a layout fails with an error that carries a location, the
document has a value there, or the location is that of the visibility of an element and the document
has it under `visibleIf`. -/
theorem place_of_failure (hordered : (Json.object fields).ordered = true)
    (hread : read (.object fields) = .ok l) {E : Error}
    (hE : (∃ style package target, Source.File.generate style package target l = .error E) ∨
      ∃ (r : Renderer) (size : Size) (c : Context), r.render l size c = .error E)
    {place : Location} (hplace : E.place? = some place) :
    (∃ v, place.find? (.object fields) = some v) ∨
      ∃ d ∈ l.root.walk, place = d.place.field "visible" ∧
        ∃ v, (d.place.field "visibleIf").find? (.object fields) = some v := by
  have hsuits := suits_of_read hordered hread
  obtain ⟨style, package, target, hfails⟩ | ⟨r, size, c, hfails⟩ := hE
  · obtain ⟨e, ⟨env, he⟩, rfl⟩ := Source.File.concerns_of_generate hsuits hfails
    rw [Error.place?_inWidget] at hplace
    exact he.place hplace
  · obtain ⟨e, he, rfl⟩ := Renderer.exists_refusal_of_render hfails
    rw [Error.place?_inWidget] at hplace
    exact (Occurrence.concerns_of_refused (o := l.occurrence) hsuits he).place hplace

/-- A condition that is no condition, under the other name: the error says `$.layout.visible`, where
there is nothing. -/
theorem place_of_failure_visibleIf : ∃ fields l E place,
    (Json.object fields).ordered = true ∧ read (.object fields) = .ok l ∧
    Source.File.generate .builtin Source.defaultPackage .glance l = .error E ∧
    E.place? = some place ∧ place.render = "$.layout.visible" ∧
    place.find? (.object fields) = none ∧
    ∃ d ∈ l.root.walk, place = d.place.field "visible" ∧
      ∃ v, (d.place.field "visibleIf").find? (.object fields) = some v := by
  let fields : List (String × Json) :=
    [("layout", .object [("text", .string "x"), ("type", .string "label"),
       ("visibleIf", .number (.integer 5))]),
     ("name", .string "Demo"),
     ("supportedSizes", .array [.object [("height", .number (.integer 110)),
       ("id", .string "small"), ("width", .number (.integer 110))]])]
  let place : Location := ⟨[.field "layout", .field "visible"]⟩
  have hordered : (Json.object fields).ordered = true := by decide +kernel
  have hfails : ((read (.object fields)).toOption.map fun l => Except.casesOn
      (Source.File.generate .builtin Source.defaultPackage .glance l) Error.place? fun _ => none) =
      some (some place) := by decide +kernel
  obtain ⟨l, hread, hseen⟩ := exists_of_toOption_map hfails
  cases hE : Source.File.generate .builtin Source.defaultPackage .glance l with
  | ok file => simp [hE] at hseen
  | error E =>
    have hplace : E.place? = some place := by simpa [hE] using hseen
    have hnone : place.find? (.object fields) = none := by decide +kernel
    obtain ⟨v, hv⟩ | hvisible := place_of_failure hordered hread (.inl ⟨_, _, _, hE⟩) hplace
    · rw [hnone] at hv
      cases hv
    · exact ⟨fields, l, E, place, hordered, hread, hE, hplace, by decide +kernel, hnone, hvisible⟩

end Widgetry.Layout
