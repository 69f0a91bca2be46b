import Widgetry.Json.Outline
import Widgetry.Proofs.Computation
import Widgetry.Proofs.Table

/-!
# Key order of JSON values

The objects of a value have their keys in increasing order, each once. Every value that is read from
a text is of this kind.
-/

namespace Widgetry

open List

namespace Json

def parts : Json → List Json
  | .array items => items
  | .object fields => fields.map Prod.snd
  | _ => []

variable {v : Json} {as : List (String × Json)}

theorem sizeOf_lt_of_mem_parts {w : Json} (h : w ∈ v.parts) : sizeOf w < sizeOf v := by
  cases v with
  | array items =>
    have hs := sizeOf_lt_of_mem (show w ∈ items from h)
    simp only [array.sizeOf_spec]
    omega
  | object fields =>
    obtain ⟨e, he, rfl⟩ := mem_map.mp (show w ∈ fields.map Prod.snd from h)
    have hs := sizeOf_lt_of_mem he
    obtain ⟨k, v⟩ := e
    simp only [object.sizeOf_spec, Prod.mk.sizeOf_spec] at hs ⊢
    omega
  | _ => simp [parts] at h

theorem parts_induction {P : Json → Prop} (step : ∀ v, (∀ w ∈ v.parts, P w) → P v) (v : Json) :
    P v :=
  step v fun w h =>
    have := sizeOf_lt_of_mem_parts h
    parts_induction step w
termination_by sizeOf v

mutual

/-- Whether every object in a value has its keys in increasing order, each once. -/
def ordered : Json → Bool
  | .array items => orderedItems items
  | .object fields => decide (Table.Sorted fields) && orderedFields fields
  | _ => true

def orderedItems : List Json → Bool
  | [] => true
  | a :: as => a.ordered && orderedItems as

def orderedFields : List (String × Json) → Bool
  | [] => true
  | (_, a) :: as => a.ordered && orderedFields as

end

theorem orderedItems_iff {as : List Json} :
    orderedItems as = true ↔ ∀ a ∈ as, a.ordered = true := by
  induction as with
  | nil => simp [orderedItems]
  | cons a as ih => simp [orderedItems, ih]

theorem orderedFields_iff : orderedFields as = true ↔ ∀ e ∈ as, e.2.ordered = true := by
  induction as with
  | nil => simp [orderedFields]
  | cons e as ih =>
    obtain ⟨k, a⟩ := e
    simp only [orderedFields, Bool.and_eq_true, ih, forall_mem_cons]

theorem ordered_array {as : List Json} :
    (Json.array as).ordered = true ↔ ∀ a ∈ as, a.ordered = true := by
  rw [ordered, orderedItems_iff]

theorem ordered_object :
    (Json.object as).ordered = true ↔ Table.Sorted as ∧ ∀ e ∈ as, e.2.ordered = true := by
  rw [ordered, Bool.and_eq_true, decide_eq_true_eq, orderedFields_iff]

namespace Outline

variable {c : Cursor} {os : List Outline} {fs : List (Key × Outline)} {start : Position}
  {fault : Option SyntaxError}

theorem yields_readWord (hv : v.ordered = true) (ws : List Char) (c : Cursor) :
    Yields (fun r => r.1.ordered = true) (readWord v ws c) := by
  induction ws generalizing c with
  | nil => exact hv
  | cons w ws ih =>
    rw [readWord]
    split
    · exact ih _
    · exact yields_error _ _

theorem yields_readLeaf (c : Cursor) : Yields (fun r => r.1.ordered = true) (readLeaf c) := by
  unfold readLeaf
  iterate 3
    split
    · exact yields_readWord rfl _ _
  iterate 2
    split
    · exact Meets.map (yields_true _) fun _ _ => rfl
  exact yields_error _ _

/-- The value of an outline, if it has one, is ordered. -/
def Tame (o : Outline) : Prop := Yields (fun v => v.ordered = true) o.toJson

theorem tame_halted (c : Cursor) (e : SyntaxError) : (halted c e).1.Tame := by
  rw [halted, Tame, toJson]
  exact yields_error _ _

theorem yields_itemsToJson (h : ∀ o ∈ os, o.Tame) :
    Yields (fun vs => ∀ v ∈ vs, v.ordered = true) (itemsToJson os) := by
  induction os with
  | nil => exact forall_mem_nil _
  | cons o os ih =>
    obtain ⟨ho, hos⟩ := forall_mem_cons.mp h
    rw [itemsToJson]
    exact ho.bind fun v hv => (ih hos).bind fun vs hvs => forall_mem_cons.mpr ⟨hv, hvs⟩

theorem yields_fieldsToJson (h : ∀ f ∈ fs, f.2.Tame) :
    Yields (fun vs => ∀ e ∈ vs, e.2.ordered = true) (fieldsToJson fs) := by
  induction fs with
  | nil => exact forall_mem_nil _
  | cons f fs ih =>
    obtain ⟨hf, hfs⟩ := forall_mem_cons.mp h
    rw [fieldsToJson]
    exact hf.bind fun v hv => (ih hfs).bind fun vs hvs => forall_mem_cons.mpr ⟨hv, hvs⟩

theorem tame_array (h : ∀ o ∈ os, o.Tame) : Tame (.array start os fault) := by
  rw [Tame, toJson]
  refine (yields_itemsToJson h).bind fun vs hvs => ?_
  cases fault with
  | some e => exact yields_error _ _
  | none => exact ordered_array.mpr hvs

theorem tame_object (h : ∀ f ∈ fs, f.2.Tame) : Tame (.object start fs fault) := by
  rw [Tame, toJson]
  refine (yields_fieldsToJson h).bind fun vs hvs => ?_
  cases fault with
  | some e => exact yields_error _ _
  | none =>
    -- the fields stand as they were written until they are put into a table
    exact ordered_object.mpr ⟨Table.sorted_ofList vs, fun e he => hvs e (Table.mem_of_mem_ofList he)⟩

theorem forall_mem_readParts {α : Type} {P : α → Prop}
    {next : Bool → Cursor → Except SyntaxError (Bool × Cursor)} {one : Cursor → List α × Stop}
    (hone : ∀ c, ∀ a ∈ (one c).1, P a) (fuel : Nat) (first : Bool) (c : Cursor) :
    ∀ a ∈ (readParts next one fuel first c).1, P a := by
  induction fuel generalizing first c with
  | zero => exact forall_mem_nil _
  | succ fuel ih =>
    rw [readParts]
    split
    · exact forall_mem_nil _
    · exact forall_mem_nil _
    · rename_i c _
      have hone := hone c
      split
      · rename_i hstop
        rwa [hstop] at hone
      · rename_i hstop
        rw [hstop] at hone
        exact forall_mem_append.mpr ⟨hone, ih false _⟩

theorem tame_readField {read : Cursor → Outline × Stop} (h : ∀ c, (read c).1.Tame) (c : Cursor) :
    ∀ f ∈ (readField read c).1, f.2.Tame := by
  unfold readField
  split
  · split
    · exact forall_mem_nil _
    · rw [forall_mem_singleton]
      unfold readValue
      dsimp only
      split
      · exact h _
      · exact tame_halted _ _
  · exact forall_mem_nil _

theorem tame_readWith {below : Option (Cursor → Outline × Stop)}
    (h : ∀ read ∈ below, ∀ c, (read c).1.Tame) (c : Cursor) : (readWith below c).1.Tame := by
  unfold readWith
  dsimp only
  split
  · cases below with
    | none => exact tame_halted _ _
    | some read =>
      have hread := h read rfl
      dsimp only
      split
      · exact tame_array (forall_mem_readParts (fun c => forall_mem_singleton.mpr (hread c)) _ _ _)
      · exact tame_object (forall_mem_readParts (tame_readField hread) _ _ _)
  · have hleaf := yields_readLeaf c.skipSpace
    split
    · rename_i heq
      rw [Tame, toJson]
      exact hleaf.of_ok heq
    · exact tame_halted _ _

theorem tame_read (depth : Nat) (c : Cursor) : (read depth c).1.Tame := by
  induction depth generalizing c with
  | zero =>
    refine tame_readWith ?_ c
    rintro _ ⟨⟩
  | succ depth ih =>
    refine tame_readWith ?_ c
    rintro _ ⟨⟩
    exact ih

end Outline

/-- The value of a text has its keys in order. -/
theorem ordered_of_parse {limit : Nat} {text : String} (h : parse limit text = .ok v) :
    v.ordered = true := by
  have htame : (Document.read limit text).root.Tame := Outline.tame_read (limit - 1) _
  unfold parse at h
  obtain ⟨w, hw, h⟩ := exists_of_bind_eq_ok h
  split at h
  · cases h
  · exact Except.ok.inj h ▸ htame.of_ok hw

end Json

end Widgetry
