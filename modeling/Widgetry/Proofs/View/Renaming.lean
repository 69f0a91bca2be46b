import Mathlib.Data.Set.Function
import Widgetry.Proofs.View.Run

/-!
# Renaming

Views may be numbered otherwise. Two sketches that are drawn for one element and have the values of
one scene are the same up to the numbers of their views.
-/

namespace Widgetry

open List

def BoundProperty.rename (ρ : Nat → Nat) (b : BoundProperty) : BoundProperty :=
  { b with views := b.views.map ρ }

def SlotSite.rename (ρ : Nat → Nat) (site : SlotSite) : SlotSite := { site with view := ρ site.view }

def Slot.rename (ρ : Nat → Nat) : Slot → Slot
  | ⟨site, key, properties, slots⟩ =>
      ⟨site.rename ρ, key, properties.map (BoundProperty.rename ρ), slots.map (rename ρ)⟩

def Retained.rename (ρ : Nat → Nat) (a : Retained) : Retained :=
  ⟨a.properties.map (BoundProperty.rename ρ), a.slots.map (Slot.rename ρ)⟩

def Stroke.rename (ρ : Nat → Nat) (k : Stroke) : Stroke := { k with views := k.views.map ρ }

theorem Stroke.filter_isBound_rename (ρ : Nat → Nat) (ks : List Stroke) :
    (ks.map (rename ρ)).filter isBound = (ks.filter isBound).map (rename ρ) :=
  filter_map ..

namespace Frame

theorem strokes_rename (ρ : Nat → Nat) (f : Frame) (v w : Nat) :
    f.strokes (ρ v) (ρ w) = (f.strokes v w).map (Stroke.rename ρ) := by
  have hmark : ∀ m : Bool × Mark, Stroke.rename ρ ⟨[if m.1 then w else v], m.2⟩ =
      ⟨[if m.1 then ρ w else ρ v], m.2⟩ := by
    rintro ⟨inner, mark⟩
    cases inner <;> rfl
  simp only [strokes, map_append, map_map, map_flatMap, Function.comp_def, hmark]
  rfl

theorem gap_rename (ρ : Nat → Nat) (f : Frame) (views : List Nat) :
    f.gap (views.map ρ) = (f.gap views).map (Stroke.rename ρ) := by
  unfold gap
  rw [length_map]
  split
  · rw [map_map, ← map_tail]
    rfl
  · rfl

end Frame

namespace Sketch

def rename (ρ : Nat → Nat) : Sketch → Sketch
  | .plain v inner f kids => .plain (ρ v) (inner.map ρ) f (kids.map (rename ρ))
  | .slot f site key properties kids =>
      .slot f (site.rename ρ) key (properties.map (BoundProperty.rename ρ)) (kids.map (rename ρ))

variable (ρ : Nat → Nat)

theorem view_rename (k : Sketch) : (k.rename ρ).view = ρ k.view := by
  cases k with
  | plain v inner f kids => rw [rename]; rfl
  | slot f site key properties kids => rw [rename]; rfl

theorem map_view_rename (kids : List Sketch) :
    (kids.map (rename ρ)).map view = (kids.map view).map ρ := by
  rw [map_map, map_map]
  exact map_congr_left fun k _ => view_rename ρ k

theorem flatMap_rename {α : Type} {g : Sketch → List α} {h : α → α} {kids : List Sketch}
    (hk : ∀ k ∈ kids, g (k.rename ρ) = (g k).map h) :
    (kids.map (rename ρ)).flatMap g = (kids.flatMap g).map h := by
  rw [flatMap_map, map_flatMap]
  exact flatMap_congr hk

theorem getD_map (inner : Option Nat) (v : Nat) : (inner.map ρ).getD (ρ v) = ρ (inner.getD v) := by
  cases inner <;> rfl

theorem strokes_rename (k : Sketch) : (k.rename ρ).strokes = k.strokes.map (Stroke.rename ρ) := by
  induction k using inductionOn with
  | plain v inner f kids ih =>
    rw [rename, strokes, strokes, flatMap_rename ρ ih, map_view_rename, getD_map,
      Frame.strokes_rename, Frame.gap_rename]
    simp only [map_append, map_map]
    rfl
  | slot f site key properties kids ih =>
    rw [rename, strokes, strokes]
    exact Frame.strokes_rename ρ f site.view site.view

theorem scope_rename (f : Frame) (kids : List Sketch) :
    scope f (kids.map (rename ρ)) = (scope f kids).map (Stroke.rename ρ) := by
  rw [scope, scope, flatMap_rename ρ fun k _ => strokes_rename ρ k, map_view_rename,
    Frame.gap_rename, map_append]

theorem slots_rename (k : Sketch) : (k.rename ρ).slots = k.slots.map (Slot.rename ρ) := by
  induction k using inductionOn with
  | plain v inner f kids ih => rw [rename, slots, slots, flatMap_rename ρ ih]
  | slot f site key properties kids ih =>
    rw [rename, slots, slots, flatMap_rename ρ ih, map_singleton, Slot.rename]

theorem labels_rename (k : Sketch) : (k.rename ρ).labels = k.labels.map ρ := by
  induction k using inductionOn with
  | plain v inner f kids ih =>
    rw [rename, labels, labels, flatMap_rename ρ ih, map_cons, map_append]
    cases inner <;> rfl
  | slot f site key properties kids ih =>
    rw [rename, labels, labels, flatMap_rename ρ ih, map_cons]
    rfl

theorem ground_rename (k : Sketch) : (k.rename ρ).ground = k.ground.map ρ := by
  induction k using inductionOn with
  | plain v inner f kids ih =>
    rw [rename, ground, ground, flatMap_rename ρ ih, map_cons, map_append]
    cases inner <;> rfl
  | slot f site key properties kids ih =>
    rw [rename, ground, ground]
    rfl

end Sketch

variable {s : Scene}

theorem BoundProperty.eq_of_map_stroke {as bs : List BoundProperty}
    (h : as.map stroke = bs.map stroke) (ha : ∀ b ∈ as, b.last = s.encoded? b.formula b.encoding)
    (hb : ∀ b ∈ bs, b.last = s.encoded? b.formula b.encoding) : as = bs := by
  induction as generalizing bs with
  | nil => exact (map_eq_nil_iff.mp h.symm).symm
  | cons a as ih =>
    cases bs with
    | nil => simp at h
    | cons b bs =>
      rw [map_cons, map_cons, List.cons.injEq] at h
      have hlast := ha a mem_cons_self
      have hlast' := hb b mem_cons_self
      obtain ⟨views, names, encoding, formula, last⟩ := a
      obtain ⟨views', names', encoding', formula', last'⟩ := b
      have hstroke := h.1
      simp only [stroke, Stroke.mk.injEq, Mark.follow.injEq] at hstroke hlast hlast'
      obtain ⟨rfl, rfl, rfl, rfl⟩ := hstroke
      subst hlast hlast'
      rw [ih h.2 (fun b hb => ha b (mem_cons_of_mem _ hb)) fun b h => hb b
        (mem_cons_of_mem _ h)]

namespace Sketch

/-- A sketch is another one up to the numbers of views. -/
def Resembles (k k' : Sketch) : Prop :=
  k.labels.length = k'.labels.length ∧
    ∀ ρ : Nat → Nat, k.labels.map ρ = k'.labels → k.rename ρ = k'

theorem resembles_all {g : Stage} {os : List Occurrence} {ks ks' : List Sketch}
    (hks : Forall₂ (Drawn g) os ks) (hks' : Forall₂ (Drawn g) os ks')
    (h : ∀ k ∈ ks, ∀ k' ∈ ks', ∀ o, k.Drawn g o → k'.Drawn g o → k.Resembles k') :
    (ks.flatMap labels).length = (ks'.flatMap labels).length ∧
      ∀ ρ : Nat → Nat, (ks.flatMap labels).map ρ = ks'.flatMap labels →
        ks.map (rename ρ) = ks' := by
  induction hks generalizing ks' with
  | nil =>
    rw [forall₂_nil_left_iff] at hks'
    subst hks'
    exact ⟨rfl, fun _ _ => rfl⟩
  | @cons o k os ks hk hks ih =>
    obtain ⟨k', ks', hk', hrest, rfl⟩ := forall₂_cons_left_iff.mp hks'
    obtain ⟨hlength, hrename⟩ := h k mem_cons_self k' mem_cons_self o hk hk'
    obtain ⟨hlengths, hrenames⟩ := ih hrest fun k hk k' hk' =>
      h k (mem_cons_of_mem _ hk) k' (mem_cons_of_mem _ hk')
    refine ⟨?_, fun ρ hρ => ?_⟩
    · rw [flatMap_cons, flatMap_cons, length_append, length_append, hlength,
        hlengths]
    · rw [flatMap_cons, flatMap_cons, map_append] at hρ
      obtain ⟨hfirst, hothers⟩ := append_inj hρ (by rw [length_map, hlength])
      rw [map_cons, hrename ρ hfirst, hrenames ρ hothers]

/-- An element and a scene determine a sketch up to the numbers of its views. -/
theorem Drawn.resembles {o : Occurrence} {k k' : Sketch} (hk : k.Drawn s.stage o)
    (hk' : k'.Drawn s.stage o) (hc : k.Current s) (hc' : k'.Current s) : k.Resembles k' := by
  induction k using inductionOn generalizing o k' with
  | plain v inner f kids ih =>
    cases hk with
    | plain hframe hslot hinner hkids =>
      cases hk' with
      | slot hframe' hslot' _ _ =>
        rw [hframe] at hframe'
        obtain rfl := Except.ok.inj hframe'
        rw [hslot] at hslot'
        cases hslot'
      | @plain _ v' inner' f' kids' hframe' hslot' hinner' hkids' =>
        rw [hframe] at hframe'
        obtain rfl := Except.ok.inj hframe'
        rw [Current] at hc hc'
        obtain ⟨hlength, hrename⟩ := resembles_all hkids hkids' fun k hk k' hk' o hd hd' =>
          ih k hk hd hd' (hc k hk) (hc' k' hk')
        have hown : inner.toList.length = inner'.toList.length := by
          rw [← hinner'] at hinner
          cases inner <;> cases inner' <;> simp_all
        refine ⟨?_, fun ρ hρ => ?_⟩
        · rw [labels, labels, length_cons, length_cons, length_append,
            length_append, hown, hlength]
        · rw [labels, labels, map_cons, map_append, List.cons.injEq] at hρ
          obtain ⟨hsame, hothers⟩ := append_inj hρ.2 (by rw [length_map, hown])
          have hinners : inner.map ρ = inner' := by
            cases inner <;> cases inner' <;> simp_all
          rw [rename, hρ.1, hinners, hrename ρ hothers]
  | slot f site key properties kids ih =>
    cases hk with
    | @slot _ v _ kind _ _ _ hframe hslot hproperties hkids =>
      cases hk' with
      | plain hframe' hslot' _ _ =>
        rw [hframe] at hframe'
        obtain rfl := Except.ok.inj hframe'
        rw [hslot] at hslot'
        cases hslot'
      | @slot _ v' f' kind' key' properties' kids' hframe' hslot' hproperties' hkids' =>
        rw [hframe] at hframe'
        obtain rfl := Except.ok.inj hframe'
        rw [hslot] at hslot'
        obtain rfl := Option.some.inj hslot'
        rw [Current] at hc hc'
        obtain rfl : key = key' := hc.1.trans hc'.1.symm
        obtain ⟨hlength, hrename⟩ := resembles_all hkids hkids' fun k hk k' hk' o hd hd' =>
          ih k hk hd hd' (hc.2.2 k hk) (hc'.2.2 k' hk')
        refine ⟨?_, fun ρ hρ => ?_⟩
        · rw [labels, labels, length_cons, length_cons, hlength]
        · rw [labels, labels, map_cons, List.cons.injEq] at hρ
          have hkids := hrename ρ hρ.2
          have hbound : properties.map (BoundProperty.rename ρ) = properties' := by
            refine BoundProperty.eq_of_map_stroke (s := s) ?_ ?_ hc'.2.1
            · rw [hproperties', ← hkids, scope_rename, Stroke.filter_isBound_rename, ← hproperties,
                map_map, map_map]
              rfl
            · intro b hb
              obtain ⟨b, hmem, rfl⟩ := mem_map.mp hb
              exact hc.2.1 b hmem
          have hsite : (o.site f kind v).rename ρ = o.site f kind v' := by
            rw [SlotSite.rename, show ρ (o.site f kind v).view = v' from hρ.1]
            rfl
          rw [rename, hsite, hbound, hkids]

end Sketch

end Widgetry
