import Widgetry.Proofs.Context.Changes
import Widgetry.Proofs.Expr.Dependence
import Widgetry.Proofs.View.Drawing
import Widgetry.View.Rendering

/-!
# Agreement of scenes

Where no change leads, formulas and slots read the same in the old and the new scene. So the slots
retained for an element are refused an update exactly when the element is refused.
-/

namespace Widgetry

open List

/-- Two scenes that differ in their data only, and agree where no change leads. -/
structure Scene.Agree (s s' : Scene) (changed : List DataPath) : Prop where
  stage : s'.stage = s.stage
  eval : ∀ f : Formula, touches f.deps changed = false → f.eval s'.context = f.eval s.context
  key : ∀ kind : SlotKind, touches kind.deps changed = false → s'.key kind = s.key kind

variable {changed : List DataPath} {f : Formula} {c d : Context} {s s' : Scene} {key : SlotKey}
  {root : Element} {o : Occurrence}

theorem not_overlaps_of_not_touches {deps : List DataPath} (h : touches deps changed = false) :
    ∀ p ∈ deps, ∀ q ∈ changed, q.overlaps p = false := by
  intro p hp q hq
  have hp : (changed.any fun c => c.overlaps p) = false := by
    simpa using any_eq_false.mp h p hp
  simpa using any_eq_false.mp hp q hq

namespace Formula

theorem eval_eq_of_not_touches (hc : c.unsignedZeros = true) (hd : d.unsignedZeros = true)
    (h : touches f.deps (c.diff d) = false) : f.eval d = f.eval c := by
  refine Term.eval_eq_of_agree f.term fun p hp => ?_
  exact (Context.lookup?_eq_of_untouched hc hd (not_overlaps_of_not_touches h p hp)).symm

end Formula

namespace Scene

/-- The change of a context without negative zeros. -/
theorem agree_diff (g : Stage) (hc : c.unsignedZeros = true) (hd : d.unsignedZeros = true) :
    Agree ⟨g.target, g.style, g.size, c⟩ ⟨g.target, g.style, g.size, d⟩ (c.diff d) where
  stage := rfl
  eval _ h := Formula.eval_eq_of_not_touches hc hd h
  key kind h := by
    cases kind with
    | forEach items limit spacing =>
      have hlookup : ∀ p ∈ items, d.lookup? p = c.lookup? p := fun p hp =>
        (Context.lookup?_eq_of_untouched hc hd
          (not_overlaps_of_not_touches h p (by simpa [SlotKind.deps] using hp))).symm
      cases items with
      | none => rfl
      | some p =>
        have hfound : ((some p).filter (·.root == .data)).bind d.lookup? =
            ((some p).filter (·.root == .data)).bind c.lookup? := by
          cases hr : p.root <;> simp [Option.filter, hr, hlookup p rfl]
        simp only [Scene.key, itemCount, hfound]
    | conditional f =>
      have heval : f.eval d = f.eval c := Formula.eval_eq_of_not_touches hc hd h
      simp only [Scene.key, holds, value?, heval]

theorem Agree.encoded? (h : s.Agree s' changed) (hf : touches f.deps changed = false)
    (encoding : Encoding) : s'.encoded? f encoding = s.encoded? f encoding := by
  have hstage := h.stage
  simp only [Scene.stage, Stage.mk.injEq] at hstage
  simp only [Scene.encoded?, value?, h.eval f hf, hstage.1, hstage.2.1]

end Scene

def SlotSite.next (s : Scene) (changed : List DataPath) (site : SlotSite) (key : SlotKey) : SlotKey :=
  if touches site.kind.deps changed then s.key site.kind else key

theorem Scene.Agree.next_eq (h : s.Agree s' changed) {site : SlotSite}
    (hkey : key = s.key site.kind) : site.next s' changed key = s'.key site.kind := by
  unfold SlotSite.next
  split
  · rfl
  · rename_i ht
    rw [hkey]
    exact (h.key site.kind (by simpa using ht)).symm

namespace Slot

mutual

def refusal (s : Scene) (changed : List DataPath) (root : Element) : Slot → Option Error
  | ⟨site, key, _, slots⟩ =>
      if site.next s changed key = key then refusals s changed root slots
      else match root.descendant? site.element with
        | some e =>
            (site.selected (site.next s changed key) e.children).findSome? (Occurrence.refusal s)
        | none => some (.schema .root .handleMismatch)

/-- The error that stops an update at the first of some slots. -/
def refusals (s : Scene) (changed : List DataPath) (root : Element) : List Slot → Option Error
  | [] => none
  | slot :: slots => (slot.refusal s changed root).or (refusals s changed root slots)

end

theorem refusals_append (s : Scene) (changed : List DataPath) (root : Element)
    (as bs : List Slot) :
    refusals s changed root (as ++ bs) =
      (refusals s changed root as).or (refusals s changed root bs) := by
  induction as with
  | nil => simp [refusals]
  | cons a as ih => simp [refusals, ih, Option.or_assoc]

end Slot

namespace Element

theorem descendant?_append (e : Element) (path rest : List Nat) :
    e.descendant? (path ++ rest) = (e.descendant? path).bind fun d => d.descendant? rest := by
  induction path generalizing e with
  | nil => simp [descendant?]
  | cons i path ih =>
    simp only [cons_append, descendant?, Option.bind_assoc]
    cases e.children[i]? with
    | none => rfl
    | some c => exact ih c

end Element

namespace Occurrence

/-- The path of an occurrence leads to its element. -/
def Stands (root : Element) (o : Occurrence) : Prop := root.descendant? o.path = some o.element

variable {p : Occurrence} {f : Frame}

theorem stands_child {i : Nat} (ho : o.Stands root) (hpath : p.path = o.path ++ [i])
    (hp : o.element.children[i]? = some p.element) : p.Stands root := by
  unfold Stands at ho ⊢
  rw [hpath, Element.descendant?_append, ho]
  simp [Element.descendant?, hp]

theorem stands_members (ho : o.Stands root) (hp : p ∈ o.members f) : p.Stands root := by
  unfold members at hp
  split at hp
  · obtain ⟨⟨e, i⟩, he, rfl⟩ := mem_map.mp hp
    exact stands_child ho rfl (mem_zipIdx_iff_getElem?.mp he)
  · simp at hp

theorem stands_selected {kind : SlotKind} {v : Nat} (ho : o.Stands root)
    (hp : p ∈ (o.site f kind v).selected key o.element.children) : p.Stands root := by
  unfold SlotSite.selected at hp
  split at hp
  · rename_i h
    obtain ⟨i, -, rfl⟩ := mem_map.mp hp
    exact stands_child ho rfl (by rw [h]; rfl)
  · rename_i h
    rw [mem_singleton.mp hp]
    exact stands_child ho rfl (by rw [h]; rfl)
  · rename_i h
    rw [mem_singleton.mp hp]
    exact stands_child ho rfl (by rw [h]; rfl)
  · simp at hp

end Occurrence

namespace Sketch

theorem refusals_flatMap_slots {g : Stage} {os : List Occurrence} {ks : List Sketch}
    {refusal : Occurrence → Option Error} (h : Forall₂ (Drawn g) os ks)
    (hks : ∀ k ∈ ks, ∀ o ∈ os, k.Drawn g o → Slot.refusals s changed root k.slots = refusal o) :
    Slot.refusals s changed root (ks.flatMap slots) = os.findSome? refusal := by
  induction h with
  | nil => rfl
  | @cons o k os ks hk _ ih =>
    rw [flatMap_cons, Slot.refusals_append,
      hks k mem_cons_self o mem_cons_self hk,
      ih fun k hk o ho => hks k (mem_cons_of_mem _ hk) o (mem_cons_of_mem _ ho)]
    cases hr : refusal o with
    | none => rw [List.findSome?_cons_of_isNone (by simp [hr]), Option.none_or]
    | some e => rw [List.findSome?_cons_of_isSome (by simp [hr]), hr, Option.some_or]

/-- The slots of an element are refused an update exactly when the element is refused. -/
theorem refusals_slots (h : s.Agree s' changed) {k : Sketch} (hk : k.Drawn s'.stage o)
    (hc : k.Current s) (ho : o.Stands root) :
    Slot.refusals s' changed root k.slots = o.refusal s' := by
  induction k using inductionOn generalizing o with
  | plain v inner f kids ih =>
    cases hk with
    | plain hframe hslot hinner hkids =>
      rw [Current] at hc
      have hkidsEq : o.kids s' f = o.members f := by rw [Occurrence.kids, hslot]
      rw [slots, Occurrence.refusal_of_frame_ok hframe, hkidsEq]
      exact refusals_flatMap_slots hkids fun k hk p hp hd =>
        ih k hk hd (hc k hk) (Occurrence.stands_members ho hp)
  | slot f site key properties kids ih =>
    cases hk with
    | @slot _ v _ kind _ _ _ hframe hslot hproperties hkids =>
      rw [Current] at hc
      obtain ⟨hkey, -, hc⟩ := hc
      have hnext : (o.site f kind v).next s' changed key = s'.key kind := h.next_eq hkey
      have hkidsEq : o.kids s' f = (o.site f kind v).selected (s'.key kind) o.element.children := by
        rw [Occurrence.kids, hslot, Build.selected_site f kind v]
      rw [slots, Occurrence.refusal_of_frame_ok hframe, hkidsEq, Slot.refusals, Slot.refusals,
        Option.or_none, Slot.refusal, hnext]
      split
      · rename_i hsame
        rw [hsame]
        exact refusals_flatMap_slots hkids fun k hk p hp hd =>
          ih k hk hd (hc k hk) (Occurrence.stands_selected ho hp)
      · rw [show (o.site f kind v).element = o.path from rfl, show root.descendant? o.path = _ from ho]

end Sketch

end Widgetry
