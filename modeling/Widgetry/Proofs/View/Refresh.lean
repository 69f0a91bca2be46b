import Widgetry.Proofs.View.Agreement

/-!
# Refreshing

Bringing what is retained for sketches up to date. The views of the sketches are the only old ones
that change, and those outside slots keep their properties once the properties retained are written.
When no slot is refused, what is retained afterwards belongs to sketches drawn for the same elements.
-/

namespace Widgetry

open List

variable {s : Scene} {changed : List DataPath} {bs : List BoundProperty}

namespace BoundProperty

def next (s : Scene) (changed : List DataPath) (b : BoundProperty) : Option String :=
  if touches b.formula.deps changed then s.encoded? b.formula b.encoding else b.last

def renewed (s : Scene) (changed : List DataPath) (b : BoundProperty) : BoundProperty :=
  { b with last := b.next s changed }

def rewrites (s : Scene) (changed : List DataPath) (b : BoundProperty) : List ViewOp :=
  if b.next s changed = b.last then []
  else b.views.flatMap fun v => b.names.map fun name => .write v name (b.next s changed)

def rewritten (s : Scene) (changed : List DataPath) (v : Nat) (name : String) (x : Option String)
    (b : BoundProperty) : Option String :=
  if v ∈ b.views ∧ name ∈ b.names ∧ b.next s changed ≠ b.last then b.next s changed else x

theorem foldl_written_rewrites (s : Scene) (changed : List DataPath) (v : Nat) (name : String)
    (x : Option String) (b : BoundProperty) :
    (b.rewrites s changed).foldl (ViewOp.written v name) x = b.rewritten s changed v name x := by
  unfold rewrites rewritten
  by_cases h : b.next s changed = b.last
  · simp [h]
  · rw [if_neg h, ViewOp.foldl_written_writes]
    simp [h]

theorem foldl_written_flatMap_rewrites (s : Scene) (changed : List DataPath) (v : Nat)
    (name : String) (x : Option String) (bs : List BoundProperty) :
    (bs.flatMap (rewrites s changed)).foldl (ViewOp.written v name) x =
      bs.foldl (rewritten s changed v name) x := by
  rw [foldl_flatMap]
  simp only [foldl_written_rewrites]

variable {b : BoundProperty}

theorem view_of_mem_rewrites {op : ViewOp} (h : op ∈ b.rewrites s changed) :
    op.isWrite = true ∧ op.view ∈ b.views := by
  unfold rewrites at h
  split at h
  · simp at h
  · obtain ⟨v, hv, h⟩ := mem_flatMap.mp h
    obtain ⟨name, -, rfl⟩ := mem_map.mp h
    exact ⟨ViewOp.isWrite_write _ _ _, by rwa [ViewOp.view_write]⟩

theorem rewritten_of_not_mem {v : Nat} (h : v ∉ b.views) (name : String) (x : Option String) :
    b.rewritten s changed v name x = x := if_neg fun hb => h hb.1

theorem foldl_rewritten_of_not_mem {v : Nat} (h : ∀ b ∈ bs, v ∉ b.views) (name : String)
    (x : Option String) : bs.foldl (rewritten s changed v name) x = x := by
  induction bs with
  | nil => rfl
  | cons b bs ih =>
    rw [foldl_cons, rewritten_of_not_mem (h b mem_cons_self)]
    exact ih fun b hb => h b (mem_cons_of_mem _ hb)

end BoundProperty

/-- The tree after its bound properties were written. -/
structure ViewTree.Rewritten (s : Scene) (changed : List DataPath) (bs : List BoundProperty)
    (t t' : ViewTree) : Prop where
  size : t'.size = t.size
  outline : ∀ v, t'.outline? v = t.outline? v
  property : ∀ v name,
    t'.property? v name = bs.foldl (BoundProperty.rewritten s changed v name) (t.property? v name)
  sorted : t'.Sorted

theorem ViewTree.rewritten_replay {t : ViewTree} (ht : t.Sorted)
    (h : ∀ b ∈ bs, ∀ v ∈ b.views, v < t.size) :
    Rewritten s changed bs t (t.replay (bs.flatMap (BoundProperty.rewrites s changed))) := by
  have hwrites : ∀ op ∈ bs.flatMap (BoundProperty.rewrites s changed),
      op.isWrite = true ∧ op.view < t.size := by
    intro op hop
    obtain ⟨b, hb, hop⟩ := mem_flatMap.mp hop
    obtain ⟨hwrite, hview⟩ := BoundProperty.view_of_mem_rewrites hop
    exact ⟨hwrite, h b hb _ hview⟩
  have htimely := ViewOp.timely_of_writes hwrites
  have hcreated : (bs.flatMap (BoundProperty.rewrites s changed)).filterMap ViewOp.created? = [] :=
    filterMap_eq_nil_iff.mpr fun op hop => ViewOp.created?_of_isWrite (hwrites op hop).1
  refine ⟨?_, ?_, ?_, ht.replay _⟩
  · rw [size_replay, hcreated]
    rfl
  · intro v
    rw [outline?_replay htimely, ViewOp.foldl_outlined_of_writes fun op hop => (hwrites op hop).1]
  · intro v name
    rw [property?_replay ht htimely, BoundProperty.foldl_written_flatMap_rewrites]

namespace Progress

/-- The state after some operations and evaluations, with nothing built anew. -/
def advanced (p : Progress) (ops : List ViewOp) (n : Nat) : Progress :=
  ⟨p.tree.replay ops, ops.reverse ++ p.log, p.evaluated + n, p.rebuilt⟩

theorem advanced_advanced (p : Progress) (ops more : List ViewOp) (m n : Nat) :
    (p.advanced ops m).advanced more n = p.advanced (ops ++ more) (m + n) := by
  simp only [advanced, ViewTree.replay_append, reverse_append, append_assoc,
    Nat.add_assoc]

/-- A step of an update returns a value, performs some operations and evaluates some properties. -/
def Does {α : Type} (m : StateM Progress α) (a : α) (ops : List ViewOp) (n : Nat) : Prop :=
  ∀ p, m.run p = (a, p.advanced ops n)

variable {α β : Type} {m : StateM Progress α} {a : α} {p p' : Progress} {ops : List ViewOp}

theorem run_bind_eq (h : m.run p = (a, p')) (f : α → StateM Progress β) :
    (m >>= f).run p = (f a).run p' := by
  rw [StateT.run_bind, h]
  rfl

theorem Does.bind {f : α → StateM Progress β} {b : β} {more : List ViewOp} {i j : Nat}
    (h : Does m a ops i) (h' : Does (f a) b more j) : Does (m >>= f) b (ops ++ more) (i + j) := by
  intro p
  rw [run_bind_eq (h p), h', advanced_advanced]

theorem does_pure (a : α) : Does (pure a) a [] 0 := fun _ => rfl

theorem Does.returns {n : Nat} (h : Does m a ops n) (g : α → β) :
    Does (m >>= fun x => pure (g x)) (g a) ops n := by
  have hbind := h.bind (f := fun x => pure (g x)) (does_pure (g a))
  rwa [append_nil] at hbind

theorem does_write (v : Nat) (name : String) (y : Option String) :
    Does (write v name y) () [.write v name y] 0 := by
  intro p
  cases y <;> rfl

theorem does_forM {f : α → StateM Progress PUnit} {ops : α → List ViewOp}
    (h : ∀ x, Does (f x) ⟨⟩ (ops x) 0) (xs : List α) : Does (xs.forM f) ⟨⟩ (xs.flatMap ops) 0 := by
  induction xs with
  | nil => exact does_pure _
  | cons x xs ih => exact (h x).bind (f := fun _ => xs.forM f) ih

theorem does_refreshProperty (s : Scene) (changed : List DataPath) (b : BoundProperty) :
    Does (refreshProperty s changed b) (b.renewed s changed) (b.rewrites s changed)
      (touches b.formula.deps changed).toNat := by
  unfold refreshProperty
  cases ht : touches b.formula.deps changed with
  | true =>
    have hnext : b.next s changed = s.encoded? b.formula b.encoding := if_pos ht
    have hcount : Does (modify fun p : Progress => { p with evaluated := p.evaluated + 1 }) ⟨⟩ [] 1 :=
      fun p => rfl
    rw [if_pos rfl, BoundProperty.rewrites, BoundProperty.renewed, hnext]
    by_cases hsame : s.encoded? b.formula b.encoding = b.last
    · simp only [hsame]
      exact hcount.bind (f := fun _ => pure b) (does_pure b)
    · have hwrites := does_forM (fun v => does_forM (fun name =>
        does_write v name (s.encoded? b.formula b.encoding)) b.names) b.views
      simp only [← map_eq_flatMap] at hwrites
      simp only [hsame]
      exact hcount.bind (f := fun _ => _) (hwrites.returns _)
  | false =>
    have hnext : b.next s changed = b.last := if_neg (by simp [ht])
    rw [if_neg Bool.false_ne_true, BoundProperty.rewrites, if_pos hnext, BoundProperty.renewed, hnext]
    exact does_pure b

theorem does_refreshProperties (s : Scene) (changed : List DataPath) (bs : List BoundProperty) :
    Does (bs.mapM (refreshProperty s changed)) (bs.map (BoundProperty.renewed s changed))
      (bs.flatMap (BoundProperty.rewrites s changed))
      (bs.countP fun b => touches b.formula.deps changed) := by
  induction bs with
  | nil => exact does_pure _
  | cons b bs ih =>
    have hcount : (b :: bs).countP (fun b => touches b.formula.deps changed) =
        (touches b.formula.deps changed).toNat + bs.countP fun b => touches b.formula.deps changed := by
      rw [countP_cons, Nat.add_comm]
      cases touches b.formula.deps changed <;> rfl
    rw [mapM_cons, flatMap_cons, hcount]
    refine (does_refreshProperty s changed b).bind ?_
    exact ih.returns _

section Slots

variable {s : Scene} {changed : List DataPath} {root : Element} {site : SlotSite} {key : SlotKey}
  {properties : List BoundProperty} {slots bs bs' as as' : List Slot} {error : Option Error}
  {p₁ p₂ : Progress} {e : Element} {c : Canvas} {a a' : Slot}

theorem run_refreshSlot_kept {properties' : List BoundProperty} {slots' : List Slot}
    (hnext : site.next s changed key = key)
    (hproperties : (properties.mapM (refreshProperty s changed)).run p = (properties', p₁))
    (hslots : (refreshSlots s changed root slots).run p₁ = ((slots', error), p₂)) :
    (refreshSlot s changed root ⟨site, key, properties, slots⟩).run p =
      ((⟨site, key, properties', slots'⟩, error), p₂) := by
  unfold SlotSite.next at hnext
  rw [refreshSlot, if_pos hnext]
  exact (run_bind_eq hproperties _).trans (run_bind_eq hslots _)

theorem run_refreshSlot_rebuilt (hnext : site.next s changed key ≠ key)
    (he : root.descendant? site.element = some e) (p : Progress) :
    (refreshSlot s changed root ⟨site, key, properties, slots⟩).run p =
      (rebuild s site (site.next s changed key) e).run p := by
  unfold SlotSite.next at hnext ⊢
  rw [refreshSlot, if_neg hnext, he]

theorem run_rebuild_ok (h : (Build.fill s site key e.children).run
      ⟨p.tree.apply (.clear site.view), .clear site.view :: p.log, .empty⟩ = (.ok (), c)) :
    ∃ p' : Progress, (rebuild s site key e).run p =
      ((⟨site, key, c.retained.properties, c.retained.slots⟩, none), p') ∧ p'.tree = c.tree := by
  have hclear : (perform (.clear site.view)).run p = ((), ⟨p.tree.apply (.clear site.view),
      .clear site.view :: p.log, p.evaluated, p.rebuilt⟩) := rfl
  rw [rebuild, run_bind_eq hclear]
  simp only [StateT.run_bind, StateT.run_get, pure_bind, h]
  exact ⟨_, rfl, rfl⟩

theorem run_rebuild_error {error : Error} (h : (Build.fill s site key e.children).run
      ⟨p.tree.apply (.clear site.view), .clear site.view :: p.log, .empty⟩ = (.error error, c)) :
    ∃ slot, ∃ p' : Progress, (rebuild s site key e).run p = ((slot, some error), p') ∧
      p'.tree = c.tree := by
  have hclear : (perform (.clear site.view)).run p = ((), ⟨p.tree.apply (.clear site.view),
      .clear site.view :: p.log, p.evaluated, p.rebuilt⟩) := rfl
  rw [rebuild, run_bind_eq hclear]
  simp only [StateT.run_bind, StateT.run_get, pure_bind, h]
  exact ⟨_, _, rfl, rfl⟩

theorem run_refreshSlots_cons_of_error {e : Error}
    (h : (refreshSlot s changed root a).run p = ((a', some e), p')) (bs : List Slot) :
    (refreshSlots s changed root (a :: bs)).run p = ((a' :: bs, some e), p') := by
  rw [refreshSlots]
  exact run_bind_eq h _

theorem run_refreshSlots_cons (h : (refreshSlot s changed root a).run p = ((a', none), p₁))
    (h' : (refreshSlots s changed root bs).run p₁ = ((bs', error), p₂)) :
    (refreshSlots s changed root (a :: bs)).run p = ((a' :: bs', error), p₂) := by
  rw [refreshSlots]
  exact (run_bind_eq h _).trans (run_bind_eq h' _)

theorem run_refreshSlots_singleton (h : (refreshSlot s changed root a).run p = ((a', error), p')) :
    (refreshSlots s changed root [a]).run p = (([a'], error), p') := by
  cases error with
  | none => exact run_refreshSlots_cons h rfl
  | some e => exact run_refreshSlots_cons_of_error h []

theorem run_refreshSlots_append_of_error {e : Error}
    (h : (refreshSlots s changed root as).run p = ((as', some e), p')) (bs : List Slot) :
    (refreshSlots s changed root (as ++ bs)).run p = ((as' ++ bs, some e), p') := by
  induction as generalizing as' p with
  | nil => rw [refreshSlots] at h; cases h
  | cons a as ih =>
    rcases ha : (refreshSlot s changed root a).run p with ⟨⟨a', error⟩, p₁⟩
    cases error with
    | some e' =>
      rw [run_refreshSlots_cons_of_error ha] at h
      cases h
      exact run_refreshSlots_cons_of_error ha (as ++ bs)
    | none =>
      rcases hrest : (refreshSlots s changed root as).run p₁ with ⟨⟨rest, error⟩, p₂⟩
      rw [run_refreshSlots_cons ha hrest] at h
      cases h
      exact run_refreshSlots_cons ha (ih hrest)

theorem run_refreshSlots_append (h : (refreshSlots s changed root as).run p = ((as', none), p₁))
    (h' : (refreshSlots s changed root bs).run p₁ = ((bs', error), p₂)) :
    (refreshSlots s changed root (as ++ bs)).run p = ((as' ++ bs', error), p₂) := by
  induction as generalizing as' p with
  | nil =>
    rw [refreshSlots] at h
    cases h
    exact h'
  | cons a as ih =>
    rcases ha : (refreshSlot s changed root a).run p with ⟨⟨a', stopped⟩, q⟩
    cases stopped with
    | some e =>
      rw [run_refreshSlots_cons_of_error ha] at h
      cases h
    | none =>
      rcases hrest : (refreshSlots s changed root as).run q with ⟨⟨rest, stopped⟩, q'⟩
      rw [run_refreshSlots_cons ha hrest] at h
      cases h
      exact run_refreshSlots_cons ha (ih hrest)

end Slots

end Progress

end Widgetry
