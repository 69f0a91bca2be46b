import Widgetry.Proofs.View.Refresh

/-!
# Histories

What a property holds after a history of scenes. The first scene makes all strokes in order; each
later one makes those strokes again that write something else than before. A history is faithful
when this leaves what the last scene alone would have left.
-/

namespace Widgetry

open List

variable {s : Scene} {ks : List Stroke} {k : Sketch} {h : List Scene}
  {read : Nat → String → Option String}

namespace Stroke

/-- A property of a view after a stroke is made again, which is done if it writes something else. -/
def renewed (s s' : Scene) (v : Nat) (name : String) (x : Option String) (k : Stroke) :
    Option String :=
  if v ∈ k.views ∧ name ∈ k.mark.names ∧ k.mark.text? s' ≠ k.mark.text? s then k.mark.text? s' else x

/-- A property of a view after a history, the last scene first. -/
def since (ks : List Stroke) (v : Nat) (name : String) : List Scene → Option String
  | [] => none
  | [s] => ks.foldl (given s v name) none
  | s' :: s :: h => ks.foldl (renewed s s' v name) (since ks v name (s :: h))

/-- Whether a stroke writes a property of a view. -/
def Touches (k : Stroke) (v : Nat) (name : String) : Prop := v ∈ k.views ∧ name ∈ k.mark.names

variable {v : Nat} {name : String} {k : Stroke} {s' : Scene}

theorem given_of_touches (h : k.Touches v name) (x : Option String) :
    k.given s v name x = (k.mark.text? s).or x := if_pos h

theorem given_of_not_touches (h : ¬ k.Touches v name) (x : Option String) :
    k.given s v name x = x := if_neg h

theorem renewed_of_not_touches (h : ¬ k.Touches v name) (x : Option String) :
    k.renewed s s' v name x = x :=
  if_neg fun hk => h ⟨hk.1, hk.2.1⟩

theorem foldl_given_of_not_touches (h : ∀ k ∈ ks, ¬ k.Touches v name) (x : Option String) :
    ks.foldl (given s v name) x = x := by
  induction ks with
  | nil => rfl
  | cons k ks ih =>
    rw [foldl_cons, given_of_not_touches (h k mem_cons_self)]
    exact ih fun k hk => h k (mem_cons_of_mem _ hk)

theorem foldl_renewed_of_not_touches (h : ∀ k ∈ ks, ¬ k.Touches v name) (x : Option String) :
    ks.foldl (renewed s s' v name) x = x := by
  induction ks with
  | nil => rfl
  | cons k ks ih =>
    rw [foldl_cons, renewed_of_not_touches (h k mem_cons_self)]
    exact ih fun k hk => h k (mem_cons_of_mem _ hk)

theorem since_of_not_mem (h : ∀ k ∈ ks, v ∉ k.views) (name : String) (past : List Scene) :
    since ks v name past = none := by
  have hnot : ∀ k ∈ ks, ¬ k.Touches v name := fun k hk ht => h k hk ht.1
  fun_induction since ks v name past with
  | case1 => rfl
  | case2 s => exact foldl_given_of_not_touches hnot none
  | case3 s' s past ih => rw [foldl_renewed_of_not_touches hnot, ih]

/-- No two strokes write one property of a view. -/
def Uncontested (ks : List Stroke) : Prop :=
  ks.Pairwise fun a b => ∀ v name, a.Touches v name → ¬ b.Touches v name

/-- Strokes that do not contend leave what the last scene gives when they are made again. -/
theorem Uncontested.foldl_renewed (h : Uncontested ks) (s s' : Scene) (v : Nat) (name : String) :
    ks.foldl (renewed s s' v name) (ks.foldl (given s v name) none) =
      ks.foldl (given s' v name) none := by
  induction ks with
  | nil => rfl
  | cons k ks ih =>
    obtain ⟨hk, hks⟩ := pairwise_cons.mp h
    simp only [foldl_cons]
    by_cases ht : k.Touches v name
    · have hrest : ∀ k ∈ ks, ¬ k.Touches v name := fun k' hk' => hk k' hk' v name ht
      rw [foldl_given_of_not_touches hrest, foldl_given_of_not_touches hrest,
        foldl_renewed_of_not_touches hrest, given_of_touches ht, given_of_touches ht,
        Option.or_none, Option.or_none, renewed]
      by_cases htext : k.mark.text? s' = k.mark.text? s
      · rw [if_neg fun hne => hne.2.2 htext, htext]
      · rw [if_pos ⟨ht.1, ht.2, htext⟩]
    · rw [given_of_not_touches ht, given_of_not_touches ht, renewed_of_not_touches ht]
      exact ih hks

theorem Uncontested.since_eq (h : Uncontested ks) (v : Nat) (name : String) (past : List Scene) :
    since ks v name past = since ks v name (past.take 1) := by
  fun_induction since ks v name past with
  | case1 => rfl
  | case2 s => rfl
  | case3 s' s past ih =>
    rw [ih]
    exact h.foldl_renewed s s' v name

/-- A stroke for which nothing is retained writes the same in every scene. -/
theorem renewed_of_not_isBound {changed : List DataPath} (h : s.Agree s' changed)
    (hk : k.isBound = false) (v : Nat) (name : String) (x : Option String) :
    k.renewed s s' v name x = x := by
  refine if_neg fun ⟨_, hname, htext⟩ => htext ?_
  obtain ⟨views, mark⟩ := k
  cases mark with
  | put n value => rfl
  | follow names encoding f =>
    have hne : names ≠ [] := ne_nil_of_mem hname
    have hdeps : f.deps = [] := by simpa [isBound, hne] using hk
    exact h.encoded? (by rw [hdeps]; rfl) encoding

end Stroke

namespace BoundProperty

variable {s s' : Scene} {changed : List DataPath} {b : BoundProperty}

theorem next_eq (h : s.Agree s' changed) (hb : b.last = s.encoded? b.formula b.encoding) :
    b.next s' changed = s'.encoded? b.formula b.encoding := by
  unfold next
  split
  · rfl
  · rename_i ht
    rw [hb]
    exact (h.encoded? (by simpa using ht) b.encoding).symm

theorem rewritten_eq (h : s.Agree s' changed) (hb : b.last = s.encoded? b.formula b.encoding)
    (v : Nat) (name : String) (x : Option String) :
    b.rewritten s' changed v name x = b.stroke.renewed s s' v name x := by
  unfold rewritten
  rw [next_eq h hb, hb]
  rfl

/-- Updating what is retained for strokes makes them again. -/
theorem foldl_rewritten_eq (h : s.Agree s' changed) {bs : List BoundProperty}
    (hks : bs.map stroke = ks.filter Stroke.isBound)
    (hbs : ∀ b ∈ bs, b.last = s.encoded? b.formula b.encoding) (v : Nat) (name : String)
    (x : Option String) :
    bs.foldl (rewritten s' changed v name) x = ks.foldl (Stroke.renewed s s' v name) x := by
  have hbound : bs.foldl (rewritten s' changed v name) x =
      (bs.map stroke).foldl (Stroke.renewed s s' v name) x := by
    clear hks
    rw [foldl_map]
    induction bs generalizing x with
    | nil => rfl
    | cons b bs ih =>
      rw [foldl_cons, foldl_cons, rewritten_eq h (hbs b mem_cons_self)]
      exact ih (fun b hb => hbs b (mem_cons_of_mem _ hb)) _
  rw [hbound, hks, foldl_filter]
  congr 1
  funext y k
  split
  · rfl
  · rename_i hk
    exact (Stroke.renewed_of_not_isBound h (by simpa using hk) v name y).symm

end BoundProperty

/-- The part of a history in which a slot had a key up to the last scene. -/
def SlotSite.during (site : SlotSite) (key : SlotKey) (h : List Scene) : List Scene :=
  h.takeWhile fun s => s.key site.kind = key

namespace Sketch

/-- The views in slots hold what the history since their slot was built leaves. -/
def PaintedSince (h : List Scene) (read : Nat → String → Option String) : Sketch → Prop
  | .plain _ _ _ kids => ∀ k ∈ kids, k.PaintedSince h read
  | .slot f site key _ kids =>
      (∀ v ∈ kids.flatMap ground, ∀ name,
        read v name = Stroke.since (scope f kids) v name (site.during key h)) ∧
      ∀ k ∈ kids, k.PaintedSince (site.during key h) read

/-- In every slot the history since it was built leaves what its last scene gives. -/
def Faithful (h : List Scene) : Sketch → Prop
  | .plain _ _ _ kids => ∀ k ∈ kids, k.Faithful h
  | .slot f site key _ kids =>
      (∀ v name, Stroke.since (scope f kids) v name (site.during key h) =
        Stroke.since (scope f kids) v name ((site.during key h).take 1)) ∧
      ∀ k ∈ kids, k.Faithful (site.during key h)

/-- No two strokes made for a slot contend. -/
def Uncontested : Sketch → Prop
  | .plain _ _ _ kids => ∀ k ∈ kids, k.Uncontested
  | .slot f _ _ _ kids => Stroke.Uncontested (scope f kids) ∧ ∀ k ∈ kids, k.Uncontested

theorem Uncontested.faithful (hk : k.Uncontested) (h : List Scene) : k.Faithful h := by
  induction k using inductionOn generalizing h with
  | plain v inner f kids ih =>
    rw [Uncontested] at hk
    rw [Faithful]
    exact fun k hk' => ih k hk' (hk k hk') h
  | slot f site key properties kids ih =>
    rw [Uncontested] at hk
    rw [Faithful]
    exact ⟨fun v name => hk.1.since_eq v name _, fun k hk' => ih k hk' (hk.2 k hk') _⟩

theorem PaintedSince.congr {read' : Nat → String → Option String} (hk : k.PaintedSince h read)
    (hr : ∀ v ∈ k.nested, ∀ name, read' v name = read v name) : k.PaintedSince h read' := by
  induction k using inductionOn generalizing h with
  | plain v inner f kids ih =>
    rw [PaintedSince] at hk ⊢
    rw [nested] at hr
    exact fun k hk' => ih k hk' (hk k hk') fun u hu => hr u (mem_flatMap.mpr ⟨k, hk', hu⟩)
  | slot f site key properties kids ih =>
    rw [PaintedSince] at hk ⊢
    rw [nested] at hr
    refine ⟨fun v hv name => ?_, fun k hk' => ih k hk' (hk.2 k hk') fun u hu => ?_⟩
    · obtain ⟨k, hk', hv'⟩ := mem_flatMap.mp hv
      rw [hr v (mem_flatMap.mpr ⟨k, hk', mem_labels.mpr (.inl hv')⟩) name]
      exact hk.1 v hv name
    · exact hr u (mem_flatMap.mpr ⟨k, hk', mem_labels.mpr (.inr hu)⟩)

end Sketch

theorem SlotSite.during_cons {site : SlotSite} {key : SlotKey} (hkey : key = s.key site.kind)
    (h : List Scene) : site.during key (s :: h) = s :: site.during key h :=
  takeWhile_cons_of_pos (by simp [hkey])

namespace Sketch

theorem paintedSince_singleton (hc : k.Current s) :
    k.PaintedSince [s] read ↔ k.PaintedBy s read := by
  induction k using inductionOn with
  | plain v inner f kids ih =>
    rw [Current] at hc
    rw [PaintedSince, PaintedBy]
    exact forall₂_congr fun k hk => ih k hk (hc k hk)
  | slot f site key properties kids ih =>
    rw [Current] at hc
    rw [PaintedSince, PaintedBy, SlotSite.during_cons hc.1]
    exact and_congr Iff.rfl (forall₂_congr fun k hk => ih k hk (hc.2.2 k hk))

variable {st : Stroke}

theorem views_of_mem_strokes (h : st ∈ k.strokes) : ∀ v ∈ st.views, v ∈ k.ground := by
  induction k using inductionOn with
  | plain v inner f kids ih =>
    rw [strokes] at h
    rw [ground, ← cons_append]
    intro u hu
    rcases mem_append.mp h with h | h
    · rcases mem_append.mp h with h | h
      · rcases mem_append.mp h with h | h
        · refine mem_append_left _ ?_
          rcases Frame.views_of_mem_strokes h u hu with rfl | rfl
          · exact mem_cons_self
          · exact getD_mem v inner
        · obtain ⟨k, hk, h⟩ := mem_flatMap.mp h
          exact mem_append_right _ (mem_flatMap.mpr ⟨k, hk, ih k hk h u hu⟩)
      · obtain ⟨m, -, rfl⟩ := mem_map.mp h
        rw [mem_singleton.mp hu]
        exact mem_append_left _ (getD_mem v inner)
    · exact mem_append_right _ (views_subset_ground kids u (Frame.views_of_mem_gap h u hu))
  | slot f site key properties kids ih =>
    rw [strokes] at h
    rw [ground]
    intro u hu
    rcases Frame.views_of_mem_strokes h u hu with rfl | rfl <;> exact mem_singleton_self _

theorem views_of_mem_scope {f : Frame} {kids : List Sketch} (h : st ∈ scope f kids) :
    ∀ v ∈ st.views, v ∈ kids.flatMap ground := by
  intro v hv
  rcases mem_append.mp h with h | h
  · obtain ⟨k, hk, h⟩ := mem_flatMap.mp h
    exact mem_flatMap.mpr ⟨k, hk, views_of_mem_strokes h v hv⟩
  · exact views_subset_ground kids v (Frame.views_of_mem_gap h v hv)

/-- The views of slots hold what the last scene gives exactly when the history is faithful. -/
theorem PaintedSince.paintedBy_iff (hk : k.PaintedSince (s :: h) read) (hc : k.Current s) :
    k.PaintedBy s read ↔ k.Faithful (s :: h) := by
  induction k using inductionOn generalizing h with
  | plain v inner f kids ih =>
    rw [PaintedSince] at hk
    rw [Current] at hc
    rw [PaintedBy, Faithful]
    exact forall₂_congr fun k hk' => ih k hk' (hk k hk') (hc k hk')
  | slot f site key properties kids ih =>
    rw [Current] at hc
    rw [PaintedSince, SlotSite.during_cons hc.1] at hk
    rw [PaintedBy, Faithful, SlotSite.during_cons hc.1]
    refine and_congr ⟨fun hp v name => ?_, fun hf v hv name => ?_⟩
      (forall₂_congr fun k hk' => ih k hk' (hk.2 k hk') (hc.2.2 k hk'))
    · by_cases hv : v ∈ kids.flatMap ground
      · exact (hk.1 v hv name).symm.trans (hp v hv name)
      · have hout : ∀ st ∈ scope f kids, v ∉ st.views := fun st hst hv' =>
          hv (views_of_mem_scope hst v hv')
        rw [Stroke.since_of_not_mem hout, Stroke.since_of_not_mem hout]
    · exact (hk.1 v hv name).trans (hf v name)

end Sketch

end Widgetry
