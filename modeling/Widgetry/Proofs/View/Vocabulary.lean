import Widgetry.Proofs.View.Markup
import Widgetry.Proofs.View.Replay
import Widgetry.View.Rendering

/-!
# Vocabulary of view trees

The tags and the names of properties of a view tree are those of its target, whatever the data says.
Only some tags are given to views that hold others, and only a label shows its text between tags. An
operation that keeps to this keeps a tree orderly, and the markup of an orderly tree can be read back.
-/

namespace Widgetry

open List

/-- Tags of views that may hold others. -/
def holderTags : List String := ["StackLayout", "GridLayout", "ScrollView", "ContentView", "div"]

def viewTags : List String := holderTags ++ ["Label", "Image", "span", "img"]

/-- Whether a view with the tag may have a property with the name. -/
def TagTakes (tag name : String) : Prop :=
  Markup.IsPropertyName name ∧ (name = "textContent" → tag = "span")

/-- Names of properties that every view may have. -/
def IsCommon (name : String) : Prop := Markup.IsPropertyName name ∧ name ≠ "textContent"

instance (tag name : String) : Decidable (TagTakes tag name) := inferInstanceAs (Decidable (_ ∧ _))

instance (name : String) : Decidable (IsCommon name) := inferInstanceAs (Decidable (_ ∧ _))

variable {name : String}

theorem IsCommon.tagTakes (h : IsCommon name) (tag : String) : TagTakes tag name :=
  ⟨h.1, fun hname => absurd hname h.2⟩

/-! ### Targets -/

namespace ViewTarget

section

variable (target : ViewTarget)

include target

theorem tag_mem_viewTags (kind : Kind) : target.tag kind ∈ viewTags := by
  cases target <;> cases kind <;> decide

theorem tag_mem_holderTags {kind : Kind} (hlabel : kind ≠ .label) (himage : kind ≠ .image) :
    target.tag kind ∈ holderTags := by
  cases kind with
  | label => exact absurd rfl hlabel
  | image => exact absurd rfl himage
  | _ => cases target <;> decide

theorem scrollContentTag_mem_holderTags :
    target.scrollContentTag ∈ holderTags := by
  cases target <;> decide

theorem tagTakes_textProperty :
    TagTakes (target.tag .label) target.textProperty := by
  cases target <;> decide

theorem isCommon_containerProperties (flow : Flow) :
    ∀ p ∈ target.containerProperties flow, IsCommon p.1 := by
  cases target <;> cases flow <;> decide

theorem isCommon_scrollProperties (flow : Flow) :
    ∀ p ∈ target.scrollProperties flow, IsCommon p.1 := by
  cases target <;> cases flow <;> decide

theorem isCommon_wrapperProperties :
    ∀ p ∈ target.wrapperProperties, IsCommon p.1 := by
  cases target <;> decide

theorem isCommon_overlayChildProperties :
    ∀ p ∈ target.overlayChildProperties, IsCommon p.1 := by
  cases target <;> decide

theorem isCommon_outputs (p : Property) (kind : Kind) :
    ∀ name ∈ (target.outputs p kind).1, IsCommon name := by
  unfold outputs
  split <;> decide

theorem isCommon_fillProperty (axis : Axis) :
    IsCommon (target.fillProperty axis).1 := by
  cases target <;> cases axis <;> decide

theorem isCommon_textAlignProperty : IsCommon target.textAlignProperty := by
  cases target <;> decide

theorem isCommon_alignmentProperty (flow : Flow) (axis : Axis) :
    IsCommon (target.alignmentProperty flow axis).1 := by
  cases target <;> cases flow <;> cases axis <;> decide

end

def gapName (target : ViewTarget) (flow : Flow) : String :=
  match target.gapPlace flow with
  | .container name => name
  | .following name => name

theorem isCommon_gapName (target : ViewTarget) (flow : Flow) : IsCommon (target.gapName flow) := by
  cases target <;> cases flow <;> decide

theorem isCommon_extentProperty (target : ViewTarget) (axis : Axis) :
    IsCommon (target.extentProperty axis) := by
  cases target <;> cases axis <;> decide

theorem isCommon_flexibleSpacer (target : ViewTarget) :
    ∀ p ∈ target.flexibleSpacer, IsCommon p.1 := by
  cases target <;> decide

end ViewTarget

/-! ### Trees -/

/-- A view that keeps to the vocabulary. -/
structure View.Orderly (x : View) : Prop where
  tag : x.tag ∈ viewTags
  names : ∀ p ∈ x.properties, TagTakes x.tag p.1
  holds : x.children ≠ [] → x.tag ∈ holderTags

theorem View.Orderly.tidy {x : View} (h : x.Orderly) : x.Tidy where
  tag := (by decide : ∀ tag ∈ viewTags, Markup.isName tag = true) x.tag h.tag
  names p hp := (h.names p hp).1
  void hvoid := by
    by_contra hchildren
    exact (by decide : ∀ tag ∈ holderTags, tag ∉ Markup.voidTags) x.tag
      (h.holds hchildren) hvoid
  texts hx := by
    refine Table.get?_eq_none_of_ne fun p hp hname => ?_
    have hspan : x.tag = "span" := (h.names p hp).2 hname
    rw [hspan] at hx
    rcases hx with hchildren | hvoid
    · have hholds := hspan ▸ h.holds hchildren
      exact absurd hholds (by decide)
    · exact absurd hvoid (by decide)

namespace ViewTree

def tag? (t : ViewTree) (v : Nat) : Option String := (t.view? v).map View.tag

/-- A view that is nobody's child. -/
def Loose (t : ViewTree) (v : Nat) : Prop := ∀ w, v ∉ t.children w

/-- No view is a child twice, neither of one view nor of two. -/
structure Single (t : ViewTree) : Prop where
  nodup : ∀ v, (t.children v).Nodup
  parent : ∀ v w c, c ∈ t.children v → c ∈ t.children w → v = w

/-- A tree whose views keep to the vocabulary, with their properties in the order of their names, and
in which each view has one parent at most, with a smaller number. -/
structure Orderly (t : ViewTree) : Prop where
  views : ∀ v x, t.view? v = some x → x.Orderly
  grows : ∀ v x, t.view? v = some x → ∀ c ∈ x.children, v < c ∧ c < t.size
  sorted : t.Sorted
  single : t.Single

variable {t u : ViewTree} {v : Nat} {tag : String} {f : View → View}

theorem children_of_view? {x : View} (h : t.view? v = some x) : t.children v = x.children := by
  rw [children, h]
  rfl

theorem exists_view?_of_mem_children {c : Nat} (h : c ∈ t.children v) :
    ∃ x, t.view? v = some x ∧ c ∈ x.children := by
  cases hx : t.view? v with
  | none => simp [children, hx] at h
  | some x => exact ⟨x, rfl, children_of_view? hx ▸ h⟩

theorem Orderly.lt_of_mem_children (h : t.Orderly) {c : Nat} (hc : c ∈ t.children v) :
    v < c ∧ c < t.size := by
  obtain ⟨x, hx, hc⟩ := exists_view?_of_mem_children hc
  exact h.grows v x hx c hc

theorem children_modify (w : Nat) : (t.modify v f).children w =
    if v = w then ((t.view? w).map fun x => (f x).children).getD [] else t.children w := by
  rw [children, view?_modify]
  split
  · rw [Option.map_map]; rfl
  · rfl

theorem children_create (w c : Nat) : (t.apply (.create w tag)).children c = t.children c := by
  rw [children, view?_create]
  split
  · rename_i h
    rw [children, view?_eq_none_of_le t (Nat.le_of_eq h.symm)]
    rfl
  · rfl

/-- What an operation other than an appending one leaves of the children of a view. -/
theorem children_apply_sublist {op : ViewOp} (hop : ∀ parent child, op ≠ .append parent child)
    (w : Nat) : ((t.apply op).children w).Sublist (t.children w) := by
  have hmodify : ∀ {v f}, (∀ x : View, (f x).children.Sublist x.children) →
      ((t.modify v f).children w).Sublist (t.children w) := by
    intro v f hf
    rw [children_modify]
    split
    · cases hx : t.view? w with
      | none => simp
      | some x => exact children_of_view? hx ▸ hf x
    · exact .refl _
  cases op with
  | create v tag => rw [children_create]
  | append parent child => exact absurd rfl (hop parent child)
  | set v name value => exact hmodify fun x => .refl _
  | remove v name => exact hmodify fun x => .refl _
  | clear v => exact hmodify fun x => nil_sublist _

theorem children_append (t : ViewTree) (parent child w : Nat) :
    (t.apply (.append parent child)).children w = t.children w ∨
      w = parent ∧ (t.apply (.append parent child)).children w = t.children w ++ [child] := by
  rw [apply, children_modify]
  split
  · cases hx : t.view? w with
    | none => exact .inl (by rw [children, hx]; rfl)
    | some x => exact .inr ⟨Eq.symm ‹_›, by rw [children_of_view? hx]; rfl⟩
  · exact .inl rfl

theorem mem_children_append {parent child w c : Nat}
    (h : c ∈ (t.apply (.append parent child)).children w) :
    c ∈ t.children w ∨ c = child ∧ w = parent := by
  rcases t.children_append parent child w with heq | ⟨rfl, heq⟩
  · exact .inl (heq ▸ h)
  · rw [heq, mem_append, mem_singleton] at h
    exact h.imp_right fun hc => ⟨hc, rfl⟩

theorem Loose.append {parent child : Nat} (h : t.Loose v) (hv : v ≠ child) :
    (t.apply (.append parent child)).Loose v := by
  intro w hw
  rcases mem_children_append hw with hw | hw
  · exact h w hw
  · exact hv hw.1

theorem Orderly.tidy (h : t.Orderly) : t.Tidy :=
  ⟨fun v x hx => (h.views v x hx).tidy, h.grows⟩

/-- A tree that may have more views; those that were there have the same tags. -/
structure Widens (t u : ViewTree) : Prop where
  size : t.size ≤ u.size
  tags : ∀ v < t.size, u.tag? v = t.tag? v

/-- A later tree, in which views that were there are children only if they were. -/
structure Continues (t u : ViewTree) : Prop extends t.Widens u where
  loose : ∀ v < t.size, t.Loose v → u.Loose v

theorem Continues.refl (t : ViewTree) : t.Continues t :=
  ⟨⟨Nat.le_refl _, fun _ _ => rfl⟩, fun _ _ h => h⟩

theorem Continues.trans {w : ViewTree} (h : t.Continues u) (h' : u.Continues w) :
    t.Continues w where
  size := Nat.le_trans h.size h'.size
  tags v hv := (h'.tags v (Nat.lt_of_lt_of_le hv h.size)).trans (h.tags v hv)
  loose v hv hloose := h'.loose v (Nat.lt_of_lt_of_le hv h.size) (h.loose v hv hloose)

theorem lt_size_of_tag? (h : t.tag? v = some tag) : v < t.size := by
  by_contra hv
  rw [tag?, view?_eq_none_of_le t (by omega)] at h
  simp at h

theorem exists_tag? (h : v < t.size) : ∃ tag, t.tag? v = some tag :=
  ⟨_, by rw [tag?, view?, Array.getElem?_eq_getElem h]; rfl⟩

theorem Widens.tag? (h : t.Widens u) (hv : t.tag? v = some tag) : u.tag? v = some tag :=
  (h.tags v (lt_size_of_tag? hv)).trans hv

/-- A view that may have a property with the name. -/
def Takes (t : ViewTree) (v : Nat) (name : String) : Prop :=
  ∃ tag, t.tag? v = some tag ∧ TagTakes tag name

/-- A view that may hold others. -/
def Holds (t : ViewTree) (v : Nat) : Prop := ∃ tag ∈ holderTags, t.tag? v = some tag

theorem takes_of_isCommon (hv : v < t.size) (h : IsCommon name) : t.Takes v name := by
  obtain ⟨tag, htag⟩ := exists_tag? hv
  exact ⟨tag, htag, h.tagTakes tag⟩

theorem Widens.takes (h : t.Widens u) (hv : t.Takes v name) : u.Takes v name :=
  hv.imp fun _ htag => ⟨h.tag? htag.1, htag.2⟩

theorem Widens.holds (h : t.Widens u) (hv : t.Holds v) : u.Holds v :=
  hv.imp fun _ htag => ⟨htag.1, h.tag? htag.2⟩

theorem Holds.lt_size (h : t.Holds v) : v < t.size :=
  lt_size_of_tag? h.choose_spec.2

/-- Operations that keep a tree orderly. -/
def Suits (t : ViewTree) : ViewOp → Prop
  | .create _ tag => tag ∈ viewTags
  | .append parent child => t.Holds parent ∧ parent < child ∧ child < t.size ∧ t.Loose child
  | .set v name _ => t.Takes v name
  | .remove _ _ | .clear _ => True

theorem size_modify (t : ViewTree) (v : Nat) (f : View → View) : (t.modify v f).size = t.size := by
  simp [modify, size]

theorem tag?_modify (t : ViewTree) (v w : Nat) (hf : ∀ x, (f x).tag = x.tag) :
    (t.modify v f).tag? w = t.tag? w := by
  simp only [tag?, view?_modify]
  split
  · cases t.view? w with
    | none => rfl
    | some x => simp [hf x]
  · rfl

theorem tag?_apply (t : ViewTree) (op : ViewOp) (hv : v < t.size) :
    (t.apply op).tag? v = t.tag? v := by
  cases op with
  | create w tag => rw [tag?, view?_create, if_neg (by omega), tag?]
  | append parent child => exact tag?_modify t parent v fun _ => rfl
  | set w name value => exact tag?_modify t w v fun _ => rfl
  | remove w name => exact tag?_modify t w v fun _ => rfl
  | clear w => exact tag?_modify t w v fun _ => rfl

theorem widens_apply (t : ViewTree) (op : ViewOp) : t.Widens (t.apply op) where
  size := by rw [size_apply]; omega
  tags _ hv := tag?_apply t op hv

theorem continues_apply (t : ViewTree) {op : ViewOp}
    (hop : ∀ parent child, op ≠ .append parent child) : t.Continues (t.apply op) where
  toWidens := widens_apply t op
  loose _ _ h w hw := h w ((children_apply_sublist hop w).subset hw)

/-- What was there before a view is not changed by making that view a child. -/
theorem Continues.append (h : t.Continues u) {child : Nat} (hchild : t.size ≤ child) (parent : Nat) :
    t.Continues (u.apply (.append parent child)) where
  size := Nat.le_trans h.size (widens_apply u _).size
  tags v hv := (tag?_apply u _ (Nat.lt_of_lt_of_le hv h.size)).trans (h.tags v hv)
  loose v hv hloose := (h.loose v hv hloose).append (by omega)

theorem Single.of_sublist (h : t.Single) (hu : ∀ w, (u.children w).Sublist (t.children w)) :
    u.Single where
  nodup v := (h.nodup v).sublist (hu v)
  parent v w c hv hw := h.parent v w c ((hu v).subset hv) ((hu w).subset hw)

theorem Single.append (h : t.Single) {parent child : Nat} (hchild : t.Loose child) :
    (t.apply (.append parent child)).Single where
  nodup v := by
    rcases t.children_append parent child v with heq | ⟨-, heq⟩
    · exact heq ▸ h.nodup v
    · rw [heq]
      exact (perm_append_singleton child _).nodup_iff.mpr
        (nodup_cons.mpr ⟨hchild v, h.nodup v⟩)
  parent v w c hv hw := by
    rcases mem_children_append hv with hv | hv <;> rcases mem_children_append hw with hw | hw
    · exact h.parent v w c hv hw
    · exact absurd (hw.1 ▸ hv) (hchild v)
    · exact absurd (hv.1 ▸ hw) (hchild w)
    · exact hv.2.trans hw.2.symm

theorem Single.apply (h : t.Single) {op : ViewOp} (hop : t.Suits op) : (t.apply op).Single := by
  cases op with
  | append parent child => exact h.append hop.2.2.2
  | _ => exact h.of_sublist (children_apply_sublist nofun)

/-- A change of one view that keeps it orderly, with children that are numbered after it. -/
theorem Orderly.modify (h : t.Orderly) (hsorted : (t.modify v f).Sorted)
    (hsingle : (t.modify v f).Single)
    (hf : ∀ x, t.view? v = some x → (f x).Orderly ∧ ∀ c ∈ (f x).children, v < c ∧ c < t.size) :
    (t.modify v f).Orderly := by
  have hview : ∀ w y, (t.modify v f).view? w = some y →
      y.Orderly ∧ ∀ c ∈ y.children, w < c ∧ c < t.size := by
    intro w y hy
    rw [view?_modify] at hy
    split at hy
    · rename_i heq
      subst heq
      obtain ⟨x, hx, rfl⟩ := Option.map_eq_some_iff.mp hy
      exact hf x hx
    · exact ⟨h.views w y hy, h.grows w y hy⟩
  exact ⟨fun w y hy => (hview w y hy).1,
    fun w y hy => by rw [size_modify]; exact (hview w y hy).2, hsorted, hsingle⟩

theorem view_tag {x : View} (hx : t.view? v = some x) (htag : t.tag? v = some tag) :
    x.tag = tag := by
  rw [tag?, hx] at htag
  exact Option.some.inj htag

theorem Orderly.apply (h : t.Orderly) {op : ViewOp} (hop : t.Suits op) : (t.apply op).Orderly := by
  have hsorted := h.sorted.apply op
  have hsingle := h.single.apply hop
  cases op with
  | create w tag =>
    refine ⟨fun v x hx => ?_, fun v x hx => ?_, hsorted, hsingle⟩
    · rw [view?_create] at hx
      split at hx
      · obtain rfl := Option.some.inj hx
        exact ⟨hop, by simp, fun hnil => absurd rfl hnil⟩
      · exact h.views v x hx
    · rw [view?_create] at hx
      split at hx
      · obtain rfl := Option.some.inj hx
        simp
      · intro c hc
        obtain ⟨hlt, hsize⟩ := h.grows v x hx c hc
        exact ⟨hlt, Nat.lt_of_lt_of_le hsize (widens_apply t _).size⟩
  | append parent child =>
    obtain ⟨⟨tag, hholder, htag⟩, hlt, hsize, -⟩ := hop
    refine h.modify hsorted hsingle fun x hx => ⟨?_, ?_⟩
    · obtain ⟨hviewTag, hnames, -⟩ := h.views parent x hx
      exact ⟨hviewTag, hnames, fun _ => view_tag hx htag ▸ hholder⟩
    · intro c hc
      rcases mem_append.mp hc with hc | hc
      · exact h.grows parent x hx c hc
      · rw [mem_singleton.mp hc]
        exact ⟨hlt, hsize⟩
  | set v name value =>
    obtain ⟨tag, htag, htakes⟩ := hop
    refine h.modify hsorted hsingle fun x hx => ⟨?_, h.grows v x hx⟩
    obtain ⟨hviewTag, hnames, hholds⟩ := h.views v x hx
    refine ⟨hviewTag, fun p hp => ?_, hholds⟩
    rcases Table.mem_insert hp with rfl | hp
    · exact view_tag hx htag ▸ htakes
    · exact hnames p hp
  | remove v name =>
    refine h.modify hsorted hsingle fun x hx => ⟨?_, h.grows v x hx⟩
    obtain ⟨hviewTag, hnames, hholds⟩ := h.views v x hx
    exact ⟨hviewTag, fun p hp => hnames p ((Table.erase_sublist _ _).subset hp), hholds⟩
  | clear v =>
    refine h.modify hsorted hsingle fun x hx => ⟨?_, by simp⟩
    obtain ⟨hviewTag, hnames, -⟩ := h.views v x hx
    exact ⟨hviewTag, hnames, fun hnil => absurd rfl hnil⟩

theorem orderly_empty : empty.Orderly :=
  ⟨fun _ _ hx => by simp [empty, view?] at hx, fun _ _ hx => by simp [empty, view?] at hx,
    fun _ _ hx => by simp [empty, view?] at hx,
    ⟨fun _ => by simp [empty, children, view?], fun _ _ _ hv => by simp [empty, children, view?] at hv⟩⟩

end ViewTree

end Widgetry
