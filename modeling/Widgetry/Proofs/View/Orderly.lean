import Widgetry.Proofs.Computation
import Widgetry.Proofs.View.Building
import Widgetry.Proofs.View.Vocabulary

/-!
# Orderly builds and updates

Every build and every update keeps view trees orderly, also when it is refused half way. Each step is
followed from a tree that is known on: what is known of a view, its tag above all, stays true of all
later trees. What is retained between updates writes only names that its views take.
-/

namespace Widgetry

open List

/-! ### What is retained -/

/-- The names that a property is written under are taken by the views it is written to. -/
def BoundProperty.Suits (t : ViewTree) (p : BoundProperty) : Prop :=
  p.names ≠ [] ∧ ∀ v ∈ p.views, ∀ name ∈ p.names, t.Takes v name

structure SlotSite.Suits (t : ViewTree) (s : SlotSite) : Prop where
  holds : t.Holds s.view
  inherited : ∀ p ∈ s.inherited, IsCommon p.1

inductive Slot.Suits (t : ViewTree) : Slot → Prop
  | mk {site : SlotSite} {key : SlotKey} {properties : List BoundProperty} {slots : List Slot}
      (hsite : site.Suits t) (hproperties : ∀ p ∈ properties, p.Suits t)
      (hslots : ∀ s ∈ slots, Slot.Suits t s) : Slot.Suits t ⟨site, key, properties, slots⟩

structure Retained.Suits (t : ViewTree) (r : Retained) : Prop where
  properties : ∀ p ∈ r.properties, p.Suits t
  slots : ∀ s ∈ r.slots, s.Suits t

variable {p : BoundProperty} {r : Retained} {op : ViewOp} {v : Nat} {name : String}
  {site : SlotSite}

section Later

variable {t u : ViewTree}

theorem BoundProperty.Suits.mono (h : p.Suits t) (hu : t.Widens u) : p.Suits u :=
  ⟨h.1, fun v hv name hname => hu.takes (h.2 v hv name hname)⟩

theorem SlotSite.Suits.mono {s : SlotSite} (h : s.Suits t) (hu : t.Widens u) : s.Suits u :=
  ⟨hu.holds h.holds, h.inherited⟩

theorem Slot.Suits.mono {s : Slot} (h : s.Suits t) (hu : t.Widens u) : s.Suits u := by
  induction h with
  | mk hsite hproperties _ ih =>
    exact .mk (hsite.mono hu) (fun p hp => (hproperties p hp).mono hu) ih

theorem Retained.Suits.mono (h : r.Suits t) (hu : t.Widens u) : r.Suits u :=
  ⟨fun p hp => (h.properties p hp).mono hu, fun s hs => (h.slots s hs).mono hu⟩

theorem Retained.suits_empty (t : ViewTree) : Retained.empty.Suits t :=
  ⟨fun p hp => by simp [Retained.empty] at hp, fun s hs => by simp [Retained.empty] at hs⟩

end Later

structure Canvas.Orderly (c : Canvas) : Prop where
  tree : c.tree.Orderly
  retained : c.retained.Suits c.tree

namespace Build

/-! ### Builds -/

variable {parent : Nat} {views : List Nat} {names : List String}

section Keeps

variable {α β : Type} {t u : ViewTree}

/-- From a tree on, a build keeps canvases orderly, and what it returns is as promised. -/
def Keeps (t : ViewTree) (Q : α → ViewTree → Prop) (m : Build α) : Prop :=
  ∀ c : Canvas, t.Continues c.tree → c.Orderly →
    c.tree.Continues (m.run c).2.tree ∧ (m.run c).2.Orderly ∧
      ∀ a, (m.run c).1 = .ok a → Q a (m.run c).2.tree

/-- From a tree on, a build keeps canvases orderly. -/
def KeepsOrder (t : ViewTree) (m : Build α) : Prop := Keeps t (fun _ _ => True) m

variable {m : Build α} {f : α → Build β} {fill : Build Unit}

theorem Keeps.later {Q : α → ViewTree → Prop} (h : Keeps t Q m) (hu : t.Continues u) :
    Keeps u Q m :=
  fun c hc => h c (hu.trans hc)

theorem keeps_pure {Q : α → ViewTree → Prop} {a : α}
    (h : ∀ u : ViewTree, t.Continues u → Q a u) : Keeps t Q (pure a) := by
  intro c hc horderly
  refine ⟨.refl _, horderly, fun b hb => ?_⟩
  obtain rfl := Except.ok.inj hb
  exact h c.tree hc

theorem keepsOrder_pure (t : ViewTree) (a : α) : KeepsOrder t (pure a) :=
  keeps_pure fun _ _ => trivial

theorem Keeps.bind {Q : α → ViewTree → Prop} {R : β → ViewTree → Prop} (h : Keeps t Q m)
    (hf : ∀ a u, t.Continues u → Q a u → Keeps u R (f a)) : Keeps t R (m >>= f) := by
  intro c hc horderly
  have hrun : (m >>= f).run c = (ExceptT.bindCont f (m.run c).1).run (m.run c).2 := rfl
  rw [hrun]
  obtain ⟨hcontinues, hkept, hpost⟩ := h c hc horderly
  cases hm : (m.run c).1 with
  | error e => exact ⟨hcontinues, hkept, fun b hb => by cases hb⟩
  | ok a =>
    obtain ⟨hcontinues', hkept', hpost'⟩ :=
      hf a _ (hc.trans hcontinues) (hpost a hm) _ (.refl _) hkept
    exact ⟨hcontinues.trans hcontinues', hkept', hpost'⟩

theorem KeepsOrder.bind {R : β → ViewTree → Prop} (h : KeepsOrder t m) (hf : ∀ a, Keeps t R (f a)) :
    Keeps t R (m >>= f) :=
  Keeps.bind h fun a _ hu _ => (hf a).later hu

theorem keeps_check {Q : α → ViewTree → Prop} {x : Except Error α}
    (h : ∀ a u, x = .ok a → t.Continues u → Q a u) : Keeps t Q (check x) := by
  cases x with
  | error e => exact fun c _ horderly => ⟨.refl _, horderly, fun a ha => by cases ha⟩
  | ok a => exact keeps_pure fun u hu => h a u rfl hu

theorem keepsOrder_forM {xs : List α} {f : α → Build Unit} (h : ∀ x ∈ xs, KeepsOrder t (f x)) :
    KeepsOrder t (xs.forM f) := by
  induction xs with
  | nil => exact keepsOrder_pure t ()
  | cons x xs ih =>
    obtain ⟨hx, hxs⟩ := forall_mem_cons.mp h
    exact hx.bind fun _ => ih hxs

theorem keepsOrder_perform (hop : ∀ parent child, op ≠ .append parent child)
    (h : ∀ u, t.Continues u → u.Suits op) : KeepsOrder t (perform op) := by
  intro c hc horderly
  have hcontinues := c.tree.continues_apply hop
  exact ⟨hcontinues,
    ⟨horderly.tree.apply (h c.tree hc), horderly.retained.mono hcontinues.toWidens⟩,
    fun _ _ => trivial⟩

theorem keepsOrder_set (h : t.Takes v name) (value : String) :
    KeepsOrder t (perform (.set v name value)) :=
  keepsOrder_perform nofun fun _ hu => hu.takes h

/-- A new view with one of some tags, not yet a child. -/
structure Opens (tags : List String) (t : ViewTree) (v : Nat) (u : ViewTree) : Prop where
  new : t.size ≤ v
  tag : ∃ tag ∈ tags, u.tag? v = some tag
  loose : u.Loose v

variable {tag : String} {tags : List String}

theorem Opens.lt_size (h : Opens tags t v u) : v < u.size :=
  ViewTree.lt_size_of_tag? h.tag.choose_spec.2

theorem Opens.later {w : ViewTree} (h : Opens tags t v u) (hw : u.Continues w) : Opens tags t v w where
  new := h.new
  tag := h.tag.imp fun _ htag => ⟨htag.1, hw.tag? htag.2⟩
  loose := hw.loose v h.lt_size h.loose

theorem keeps_create (t : ViewTree) (htag : tag ∈ tags) (htags : tags ⊆ viewTags) :
    Keeps t (fun v u => Opens tags t v u ∧ u.tag? v = some tag) (create tag) := by
  intro c hc horderly
  have hcontinues : c.tree.Continues (c.tree.apply (.create c.tree.size tag)) :=
    c.tree.continues_apply nofun
  have hsuits : c.tree.Suits (.create c.tree.size tag) := htags htag
  refine ⟨hcontinues, ⟨horderly.tree.apply hsuits, horderly.retained.mono hcontinues.toWidens⟩,
    fun v hv => ?_⟩
  obtain rfl : c.tree.size = v := Except.ok.inj hv
  have hview : (c.tree.apply (.create c.tree.size tag)).tag? c.tree.size = some tag := by
    rw [ViewTree.tag?, ViewTree.view?_create, if_pos rfl]
    rfl
  refine ⟨⟨hc.size, ⟨tag, htag, hview⟩, fun w hw => ?_⟩, hview⟩
  change c.tree.size ∈ (c.tree.apply _).children w at hw
  rw [ViewTree.children_create] at hw
  exact Nat.lt_irrefl _ (horderly.tree.lt_of_mem_children hw).2

/-- A view that is opened and made a child at once was not there before, so that what was there goes
on as it was. -/
theorem Keeps.bind_append {R : β → ViewTree → Prop} {m : Build Nat} {f : Nat → Build β}
    (hparent : t.Holds parent) (h : ∀ u, Keeps u (Opens tags u) m)
    (hf : ∀ v u, t.Continues u → (∃ tag ∈ tags, u.tag? v = some tag) → Keeps u R (f v)) :
    Keeps t R (m >>= fun v => perform (.append parent v) >>= fun _ => f v) := by
  intro c hc horderly
  have hrun : (m >>= fun v => perform (.append parent v) >>= fun _ => f v).run c =
    (ExceptT.bindCont (fun v => perform (.append parent v) >>= fun _ => f v) (m.run c).1).run
      (m.run c).2 := rfl
  rw [hrun]
  obtain ⟨hcontinues, hkept, hpost⟩ := h c.tree c (.refl _) horderly
  cases hm : (m.run c).1 with
  | error e => exact ⟨hcontinues, hkept, fun b hb => by cases hb⟩
  | ok v =>
    have hv := hpost v hm
    have happend := hcontinues.append hv.new parent
    have hholds := (hc.trans hcontinues).holds hparent
    have hlt : parent < v := Nat.lt_of_lt_of_le hparent.lt_size (Nat.le_trans hc.size hv.new)
    have hsuits : (m.run c).2.tree.Suits (.append parent v) :=
      ⟨hholds, hlt, hv.lt_size, hv.loose⟩
    obtain ⟨hcontinues', hkept', hpost'⟩ := hf v _ (hc.trans happend)
      (hv.tag.imp fun _ htag => ⟨htag.1, (ViewTree.tag?_apply _ _ hv.lt_size).trans htag.2⟩)
      ((m.run c).2.perform (.append parent v)) (.refl _) ⟨hkept.tree.apply hsuits,
        hkept.retained.mono ((m.run c).2.tree.widens_apply (.append parent v))⟩
    exact ⟨happend.trans hcontinues', hkept', hpost'⟩

theorem keepsOrder_setAll (hv : v < t.size) {properties : List (String × String)}
    (h : ∀ p ∈ properties, IsCommon p.1) : KeepsOrder t (setAll v properties) :=
  keepsOrder_forM fun p hp => keepsOrder_set (ViewTree.takes_of_isCommon hv (h p hp)) p.2

theorem keepsOrder_setEach (h : ∀ v ∈ views, ∀ name ∈ names, t.Takes v name) (value : String) :
    KeepsOrder t (setEach views names value) :=
  keepsOrder_forM fun v hv => keepsOrder_forM fun name hname =>
    keepsOrder_set (h v hv name hname) value

theorem keepsOrder_retain (h : p.Suits t) : KeepsOrder t (retain p) := by
  intro c hc horderly
  refine ⟨.refl _, ⟨horderly.tree, ?_, horderly.retained.slots⟩, fun _ _ => trivial⟩
  intro q hq
  rcases mem_append.mp hq with hq | hq
  · exact horderly.retained.properties q hq
  · rw [mem_singleton.mp hq]
    exact h.mono hc.toWidens

theorem keepsOrder_follow (scene : Scene) (h : ∀ v ∈ views, ∀ name ∈ names, t.Takes v name)
    (encoding : Encoding) (f : Formula) : KeepsOrder t (follow scene views names encoding f) := by
  unfold follow
  split
  · exact keepsOrder_pure t ()
  rename_i hnames
  have hretain : KeepsOrder t (if f.deps.isEmpty then pure ()
      else retain ⟨views, names, encoding, f, scene.encoded? f encoding⟩) := by
    split
    · exact keepsOrder_pure t ()
    · exact keepsOrder_retain ⟨fun hnil => hnames (isEmpty_iff.mpr hnil), h⟩
  dsimp only
  split
  · exact (keepsOrder_setEach h _).bind fun _ => hretain
  · exact hretain

theorem run_slot_of_ok {c c' : Canvas} (h : fill.run { c with retained := .empty } = (.ok (), c'))
    (site : SlotSite) (key : SlotKey) :
    (slot site key fill).run c = (.ok (), { c' with
      retained := ⟨c.retained.properties,
        c.retained.slots ++ [⟨site, key, c'.retained.properties, c'.retained.slots⟩]⟩ }) := by
  rw [run_slot, h]

theorem keepsOrder_slot (hsite : site.Suits t) (key : SlotKey) (h : KeepsOrder t fill) :
    KeepsOrder t (slot site key fill) := by
  intro c hc horderly
  obtain ⟨hcontinues, hkept, -⟩ := h { c with retained := .empty } hc
    ⟨horderly.tree, Retained.suits_empty _⟩
  have houter := horderly.retained.mono hcontinues.toWidens
  cases hfill : fill.run { c with retained := .empty } with
  | mk result c' =>
    rw [hfill] at hcontinues hkept houter
    cases result with
    | error e =>
      rw [run_slot_of_error site key hfill]
      exact ⟨hcontinues, ⟨hkept.tree, houter⟩, fun _ _ => trivial⟩
    | ok _ =>
      rw [run_slot_of_ok hfill]
      refine ⟨hcontinues, ⟨hkept.tree, houter.properties, fun s hs => ?_⟩, fun _ _ => trivial⟩
      rcases mem_append.mp hs with hs | hs
      · exact houter.slots s hs
      · rw [mem_singleton.mp hs]
        exact .mk (hsite.mono (hc.trans hcontinues).toWidens) hkept.retained.properties
          hkept.retained.slots

end Keeps

/-! ### Steps of an element -/

section Steps

variable {t : ViewTree} (scene : Scene) (item : List Segment) {v : Nat}

theorem keepsOrder_formula? (e : Element) (p : Property) (type : ValueType) :
    KeepsOrder t (formula? scene item e p type) := by
  unfold formula?
  split
  · exact keepsOrder_pure t none
  · exact KeepsOrder.bind (keeps_check fun _ _ _ _ => trivial) fun _ => keepsOrder_pure t _

theorem keepsOrder_formula?_bind (e : Element) (p : Property) (type : ValueType)
    {f : Option Formula → Build Unit} (hnone : KeepsOrder t (f none))
    (hsome : ∀ g, KeepsOrder t (f (some g))) :
    KeepsOrder t (formula? scene item e p type >>= f) := by
  refine (keepsOrder_formula? scene item e p type).bind fun g => ?_
  cases g with
  | none => exact hnone
  | some g => exact hsome g

/-- Names that every view takes follow a formula on views that are there. -/
theorem keepsOrder_follow_common (hviews : ∀ w ∈ views, w < t.size)
    (hnames : ∀ name ∈ names, IsCommon name) (encoding : Encoding) (f : Formula) :
    KeepsOrder t (follow scene views names encoding f) :=
  keepsOrder_follow scene (fun w hw name hname =>
    ViewTree.takes_of_isCommon (hviews w hw) (hnames name hname)) encoding f

theorem keepsOrder_follow_one (hv : v < t.size) (hname : IsCommon name) (encoding : Encoding)
    (f : Formula) : KeepsOrder t (follow scene [v] [name] encoding f) :=
  keepsOrder_follow_common scene (by simpa using hv) (by simpa using hname) encoding f

theorem keepsOrder_gapOnContainer (hv : v < t.size) (flow : Flow) (spacing : Option Formula) :
    KeepsOrder t (gapOnContainer scene v flow spacing) := by
  have hname := scene.target.isCommon_gapName flow
  unfold ViewTarget.gapName at hname
  cases spacing with
  | none => exact keepsOrder_pure t ()
  | some f =>
    unfold gapOnContainer
    dsimp only
    cases hplace : scene.target.gapPlace flow with
    | container name =>
      rw [hplace] at hname
      exact keepsOrder_follow_one scene hv hname _ f
    | following name => exact keepsOrder_pure t ()

theorem keepsOrder_gapOnChildren (hviews : ∀ w ∈ views, w < t.size) (flow : Flow)
    (spacing : Option Formula) : KeepsOrder t (gapOnChildren scene views flow spacing) := by
  have hname := scene.target.isCommon_gapName flow
  unfold ViewTarget.gapName at hname
  cases spacing with
  | none => exact keepsOrder_pure t ()
  | some f =>
    unfold gapOnChildren
    dsimp only
    cases hplace : scene.target.gapPlace flow with
    | container name => exact keepsOrder_pure t ()
    | following name =>
      rw [hplace] at hname
      dsimp only
      split
      · exact keepsOrder_follow_common scene (fun w hw => hviews w (mem_of_mem_tail hw))
          (by simpa using hname) _ f
      · exact keepsOrder_pure t ()

/-- A container has its children in its own view, a scroll view in a new one. -/
theorem keeps_content {kind : Kind} (flow : Flow)
    (htag : t.tag? v = some (scene.target.tag kind)) :
    Keeps t (fun inner u => inner < u.size ∧ (kind ≠ .label → kind ≠ .image → u.Holds inner))
      (content scene kind flow v) := by
  have hv := ViewTree.lt_size_of_tag? htag
  have hself : ∀ u, t.Continues u →
      v < u.size ∧ (kind ≠ .label → kind ≠ .image → u.Holds v) := fun u hu =>
    ⟨Nat.lt_of_lt_of_le hv hu.size, fun hlabel himage =>
      hu.holds ⟨_, scene.target.tag_mem_holderTags hlabel himage, htag⟩⟩
  have hplain : Keeps t (fun inner u =>
      inner < u.size ∧ (kind ≠ .label → kind ≠ .image → u.Holds inner))
      (setAll v (scene.target.containerProperties flow) >>= fun _ => pure v) :=
    (keepsOrder_setAll hv (scene.target.isCommon_containerProperties flow)).bind fun _ =>
      keeps_pure hself
  have hscroll : kind = .scrollView → Keeps t (fun inner u =>
      inner < u.size ∧ (kind ≠ .label → kind ≠ .image → u.Holds inner))
      (content scene .scrollView flow v) := by
    rintro rfl
    refine (keepsOrder_setAll hv (scene.target.isCommon_scrollProperties flow)).bind fun _ => ?_
    have hinnerTag := scene.target.scrollContentTag_mem_holderTags
    have hinner : ∀ u, Keeps u (Opens holderTags u) (create scene.target.scrollContentTag >>=
        fun inner => setAll inner (scene.target.containerProperties flow) >>= fun _ => pure inner) := by
      intro u
      refine (keeps_create u hinnerTag (subset_append_left _ _)).bind fun inner w _ hinner => ?_
      exact (keepsOrder_setAll hinner.1.lt_size
        (scene.target.isCommon_containerProperties flow)).bind fun _ => keeps_pure fun _ => hinner.1.later
    have happended := Keeps.bind_append ((hself t (.refl t)).2 nofun nofun) hinner
      (f := fun inner => pure inner) fun inner u hu (hholds : u.Holds inner) => keeps_pure fun w hw =>
        show inner < w.size ∧ (Kind.scrollView ≠ .label → Kind.scrollView ≠ .image → w.Holds inner) from
          ⟨(hw.holds hholds).lt_size, fun _ _ => hw.holds hholds⟩
    simpa only [bind_assoc, pure_bind] using happended
  cases kind with
  | column | row | stack | forEach => exact hplain
  | scrollView => exact hscroll rfl
  | conditional =>
    exact (keepsOrder_setAll hv scene.target.isCommon_wrapperProperties).bind fun _ =>
      keeps_pure hself
  | label | image | spacer | divider => exact keeps_pure hself

/-- What children get has names that every view takes. -/
def Hands (handed : List (String × String)) (_ : ViewTree) : Prop := ∀ p ∈ handed, IsCommon p.1

theorem hands_nil (u : ViewTree) : Hands [] u := fun p hp => by simp at hp

variable {around : Nat}

theorem keeps_align (hv : around < t.size) (flow : Flow) (axis : Axis) (value : String) :
    Keeps t Hands (align scene around flow axis value) := by
  have hname := scene.target.isCommon_alignmentProperty flow axis
  unfold align
  generalize scene.target.alignmentProperty flow axis = property at hname
  obtain ⟨name, onChildren⟩ := property
  cases onChildren with
  | true => exact keeps_pure fun u _ p hp => mem_singleton.mp hp ▸ hname
  | false =>
    exact (keepsOrder_set (ViewTree.takes_of_isCommon hv hname) value).bind fun _ =>
      keeps_pure fun u _ => hands_nil u

theorem keepsOrder_setOutputs (hv : v < t.size) (p : Property) (kind : Kind) (value : String) :
    KeepsOrder t (setEach [v] (scene.target.outputs p kind).1 value) := by
  refine keepsOrder_setEach (fun w hw name hname => ?_) value
  rw [mem_singleton.mp hw]
  exact ViewTree.takes_of_isCommon hv (scene.target.isCommon_outputs p kind name hname)

theorem keeps_applyModifier (hv : v < t.size) (haround : around < t.size) (kind : Kind)
    (flow : Flow) (m : Modifier Term) :
    Keeps t Hands (applyModifier scene item kind v around flow m) := by
  have hnil : Keeps t Hands (pure []) := keeps_pure fun u _ => hands_nil u
  have hset : ∀ {name : String}, IsCommon name → ∀ value, KeepsOrder t (perform (.set v name value)) :=
    fun hname value => keepsOrder_set (ViewTree.takes_of_isCommon hv hname) value
  unfold applyModifier
  split
  · exact (hset (scene.target.isCommon_fillProperty _) _).bind fun _ => hnil
  · split
    · exact keeps_align scene haround flow .horizontal _
    · exact keeps_align scene haround flow .vertical _
    · exact (hset scene.target.isCommon_textAlignProperty _).bind fun _ => hnil
    · exact (keepsOrder_setOutputs scene hv m.property kind _).bind fun _ => hnil
  · split
    · exact hnil
    · have houtputs := scene.target.isCommon_outputs m.property kind
      exact (keepsOrder_follow_common scene (by simpa using hv) houtputs _ _).bind fun _ => hnil

theorem keeps_applyModifiers (hv : v < t.size) (haround : around < t.size) (kind : Kind)
    (flow : Flow) (mods : List (Modifier Term)) :
    Keeps t Hands (applyModifiers scene item kind v around flow mods) := by
  induction mods generalizing t with
  | nil => exact keeps_pure fun u _ => hands_nil u
  | cons m mods ih =>
    refine (keeps_applyModifier scene item hv haround kind flow m).bind fun first u hu hfirst => ?_
    refine (ih (Nat.lt_of_lt_of_le hv hu.size) (Nat.lt_of_lt_of_le haround hu.size)).bind
      fun rest w hw hrest => keeps_pure fun _ _ p hp => ?_
    exact (mem_append.mp hp).elim (hfirst p) (hrest p)

theorem keepsOrder_label (e : Element) (htag : t.tag? v = some (scene.target.tag .label)) :
    KeepsOrder t (label scene item e v) := by
  refine keepsOrder_formula?_bind scene item e .text .string (keepsOrder_pure t ()) fun f => ?_
  refine keepsOrder_follow scene (fun w hw name hname => ?_) .text f
  rw [mem_singleton.mp hw, mem_singleton.mp hname]
  exact ⟨_, htag, scene.target.tagTakes_textProperty⟩

theorem keepsOrder_extent (hv : v < t.size) (axis : Axis) (f : Formula) :
    KeepsOrder t (extent scene v axis f) :=
  keepsOrder_follow_one scene hv (scene.target.isCommon_extentProperty axis) _ f

theorem keepsOrder_image (e : Element) (hv : v < t.size) :
    KeepsOrder t (image scene item e v) := by
  have hextents : ∀ f, KeepsOrder t
      (extent scene v .horizontal f >>= fun _ => extent scene v .vertical f) := fun f =>
    (keepsOrder_extent scene hv .horizontal f).bind fun _ => keepsOrder_extent scene hv .vertical f
  refine keepsOrder_formula?_bind scene item e .src .string ?_ fun f => ?_
  · exact keepsOrder_formula?_bind scene item e .size .number (keepsOrder_pure t ()) hextents
  · refine (keepsOrder_follow_one scene hv (by decide +kernel) .text f).bind fun _ => ?_
    exact keepsOrder_formula?_bind scene item e .size .number (keepsOrder_pure t ()) hextents

theorem keepsOrder_spacer (around : Flow) (e : Element) (hv : v < t.size) :
    KeepsOrder t (spacer scene item around e v) := by
  refine keepsOrder_formula?_bind scene item e .size .number
    (keepsOrder_setAll hv scene.target.isCommon_flexibleSpacer) fun f => ?_
  have hvertical : KeepsOrder t
      (if around = .horizontal then pure () else extent scene v .vertical f) := by
    split
    · exact keepsOrder_pure t ()
    · exact keepsOrder_extent scene hv .vertical f
  dsimp only
  split
  · exact hvertical
  · exact (keepsOrder_extent scene hv .horizontal f).bind fun _ => hvertical

theorem keepsOrder_divider (around : Flow) (mods : List (Modifier Term)) (e : Element)
    (hv : v < t.size) : KeepsOrder t (divider scene item around mods e v) := by
  unfold divider
  refine KeepsOrder.bind (keepsOrder_setAll hv fun p hp => ?_) fun _ => ?_
  · rw [mem_singleton.mp hp]
    exact scene.target.isCommon_fillProperty _
  refine (keepsOrder_formula? scene item e .thickness .number).bind fun thickness => ?_
  refine (keepsOrder_extent scene hv _ _).bind fun _ => ?_
  split
  · exact keepsOrder_pure t ()
  · dsimp only
    split
    · exact keepsOrder_setOutputs scene hv .color .divider _
    · exact keepsOrder_pure t ()

end Steps

/-! ### Elements -/

section Elements

variable {t : ViewTree} (scene : Scene)

variable {α : Type} {R : α → ViewTree → Prop} {m : Build Nat}

theorem keepsOrder_append_only (hparent : t.Holds parent) (h : ∀ u, Keeps u (Opens viewTags u) m) :
    KeepsOrder t (m >>= fun v => perform (.append parent v)) := by
  have happended := Keeps.bind_append hparent h (f := fun _ => pure ()) fun v u _ _ =>
    keepsOrder_pure u ()
  simpa only [KeepsOrder, bind_pure_unit] using happended

/-- One view after another, each opened below the same one. -/
theorem keeps_mapM_append {xs : List α} {m : α → Build Nat} (hparent : t.Holds parent)
    (h : ∀ u, ∀ x ∈ xs, Keeps u (Opens viewTags u) (m x)) :
    Keeps t (fun views u => ∀ v ∈ views, v < u.size)
      (xs.mapM fun x => m x >>= fun v => perform (.append parent v) >>= fun _ => pure v) := by
  induction xs generalizing t with
  | nil => exact keeps_pure fun u _ v hv => by simp at hv
  | cons x xs ih =>
    have hx := fun u => h u x mem_cons_self
    have hxs := fun u y hy => h u y (mem_cons_of_mem _ hy)
    rw [mapM_cons, bind_assoc]
    simp only [bind_assoc, pure_bind]
    refine Keeps.bind_append hparent hx fun v u hu ⟨_, _, hv⟩ => ?_
    refine (ih (hu.holds hparent) hxs).bind fun views w hw hviews => keeps_pure fun z hz => ?_
    exact forall_mem_cons.mpr ⟨ViewTree.lt_size_of_tag? ((hw.trans hz).tag? hv),
      fun y hy => Nat.lt_of_lt_of_le (hviews y hy) hz.size⟩

/-- Children, and the gap between them. -/
theorem keeps_spaced {m : Build (List Nat)} {k : Build α}
    (h : Keeps t (fun views u => ∀ v ∈ views, v < u.size) m) {inner : Nat} (hinner : inner < t.size)
    (flow : Flow) (spacing : Option Formula) (hk : Keeps t R k) :
    Keeps t R (m >>= fun views => gapOnContainer scene inner flow spacing >>= fun _ =>
      gapOnChildren scene views flow spacing >>= fun _ => k) := by
  refine h.bind fun views u hu hviews => ?_
  have hinner' := Nat.lt_of_lt_of_le hinner hu.size
  refine (keepsOrder_gapOnContainer scene hinner' flow spacing).bind fun _ => ?_
  exact (keepsOrder_gapOnChildren scene hviews flow spacing).bind fun _ => hk.later hu

mutual

theorem keeps_element (path : List Nat) (item : List Segment) (around : Flow)
    (inherited : List (String × String)) (hinherited : ∀ p ∈ inherited, IsCommon p.1)
    (t : ViewTree) :
    (e : Element) → Keeps t (Opens viewTags t) (element scene path item around inherited e)
  | ⟨kind, id, properties, children, place⟩ => by
    rw [element]
    refine KeepsOrder.bind (keeps_check fun _ _ _ _ => trivial) fun mods => ?_
    refine (keeps_create t (scene.target.tag_mem_viewTags kind) (Subset.refl _)).bind
      fun v u hu hview => ?_
    obtain ⟨hopens, htag⟩ := hview
    have hv := ViewTree.lt_size_of_tag? htag
    refine (keepsOrder_setAll hv hinherited).bind fun _ => ?_
    refine (keeps_content scene _ htag).bind fun inner u₁ hu₁ hinner => ?_
    obtain ⟨hinnerSize, hholds⟩ := hinner
    have hv₁ := Nat.lt_of_lt_of_le hv hu₁.size
    refine (keeps_applyModifiers scene item hv₁ hinnerSize kind _ mods).bind
      fun aligned u₂ hu₂ haligned => ?_
    have htag₂ := (hu₁.trans hu₂).tag? htag
    have hv₂ := ViewTree.lt_size_of_tag? htag₂
    have hinner₂ := Nat.lt_of_lt_of_le hinnerSize hu₂.size
    have hreturn : Keeps u₂ (Opens viewTags t) (pure v) :=
      keeps_pure fun w hw => hopens.later ((hu₁.trans hu₂).trans hw)
    have hhanded : ∀ p ∈ (if kind = .stack then scene.target.overlayChildProperties else [])
        ++ aligned, IsCommon p.1 := by
      intro p hp
      rcases mem_append.mp hp with hp | hp
      · split at hp
        · exact scene.target.isCommon_overlayChildProperties p hp
        · simp at hp
      · exact haligned p hp
    have hview : kind ≠ .label → kind ≠ .image → u₂.Holds v := fun hlabel himage =>
      ⟨_, scene.target.tag_mem_holderTags hlabel himage, htag₂⟩
    have hstacked := fun (hlabel : kind ≠ .label) (himage : kind ≠ .image) =>
      keeps_spaced scene (keeps_elements path item
        (Element.flow around ⟨kind, id, properties, children, place⟩) _ hhanded inner 0 u₂
        (hu₂.holds (hholds hlabel himage)) children) hinner₂
        (Element.flow around ⟨kind, id, properties, children, place⟩)
        ((Modifier.computed? mods .spacing).map (Formula.mk item)) hreturn
    cases kind with
    | column | row | stack | scrollView => exact hstacked nofun nofun
    | label => exact (keepsOrder_label scene item _ htag₂).bind fun _ => hreturn
    | image => exact (keepsOrder_image scene item _ hv₂).bind fun _ => hreturn
    | spacer => exact (keepsOrder_spacer scene item around _ hv₂).bind fun _ => hreturn
    | divider => exact (keepsOrder_divider scene item around mods _ hv₂).bind fun _ => hreturn
    | forEach =>
      have hsite := hview nofun nofun
      refine (keepsOrder_gapOnContainer scene hv₂ _ _).bind fun _ => ?_
      refine KeepsOrder.bind (keepsOrder_slot ⟨hsite, hhanded⟩ _ ?_) fun _ => hreturn
      exact keepsOrder_fill _ _ u₂ ⟨hsite, hhanded⟩ children
    | conditional =>
      have hsite := hview nofun nofun
      refine (keepsOrder_formula? scene item _ .condition .bool).bind fun condition => ?_
      refine KeepsOrder.bind (keepsOrder_slot ⟨hsite, hinherited⟩ _ ?_) fun _ => hreturn
      exact keepsOrder_fill _ _ u₂ ⟨hsite, hinherited⟩ children

theorem keeps_elements (path : List Nat) (item : List Segment) (flow : Flow)
    (inherited : List (String × String)) (hinherited : ∀ p ∈ inherited, IsCommon p.1)
    (parent : Nat) (i : Nat) (t : ViewTree) (hparent : t.Holds parent) :
    (es : List Element) → Keeps t (fun views u => ∀ v ∈ views, v < u.size)
      (elements scene path item flow inherited parent i es)
  | [] => by
    rw [elements]
    exact keeps_pure fun u _ v hv => by simp at hv
  | e :: es => by
    rw [elements]
    refine Keeps.bind_append hparent (fun u =>
      keeps_element (path ++ [i]) item flow inherited hinherited u e) fun v u hu ⟨_, _, hv⟩ => ?_
    refine (keeps_elements path item flow inherited hinherited parent (i + 1) u
      (hu.holds hparent) es).bind fun views w hw hviews => keeps_pure fun z hz => ?_
    exact forall_mem_cons.mpr ⟨ViewTree.lt_size_of_tag? ((hw.trans hz).tag? hv),
      fun y hy => Nat.lt_of_lt_of_le (hviews y hy) hz.size⟩

theorem keepsOrder_fill (site : SlotSite) (key : SlotKey) (t : ViewTree) (hsite : site.Suits t) :
    (children : List Element) → KeepsOrder t (fill scene site key children)
  | [] => by
    rw [fill]
    exact keepsOrder_pure t ()
  | first :: rest => by
    have hfirst := fun path item u =>
      keeps_element path item site.flow site.inherited hsite.inherited u first
    unfold fill
    split
    · rename_i items limit spacing n hkind
      refine (keeps_mapM_append hsite.holds fun u i _ => hfirst _ _ u).bind
        fun views u _ hviews => keepsOrder_gapOnChildren scene hviews site.flow spacing
    · exact keepsOrder_append_only hsite.holds (hfirst _ _)
    · cases rest with
      | nil => exact keepsOrder_pure t ()
      | cons second rest =>
        exact keepsOrder_append_only hsite.holds fun u =>
          keeps_element _ site.item site.flow site.inherited hsite.inherited u second
    · exact keepsOrder_pure t ()

end

end Elements

end Build

namespace Progress

/-! ### Updates -/

section Updates

variable {α β : Type} {t : ViewTree}

/-- From a tree on, a part of an update keeps trees orderly, and what it returns is as promised. -/
def Keeps (t : ViewTree) (Q : α → ViewTree → Prop) (m : StateM Progress α) : Prop :=
  ∀ p : Progress, t.Continues p.tree → p.tree.Orderly →
    p.tree.Continues (m.run p).2.tree ∧ (m.run p).2.tree.Orderly ∧
      Q (m.run p).1 (m.run p).2.tree

theorem keeps_pure {Q : α → ViewTree → Prop} {a : α} (h : ∀ u, t.Continues u → Q a u) :
    Keeps t Q (pure a) :=
  fun p hp horderly => ⟨.refl _, horderly, h p.tree hp⟩

theorem Keeps.bind {Q : α → ViewTree → Prop} {R : β → ViewTree → Prop} {m : StateM Progress α}
    {f : α → StateM Progress β} (h : Keeps t Q m)
    (hf : ∀ a u, t.Continues u → Q a u → Keeps u R (f a)) : Keeps t R (m >>= f) := by
  intro p hp horderly
  obtain ⟨hcontinues, hkept, hpost⟩ := h p hp horderly
  obtain ⟨hcontinues', hkept', hpost'⟩ :=
    hf _ _ (hp.trans hcontinues) hpost _ (.refl _) hkept
  exact ⟨hcontinues.trans hcontinues', hkept', hpost'⟩

theorem keeps_modify {f : Progress → Progress} (h : ∀ p, (f p).tree = p.tree) :
    Keeps t (fun _ _ => True) (modify f) := by
  intro p _ horderly
  show p.tree.Continues (f p).tree ∧ (f p).tree.Orderly ∧ True
  rw [h p]
  exact ⟨.refl _, horderly, trivial⟩

theorem keeps_perform (hop : ∀ parent child, op ≠ .append parent child)
    (h : ∀ u, t.Continues u → u.Suits op) : Keeps t (fun _ _ => True) (perform op) :=
  fun p hp horderly => ⟨p.tree.continues_apply hop, horderly.apply (h p.tree hp), trivial⟩

theorem keeps_write (h : t.Takes v name) (value : Option String) :
    Keeps t (fun _ _ => True) (write v name value) := by
  cases value with
  | none => exact keeps_perform nofun fun _ _ => trivial
  | some value => exact keeps_perform nofun fun _ hu => hu.takes h

theorem keeps_forM {xs : List α} {f : α → StateM Progress Unit}
    (h : ∀ u, t.Continues u → ∀ x ∈ xs, Keeps u (fun _ _ => True) (f x)) :
    Keeps t (fun _ _ => True) (xs.forM f) := by
  induction xs generalizing t with
  | nil => exact keeps_pure fun _ _ => trivial
  | cons x xs ih =>
    refine (h t (.refl t) x mem_cons_self).bind fun _ u hu _ => ih fun w hw y hy => ?_
    exact h w (hu.trans hw) y (mem_cons_of_mem _ hy)

theorem keeps_refreshProperty (scene : Scene) (changed : List DataPath) {b : BoundProperty}
    (h : b.Suits t) : Keeps t (fun b u => b.Suits u) (refreshProperty scene changed b) := by
  have hcount : Keeps t (fun _ _ => True)
      (modify fun p : Progress => { p with evaluated := p.evaluated + 1 }) :=
    keeps_modify fun _ => rfl
  unfold refreshProperty
  split
  · refine hcount.bind fun _ u hu _ => ?_
    dsimp only
    split
    · exact keeps_pure fun w hw => h.mono (hu.trans hw).toWidens
    · refine (keeps_forM fun w hw v hv => keeps_forM fun z hz name hname => ?_).bind
        fun _ w hw _ => keeps_pure fun z hz => h.mono (hu.trans (hw.trans hz)).toWidens
      exact keeps_write ((hu.trans (hw.trans hz)).takes (h.2 v hv name hname)) _
  · exact keeps_pure fun u hu => h.mono hu.toWidens

theorem keeps_refreshProperties (scene : Scene) (changed : List DataPath)
    {bs : List BoundProperty} (h : ∀ b ∈ bs, b.Suits t) :
    Keeps t (fun bs u => ∀ b ∈ bs, b.Suits u) (bs.mapM (refreshProperty scene changed)) := by
  induction bs generalizing t with
  | nil => exact keeps_pure fun u _ b hb => by simp at hb
  | cons b bs ih =>
    obtain ⟨hb, hbs⟩ := forall_mem_cons.mp h
    rw [mapM_cons]
    refine (keeps_refreshProperty scene changed hb).bind fun b' u hu hb' => ?_
    refine (ih fun c hc => (hbs c hc).mono hu.toWidens).bind fun bs' w hw hbs' =>
      keeps_pure fun z hz => ?_
    exact forall_mem_cons.mpr
      ⟨hb'.mono (hw.trans hz).toWidens, fun c hc => (hbs' c hc).mono hz.toWidens⟩

/-- A slot that is built anew suits the tree, also when its children are refused. -/
theorem keeps_rebuild (scene : Scene) (hsite : site.Suits t) (key : SlotKey) (e : Element) :
    Keeps t (fun r u => r.1.Suits u) (rebuild scene site key e) := by
  have hclear : Keeps t (fun _ _ => True) (perform (.clear site.view)) :=
    keeps_perform nofun fun _ _ => trivial
  refine hclear.bind fun _ u hu _ p hp horderly => ?_
  have hfill := Build.keepsOrder_fill scene site key t hsite e.children ⟨p.tree, p.log, .empty⟩
    (hu.trans hp) ⟨horderly, Retained.suits_empty _⟩
  cases hout : (Build.fill scene site key e.children).run ⟨p.tree, p.log, .empty⟩ with
  | mk result c =>
    rw [hout] at hfill
    obtain ⟨hcontinues, ⟨htree, hproperties, hslots⟩, -⟩ := hfill
    have hslot : Slot.Suits c.tree ⟨site, key, c.retained.properties, c.retained.slots⟩ :=
      .mk (hsite.mono ((hu.trans hp).trans hcontinues).toWidens) hproperties hslots
    cases result with
    | error error =>
      simp only [StateT.run_bind, StateT.run_get, pure_bind, hout]
      exact ⟨hcontinues, htree, hslot⟩
    | ok _ =>
      simp only [StateT.run_bind, StateT.run_get, pure_bind, hout]
      exact ⟨hcontinues, htree, hslot⟩

mutual

theorem keeps_refreshSlot (scene : Scene) (changed : List DataPath) (root : Element)
    (t : ViewTree) : (s : Slot) → s.Suits t →
      Keeps t (fun r u => r.1.Suits u) (refreshSlot scene changed root s)
  | ⟨site, key, properties, slots⟩, .mk hsite hproperties hslots => by
    rw [refreshSlot]
    dsimp only
    generalize (if touches site.kind.deps changed then scene.key site.kind else key) = next
    split
    · refine (keeps_refreshProperties scene changed hproperties).bind
        fun properties' u hu hproperties' => ?_
      refine (keeps_refreshSlots scene changed root u slots
        fun s hs => (hslots s hs).mono hu.toWidens).bind
        fun r w hw hr => keeps_pure fun z hz => ?_
      exact .mk (hsite.mono (hu.trans (hw.trans hz)).toWidens)
        (fun p hp => (hproperties' p hp).mono (hw.trans hz).toWidens)
        fun s hs => (hr s hs).mono hz.toWidens
    · split
      · exact keeps_rebuild scene hsite _ _
      · exact keeps_pure fun u hu => (Slot.Suits.mk hsite hproperties hslots).mono hu.toWidens

theorem keeps_refreshSlots (scene : Scene) (changed : List DataPath) (root : Element)
    (t : ViewTree) : (ss : List Slot) → (∀ s ∈ ss, s.Suits t) →
      Keeps t (fun r u => ∀ s ∈ r.1, s.Suits u) (refreshSlots scene changed root ss)
  | [], _ => by
    rw [refreshSlots]
    exact keeps_pure fun u _ s hs => by simp at hs
  | s :: ss, h => by
    obtain ⟨hs, hss⟩ := forall_mem_cons.mp h
    rw [refreshSlots]
    refine (keeps_refreshSlot scene changed root t s hs).bind fun r u hu hr => ?_
    obtain ⟨s', error⟩ := r
    cases error with
    | some e =>
      exact keeps_pure fun w hw => forall_mem_cons.mpr
        ⟨hr.mono hw.toWidens, fun x hx => (hss x hx).mono (hu.trans hw).toWidens⟩
    | none =>
      refine (keeps_refreshSlots scene changed root u ss
        fun x hx => (hss x hx).mono hu.toWidens).bind
        fun r' w hw hr' => keeps_pure fun z hz => ?_
      exact forall_mem_cons.mpr
        ⟨hr.mono (hw.trans hz).toWidens, fun x hx => (hr' x hx).mono hz.toWidens⟩

end

theorem keeps_refresh (scene : Scene) (changed : List DataPath) (root : Element) (h : r.Suits t) :
    Keeps t (fun r u => r.1.Suits u) (refresh scene changed root r) := by
  refine (keeps_refreshProperties scene changed h.properties).bind
    fun properties u hu hproperties => ?_
  refine (keeps_refreshSlots scene changed root u r.slots
    fun s hs => (h.slots s hs).mono hu.toWidens).bind
    fun slots w hw hslots => keeps_pure fun z hz => ?_
  exact ⟨fun p hp => (hproperties p hp).mono (hw.trans hz).toWidens,
    fun s hs => (hslots s hs).mono hz.toWidens⟩

end Updates

end Progress

/-! ### Renderings -/

structure Rendering.Orderly (R : Rendering) : Prop where
  tree : R.tree.Orderly
  retained : R.retained.Suits R.tree
  root : R.root < R.tree.size
  loose : R.tree.Loose R.root

namespace Renderer

theorem keeps_buildRoot (scene : Scene) (l : Layout) :
    Build.Keeps .empty (Build.Opens viewTags .empty) (buildRoot scene l) := by
  refine (Build.keeps_element scene [] [] .overlay [] (by simp) .empty l.root).bind
    fun root u _ hroot => ?_
  have hreturn : Build.Keeps u (Build.Opens viewTags .empty) (pure root) :=
    Build.keeps_pure fun w => hroot.later
  split
  · dsimp only
    split
    · exact (Build.keepsOrder_setOutputs scene hroot.lt_size .padding l.root.kind _).bind fun _ => hreturn
    · exact hreturn
  · exact hreturn

variable {r : Renderer} {l : Layout} {size : Size} {R : Rendering}

theorem orderly_of_render {context : Context} {log : List ViewOp}
    (h : r.render l size context = .ok (R, log)) : R.Orderly := by
  obtain ⟨-, hkept, hpost⟩ := keeps_buildRoot ⟨r.target, r.style, size, context⟩ l
    ⟨.empty, [], .empty⟩ (.refl _) ⟨ViewTree.orderly_empty, Retained.suits_empty _⟩
  unfold render at h
  split at h
  · rename_i root c hrun
    obtain ⟨rfl, rfl⟩ := Prod.mk.inj (Except.ok.inj h)
    rw [hrun] at hkept hpost
    exact ⟨hkept.tree, hkept.retained, (hpost root rfl).lt_size, (hpost root rfl).loose⟩
  · cases h

theorem orderly_update (r : Renderer) (h : R.Orderly) (context : Context) :
    (r.update R context).rendering.Orderly := by
  have hrefresh := Progress.keeps_refresh ⟨r.target, r.style, R.size, context⟩
    (R.context.diff context) R.layout.root h.retained ⟨R.tree, [], 0, 0⟩ (.refl _) h.tree
  unfold update
  dsimp only
  by_cases hchanged : (R.context.diff context).isEmpty = true
  · rw [if_pos hchanged]
    exact ⟨h.tree, h.retained, h.root, h.loose⟩
  · rw [if_neg hchanged]
    obtain ⟨hcontinues, htree, hretained⟩ := hrefresh
    split <;> exact ⟨htree, hretained, Nat.lt_of_lt_of_le h.root hcontinues.size,
      hcontinues.loose _ h.root h.loose⟩

/-- Renderings that come of a layout that is rendered and then updated any number of times. An update
may fail. -/
inductive LeadsTo (r : Renderer) (l : Layout) (size : Size) : Rendering → Prop
  | render {context : Context} {R : Rendering} {log : List ViewOp}
      (h : r.render l size context = .ok (R, log)) : LeadsTo r l size R
  | update {R : Rendering} (h : LeadsTo r l size R) (context : Context) :
      LeadsTo r l size (r.update R context).rendering

theorem LeadsTo.orderly (h : r.LeadsTo l size R) : R.Orderly := by
  induction h with
  | render h => exact orderly_of_render h
  | update _ context ih => exact orderly_update r ih context

/-- Whatever the data, the settings and the layout say, markup of a rendering reads back as the tags
of its tree, nested as they are there, with the properties they have in the order of their names. -/
theorem LeadsTo.markup_reads_back {r : Renderer} {l : Layout} {size : Size} {R : Rendering}
    (h : r.LeadsTo l size R) (m : Markup) :
    R.tree.Sorted ∧ ∃ node, m.read (R.tree.markup m R.root) = some [node, .text "\n"] ∧
      Markup.Shows m R.tree R.root node := by
  obtain ⟨htree, -, hroot, -⟩ := h.orderly
  exact ⟨htree.sorted, Markup.exists_read_markup htree.tidy m hroot⟩

def captionLayout : Layout :=
  ⟨"Caption", "Caption", "", none, [⟨"small", 100, 100⟩],
    ⟨.column, none, [],
      [⟨.image, none, [(.src, .binding ⟨.data, [.key "file"]⟩)], [], .root⟩,
        ⟨.label, none, [(.text, .binding ⟨.data, [.key "title"]⟩)], [], .root⟩], .root⟩, 0⟩

def captionContext (file title : String) : Context :=
  ⟨.object [("file", .string file), ("title", .string title)], []⟩

/-- A file name and a title that look like markup are shown as they are. -/
theorem markup_reads_back_captionLayout : ∃ R,
    LeadsTo ⟨.html, .builtin⟩ captionLayout ⟨100, 100⟩ R ∧
    R.tree.property? 1 "src" = some "\"><b x=\"&quot;" ∧
    R.tree.property? 2 "textContent" = some "</span><b>&lt;" ∧
    ∃ node, Markup.html.read (R.tree.markup .html R.root) = some [node, .text "\n"] ∧
      Markup.Shows .html R.tree R.root node := by
  have hshown : (render ⟨.html, .builtin⟩ captionLayout ⟨100, 100⟩
      (captionContext "a" "b")).toOption.map (fun p =>
        let R := (update ⟨.html, .builtin⟩ p.1
          (captionContext "\"><b x=\"&quot;" "</span><b>&lt;")).rendering
        (R.tree.property? 1 "src", R.tree.property? 2 "textContent")) =
      some (some "\"><b x=\"&quot;", some "</span><b>&lt;") := by
    decide +kernel
  obtain ⟨p, hrender, hseen⟩ := exists_of_toOption_map hshown
  obtain ⟨hsrc, htext⟩ := Prod.mk.inj hseen
  have hleads := (LeadsTo.render hrender).update
    (captionContext "\"><b x=\"&quot;" "</span><b>&lt;")
  exact ⟨_, hleads, hsrc, htext, (hleads.markup_reads_back .html).2⟩

end Renderer

end Widgetry
