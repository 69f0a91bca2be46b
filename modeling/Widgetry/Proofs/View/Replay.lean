import Widgetry.Proofs.Table
import Widgetry.View.Tree

/-!
# Replay of view operations

What a list of operations leaves at one view: its outline, which is its tag and its children, and
each of its properties. Operations on other views change neither.
-/

namespace Widgetry

open List

variable {op : ViewOp} {v : Nat} {ops : List ViewOp}

namespace ViewOp

def view : ViewOp → Nat
  | .create v _ | .append v _ | .set v _ _ | .remove v _ | .clear v => v

def outlined (v : Nat) (x : Option (String × List Nat)) : ViewOp → Option (String × List Nat)
  | .create w tag => if w = v then some (tag, []) else x
  | .append w child => if w = v then x.map fun y => (y.1, y.2 ++ [child]) else x
  | .clear w => if w = v then x.map fun y => (y.1, []) else x
  | _ => x

def written (v : Nat) (name : String) (x : Option String) : ViewOp → Option String
  | .set w n value => if w = v ∧ n = name then some value else x
  | .remove w n => if w = v ∧ n = name then none else x
  | _ => x

/-- Sets a property, or removes it where there is no value. -/
def write (v : Nat) (name : String) : Option String → ViewOp
  | some value => .set v name value
  | none => .remove v name

theorem view_write (v : Nat) (name : String) (y : Option String) : (write v name y).view = v := by
  cases y <;> rfl

theorem written_write (v w : Nat) (name n : String) (x y : Option String) :
    written v name x (write w n y) = if w = v ∧ n = name then y else x := by
  cases y <;> rfl

theorem foldl_written_writes (v : Nat) (name : String) (x y : Option String) (views : List Nat)
    (names : List String) :
    (views.flatMap fun w => names.map fun n => write w n y).foldl (written v name) x =
      if v ∈ views ∧ name ∈ names then y else x := by
  have hnames : ∀ w z, (names.map fun n => write w n y).foldl (written v name) z =
      if w = v ∧ name ∈ names then y else z := by
    intro w z
    induction names generalizing z with
    | nil => simp
    | cons n names ih =>
      simp only [map_cons, foldl_cons, ih, written_write]
      grind
  induction views generalizing x with
  | nil => simp
  | cons w views ih =>
    rw [flatMap_cons, foldl_append, hnames, ih]
    grind

theorem outlined_of_ne (h : op.view ≠ v) (x : Option (String × List Nat)) :
    outlined v x op = x := by
  cases op <;> simp_all [view, outlined]

theorem written_of_ne (h : op.view ≠ v) (name : String) (x : Option String) :
    written v name x op = x := by
  cases op <;> simp_all [view, written]

theorem foldl_outlined_of_ne (h : ∀ op ∈ ops, op.view ≠ v) (x : Option (String × List Nat)) :
    ops.foldl (outlined v) x = x := by
  induction ops with
  | nil => rfl
  | cons op ops ih =>
    rw [foldl_cons, outlined_of_ne (h op mem_cons_self)]
    exact ih fun op hop => h op (mem_cons_of_mem _ hop)

theorem foldl_written_of_ne (h : ∀ op ∈ ops, op.view ≠ v) (name : String) (x : Option String) :
    ops.foldl (written v name) x = x := by
  induction ops with
  | nil => rfl
  | cons op ops ih =>
    rw [foldl_cons, written_of_ne (h op mem_cons_self)]
    exact ih fun op hop => h op (mem_cons_of_mem _ hop)

theorem isWrite_write (v : Nat) (name : String) (y : Option String) :
    (write v name y).isWrite = true := by
  cases y <;> rfl

theorem outlined_of_isWrite (h : op.isWrite = true) (x : Option (String × List Nat)) :
    outlined v x op = x := by
  cases op with
  | set w name value => rfl
  | remove w name => rfl
  | _ => simp [isWrite] at h

theorem foldl_outlined_of_writes (h : ∀ op ∈ ops, op.isWrite = true)
    (x : Option (String × List Nat)) : ops.foldl (outlined v) x = x := by
  induction ops with
  | nil => rfl
  | cons op ops ih =>
    rw [foldl_cons, outlined_of_isWrite (h op mem_cons_self)]
    exact ih fun op hop => h op (mem_cons_of_mem _ hop)

def created? : ViewOp → Option Nat
  | .create v _ => some v
  | _ => none

theorem created?_of_isWrite (h : op.isWrite = true) : op.created? = none := by
  cases op with
  | create v tag => simp [isWrite] at h
  | _ => rfl

/-- Whether new views get the next numbers, from `n` on, and properties are set on views that are
there. -/
def Timely : Nat → List ViewOp → Prop
  | _, [] => True
  | n, .create v _ :: ops => v = n ∧ Timely (n + 1) ops
  | n, .set v _ _ :: ops => v < n ∧ Timely n ops
  | n, _ :: ops => Timely n ops

theorem timely_append {n : Nat} {as bs : List ViewOp} :
    Timely n (as ++ bs) ↔ Timely n as ∧ Timely (n + (as.filterMap created?).length) bs := by
  induction as generalizing n with
  | nil => simp [Timely]
  | cons op as ih =>
    cases op with
    | create v tag =>
      have hlen : n + 1 + (as.filterMap created?).length =
          n + ((ViewOp.create v tag :: as).filterMap created?).length := by
        simp [created?]
        omega
      simp only [cons_append, Timely, ih, hlen, and_assoc]
    | set v name value => simp only [cons_append, Timely, ih, and_assoc]; rfl
    | _ => exact ih

/-- Operations that only write properties of views that are there. -/
theorem timely_of_writes {n : Nat} (h : ∀ op ∈ ops, op.isWrite = true ∧ op.view < n) :
    Timely n ops := by
  induction ops with
  | nil => trivial
  | cons op ops ih =>
    obtain ⟨hop, hv⟩ := h op mem_cons_self
    have hrest := ih fun op hop => h op (mem_cons_of_mem _ hop)
    cases op with
    | set v name value => exact ⟨hv, hrest⟩
    | remove v name => exact hrest
    | _ => simp [isWrite] at hop

end ViewOp

namespace ViewTree

def outline? (t : ViewTree) (v : Nat) : Option (String × List Nat) :=
  (t.view? v).map fun x => (x.tag, x.children)

/-- The properties of every view stand in the order of their names. -/
def Sorted (t : ViewTree) : Prop := ∀ v x, t.view? v = some x → Table.Sorted x.properties

section Apply

variable (t : ViewTree)

theorem view?_create (w v : Nat) (tag : String) :
    (t.apply (.create w tag)).view? v = if v = t.size then some ⟨tag, [], []⟩ else t.view? v := by
  exact Array.getElem?_push

theorem view?_modify (w v : Nat) (f : View → View) :
    (t.modify w f).view? v = if w = v then (t.view? v).map f else t.view? v := by
  simp [modify, view?, Array.getElem?_modify]

theorem view?_eq_none_of_le (h : t.size ≤ v) : t.view? v = none := by
  simpa [view?, size] using h

theorem size_apply (op : ViewOp) : (t.apply op).size = t.size + op.created?.toList.length := by
  cases op <;> simp [apply, modify, size, ViewOp.created?]

theorem view?_apply_of_ne (hv : v < t.size) (h : op.view ≠ v) :
    (t.apply op).view? v = t.view? v := by
  cases op with
  | create w tag => rw [view?_create, if_neg (by omega)]
  | _ => exact (view?_modify t _ v _).trans (if_neg h)

variable {f : View → View}

theorem outline?_modify (hf : ∀ x, (f x).tag = x.tag ∧ (f x).children = x.children) (w v : Nat) :
    (t.modify w f).outline? v = t.outline? v := by
  rw [outline?, view?_modify, outline?]
  split
  · cases t.view? v with
    | none => rfl
    | some x => simp [hf x]
  · rfl

theorem property?_modify (hf : ∀ x, (f x).properties = x.properties) (w v : Nat) (name : String) :
    (t.modify w f).property? v name = t.property? v name := by
  rw [property?, view?_modify, property?]
  split
  · cases t.view? v with
    | none => rfl
    | some x => simp [hf x]
  · rfl

theorem outline?_apply (h : ∀ w, op.created? = some w → w = t.size) (v : Nat) :
    (t.apply op).outline? v = op.outlined v (t.outline? v) := by
  cases op with
  | create w tag =>
    obtain rfl := h w rfl
    simp only [outline?, view?_create, ViewOp.outlined, eq_comm (a := t.size)]
    split <;> rfl
  | append w child =>
    simp only [outline?, apply, view?_modify, ViewOp.outlined]
    split <;> cases t.view? v <;> rfl
  | clear w =>
    simp only [outline?, apply, view?_modify, ViewOp.outlined]
    split <;> cases t.view? v <;> rfl
  | set w n value => exact outline?_modify t (by simp) w v
  | remove w n => exact outline?_modify t (by simp) w v

theorem Sorted.modify {t : ViewTree} (h : t.Sorted) (w : Nat)
    (hf : ∀ x : View, Table.Sorted x.properties → Table.Sorted (f x).properties) :
    (t.modify w f).Sorted := by
  intro v x hx
  rw [view?_modify] at hx
  split at hx
  · obtain ⟨y, hy, rfl⟩ := Option.map_eq_some_iff.mp hx
    exact hf y (h v y hy)
  · exact h v x hx

theorem Sorted.apply {t : ViewTree} (h : t.Sorted) (op : ViewOp) : (t.apply op).Sorted := by
  cases op with
  | create w tag =>
    intro v x hx
    rw [view?_create] at hx
    split at hx
    · exact Option.some.inj hx ▸ Table.sorted_nil
    · exact h v x hx
  | append w child => exact h.modify w fun x hx => hx
  | clear w => exact h.modify w fun x hx => hx
  | set w n value => exact h.modify w fun x hx => hx.insert n value
  | remove w n => exact h.modify w fun x hx => hx.erase n

theorem property?_apply (hs : t.Sorted) (h : ViewOp.Timely t.size (op :: ops)) (v : Nat)
    (name : String) : (t.apply op).property? v name = op.written v name (t.property? v name) := by
  cases op with
  | create w tag =>
    simp only [property?, view?_create, ViewOp.written]
    split
    · rename_i hv
      rw [view?_eq_none_of_le t (Nat.le_of_eq hv.symm)]
      rfl
    · rfl
  | append w child => exact property?_modify t (by simp) w v name
  | clear w => exact property?_modify t (by simp) w v name
  | set w n value =>
    have hw : w < t.size := h.1
    simp only [property?, apply, view?_modify, ViewOp.written]
    by_cases hv : w = v
    · subst hv
      obtain ⟨x, hx⟩ : ∃ x, t.view? w = some x := ⟨_, Array.getElem?_eq_getElem hw⟩
      simp only [hx, if_true, Option.map_some, Option.bind_some, true_and]
      split
      · rename_i hn
        rw [hn, Table.get?_insert_self]
      · rename_i hn
        exact Table.get?_insert_of_ne (Ne.symm hn) _ _
    · simp only [hv, if_false, false_and]
  | remove w n =>
    simp only [property?, apply, view?_modify, ViewOp.written]
    by_cases hv : w = v
    · subst hv
      cases hx : t.view? w with
      | none => simp
      | some x =>
        simp only [if_true, Option.map_some, Option.bind_some, true_and]
        split
        · rename_i hn
          rw [hn, (hs w x hx).get?_erase_self]
        · rename_i hn
          exact Table.get?_erase_of_ne (Ne.symm hn) _
    · simp only [hv, if_false, false_and]

end Apply

variable {t : ViewTree}

section Replay

theorem replay_append (t : ViewTree) (as bs : List ViewOp) :
    t.replay (as ++ bs) = (t.replay as).replay bs := foldl_append

theorem size_replay (t : ViewTree) (ops : List ViewOp) :
    (t.replay ops).size = t.size + (ops.filterMap ViewOp.created?).length := by
  induction ops generalizing t with
  | nil => rfl
  | cons op ops ih =>
    rw [replay, foldl_cons, ← replay, ih, size_apply, filterMap_cons]
    cases op.created? <;> simp
    omega

theorem Sorted.replay (h : t.Sorted) (ops : List ViewOp) : (t.replay ops).Sorted := by
  induction ops generalizing t with
  | nil => exact h
  | cons op ops ih => exact ih (h.apply op)

theorem timely_tail (h : ViewOp.Timely t.size (op :: ops)) :
    ViewOp.Timely (t.apply op).size ops := by
  rw [size_apply]
  cases op with
  | create w tag => exact h.2
  | set w n value => exact h.2
  | _ => exact h

theorem outline?_replay (h : ViewOp.Timely t.size ops) (v : Nat) :
    (t.replay ops).outline? v = ops.foldl (ViewOp.outlined v) (t.outline? v) := by
  induction ops generalizing t with
  | nil => rfl
  | cons op ops ih =>
    have hnext : ∀ w, op.created? = some w → w = t.size := by
      cases op with
      | create v tag => rintro _ ⟨⟩; exact h.1
      | _ => exact fun w hw => absurd hw (by simp [ViewOp.created?])
    rw [foldl_cons, ← outline?_apply t hnext v, ← ih (timely_tail h)]
    rfl

theorem property?_replay (hs : t.Sorted) (h : ViewOp.Timely t.size ops) (v : Nat) (name : String) :
    (t.replay ops).property? v name = ops.foldl (ViewOp.written v name) (t.property? v name) := by
  induction ops generalizing t with
  | nil => rfl
  | cons op ops ih =>
    rw [foldl_cons, ← property?_apply t hs h v, ← ih (hs.apply op) (timely_tail h)]
    rfl

theorem view?_replay_of_ne (hv : v < t.size) (h : ∀ op ∈ ops, op.view ≠ v) :
    (t.replay ops).view? v = t.view? v := by
  induction ops generalizing t with
  | nil => rfl
  | cons op ops ih =>
    have hsize : v < (t.apply op).size := by rw [size_apply]; omega
    rw [replay, foldl_cons, ← replay,
      ih hsize fun op hop => h op (mem_cons_of_mem _ hop)]
    exact view?_apply_of_ne t hv (h op mem_cons_self)

end Replay

theorem view?_eq_iff {u : ViewTree} (ht : t.Sorted) (hu : u.Sorted) {w : Nat} :
    t.view? v = u.view? w ↔
      t.outline? v = u.outline? w ∧ ∀ name, t.property? v name = u.property? w name := by
  constructor
  · intro h
    exact ⟨by rw [outline?, outline?, h], fun name => by rw [property?, property?, h]⟩
  · rintro ⟨ho, hp⟩
    simp only [outline?, property?] at ho hp
    cases hx : t.view? v with
    | none =>
      cases hy : u.view? w with
      | none => rfl
      | some y => simp [hx, hy] at ho
    | some x =>
      cases hy : u.view? w with
      | none => simp [hx, hy] at ho
      | some y =>
        simp only [hx, hy, Option.map_some, Option.some.injEq, Prod.mk.injEq, Option.bind_some]
          at ho hp
        have hprops : x.properties = y.properties := (ht v x hx).ext (hu w y hy) hp
        cases x
        cases y
        simp_all

end ViewTree

end Widgetry
