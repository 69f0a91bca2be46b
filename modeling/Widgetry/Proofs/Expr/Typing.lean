import Widgetry.Expr.Elaboration

/-!
# Well typed terms

A judgement on terms. A term stands over the bindings it may read, as the value it is made from names
them.
-/

namespace Widgetry

open List

namespace Arity

variable {least most count : Nat}

theorem bounds_of_between (h : (between least most).admits count = true) :
    least ≤ count ∧ count ≤ most := by
  have hbounds := Bool.and_eq_true_iff.mp (Bool.and_eq_true_iff.mp h).1
  exact ⟨of_decide_eq_true hbounds.1, of_decide_eq_true hbounds.2⟩

theorem eq_of_exactly (h : (exactly most).admits count = true) : count = most := by
  have hbounds := bounds_of_between h
  omega

end Arity

/-- The type of what an operator gives, where it does not depend on the operands. A theme color is
known before evaluation, so its operator gives nothing. -/
def Operator.result? : Operator → Option ValueType
  | .add | .sub | .mul | .div | .mod => some .number
  | .eq | .ne | .lt | .le | .gt | .ge | .all | .any | .not => some .bool
  | .concat | .toString | .formatNumber | .upcase | .downcase | .substring | .formatDate =>
      some .string
  | .rgb | .rgba | .interpolateColor => some .color
  | .case | .match' | .coalesce | .themeColor => none

/-- Pairs of a guard and a branch, with a last branch after them. -/
inductive Alternating {α : Type} (guard branch : α → Prop) : List α → Prop
  | last {a : α} : branch a → Alternating guard branch [a]
  | pair {a b : α} {rest : List α} : guard a → branch b → Alternating guard branch rest →
      Alternating guard branch (a :: b :: rest)

/-- The operands that an operator takes to a result: a branch has the type of the result, a
condition or label any type. -/
def Operator.Takes (op : Operator) (args : List Term) (result : ValueType) : Prop :=
  match op with
  | .case => Alternating (fun _ => True) (fun t => t.type = result) args
  | .match' => Alternating (fun _ => True) (fun t => t.type = result) args.tail
  | .coalesce => ∀ t ∈ args, t.type = result
  | op => op.result? = some result

theorem Operator.Takes.cases {op : Operator} {args : List Term} {result : ValueType}
    (h : op.Takes args result) :
    (op = .case ∧ Alternating (fun _ => True) (fun t => t.type = result) args) ∨
    (op = .match' ∧ Alternating (fun _ => True) (fun t => t.type = result) args.tail) ∨
    (op = .coalesce ∧ ∀ t ∈ args, t.type = result) ∨
    (op ≠ .coalesce ∧ op.result? = some result) := by
  cases op with
  | case => exact .inl ⟨rfl, h⟩
  | match' => exact .inr (.inl ⟨rfl, h⟩)
  | coalesce => exact .inr (.inr (.inl ⟨rfl, h⟩))
  | _ => exact .inr (.inr (.inr ⟨nofun, h⟩))

/-- Whether the operand at an index may be without a value. -/
def Operator.nullableAt (op : Operator) (count i : Nat) : Bool := op = .coalesce && i + 1 < count

/-- What a read falls back to: a value of the wanted type, or nothing where that is expected. -/
def Fallback.Fits (nullable : Bool) (want : ValueType) : Fallback → Prop
  | .default l => l.type = want
  | .zero => True
  | .null => nullable = true

namespace Term

/-- A term over the bindings it may read. Only a nullable one may be without a value, and only the
operands of `coalesce` before the last one are nullable. -/
inductive WellTyped (known : List Binding) : Bool → Term → Prop
  | literal (nullable : Bool) (l : Literal) : WellTyped known nullable (.literal l)
  | read {nullable : Bool} {b : Binding} {want : ValueType} {fallback : Fallback} : b ∈ known →
      b.scope ≠ .size → fallback.Fits nullable want →
      WellTyped known nullable (.read b want fallback)
  | presence (nullable : Bool) {b : Binding} : b ∈ known → WellTyped known nullable (.presence b)
  | coerce {nullable : Bool} {t : Term} (target : ValueType) : WellTyped known nullable t →
      WellTyped known nullable (.coerce t target)
  | apply (nullable : Bool) {op : Operator} {args : List Term} {result : ValueType} :
      op.arity.admits args.length = true → op.Takes args result →
      (∀ i t, args[i]? = some t → WellTyped known (op.nullableAt args.length i) t) →
      WellTyped known nullable (.apply op args result)

variable {t : Term} {ts : List Term}

namespace WellTyped

variable {known : List Binding}

theorem weaken {nullable : Bool} (h : WellTyped known nullable t) {more : List Binding}
    (hmore : known ⊆ more) : WellTyped more nullable t := by
  induction h with
  | literal nullable l => exact .literal nullable l
  | read hb hscope hfits => exact .read (hmore hb) hscope hfits
  | presence nullable hb => exact .presence nullable (hmore hb)
  | coerce target _ ih => exact .coerce target ih
  | apply nullable harity htakes _ ih => exact .apply nullable harity htakes ih

theorem nullable {t : Term} (h : WellTyped known false t) (nullable : Bool) :
    WellTyped known nullable t := by
  cases h with
  | literal _ l => exact .literal nullable l
  | @read _ b want fallback hb hscope hfits =>
    refine .read hb hscope ?_
    cases fallback with
    | default l => exact hfits
    | zero => trivial
    | null => cases hfits
  | presence _ hb => exact .presence nullable hb
  | coerce target h => exact .coerce target (h.nullable nullable)
  | apply _ harity htakes h => exact .apply nullable harity htakes h

theorem of_forall {op : Operator} {args : List Term} {result : ValueType}
    (harity : op.arity.admits args.length = true) (htakes : op.Takes args result)
    (h : ∀ t ∈ args, WellTyped known false t) : WellTyped known false (.apply op args result) := by
  refine .apply false harity htakes ?_
  intro i t ht
  exact (h t (mem_of_getElem? ht)).nullable _

end WellTyped

mutual

/-- The bindings that a term reads, in order. -/
def bindings : Term → List Binding
  | .literal _ => []
  | .read b _ _ | .presence b => [b]
  | .apply _ args _ => bindingsOf args
  | .coerce t _ => t.bindings

def bindingsOf : List Term → List Binding
  | [] => []
  | t :: ts => t.bindings ++ bindingsOf ts

end

theorem bindingsOf_subset {known : List Binding} (h : ∀ t ∈ ts, t.bindings ⊆ known) :
    bindingsOf ts ⊆ known := by
  induction ts with
  | nil => exact nil_subset _
  | cons t ts ih =>
    rw [forall_mem_cons] at h
    rw [bindingsOf]
    exact append_subset.mpr ⟨h.1, ih h.2⟩

theorem WellTyped.bindings_subset {known : List Binding} {nullable : Bool}
    (h : WellTyped known nullable t) : t.bindings ⊆ known := by
  induction h with
  | literal nullable l => exact nil_subset _
  | read hb _ _ => exact cons_subset.mpr ⟨hb, nil_subset _⟩
  | presence nullable hb => exact cons_subset.mpr ⟨hb, nil_subset _⟩
  | coerce target _ ih => exact ih
  | apply nullable _ _ _ ih =>
    refine bindingsOf_subset fun t ht => ?_
    obtain ⟨i, hi⟩ := mem_iff_getElem?.mp ht
    exact ih i t hi

theorem bindingsOf_eq_flatten (ts : List Term) : bindingsOf ts = (ts.map bindings).flatten := by
  induction ts with
  | nil => rfl
  | cons t ts ih => rw [bindingsOf, ih, map_cons, flatten_cons]

/-- Bindings in the order of a list, with neither more nor fewer of them but for those to the size of
the canvas. -/
def Keeps (named kept : List Binding) : Prop :=
  kept.filter (·.scope ≠ .size) = named.filter (·.scope ≠ .size)

variable {named kept : List Binding}

theorem Keeps.append {named' kept' : List Binding} (h : Keeps named kept) (h' : Keeps named' kept') :
    Keeps (named ++ named') (kept ++ kept') := by
  rw [Keeps, filter_append, filter_append, h, h']

theorem Keeps.mem (h : Keeps named kept) {b : Binding} (hb : b ∈ named) (hscope : b.scope ≠ .size) :
    b ∈ kept := by
  have hkept : b ∈ kept.filter (·.scope ≠ .size) := by
    rw [h]
    exact mem_filter.mpr ⟨hb, decide_eq_true hscope⟩
  exact (mem_filter.mp hkept).1

end Term

/-- Bindings in source order; a setting is one. -/
def PropertyValue.bindings : PropertyValue → List Binding
  | .literal _ => []
  | .binding b => [b]
  | .setting key => [.setting key]
  | .expression e => e.bindings

end Widgetry
