import Widgetry.Proofs.Expr.Checking
import Widgetry.Proofs.Expr.Dependence

/-!
# Soundness of terms

A term made from a property value has values of the expected type only, never asks for an operand
that an operator does not have, and reads a context nowhere but at the bindings of the value.
-/

namespace Widgetry

open List

/-- The values of a type; for `any` all but null. -/
inductive Value.HasType : Value → ValueType → Prop
  | number (x : Float) : HasType (.number x) .number
  | string (s : String) : HasType (.string s) .string
  | bool (b : Bool) : HasType (.bool b) .bool
  | color (c : Color) : HasType (.color c) .color
  | any {v : Value} : v ≠ .null → HasType v .any

variable {v : Value}

theorem Value.HasType.ne_null {type : ValueType} (h : v.HasType type) : v ≠ .null := by
  cases h with
  | any h => exact h
  | _ => exact nofun

/-- A computation that never asks for an operand that is not there. -/
abbrev Sound {α : Type} (Q : α → Prop) (x : Except Fault α) : Prop := Meets (· ≠ .noOperand) Q x

namespace Value

theorem sound_toNumber (v : Value) : Sound (fun _ => True) v.toNumber := by
  unfold toNumber
  split
  · trivial
  · exact nofun

theorem sound_toColor (v : Value) : Sound (fun _ => True) v.toColor := by
  unfold toColor
  split
  · trivial
  · exact nofun

theorem hasType_ofLiteral (l : Literal) : (ofLiteral l).HasType l.type := by
  cases l with
  | number x => exact .number x
  | string s => exact .string s
  | bool b => exact .bool b
  | color c => exact .color c

theorem sound_convert {target : ValueType} (h : target = .any → v ≠ .null) :
    Sound (·.HasType target) (v.convert target) := by
  cases target with
  | number => exact v.sound_toNumber.map fun x _ => .number x
  | string => exact .string _
  | bool => exact .bool _
  | color => exact v.sound_toColor.map fun c _ => .color c
  | any => exact .any (h rfl)

end Value

namespace Operator

section Operands

variable {args : List Outcome} (h : ∀ o ∈ args, Sound (fun _ => True) o) {i : Nat}
  (hi : i < args.length)

include h hi

theorem sound_operand : Sound (fun _ => True) (operand args i) := by
  rw [operand, List.getElem?_eq_getElem hi]
  exact h _ (getElem_mem hi)

theorem sound_numberAt : Sound (fun _ => True) (numberAt args i) :=
  (sound_operand h hi).bind fun v _ => v.sound_toNumber

theorem sound_colorAt : Sound (fun _ => True) (colorAt args i) :=
  (sound_operand h hi).bind fun v _ => v.sound_toColor

theorem sound_textAt : Sound (fun _ => True) (textAt args i) :=
  (sound_operand h hi).bind fun _ _ => trivial

end Operands

variable {args : List Outcome} {op : Operator}

section

variable (h : ∀ o ∈ args, Sound (fun _ => True) o)

include h

theorem sound_accumulate (f : Float → Float → Float) (acc : Float) :
    Sound (·.HasType .number) (accumulate f acc args) := by
  induction args generalizing acc with
  | nil => exact .number acc
  | cons a args ih =>
    rw [forall_mem_cons] at h
    apply h.1.bind
    intro v _
    apply v.sound_toNumber.bind
    intro x _
    exact ih h.2 _

theorem sound_searchTruth (wanted : Bool) :
    Sound (fun _ => True) (searchTruth wanted args) := by
  induction args with
  | nil => trivial
  | cons a args ih =>
    rw [forall_mem_cons] at h
    apply h.1.bind
    intro v _
    split
    · trivial
    · exact ih h.2

theorem sound_displays :
    Sound (fun _ => True) (args.mapM fun a => a.map Value.display) := by
  induction args with
  | nil => trivial
  | cons a args ih =>
    rw [forall_mem_cons] at h
    rw [mapM_cons]
    apply (h.1.map (R := fun _ => True) fun _ _ => trivial).bind
    intro s _
    exact (ih h.2).bind fun _ _ => trivial

theorem sound_ordered (hlen : 2 ≤ args.length) (op : Operator) :
    Sound (·.HasType .bool) (ordered op args) := by
  apply (sound_operand h (i := 0) (by omega)).bind
  intro a _
  apply (sound_operand h (i := 1) (by omega)).bind
  intro b _
  split
  · exact .bool _
  · exact nofun

theorem sound_substring (hlen : 2 ≤ args.length) :
    Sound (·.HasType .string) (apply .substring args) := by
  have hlater : ∀ length, Sound (·.HasType .string) (textAt args 0 >>= fun s =>
      numberAt args 1 >>= fun start =>
        pure (Value.string (Widgetry.substring s start length))) := by
    intro length
    apply (sound_textAt h (i := 0) (by omega)).bind
    intro s _
    exact (sound_numberAt h (i := 1) (by omega)).bind fun _ _ => .string _
  simp only [apply]
  split
  · rename_i n hn
    apply (h n (mem_of_getElem? hn)).bind
    intro v _
    exact v.sound_toNumber.bind fun x _ => hlater (some x)
  · exact hlater none

theorem sound_formatNumber (hlen : 1 ≤ args.length) :
    Sound (·.HasType .string) (apply .formatNumber args) := by
  have hunit : ∀ u, args[1]? = some u → Sound (fun _ => True) (u.map Value.display) := by
    intro u hu
    exact (h u (mem_of_getElem? hu)).map fun _ _ => trivial
  -- what follows the unit, whatever it is
  have hdecimals : ∀ d, args[2]? = some d → ∀ text : Float → String,
      Sound (·.HasType .string)
        (d >>= fun v => v.toNumber >>= fun n => pure (Value.string (text n))) := by
    intro d hd text
    apply (h d (mem_of_getElem? hd)).bind
    intro v _
    exact v.sound_toNumber.bind fun _ _ => .string _
  apply (sound_numberAt h (i := 0) (by omega)).bind
  intro x _
  cases hu : args[1]? with
  | none =>
    cases hd : args[2]? with
    | none => exact .string _
    | some d => exact hdecimals d hd _
  | some u =>
    apply (hunit u hu).bind
    intro unit _
    cases hd : args[2]? with
    | none => exact .string _
    | some d => exact hdecimals d hd _

end

theorem least_le_of_admits {n : Nat} (h : op.arity.admits n = true) : op.arity.least ≤ n := by
  simp only [Arity.admits, Arity.inBounds, Bool.and_eq_true, decide_eq_true_eq] at h
  exact h.1.1

/-- An operator with as many operands as it takes has a value of its type. -/
theorem sound_apply {result : ValueType} (hresult : op.result? = some result)
    (harity : op.arity.admits args.length = true) (h : ∀ o ∈ args, Sound (fun _ => True) o) :
    Sound (·.HasType result) (op.apply args) := by
  have hleast := least_le_of_admits harity
  -- the operands that are asked for are among the least number of them
  have number : ∀ {i}, i < op.arity.least → Sound (fun _ => True) (numberAt args i) := fun hi =>
    sound_numberAt h (Nat.lt_of_lt_of_le hi hleast)
  have color : ∀ {i}, i < op.arity.least → Sound (fun _ => True) (colorAt args i) := fun hi =>
    sound_colorAt h (Nat.lt_of_lt_of_le hi hleast)
  have text : ∀ {i}, i < op.arity.least → Sound (fun _ => True) (textAt args i) := fun hi =>
    sound_textAt h (Nat.lt_of_lt_of_le hi hleast)
  have value : ∀ {i}, i < op.arity.least → Sound (fun _ => True) (operand args i) := fun hi =>
    sound_operand h (Nat.lt_of_lt_of_le hi hleast)
  cases op with
  | add | mul => cases hresult; exact sound_accumulate h _ _
  | sub =>
    cases hresult
    cases args with
    | nil => cases hleast
    | cons a args =>
      cases args with
      | nil => exact (number (i := 0) (by decide)).bind fun _ _ => .number _
      | cons b args =>
        apply (number (i := 0) (by decide)).bind
        intro x _
        exact (sound_numberAt h (i := 1) (by simp)).bind fun _ _ => .number _
  | div | mod =>
    cases hresult
    apply (number (i := 0) (by decide)).bind
    intro x _
    exact (number (i := 1) (by decide)).bind fun _ _ => .number _
  | eq | ne =>
    cases hresult
    apply (value (i := 0) (by decide)).bind
    intro a _
    exact (value (i := 1) (by decide)).bind fun _ _ => .bool _
  | lt | le | gt | ge => cases hresult; exact sound_ordered h hleast _
  | all | any => cases hresult; exact (sound_searchTruth h _).bind fun _ _ => .bool _
  | not => cases hresult; exact (value (by decide)).bind fun _ _ => .bool _
  | concat => cases hresult; exact (sound_displays h).bind fun _ _ => .string _
  | toString | upcase | downcase =>
    cases hresult; exact (text (by decide)).bind fun _ _ => .string _
  | substring => cases hresult; exact sound_substring h hleast
  | formatDate =>
    cases hresult
    apply (text (i := 1) (by decide)).bind
    intro s _
    split
    · exact nofun
    · exact (value (i := 0) (by decide)).bind fun _ _ => .string _
  | formatNumber => cases hresult; exact sound_formatNumber h hleast
  | rgb =>
    cases hresult
    apply (number (i := 0) (by decide)).bind
    intro r _
    apply (number (i := 1) (by decide)).bind
    intro g _
    exact (number (i := 2) (by decide)).bind fun _ _ => .color _
  | rgba =>
    cases hresult
    apply (number (i := 0) (by decide)).bind
    intro r _
    apply (number (i := 1) (by decide)).bind
    intro g _
    apply (number (i := 2) (by decide)).bind
    intro b _
    exact (number (i := 3) (by decide)).bind fun _ _ => .color _
  | interpolateColor =>
    cases hresult
    apply (color (i := 0) (by decide)).bind
    intro c _
    apply (color (i := 1) (by decide)).bind
    intro d _
    exact (number (i := 2) (by decide)).bind fun _ _ => .color _
  | case | match' | coalesce | themeColor => cases hresult

section Branches

variable {args : List Term} {result : ValueType} {eval : Term → Outcome}

section

variable (hargs : Alternating (fun _ => True) (fun t => t.type = result) args)
  (h : ∀ t ∈ args, Sound (·.HasType t.type) (eval t))

include hargs h

theorem sound_choose :
    Sound (·.HasType result) (choose (args.map eval)) := by
  induction hargs with
  | @last t ht => exact ht ▸ h t mem_cons_self
  | @pair condition branch rest _ hbranch hrest ih =>
    obtain ⟨t, rest, rfl⟩ := hrest.exists_cons
    rw [forall_mem_cons, forall_mem_cons] at h
    apply h.1.bind
    intro v _
    split
    · exact hbranch ▸ h.2.1
    · exact ih h.2.2

theorem sound_select (input : Value) :
    Sound (·.HasType result) (select input (args.map eval)) := by
  induction hargs with
  | @last t ht => exact ht ▸ h t mem_cons_self
  | @pair label branch rest _ hbranch hrest ih =>
    obtain ⟨t, rest, rfl⟩ := hrest.exists_cons
    rw [forall_mem_cons, forall_mem_cons] at h
    apply h.1.bind
    intro v _
    split
    · exact hbranch ▸ h.2.1
    · exact ih h.2.2

end

/-- The last operand has a value, so there is one when all before it have none. -/
theorem sound_firstPresent (hargs : args ≠ [])
    (h : ∀ (i : Nat) (t : Term), args[i]? = some t →
      Sound (fun v => v.HasType result ∨ i + 1 < args.length ∧ v = .null) (eval t))
    (last : Outcome) : Sound (·.HasType result) (firstPresent last (args.map eval)) := by
  induction args generalizing last with
  | nil => exact absurd rfl hargs
  | cons t args ih =>
    have hfirst := h 0 t rfl
    have hlater : args ≠ [] → ∀ last, Sound (·.HasType result)
        (firstPresent last (args.map eval)) := by
      intro hne
      refine ih hne ?_
      intro i u hu
      refine (h (i + 1) u (by simpa using hu)).imp ?_
      intro v hv
      simpa using hv
    rw [map_cons]
    cases ht : eval t with
    | ok v =>
      rw [ht] at hfirst
      rcases hfirst with hv | ⟨hcount, rfl⟩
      · have hpresent : v.isPresent = true := by
          have hne := hv.ne_null
          cases v <;> trivial
        simp only [firstPresent, hpresent, if_true]
        exact hv
      -- a null is not the last operand
      · exact hlater (by rintro rfl; simp at hcount) _
    | error e =>
      rw [ht] at hfirst
      cases e with
      | missing shown =>
        cases args with
        | nil => exact nofun
        | cons u args => exact hlater (by simp) _
      | mismatch text => exact hfirst
      | noOperand => exact hfirst

end Branches

end Operator

namespace Term

variable {known : List Binding} {item : List Segment} {c : Context} {nullable : Bool} {t : Term}

theorem sound_readBinding {b : Binding} {want : ValueType} {fallback : Fallback}
    (hscope : b.scope ≠ .size) (hfits : fallback.Fits nullable want) :
    Sound (fun v => v.HasType want ∨ nullable = true ∧ v = .null)
      (readBinding item c b want fallback) := by
  unfold readBinding
  split
  · rename_i hnone
    unfold Binding.absolute? at hnone
    split at hnone <;> simp_all
  · rename_i path _
    -- only a value that is there is converted
    have hconvert : ∀ v ∈ ((c.lookup? path).map Value.ofJson).filter Value.isPresent,
        Sound (·.HasType want) (v.convert want) := by
      intro v hv
      have hpresent := (Option.filter_eq_some_iff.mp hv).2
      apply Value.sound_convert
      rintro - rfl
      cases hpresent
    have hdefault : ∀ d, fallback.value? = some d →
        d.HasType want ∨ nullable = true ∧ d = .null := by
      intro d hd
      cases fallback with
      | default l => exact .inl (Option.some.inj hd ▸ hfits ▸ Value.hasType_ofLiteral l)
      | null => exact .inr ⟨hfits, (Option.some.inj hd).symm⟩
      | zero => cases hd
    simp only
    split
    · rename_i v d hv hd
      have hv := hconvert v hv
      split
      · rename_i w hw
        rw [hw] at hv
        exact .inl hv
      · exact hdefault d hd
    · rename_i v hv _
      exact (hconvert v hv).imp fun _ h => .inl h
    · rename_i d _ hd
      exact hdefault d hd
    · exact nofun

/-- A well typed term has values of its type, and null only where it is nullable. -/
theorem WellTyped.sound_eval (h : t.WellTyped known nullable) :
    Sound (fun v => v.HasType t.type ∨ nullable = true ∧ v = .null) (t.eval item c) := by
  induction h with
  | literal nullable l => exact .inl (Value.hasType_ofLiteral l)
  | read _ hscope hfits => exact sound_readBinding hscope hfits
  | presence nullable _ => exact .inl (.bool _)
  | coerce target _ ih =>
    apply ih.bind
    intro v hv
    -- a coercion to `any` lets a null through, no other one does
    by_cases hnull : target = .any ∧ v = .null
    · obtain ⟨rfl, rfl⟩ := hnull
      exact .inr (hv.resolve_left fun h => h.ne_null rfl)
    · apply (Value.sound_convert fun htarget hv => hnull ⟨htarget, hv⟩).imp
      exact fun _ h => .inl h
  | @apply nullable op args result harity htakes _ ih =>
    have hvalue : op ≠ .coalesce → ∀ t ∈ args, Sound (·.HasType t.type) (t.eval item c) := by
      intro hop t ht
      obtain ⟨i, hi⟩ := mem_iff_getElem?.mp ht
      apply (ih i t hi).imp
      rintro v (hv | ⟨hnull, -⟩)
      · exact hv
      · simp [Operator.nullableAt, hop] at hnull
    suffices hsound : Sound (·.HasType result) (op.apply (args.map (eval item c))) by
      rw [eval, evalAll_eq_map]
      exact hsound.imp fun _ h => .inl h
    rcases htakes.cases with ⟨rfl, hargs⟩ | ⟨rfl, hargs⟩ | ⟨rfl, hargs⟩ | ⟨hop, hresult⟩
    · exact Operator.sound_choose hargs (hvalue (by decide))
    · cases args with
      | nil => cases harity
      | cons input args =>
        obtain ⟨label, rest, rfl⟩ := hargs.exists_cons
        have hvalue := forall_mem_cons.mp (hvalue (by decide))
        exact hvalue.1.bind fun v _ => Operator.sound_select hargs hvalue.2 v
    · refine Operator.sound_firstPresent ?_ ?_ _
      · rintro rfl
        cases harity
      · intro i t ht
        rw [← hargs t (mem_of_getElem? ht)]
        apply (ih i t ht).imp
        rintro v (hv | ⟨hnull, rfl⟩)
        · exact .inl hv
        · exact .inr ⟨by simpa [Operator.nullableAt] using hnull, rfl⟩
    · apply Operator.sound_apply hresult (by simpa using harity)
      intro o ho
      obtain ⟨t, ht, rfl⟩ := mem_map.mp ho
      exact (hvalue hop t ht).imp fun _ _ => trivial

/-- Every place a well typed term depends on is that of a binding it stands over. -/
theorem WellTyped.exists_binding (h : t.WellTyped known nullable) {p : DataPath}
    (hp : p ∈ t.deps item) : ∃ b ∈ known, b.absolute? item = some p := by
  obtain ⟨b, hb, hp⟩ := mem_deps.mp hp
  exact ⟨b, h.bindings_subset hb, hp⟩

mutual

/-- Whether every operator has a number of operands that it takes. -/
def saturated : Term → Bool
  | .apply op args _ => op.arity.admits args.length && saturatedAll args
  | .coerce t _ => t.saturated
  | _ => true

def saturatedAll : List Term → Bool
  | [] => true
  | t :: ts => t.saturated && saturatedAll ts

end

theorem saturatedAll_iff {ts : List Term} :
    saturatedAll ts = true ↔ ∀ t ∈ ts, t.saturated = true := by
  induction ts with
  | nil => simp [saturatedAll]
  | cons t ts ih => rw [saturatedAll, Bool.and_eq_true, ih, forall_mem_cons]

theorem WellTyped.saturated (h : t.WellTyped known nullable) : t.saturated = true := by
  induction h with
  | literal | read | presence => rfl
  | coerce _ _ ih => rwa [Term.saturated]
  | @apply _ op args _ harity _ _ ih =>
    rw [Term.saturated, harity, Bool.true_and, saturatedAll_iff]
    intro t ht
    obtain ⟨i, hi⟩ := mem_iff_getElem?.mp ht
    exact ih i t hi

end Term

namespace Elaboration

/-- A term made from a property value depends on places of the value's bindings only, and reads a
context nowhere else: where two contexts agree at its dependencies it has the same outcome in both,
be it a value or a fault. -/
theorem property_reads_deps {env : Env} {expected : ValueType} {place : Location}
    {v : PropertyValue} {t : Term} (compiled : property env expected place v = .ok t)
    (item : List Segment) :
    (∀ p ∈ t.deps item, ∃ b ∈ v.bindings, b.absolute? item = some p) ∧
      ∀ c d : Context, (∀ p ∈ t.deps item, c.lookup? p = d.lookup? p) →
        t.eval item c = t.eval item d := by
  have htyped := ((yields_property env expected place v).of_ok compiled).1
  exact ⟨fun p hp => htyped.exists_binding hp, fun c d h => t.eval_eq_of_agree h⟩

/-- A name that a setting stands in for, read in two contexts that differ elsewhere. -/
theorem property_reads_deps_name :
    ∃ t, property ⟨.builtin, .html, ⟨100.0, 100.0⟩⟩ .string .root
        (.expression (.op .root .coalesce
          [.get .root ⟨.item, [.key "name"]⟩ none, .get .root (.setting "unnamed") none])) = .ok t ∧
      t.deps [.key "rows", .index 0] =
        [⟨.data, [.key "rows", .index 0, .key "name"]⟩, .setting "unnamed"] ∧
      t.eval [.key "rows", .index 0] ⟨.object [("rows", .array [.null])], []⟩ =
        t.eval [.key "rows", .index 0] ⟨.null, [("mode", .bool true)]⟩ := by
  have compiled : property ⟨.builtin, .html, ⟨100.0, 100.0⟩⟩ .string .root
      (.expression (.op .root .coalesce
        [.get .root ⟨.item, [.key "name"]⟩ none, .get .root (.setting "unnamed") none])) =
      .ok (.apply .coalesce [.read ⟨.item, [.key "name"]⟩ .string .null,
        .read (.setting "unnamed") .string .zero] .string) := rfl
  refine ⟨_, compiled, by decide +kernel, (property_reads_deps compiled _).2 _ _ ?_⟩
  intro p hp
  have hdeps : p ∈ [⟨.data, [.key "rows", .index 0, .key "name"]⟩, .setting "unnamed"] := hp
  rcases mem_cons.mp hdeps with rfl | hp
  · rfl
  · obtain rfl := mem_singleton.mp hp
    rfl

/-- A term made from a property value has the expected type, and its operators have the operands
they take. Each of its values is one of that type and not null, and no evaluation lacks an
operand. -/
theorem property_sound {env : Env} {expected : ValueType} {place : Location} {v : PropertyValue}
    {t : Term} (compiled : property env expected place v = .ok t) :
    t.type = expected ∧ t.saturated = true ∧
      ∀ (item : List Segment) (c : Context),
        (∀ w, t.eval item c = .ok w → w ≠ .null ∧ w.HasType expected) ∧
          t.eval item c ≠ .error .noOperand := by
  obtain ⟨htyped, rfl⟩ := (yields_property env expected place v).of_ok compiled
  refine ⟨rfl, htyped.saturated, ?_⟩
  intro item c
  have hsound : Sound _ (t.eval item c) := htyped.sound_eval
  constructor
  · intro w hw
    rw [hw] at hsound
    have hw := hsound.resolve_right (by simp)
    exact ⟨hw.ne_null, hw⟩
  · intro hfault
    rw [hfault] at hsound
    exact hsound rfl

/-- A choice between a number and a text where text is expected. -/
theorem property_sound_choice :
    ∃ t, property ⟨.builtin, .html, ⟨100.0, 100.0⟩⟩ .string .root
        (.expression (.op .root .case
          [.has .root ⟨.data, [.key "count"]⟩,
            .get .root ⟨.data, [.key "count"]⟩ (some (.number 0.0)),
            .literal .root (.string "none")])) = .ok t ∧
      t.type = .string ∧ t.saturated = true ∧
      ∀ c, (∀ w, t.eval [] c = .ok w → w ≠ .null ∧ w.HasType .string) ∧
        t.eval [] c ≠ .error .noOperand := by
  have compiled : property ⟨.builtin, .html, ⟨100.0, 100.0⟩⟩ .string .root
      (.expression (.op .root .case
        [.has .root ⟨.data, [.key "count"]⟩,
          .get .root ⟨.data, [.key "count"]⟩ (some (.number 0.0)),
          .literal .root (.string "none")])) =
      .ok (.apply .case [.presence ⟨.data, [.key "count"]⟩,
        .coerce (.read ⟨.data, [.key "count"]⟩ .number (.default (.number 0.0))) .string,
        .literal (.string "none")] .string) := rfl
  obtain ⟨htype, hsaturated, heval⟩ := property_sound compiled
  exact ⟨_, compiled, htype, hsaturated, heval []⟩

end Elaboration

end Widgetry
