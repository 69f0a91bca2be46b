import Widgetry.Proofs.Alignment
import Widgetry.Proofs.Expr.RoundTrip
import Widgetry.Proofs.Expr.Typing

/-!
# Checked property values

What elaboration comes to. It gives a well typed term that reads every binding that the value names, in
the same order, but for those to the size of the canvas, which are known beforehand. Else it fails for
what is written in the value, with the location of the property or of a node of its expression.
-/

namespace Widgetry

open List

/-- A keyword that is not known, or that one of the tables has no constant for. -/
def Env.LacksAlignment (env : Env) (keyword : String) : Prop :=
  ∃ constant? ∈ [env.style.alignment? env.platform .horizontal,
    env.style.alignment? env.platform .vertical, env.style.textAlign? env.platform],
    (Alignment.ofKeyword? keyword).bind constant? = none

/-- The errors of property values and modifiers, where locations and stray bindings to the canvas meet
a condition each. -/
inductive Error.Concerns (env : Env) (T : Location → Prop) (S : Binding → Prop) : Error → Prop
  | type {place : Location} (h : T place) (cause : TypeCause) :
      Concerns env T S (.expressionType place cause)
  | color {place : Location} (h : T place) (text : String) :
      Concerns env T S (.invalidColor place text)
  | alignment {place : Location} (h : T place) {keyword : String} (hlacks : env.LacksAlignment keyword) :
      Concerns env T S (.unsupportedAlignment place keyword env.platform)
  | weight {w : FontWeight} (hlacks : env.style.fontWeight? env.platform w = none)
      (place : Location) : Concerns env T S (.config (.noWeight env.platform w place))
  | size {place : Location} (h : T place) {b : Binding} (hb : S b) :
      Concerns env T S (.schema place (.unresolvedSize b))

/-- What is asked of a value at a location. -/
structure PropertyValue.Suits (T : Location → Prop) (S : Binding → Prop) (place : Location)
    (v : PropertyValue) : Prop where
  place : T place
  nodes : ∀ e, v = .expression e → e.StandsIn T
  strays : ∀ b ∈ v.bindings, b.isStraySize = true → S b

variable {env : Env} {T : Location → Prop} {S : Binding → Prop} {place : Location}
  {places : List Location}

namespace Term

/-- A term in place of another one: it is well typed where that one is, and reads the same bindings. -/
structure Replaces (t u : Term) : Prop where
  typed : ∀ {known : List Binding} {nullable : Bool}, t.WellTyped known nullable →
    u.WellTyped known nullable
  bindings : u.bindings = t.bindings

theorem Replaces.refl (t : Term) : t.Replaces t := ⟨fun h => h, rfl⟩

variable {target : ValueType} {ts us : List Term}

theorem bindingsOf_congr (h : Forall₂ Replaces ts us) : bindingsOf us = bindingsOf ts := by
  induction h with
  | nil => rfl
  | cons h _ ih => rw [bindingsOf, bindingsOf, h.bindings, ih]

theorem meets_fit (h : T place) (target : ValueType) (t : Term) :
    Meets (Error.Concerns env T S) (fun u => t.Replaces u ∧ u.type = target) (t.fit place target) := by
  unfold fit
  split
  · rename_i htype
    exact ⟨.refl t, htype⟩
  · split
    · exact ⟨⟨.coerce target, rfl⟩, rfl⟩
    · exact .type h _

theorem meets_fitAll (h : ∀ p ∈ places, T p) (hlen : places.length = ts.length)
    (target : ValueType) :
    Meets (Error.Concerns env T S) (Forall₂ (fun t u => t.Replaces u ∧ u.type = target) ts)
      (fitAll target places ts) := by
  induction places generalizing ts with
  | nil =>
    obtain rfl := eq_nil_of_length_eq_zero hlen.symm
    exact .nil
  | cons place places ih =>
    obtain ⟨t, ts, rfl⟩ := exists_cons_of_length_eq_add_one hlen.symm
    obtain ⟨hplace, hplaces⟩ := forall_mem_cons.mp h
    apply (meets_fit hplace target t).bind
    intro u hu
    exact (ih hplaces (Nat.add_right_cancel hlen)).bind fun us hus => .cons hu hus

/-- A term for what names some bindings. -/
structure Conveys (named : List Binding) (nullable : Bool) (t : Term) : Prop where
  typed : t.WellTyped named nullable
  keeps : Keeps named t.bindings

theorem Conveys.replace {named : List Binding} {nullable : Bool} {t u : Term}
    (h : t.Conveys named nullable) (hu : t.Replaces u) : u.Conveys named nullable :=
  ⟨hu.typed h.typed, by rw [hu.bindings]; exact h.keeps⟩

theorem conveys_literal (nullable : Bool) (l : Literal) : Conveys [] nullable (.literal l) :=
  ⟨.literal nullable l, rfl⟩

end Term

namespace Alternating

variable {α : Type} {guard branch : α → Prop}

theorem exists_cons {l : List α} (h : Alternating guard branch l) : ∃ a rest, l = a :: rest := by
  cases h with
  | last | pair => exact ⟨_, _, rfl⟩

theorem of_odd {l : List α} (hodd : l.length % 2 = 1) :
    Alternating (fun _ => True) (fun _ => True) l := by
  cases l with
  | nil => simp at hodd
  | cons a l =>
    cases l with
    | nil => exact .last trivial
    | cons b rest =>
      refine .pair trivial trivial (of_odd ?_)
      simp only [length_cons] at hodd
      omega

end Alternating

namespace Elaboration

section Alternation

variable {α β : Type}

theorem branches_cons_cons (a b c : α) (rest : List α) :
    branches (a :: b :: c :: rest) =
      (a :: (branches (c :: rest)).1, b :: (branches (c :: rest)).2) := by
  simp [branches, unzipAlternate]

theorem unzipAlternate_perm (l : List α) :
    ((unzipAlternate l).1 ++ (unzipAlternate l).2).Perm l := by
  induction l with
  | nil => exact .nil
  | cons a l ih =>
    simp only [unzipAlternate, cons_append]
    exact (perm_append_comm.trans ih).cons a

theorem branches_perm (l : List α) : ((branches l).1 ++ (branches l).2).Perm l := by
  have hsplit : l.dropLast ++ l.getLast?.toList = l := by
    cases l with
    | nil => rfl
    | cons a l => simp [List.getLast?_eq_some_getLast, dropLast_concat_getLast]
  have hperm := (unzipAlternate_perm l.dropLast).append_right l.getLast?.toList
  rw [hsplit, append_assoc] at hperm
  exact hperm

theorem unzipAlternate_map (f : α → β) (as : List α) :
    unzipAlternate (as.map f) =
      ((unzipAlternate as).1.map f, (unzipAlternate as).2.map f) := by
  induction as with
  | nil => rfl
  | cons a as ih => simp [unzipAlternate, ih]

theorem branches_map (f : α → β) (as : List α) :
    branches (as.map f) = ((branches as).1.map f, (branches as).2.map f) := by
  unfold branches
  rw [← map_dropLast, unzipAlternate_map, List.getLast?_map]
  cases as.getLast? <;> simp

/-- How many branches there are depends on the number of operands only. -/
theorem length_branches_congr {as : List α} {bs : List β} (h : as.length = bs.length) :
    (branches as).2.length = (branches bs).2.length := by
  have hunit : as.map (fun _ => ()) = bs.map (fun _ => ()) := by
    rw [map_const', map_const', h]
  have hbranches := congrArg (fun l => (branches l).2.length) hunit
  simpa only [branches_map, length_map] using hbranches

/-- Guards keep their places when other branches are put among them. -/
theorem replaces_zipAlternate {target : ValueType} {ts us : List Term}
    (hts : Alternating (fun _ => True) (fun _ => True) ts)
    (h : Forall₂ (fun t u => t.Replaces u ∧ u.type = target) (branches ts).2 us) :
    Forall₂ Term.Replaces ts (zipAlternate (branches ts).1 us) ∧
      Alternating (fun _ => True) (fun t => t.type = target) (zipAlternate (branches ts).1 us) := by
  induction hts generalizing us with
  | last _ =>
    obtain ⟨u, rest, hu, hrest, rfl⟩ := forall₂_cons_left_iff.mp h
    cases hrest
    exact ⟨.cons hu.1 .nil, .last hu.2⟩
  | pair _ _ hrest ih =>
    obtain ⟨d, rest, rfl⟩ := hrest.exists_cons
    rw [branches_cons_cons] at h ⊢
    obtain ⟨u, us, hu, hus, rfl⟩ := forall₂_cons_left_iff.mp h
    obtain ⟨hreplaces, halt⟩ := ih hus
    exact ⟨.cons (.refl _) (.cons hu.1 hreplaces), .pair trivial hu.2 halt⟩

end Alternation

theorem meets_unifyBranches {terms : List Term} (h : ∀ p ∈ places, T p)
    (hlen : places.length = terms.length) (hodd : terms.length % 2 = 1) (want : Option ValueType) :
    Meets (Error.Concerns env T S) (fun r : List Term × ValueType =>
        Forall₂ Term.Replaces terms r.1 ∧ Alternating (fun _ => True) (fun t => t.type = r.2) r.1)
      (unifyBranches want places terms) := by
  have houts : ∀ p ∈ (branches places).2, T p := fun p hp =>
    h p ((branches_perm places).mem_iff.mp (mem_append_right _ hp))
  apply (Term.meets_fitAll houts (length_branches_congr hlen) _).bind
  intro us hus
  exact replaces_zipAlternate (.of_odd hodd) hus

section Reads

variable (env)

theorem meets_literal (h : T place) (want : Option ValueType) (l : Literal) :
    Meets (Error.Concerns env T S) (Term.Conveys [] false) (literal env want place l) := by
  unfold literal
  split
  · split
    · split
      · exact Term.conveys_literal false _
      · exact .color h _
    · exact Term.conveys_literal false _
  · exact Term.conveys_literal false _

theorem failsBy_default? (h : T place) (want : Option ValueType) (a : Option Literal) :
    FailsBy (Error.Concerns env T S) (default? env want place a) := by
  unfold default?
  split
  · split
    · split
      · exact failsBy_ok _ _
      · exact failsBy_error (.color h _)
    · exact failsBy_ok _ _
  · exact failsBy_ok _ _

theorem meets_get (h : T place) (want : Option ValueType) (nullable : Bool) {b : Binding}
    (fallback : Option Literal) (hb : b.isStraySize = true → S b) :
    Meets (Error.Concerns env T S) (Term.Conveys [b] nullable)
      (get env want nullable place b fallback) := by
  unfold get
  split
  · rename_i hsize
    have hnone : Term.Keeps [b] [] := by simp [Term.Keeps, hsize]
    split
    · exact ⟨.literal nullable _, hnone⟩
    · exact ⟨.literal nullable _, hnone⟩
    · rename_i haxis
      exact .size h (hb (by simp [Binding.isStraySize, hsize, haxis]))
  · rename_i hscope
    apply Meets.bind (failsBy_default? env h want fallback)
    intro default _
    cases default with
    | none => exact ⟨.read mem_cons_self hscope (by cases nullable <;> simp [Fallback.Fits]), rfl⟩
    | some l => exact ⟨.read mem_cons_self hscope (by cases nullable <;> simp [Fallback.Fits]), rfl⟩

theorem meets_decimals {e : Expr} (h : T e.place) :
    Meets (Error.Concerns env T S) (Term.Conveys e.bindings false) (decimals e) := by
  unfold decimals
  split
  · split
    · exact Term.conveys_literal false _
    · exact .type h _
  · exact .type h _

theorem failsBy_labelType {e : Expr} (h : T e.place) : FailsBy (Error.Concerns env T S) (labelType e) := by
  unfold labelType
  split
  · exact failsBy_ok _ _
  · exact failsBy_ok _ _
  · exact failsBy_error (.type h _)

variable {args : List Expr}

theorem failsBy_labelsType (before : Option ValueType) (h : ∀ a ∈ args, T a.place) :
    FailsBy (Error.Concerns env T S) (labelsType before args) := by
  fun_induction labelsType before args with
  | case1 before label _ rest ih =>
    have hlabel := h label mem_cons_self
    refine (failsBy_labelType env hlabel).bind fun type => ?_
    split
    · exact failsBy_error (.type hlabel _)
    · exact ih type fun a ha => h a (.tail _ (.tail _ ha))
  | case2 => exact failsBy_ok _ _

theorem failsBy_precheck (op : Operator) (h : ∀ a ∈ args, T a.place) :
    FailsBy (Error.Concerns env T S) (precheck op args) := by
  unfold precheck
  split
  · exact failsBy_labelsType env none fun a ha => h a (.tail _ ha)
  · split
    · split
      · exact failsBy_ok _ _
      · exact failsBy_error (.type (h _ (.tail _ mem_cons_self)) _)
    · exact failsBy_error (.type (h _ (.tail _ mem_cons_self)) _)
  · exact failsBy_ok _ _

/-- What is left to check of the type of two operands once they have one. -/
theorem failsBy_orderedType (h : T place) (ordered : Bool) (type : ValueType) :
    FailsBy (Error.Concerns env T S) (if !ordered then pure type
      else match type with
        | .any => pure .number
        | .number => pure .number
        | .string => pure .string
        | other => throw (.expressionType place (.unordered other)) : Except Error ValueType) := by
  split
  · exact failsBy_ok _ type
  · cases type with
    | any | number | string => exact failsBy_ok _ _
    | _ => exact failsBy_error (.type h _)

theorem failsBy_comparedType (h : T place) (ordered : Bool) (a b : ValueType) :
    FailsBy (Error.Concerns env T S) (comparedType place ordered a b) := by
  unfold comparedType
  dsimp only
  split
  · exact failsBy_orderedType env h ordered a
  · split
    · exact failsBy_orderedType env h ordered b
    · split
      · exact failsBy_orderedType env h ordered a
      · exact failsBy_error (.type h _)

theorem meets_themeColor (h : ∀ a ∈ args, T a.place)
    (harity : Operator.themeColor.arity.admits args.length) :
    Meets (Error.Concerns env T S) (Term.Conveys (Expr.bindingsOf args) false)
      (themeColor env args) := by
  unfold themeColor
  split
  · split
    · exact Term.conveys_literal false _
    · exact .color (h _ mem_cons_self) _
  · exact .type (h _ mem_cons_self) _
  · cases harity

end Reads

def Mode.isNullable : Mode → Bool
  | .nullable _ => true
  | _ => false

theorem isNullable_mode (op : Operator) (want : Option ValueType) (label : ValueType)
    (count i : Nat) : (mode op want label count i).isNullable = op.nullableAt count i := by
  cases op with
  | coalesce =>
    by_cases h : i + 1 < count <;> simp [mode, Mode.isNullable, Operator.nullableAt, h]
  | case | match' | formatNumber | substring | interpolateColor =>
    simp only [mode]
    repeat' split
    all_goals rfl
  | _ => rfl

section Assembly

variable {op : Operator} {want : Option ValueType} {terms args : List Term} {known : List Binding}
  (hplace : T place) (hplaces : ∀ p ∈ places, T p) (hlen : places.length = terms.length)
  (harity : op.arity.admits terms.length = true)
  (h : ∀ (i : Nat) (t : Term), terms[i]? = some t →
    t.WellTyped known (op.nullableAt terms.length i))

include harity h

/-- An operator on terms that replace its operands. -/
theorem wellTyped_apply (hargs : Forall₂ Term.Replaces terms args) {result : ValueType}
    (htakes : op.Takes args result) :
    (Term.apply op args result).WellTyped known false ∧
      (Term.apply op args result).bindings = Term.bindingsOf terms := by
  obtain ⟨hcount, hentries⟩ := forall₂_iff_getElem?.mp hargs
  refine ⟨.apply false (hcount ▸ harity) htakes fun i u hu => ?_, Term.bindingsOf_congr hargs⟩
  obtain ⟨hi, -⟩ := List.getElem?_eq_some_iff.mp hu
  have ht := List.getElem?_eq_getElem (hcount ▸ hi)
  rw [← hcount]
  exact (hentries i _ u ht hu).typed (h i _ ht)

theorem wellTyped_apply_self {result : ValueType} (htakes : op.Takes terms result) :
    (Term.apply op terms result).WellTyped known false ∧
      (Term.apply op terms result).bindings = Term.bindingsOf terms :=
  wellTyped_apply harity h (forall₂_same.mpr fun t _ => .refl t) htakes

include hplace hplaces

theorem meets_compared (htakes : ∀ args, op.Takes args .bool) (ordered : Bool) :
    Meets (Error.Concerns env T S)
      (fun t => t.WellTyped known false ∧ t.bindings = Term.bindingsOf terms)
      (assemble.compared op place places terms ordered) := by
  unfold assemble.compared
  split
  · rename_i p q a b
    rw [forall_mem_cons, forall_mem_singleton] at hplaces
    apply Meets.bind (failsBy_comparedType env hplace ordered a.type b.type)
    intro type _
    apply (Term.meets_fit hplaces.1 type a).bind
    intro a' ha
    apply (Term.meets_fit hplaces.2 type b).bind
    intro b' hb
    exact wellTyped_apply harity h (.cons ha.1 (.cons hb.1 .nil)) (htakes _)
  · exact wellTyped_apply_self harity h (htakes _)

include hlen

theorem meets_assemble (hop : op ≠ .themeColor) :
    Meets (Error.Concerns env T S)
      (fun t => t.WellTyped known false ∧ t.bindings = Term.bindingsOf terms)
      (assemble op want place places terms) := by
  cases op with
  | eq | ne | lt | le | gt | ge =>
    exact meets_compared hplace hplaces harity h (fun _ => rfl) _
  | case =>
    have hodd : terms.length % 2 = 1 := by
      simpa [Operator.arity, Arity.admits, Arity.hasParity] using (Bool.and_eq_true_iff.mp harity).2
    apply (meets_unifyBranches hplaces hlen hodd want).bind
    rintro ⟨args, type⟩ ⟨hargs, htypes⟩
    exact wellTyped_apply harity h hargs htypes
  | match' =>
    have heven : terms.length % 2 = 0 := by
      simpa [Operator.arity, Arity.admits, Arity.hasParity] using (Bool.and_eq_true_iff.mp harity).2
    cases terms with
    | nil => cases harity
    | cons t terms =>
      have hodd : terms.length % 2 = 1 := by
        simp only [length_cons] at heven
        omega
      have htail : places.tail.length = terms.length := by simp [hlen]
      apply (meets_unifyBranches (fun p hp => hplaces p (mem_of_mem_tail hp)) htail hodd want).bind
      rintro ⟨args, type⟩ ⟨hargs, htypes⟩
      exact wellTyped_apply harity h (.cons (.refl t) hargs) htypes
  | coalesce =>
    apply (Term.meets_fitAll hplaces hlen (Term.common want terms)).bind
    intro args hargs
    refine wellTyped_apply harity h (hargs.imp fun _ _ h => h.1) fun u hu => ?_
    obtain ⟨t, -, hu⟩ := exists_mem_of_forall₂ hargs hu
    exact hu.2
  | toString =>
    obtain ⟨t, rfl⟩ := length_eq_one_iff.mp (Arity.eq_of_exactly harity)
    obtain ⟨p, rfl⟩ := length_eq_one_iff.mp hlen
    refine (Term.meets_fit (hplaces p mem_cons_self) .string t).imp fun u hu => ?_
    exact ⟨hu.1.typed (h 0 t rfl), hu.1.bindings.trans (append_nil _).symm⟩
  | formatNumber =>
    have hall : ∀ t ∈ terms, t.WellTyped known false := by
      intro t ht
      obtain ⟨i, hi⟩ := mem_iff_getElem?.mp ht
      exact h i t hi
    simp only [assemble]
    split
    · simp only [forall_mem_cons] at hall
      exact ⟨.of_forall rfl rfl (by simpa using ⟨hall.1, .literal false _, .literal false _⟩), rfl⟩
    · simp only [forall_mem_cons] at hall
      exact ⟨.of_forall rfl rfl (by simpa using ⟨hall.1, hall.2.1, .literal false _⟩), rfl⟩
    · exact wellTyped_apply_self harity h rfl
  | themeColor => exact absurd rfl hop
  | _ => exact wellTyped_apply_self harity h rfl

end Assembly

variable (env)

mutual

theorem meets_expr (want : Option ValueType) (e : Expr) (h : e.StandsIn T)
    (hb : ∀ b ∈ e.bindings, b.isStraySize = true → S b) :
    Meets (Error.Concerns env T S) (Term.Conveys e.bindings false) (expr env want e) := by
  cases e with
  | literal place l =>
    rw [expr]
    exact meets_literal env h.place want l
  | get place b fallback =>
    rw [expr]
    exact meets_get env h.place want false fallback (hb b mem_cons_self)
  | has place b =>
    rw [expr]
    exact ⟨.presence false mem_cons_self, rfl⟩
  | op place op args =>
    obtain ⟨hplace, hnodes⟩ := Expr.standsIn_op_iff.mp h
    have hargs : ∀ a ∈ args, T a.place := fun a ha => (hnodes a ha).place
    rw [expr]
    split
    · exact .type hplace _
    · rename_i harity
      simp only [Bool.not_eq_true', Bool.not_eq_false] at harity
      split
      · rename_i hop
        subst hop
        exact meets_themeColor env hargs harity
      · rename_i hop
        apply Meets.bind (failsBy_precheck env op hargs)
        intro label _
        apply (meets_operands (mode op want label args.length) 0 args hnodes hb).bind
        rintro terms ⟨hcount, hkeeps, hterms⟩
        refine (meets_assemble hplace (forall_mem_map.mpr hargs) (by simp [hcount])
          (by rwa [hcount]) (fun i t ht => ?_) hop).imp fun t ht => ⟨ht.1, ?_⟩
        · have hterm := hterms i t ht
          rwa [Nat.zero_add, isNullable_mode, ← hcount] at hterm
        · rw [ht.2]
          exact hkeeps

theorem meets_operands (modeAt : Nat → Mode) (i : Nat) (es : List Expr)
    (h : ∀ e ∈ es, e.StandsIn T) (hb : ∀ b ∈ Expr.bindingsOf es, b.isStraySize = true → S b) :
    Meets (Error.Concerns env T S) (fun ts : List Term => ts.length = es.length ∧
        Term.Keeps (Expr.bindingsOf es) (Term.bindingsOf ts) ∧ ∀ (j : Nat) (t : Term),
          ts[j]? = some t → t.WellTyped (Expr.bindingsOf es) (modeAt (i + j)).isNullable)
      (operands env modeAt i es) := by
  cases es with
  | nil =>
    rw [operands]
    exact ⟨rfl, rfl, by simp⟩
  | cons e es =>
    rw [Expr.bindingsOf, forall_mem_append] at hb
    obtain ⟨he, hes⟩ := forall_mem_cons.mp h
    rw [operands]
    -- what follows the first operand, whatever way it is elaborated
    have hlater : ∀ t : Term, t.Conveys e.bindings (modeAt i).isNullable →
        Meets (Error.Concerns env T S) (fun ts : List Term => ts.length = (e :: es).length ∧
            Term.Keeps (Expr.bindingsOf (e :: es)) (Term.bindingsOf ts) ∧ ∀ (j : Nat) (t : Term),
              ts[j]? = some t →
                t.WellTyped (Expr.bindingsOf (e :: es)) (modeAt (i + j)).isNullable)
          (operands env modeAt (i + 1) es >>= fun ts => pure (t :: ts)) := by
      intro t ht
      apply (meets_operands modeAt (i + 1) es hes hb.2).bind
      rintro ts ⟨hcount, hkeeps, hts⟩
      refine ⟨by simpa using hcount, ht.keeps.append hkeeps, ?_⟩
      intro j u hu
      cases j with
      | zero =>
        obtain rfl := Option.some.inj hu
        exact ht.typed.weaken (subset_append_left _ _)
      | succ j =>
        have hu := hts j u (by simpa using hu)
        rw [show i + 1 + j = i + (j + 1) by omega] at hu
        exact hu.weaken (subset_append_right _ _)
    cases hmode : modeAt i with
    | expect type =>
      rw [hmode] at hlater
      apply (meets_expr (some type) e he hb.1).bind
      intro t ht
      apply (Term.meets_fit he.place type t).bind
      exact fun u hu => hlater u (ht.replace hu.1)
    | offer want =>
      rw [hmode] at hlater
      exact (meets_expr want e he hb.1).bind hlater
    | nullable want =>
      rw [hmode] at hlater
      -- only a reading is made nullable, any other operand is elaborated as usual
      have hplain := (meets_expr want e he hb.1).bind fun t ht =>
        hlater t ⟨ht.typed.nullable true, ht.keeps⟩
      cases e with
      | get place b fallback =>
        exact (meets_get env he.place want true fallback (hb.1 b mem_cons_self)).bind hlater
      | _ => exact hplain
    | decimals =>
      rw [hmode] at hlater
      exact (meets_decimals env he.place).bind hlater

end

variable {env} in
theorem length_of_operands {modeAt : Nat → Mode} {i : Nat} {es : List Expr} {ts : List Term}
    (h : operands env modeAt i es = .ok ts) : ts.length = es.length := by
  have hmeets := meets_operands (T := fun _ => True) (S := fun _ => True) env modeAt i es
    (fun _ _ _ _ _ => trivial) fun _ _ _ => trivial
  rw [h] at hmeets
  exact hmeets.1

variable {v : PropertyValue}

theorem meets_property (expected : ValueType) (h : v.Suits T S place) :
    Meets (Error.Concerns env T S) (fun t => t.Conveys v.bindings false ∧ t.type = expected)
      (property env expected place v) := by
  have hfit : ∀ t : Term, t.Conveys v.bindings false → Meets (Error.Concerns env T S)
      (fun u : Term => u.Conveys v.bindings false ∧ u.type = expected) (t.fit place expected) :=
    fun t ht => (Term.meets_fit h.place expected t).imp fun u hu => ⟨ht.replace hu.1, hu.2⟩
  cases v with
  | literal l => exact (meets_literal env h.place _ l).bind hfit
  | binding b =>
    exact (meets_get env h.place _ false none (h.strays b mem_cons_self)).bind hfit
  | setting key =>
    exact (meets_get env h.place _ false none (h.strays _ mem_cons_self)).bind hfit
  | expression e => exact (meets_expr env _ e (h.nodes e rfl) h.strays).bind hfit

theorem failsBy_property (expected : ValueType) (h : v.Suits T S place) :
    FailsBy (Error.Concerns env T S) (property env expected place v) :=
  Meets.imp (meets_property env expected h) fun _ _ => trivial

theorem yields_conveys_property (expected : ValueType) (place : Location) (v : PropertyValue) :
    Yields (fun t => t.Conveys v.bindings false ∧ t.type = expected)
      (property env expected place v) :=
  (meets_property (T := fun _ => True) (S := fun _ => True) env expected
    ⟨trivial, fun _ _ _ _ _ => trivial, fun _ _ _ => trivial⟩).mono (fun _ _ => trivial) fun _ h => h

theorem yields_property (expected : ValueType) (place : Location) (v : PropertyValue) :
    Yields (fun t => t.WellTyped v.bindings false ∧ t.type = expected)
      (property env expected place v) :=
  Meets.imp (yields_conveys_property env expected place v) fun _ h => ⟨h.1.typed, h.2⟩

end Elaboration

end Widgetry
