import Widgetry.Proofs.Alignment
import Widgetry.Proofs.Expr.Soundness

/-!
# Selection

What `case` and `match` come to. At a definite type a choice is compiled exactly when its guards and
branches are, each one alone; it evaluates as the branch of the first guard that passes, and nothing
of the other branches or of the guards after it is seen.
-/

namespace Widgetry

open List

/-- Pairs one after the other, with a last entry after them. -/
def interleaved {α : Type} : List (α × α) → α → List α
  | [], last => [last]
  | (a, b) :: rest, last => a :: b :: interleaved rest last

section Interleaved

variable {α β : Type}

section

variable (pairs : List (α × α)) (last : α)

include pairs last

theorem length_interleaved :
    (interleaved pairs last).length = 2 * pairs.length + 1 := by
  induction pairs with
  | nil => rfl
  | cons p pairs ih =>
    rw [interleaved, length_cons, length_cons, ih, length_cons]
    omega

theorem interleaved_eq_cons :
    ∃ a rest, interleaved pairs last = a :: rest := by
  cases pairs with
  | nil => exact ⟨last, [], rfl⟩
  | cons p pairs => exact ⟨p.1, p.2 :: interleaved pairs last, rfl⟩

theorem branches_interleaved :
    Elaboration.branches (interleaved pairs last) =
      (pairs.map Prod.fst, pairs.map Prod.snd ++ [last]) := by
  induction pairs with
  | nil => rfl
  | cons p pairs ih =>
    obtain ⟨a, rest, h⟩ := interleaved_eq_cons pairs last
    rw [interleaved, h, Elaboration.branches_cons_cons, ← h, ih]
    rfl

theorem zipAlternate_interleaved :
    Elaboration.zipAlternate (pairs.map Prod.fst) (pairs.map Prod.snd ++ [last]) =
      interleaved pairs last := by
  induction pairs with
  | nil => rfl
  | cons p pairs ih =>
    rw [interleaved, ← ih]
    rfl

end

/-- Relating the branches of pairs, with a last one, is relating the pairs that keep their guards. -/
theorem forall₂_branches_iff {R : α → α → Prop} {pairs : List (α × α)} {last : α} {bs : List α} :
    Forall₂ R (pairs.map Prod.snd ++ [last]) bs ↔ ∃ parts b,
      Forall₂ (fun x y => x.1 = y.1 ∧ R x.2 y.2) pairs parts ∧ R last b ∧
        bs = parts.map Prod.snd ++ [b] := by
  induction pairs generalizing bs with
  | nil =>
    rw [map_nil, nil_append, forall₂_cons_left_iff]
    constructor
    · rintro ⟨b, rest, hb, hrest, rfl⟩
      cases hrest
      exact ⟨[], b, .nil, hb, rfl⟩
    · rintro ⟨parts, b, hparts, hb, rfl⟩
      cases hparts
      exact ⟨b, [], hb, .nil, rfl⟩
  | cons p pairs ih =>
    rw [map_cons, cons_append, forall₂_cons_left_iff]
    constructor
    · rintro ⟨b, rest, hb, hrest, rfl⟩
      obtain ⟨parts, c, hparts, hc, rfl⟩ := ih.mp hrest
      exact ⟨(p.1, b) :: parts, c, .cons ⟨rfl, hb⟩ hparts, hc, rfl⟩
    · rintro ⟨parts, c, hparts, hc, rfl⟩
      obtain ⟨y, rest, hy, hrest, rfl⟩ := forall₂_cons_left_iff.mp hparts
      exact ⟨y.2, _, hy.2, ih.mpr ⟨rest, c, hrest, hc, rfl⟩, rfl⟩

end Interleaved

variable {place : Location} {places : List Location} {ts : List Term}

namespace Term

/-- A term and what it is when it is brought to a type, wherever it stands. -/
def Fits (type : ValueType) (t u : Term) : Prop := ∀ place, t.fit place type = .ok u

variable {type : ValueType} {t u : Term}

theorem fit_eq_ok_iff : t.fit place type = .ok u ↔ t.Fits type u := by
  refine ⟨fun h place' => ?_, fun h => h place⟩
  unfold fit at h ⊢
  by_cases hsame : t.type = type
  · rwa [if_pos hsame] at h ⊢
  · by_cases hconverts : t.type.converts type = true
    · rwa [if_neg hsame, if_pos hconverts] at h ⊢
    · rw [if_neg hsame, if_neg hconverts] at h
      cases h

theorem fits_iff_eq (h : t.type = type) : t.Fits type u ↔ u = t := by
  have hfit : ∀ place, t.fit place type = .ok t := fun _ => if_pos h
  refine ⟨fun hu => ?_, fun hu => hu ▸ hfit⟩
  exact Except.ok.inj ((hu .root).symm.trans (hfit .root))

theorem fitAll_eq_ok_iff {us : List Term} (hlen : places.length = ts.length) :
    fitAll type places ts = .ok us ↔ Forall₂ (Fits type) ts us := by
  induction places generalizing ts us with
  | nil =>
    obtain rfl := eq_nil_of_length_eq_zero hlen.symm
    rw [forall₂_nil_left_iff]
    exact ⟨fun h => (Except.ok.inj h).symm, by rintro rfl; rfl⟩
  | cons place places ih =>
    obtain ⟨t, ts, rfl⟩ := exists_cons_of_length_eq_add_one hlen.symm
    have hrest : places.length = ts.length := Nat.add_right_cancel hlen
    rw [fitAll, forall₂_cons_left_iff]
    constructor
    · intro h
      obtain ⟨u, hu, h⟩ := exists_of_bind_eq_ok h
      obtain ⟨us', hus, h⟩ := exists_of_bind_eq_ok h
      exact ⟨u, us', fit_eq_ok_iff.mp hu, (ih hrest).mp hus, (Except.ok.inj h).symm⟩
    · rintro ⟨u, us', hu, hus, rfl⟩
      rw [hu place, (ih hrest).mpr hus]
      rfl

theorem common_some (h : type ≠ .any) (ts : List Term) : common (some type) ts = type := by
  unfold common
  split
  · rename_i heq
    exact absurd (Option.some.inj heq) h
  · rename_i heq
    cases heq
  · rename_i heq
    exact (Option.some.inj heq).symm

end Term

namespace Elaboration

/-- An expression and the term that it becomes alone at a type, wherever it stands. -/
def Compiles (env : Env) (type : ValueType) (e : Expr) (t : Term) : Prop :=
  ∀ place, property env type place (.expression e) = .ok t

variable {env : Env} {type : ValueType} {e : Expr} {t : Term}

theorem property_expression (env : Env) (type : ValueType) (place : Location) (e : Expr) :
    property env type place (.expression e) =
      expr env (some type) e >>= fun t => t.fit place type := rfl

theorem compiles_iff :
    Compiles env type e t ↔ ∃ u, expr env (some type) e = .ok u ∧ u.Fits type t := by
  constructor
  · intro h
    obtain ⟨u, hu, hfit⟩ := exists_of_bind_eq_ok (h .root)
    exact ⟨u, hu, Term.fit_eq_ok_iff.mp hfit⟩
  · rintro ⟨u, hu, hfit⟩ place
    rw [property_expression, hu]
    exact hfit place

theorem property_eq_ok_iff :
    property env type place (.expression e) = .ok t ↔ Compiles env type e t := by
  refine ⟨fun h => ?_, fun h => h place⟩
  obtain ⟨u, hu, hfit⟩ := exists_of_bind_eq_ok h
  exact compiles_iff.mpr ⟨u, hu, Term.fit_eq_ok_iff.mp hfit⟩

def operand (env : Env) (mode : Mode) (e : Expr) : Except Error Term :=
  match mode with
  | .expect type => property env type e.place (.expression e)
  | .offer want => expr env want e
  | .nullable want =>
      match e with
      | .get place b fallback => get env want true place b fallback
      | _ => expr env want e
  | .decimals => decimals e

theorem operands_cons (env : Env) (modeAt : Nat → Mode) (i : Nat) (e : Expr) (es : List Expr) :
    operands env modeAt i (e :: es) = operand env (modeAt i) e >>= fun t =>
      operands env modeAt (i + 1) es >>= fun ts => .ok (t :: ts) := by
  rw [operands]
  cases modeAt i with
  | expect type =>
    simp only [operand, property_expression, bind_assoc]
    rfl
  | offer want => rfl
  | nullable want => cases e <;> rfl
  | decimals => rfl

variable {modeAt : Nat → Mode} {i : Nat} {guard : Mode} {pairs : List (Expr × Expr)} {last : Expr}
  {r : List Term × ValueType} {l : Literal} {label : ValueType}

theorem operands_cons_eq_ok_iff {es : List Expr} :
    operands env modeAt i (e :: es) = .ok ts ↔ ∃ t us, operand env (modeAt i) e = .ok t ∧
      operands env modeAt (i + 1) es = .ok us ∧ ts = t :: us := by
  rw [operands_cons]
  constructor
  · intro h
    obtain ⟨t, ht, h⟩ := exists_of_bind_eq_ok h
    obtain ⟨us, hus, h⟩ := exists_of_bind_eq_ok h
    exact ⟨t, us, ht, hus, (Except.ok.inj h).symm⟩
  · rintro ⟨t, us, ht, hus, rfl⟩
    rw [ht, hus]
    rfl

/-- Operands that stand in pairs are elaborated pair by pair. -/
theorem operands_interleaved_eq_ok_iff {branch : Mode}
    (hpairs : ∀ j < pairs.length, modeAt (i + 2 * j) = guard ∧ modeAt (i + 2 * j + 1) = branch)
    (hlast : modeAt (i + 2 * pairs.length) = branch) :
    operands env modeAt i (interleaved pairs last) = .ok ts ↔ ∃ parts t,
      Forall₂ (fun x y => operand env guard x.1 = .ok y.1 ∧ operand env branch x.2 = .ok y.2)
        pairs parts ∧ operand env branch last = .ok t ∧ ts = interleaved parts t := by
  induction pairs generalizing i ts with
  | nil =>
    have hmode : modeAt i = branch := hlast
    rw [interleaved, operands_cons_eq_ok_iff, hmode]
    constructor
    · rintro ⟨t, us, ht, hus, rfl⟩
      cases hus
      exact ⟨[], t, .nil, ht, rfl⟩
    · rintro ⟨parts, t, hparts, ht, rfl⟩
      cases hparts
      exact ⟨t, [], ht, rfl, rfl⟩
  | cons p pairs ih =>
    have hfirst := hpairs 0 (Nat.zero_lt_succ _)
    have hrest : ∀ j < pairs.length,
        modeAt (i + 2 + 2 * j) = guard ∧ modeAt (i + 2 + 2 * j + 1) = branch := by
      intro j hj
      have hnext := hpairs (j + 1) (Nat.succ_lt_succ hj)
      rwa [show i + 2 * (j + 1) = i + 2 + 2 * j by omega] at hnext
    have hend : modeAt (i + 2 + 2 * pairs.length) = branch := by
      rwa [length_cons, show i + 2 * (pairs.length + 1) = i + 2 + 2 * pairs.length by omega]
        at hlast
    rw [interleaved, operands_cons_eq_ok_iff, show modeAt i = guard from hfirst.1]
    constructor
    · rintro ⟨g, us, hg, hus, rfl⟩
      rw [operands_cons_eq_ok_iff, show modeAt (i + 1) = branch from hfirst.2] at hus
      obtain ⟨b, us, hb, hus, rfl⟩ := hus
      obtain ⟨parts, t, hparts, ht, rfl⟩ := (ih hrest hend).mp hus
      exact ⟨(g, b) :: parts, t, .cons ⟨hg, hb⟩ hparts, ht, rfl⟩
    · rintro ⟨parts, t, hparts, ht, rfl⟩
      obtain ⟨y, rest, hy, hlater, rfl⟩ := forall₂_cons_left_iff.mp hparts
      refine ⟨y.1, y.2 :: interleaved rest t, hy.1, ?_, rfl⟩
      rw [operands_cons_eq_ok_iff, show modeAt (i + 1) = branch from hfirst.2]
      exact ⟨y.2, _, hy.2, (ih hrest hend).mpr ⟨rest, t, hlater, ht, rfl⟩, rfl⟩

/-- At a definite type the branches are brought to it one by one. -/
theorem unifyBranches_interleaved_eq_ok_iff (htype : type ≠ .any) {raw : List (Term × Term)}
    {last : Term} (hlen : places.length = 2 * raw.length + 1) :
    unifyBranches (some type) places (interleaved raw last) = .ok r ↔ ∃ parts t,
      Forall₂ (fun x y => x.1 = y.1 ∧ x.2.Fits type y.2) raw parts ∧ last.Fits type t ∧
        r = (interleaved parts t, type) := by
  have hplaces : (branches places).2.length = (raw.map Prod.snd ++ [last]).length := by
    have hcount : places.length = (interleaved raw last).length := by rw [hlen, length_interleaved]
    rw [length_branches_congr hcount, branches_interleaved]
  have hunify : unifyBranches (some type) places (interleaved raw last) =
      Term.fitAll type (branches places).2 (raw.map Prod.snd ++ [last]) >>= fun outs =>
        .ok (zipAlternate (raw.map Prod.fst) outs, type) := by
    unfold unifyBranches
    simp only [branches_interleaved, Term.common_some htype]
    rfl
  have hguards : ∀ {parts : List (Term × Term)},
      Forall₂ (fun x y => x.1 = y.1 ∧ x.2.Fits type y.2) raw parts →
        raw.map Prod.fst = parts.map Prod.fst := by
    intro parts hparts
    rw [← forall₂_eq_eq_eq, forall₂_map_left_iff, forall₂_map_right_iff]
    exact hparts.imp fun _ _ h => h.1
  rw [hunify]
  constructor
  · intro h
    obtain ⟨outs, houts, h⟩ := exists_of_bind_eq_ok h
    obtain ⟨parts, t, hparts, ht, rfl⟩ :=
      forall₂_branches_iff.mp ((Term.fitAll_eq_ok_iff hplaces).mp houts)
    rw [hguards hparts, zipAlternate_interleaved] at h
    exact ⟨parts, t, hparts, ht, (Except.ok.inj h).symm⟩
  · rintro ⟨parts, t, hparts, ht, rfl⟩
    rw [(Term.fitAll_eq_ok_iff hplaces).mpr (forall₂_branches_iff.mpr ⟨parts, t, hparts, ht, rfl⟩),
      hguards hparts, ← zipAlternate_interleaved]
    rfl

/-- Guards and branches that stand in pairs, elaborated and brought to a definite type. -/
theorem alternation_eq_ok_iff (htype : type ≠ .any) (hpairs : ∀ j < pairs.length,
      modeAt (i + 2 * j) = guard ∧ modeAt (i + 2 * j + 1) = .offer (some type))
    (hlast : modeAt (i + 2 * pairs.length) = .offer (some type))
    (hlen : places.length = 2 * pairs.length + 1) :
    (operands env modeAt i (interleaved pairs last) >>= unifyBranches (some type) places) = .ok r ↔
      ∃ parts t, Forall₂ (fun x y => operand env guard x.1 = .ok y.1 ∧
          Compiles env type x.2 y.2) pairs parts ∧ Compiles env type last t ∧
        r = (interleaved parts t, type) := by
  constructor
  · intro h
    obtain ⟨ts, hts, h⟩ := exists_of_bind_eq_ok h
    obtain ⟨raw, u, hraw, hu, rfl⟩ := (operands_interleaved_eq_ok_iff hpairs hlast).mp hts
    rw [unifyBranches_interleaved_eq_ok_iff htype (by rw [hlen, hraw.length_eq])] at h
    obtain ⟨parts, t, hparts, ht, rfl⟩ := h
    refine ⟨parts, t, ?_, compiles_iff.mpr ⟨u, hu, ht⟩, rfl⟩
    refine (forall₂_trans_iff.mp ⟨raw, hraw, hparts⟩).imp ?_
    rintro x y ⟨z, hxz, hzy⟩
    exact ⟨hzy.1 ▸ hxz.1, compiles_iff.mpr ⟨z.2, hxz.2, hzy.2⟩⟩
  · rintro ⟨parts, t, hparts, ht, rfl⟩
    obtain ⟨u, hu, ht⟩ := compiles_iff.mp ht
    have hsplit : Forall₂ (fun x y => ∃ z : Term × Term,
        (operand env guard x.1 = .ok z.1 ∧ operand env (.offer (some type)) x.2 = .ok z.2) ∧
          z.1 = y.1 ∧ z.2.Fits type y.2) pairs parts := by
      refine hparts.imp fun x y h => ?_
      obtain ⟨z, hz, hfit⟩ := compiles_iff.mp h.2
      exact ⟨(y.1, z), ⟨h.1, hz⟩, rfl, hfit⟩
    obtain ⟨raw, hraw, hparts⟩ := forall₂_trans_iff.mpr hsplit
    rw [(operands_interleaved_eq_ok_iff hpairs hlast).mpr ⟨raw, u, hraw, hu, rfl⟩]
    exact (unifyBranches_interleaved_eq_ok_iff htype (by rw [hlen, hraw.length_eq])).mpr
      ⟨parts, t, hparts, ht, rfl⟩

theorem expr_op {op : Operator} {args : List Expr} (harity : op.arity.admits args.length = true)
    (hop : op ≠ .themeColor) (want : Option ValueType) (place : Location) :
    expr env want (.op place op args) = precheck op args >>= fun label =>
      operands env (mode op want label args.length) 0 args >>= fun terms =>
        assemble op want place (args.map Expr.place) terms := by
  rw [expr, harity, if_neg hop]
  rfl

theorem expr_case (env : Env) (type : ValueType) (place : Location) (pairs : List (Expr × Expr))
    (last : Expr) : expr env (some type) (.op place .case (interleaved pairs last)) =
      (operands env (mode .case (some type) .any (interleaved pairs last).length) 0
        (interleaved pairs last) >>=
          unifyBranches (some type) ((interleaved pairs last).map Expr.place)) >>= fun r =>
            .ok (.apply .case r.1 r.2) := by
  have harity : Operator.case.arity.admits (interleaved pairs last).length = true := by
    rw [length_interleaved]
    simp [Operator.arity, Arity.admits, Arity.inBounds, Arity.hasParity]
  rw [expr_op harity (by decide), bind_assoc]
  rfl

/-- The conditions of a `case` stand at the even places, its branches at the odd ones and at the end. -/
theorem mode_case (type label : ValueType) (pairs : List (Expr × Expr)) (last : Expr) :
    (∀ j < pairs.length,
      mode .case (some type) label (interleaved pairs last).length (0 + 2 * j) = .expect .bool ∧
      mode .case (some type) label (interleaved pairs last).length (0 + 2 * j + 1) =
        .offer (some type)) ∧
    mode .case (some type) label (interleaved pairs last).length (0 + 2 * pairs.length) =
      .offer (some type) := by
  simp only [mode, length_interleaved]
  refine ⟨fun j hj => ?_, ?_⟩
  · rw [if_pos (by omega), if_neg (by omega)]
    exact ⟨rfl, rfl⟩
  · rw [if_neg (by omega)]

/-- At a definite type a `case` is compiled exactly when its conditions are at `bool` and its branches
at that type, each one alone. -/
theorem compiles_case_iff (htype : type ≠ .any) :
    Compiles env type (.op place .case (interleaved pairs last)) t ↔ ∃ parts u,
      Forall₂ (fun x y => Compiles env .bool x.1 y.1 ∧ Compiles env type x.2 y.2) pairs parts ∧
        Compiles env type last u ∧ t = .apply .case (interleaved parts u) type := by
  obtain ⟨hpairs, hlast⟩ := mode_case type .any pairs last
  have hplaces : ((interleaved pairs last).map Expr.place).length = 2 * pairs.length + 1 := by
    rw [length_map, length_interleaved]
  rw [compiles_iff, expr_case]
  constructor
  · rintro ⟨u, hu, hfit⟩
    obtain ⟨r, hr, hu⟩ := exists_of_bind_eq_ok hu
    obtain ⟨parts, v, hparts, hv, rfl⟩ := (alternation_eq_ok_iff htype hpairs hlast hplaces).mp hr
    obtain rfl := Except.ok.inj hu
    refine ⟨parts, v, hparts.imp fun x y h => ⟨property_eq_ok_iff.mp h.1, h.2⟩, hv, ?_⟩
    exact (Term.fits_iff_eq rfl).mp hfit
  · rintro ⟨parts, v, hparts, hv, rfl⟩
    rw [(alternation_eq_ok_iff htype hpairs hlast hplaces).mpr
      ⟨parts, v, hparts.imp fun x y h => ⟨h.1 _, h.2⟩, hv, rfl⟩]
    exact ⟨_, rfl, (Term.fits_iff_eq rfl).mpr rfl⟩

/-- A label of `match`: the literal that an expression is, a number or a text. -/
def IsLabel (type : ValueType) (e : Expr) (l : Literal) : Prop :=
  (∃ place, e = .literal place l) ∧ l.type = type ∧ (type = .number ∨ type = .string)

theorem IsLabel.eq {l' : Literal} (h : IsLabel type (.literal place l) l') : l' = l := by
  obtain ⟨⟨_, he⟩, -⟩ := h
  exact (Expr.literal.inj he).2.symm

theorem labelType_eq_ok_iff : labelType e = .ok type ↔ ∃ l, IsLabel type e l := by
  constructor
  · intro h
    unfold labelType at h
    split at h
    · rename_i place x
      exact ⟨.number x, ⟨place, rfl⟩, Except.ok.inj h, .inl (Except.ok.inj h).symm⟩
    · rename_i place s
      exact ⟨.string s, ⟨place, rfl⟩, Except.ok.inj h, .inr (Except.ok.inj h).symm⟩
    · cases h
  · rintro ⟨l, ⟨place, rfl⟩, rfl, htype⟩
    cases l with
    | number x => rfl
    | string s => rfl
    | bool b => simp [Literal.type] at htype
    | color c => simp [Literal.type] at htype

/-- Labels share a type exactly when each of them has it. -/
theorem labelsType_interleaved_eq_ok_iff {before : Option ValueType} :
    labelsType before (interleaved pairs last) = .ok type ↔
      (∀ x ∈ pairs, labelType x.1 = .ok type) ∧ (∀ b ∈ before, b = type) ∧
        (pairs = [] → before.getD .string = type) := by
  induction pairs generalizing before with
  | nil =>
    have hnil : labelsType before (interleaved [] last) = .ok (before.getD .string) := rfl
    rw [hnil, Except.ok.injEq]
    refine ⟨fun h => ⟨by simp, fun b hb => ?_, fun _ => h⟩, fun h => h.2.2 rfl⟩
    rw [Option.mem_def.mp hb] at h
    exact h
  | cons p pairs ih =>
    have hcons : labelsType before (interleaved (p :: pairs) last) =
        labelType p.1 >>= fun found =>
          if before.isSome ∧ before ≠ some found then
            .error (.expressionType p.1.place .labelTypesDiffer)
          else labelsType (some found) (interleaved pairs last) := by
      rw [interleaved, labelsType]
      rfl
    rw [hcons]
    constructor
    · intro h
      obtain ⟨found, hfound, h⟩ := exists_of_bind_eq_ok h
      split at h
      · cases h
      · rename_i hsame
        obtain ⟨hlabels, hall, -⟩ := ih.mp h
        obtain rfl := hall found rfl
        refine ⟨forall_mem_cons.mpr ⟨hfound, hlabels⟩, fun b hb => ?_, by simp⟩
        rw [Option.mem_def.mp hb] at hsame
        simpa using hsame
    · rintro ⟨hlabels, hbefore, -⟩
      rw [forall_mem_cons] at hlabels
      rw [hlabels.1]
      refine (if_neg ?_).trans (ih.mpr ⟨hlabels.2, by simp, fun _ => rfl⟩)
      rintro ⟨hsome, hne⟩
      obtain ⟨b, rfl⟩ := Option.isSome_iff_exists.mp hsome
      exact hne (congrArg some (hbefore b rfl))

theorem operand_label (h : IsLabel label e l) : operand env (.offer none) e = .ok (.literal l) := by
  obtain ⟨⟨place, rfl⟩, -⟩ := h
  rw [operand, expr]
  cases l <;> rfl

/-- What labels are elaborated to are the literals that they are. -/
theorem exists_labels {R : Expr → Term → Prop} {parts : List (Term × Term)}
    (hparts : Forall₂ (fun x y => operand env (.offer none) x.1 = .ok y.1 ∧ R x.2 y.2)
      pairs parts) (hlabels : ∀ x ∈ pairs, ∃ l, IsLabel label x.1 l) :
    ∃ named : List (Literal × Term),
      Forall₂ (fun x y => IsLabel label x.1 y.1 ∧ R x.2 y.2) pairs named ∧
        parts = named.map fun y => (.literal y.1, y.2) := by
  induction hparts with
  | nil => exact ⟨[], .nil, rfl⟩
  | @cons x y pairs parts h _ ih =>
    rw [forall_mem_cons] at hlabels
    obtain ⟨l, hl⟩ := hlabels.1
    obtain ⟨named, hnamed, rfl⟩ := ih hlabels.2
    have hy : y.1 = .literal l := Except.ok.inj (h.1.symm.trans (operand_label hl))
    exact ⟨(l, y.2) :: named, .cons ⟨hl, h.2⟩ hnamed, by rw [map_cons, ← hy]⟩

/-- The input of a `match` is elaborated at the type that its labels share. -/
theorem expr_match (env : Env) (type : ValueType) (place : Location) (input : Expr)
    (hpairs : pairs ≠ []) (last : Expr) :
    expr env (some type) (.op place .match' (input :: interleaved pairs last)) =
      labelsType none (interleaved pairs last) >>= fun label =>
        operand env (.expect label) input >>= fun x =>
          (operands env (mode .match' (some type) label (input :: interleaved pairs last).length) 1
            (interleaved pairs last) >>=
              unifyBranches (some type) ((interleaved pairs last).map Expr.place)) >>= fun r =>
                .ok (.apply .match' (x :: r.1) r.2) := by
  have hpos := length_pos_iff.mpr hpairs
  have harity : Operator.match'.arity.admits (input :: interleaved pairs last).length = true := by
    rw [length_cons, length_interleaved]
    simp [Operator.arity, Arity.admits, Arity.inBounds, Arity.hasParity]
    omega
  rw [expr_op harity (by decide)]
  congr 1
  funext label
  rw [operands_cons]
  simp only [bind_assoc]
  rfl

/-- After the input of a `match` its labels and branches alternate. -/
theorem mode_match (type label : ValueType) (input : Expr) (pairs : List (Expr × Expr))
    (last : Expr) :
    (∀ j < pairs.length,
      mode .match' (some type) label (input :: interleaved pairs last).length (1 + 2 * j) =
        .offer none ∧
      mode .match' (some type) label (input :: interleaved pairs last).length (1 + 2 * j + 1) =
        .offer (some type)) ∧
    mode .match' (some type) label (input :: interleaved pairs last).length (1 + 2 * pairs.length) =
      .offer (some type) := by
  simp only [mode, length_cons, length_interleaved]
  refine ⟨fun j hj => ?_, ?_⟩
  · rw [if_neg (by omega), if_pos (by omega), if_neg (by omega), if_neg (by omega)]
    exact ⟨rfl, rfl⟩
  · rw [if_neg (by omega), if_neg (by omega)]

/-- At a definite type a `match` is compiled exactly when it has labels, all of them literals of one
type, its input is compiled at this type, and each of its branches is compiled alone. -/
theorem compiles_match_iff (htype : type ≠ .any) {input : Expr} :
    Compiles env type (.op place .match' (input :: interleaved pairs last)) t ↔ pairs ≠ [] ∧
      ∃ (label : ValueType) (x : Term) (parts : List (Literal × Term)) (u : Term),
        Compiles env label input x ∧
        Forall₂ (fun p y => IsLabel label p.1 y.1 ∧ Compiles env type p.2 y.2) pairs parts ∧
        Compiles env type last u ∧ t = .apply .match'
          (x :: interleaved (parts.map fun y => (.literal y.1, y.2)) u) type := by
  have hplaces : ((interleaved pairs last).map Expr.place).length = 2 * pairs.length + 1 := by
    rw [length_map, length_interleaved]
  by_cases hnil : pairs = []
  · -- an input and a fallback alone are too few operands
    subst hnil
    refine iff_of_false (fun h => ?_) (fun h => h.1 rfl)
    obtain ⟨v, hv, -⟩ := compiles_iff.mp h
    cases hv
  rw [compiles_iff, expr_match env type place input hnil]
  constructor
  · rintro ⟨v, hv, hfit⟩
    obtain ⟨label, hlabel, hv⟩ := exists_of_bind_eq_ok hv
    obtain ⟨x, hx, hv⟩ := exists_of_bind_eq_ok hv
    obtain ⟨r, hr, hv⟩ := exists_of_bind_eq_ok hv
    obtain ⟨hpairs, hlast⟩ := mode_match type label input pairs last
    obtain ⟨parts, u, hparts, hu, rfl⟩ := (alternation_eq_ok_iff htype hpairs hlast hplaces).mp hr
    obtain rfl := Except.ok.inj hv
    have hlabels := (labelsType_interleaved_eq_ok_iff.mp hlabel).1
    obtain ⟨named, hnamed, rfl⟩ := exists_labels hparts fun p hp =>
      labelType_eq_ok_iff.mp (hlabels p hp)
    exact ⟨hnil, label, x, named, u, property_eq_ok_iff.mp hx, hnamed, hu,
      (Term.fits_iff_eq rfl).mp hfit⟩
  · rintro ⟨-, label, x, parts, u, hx, hparts, hu, rfl⟩
    have hlabels : ∀ p ∈ pairs, labelType p.1 = .ok label :=
      ((forall₂_and_left pairs parts).mp
        (hparts.imp fun p y h => ⟨labelType_eq_ok_iff.mpr ⟨y.1, h.1⟩, h⟩)).1
    have hlabel : labelsType none (interleaved pairs last) = .ok label :=
      labelsType_interleaved_eq_ok_iff.mpr ⟨hlabels, by simp, fun h => absurd h hnil⟩
    have hraw : Forall₂ (fun p y => operand env (.offer none) p.1 = .ok y.1 ∧
        Compiles env type p.2 y.2) pairs (parts.map fun y => (Term.literal y.1, y.2)) :=
      forall₂_map_right_iff.mpr (hparts.imp fun p y h => ⟨operand_label h.1, h.2⟩)
    obtain ⟨hpairs, hlast⟩ := mode_match type label input pairs last
    have hrest := (alternation_eq_ok_iff htype hpairs hlast hplaces).mpr ⟨_, u, hraw, hu, rfl⟩
    exact ⟨_, bind_eq_ok_iff.mpr ⟨label, hlabel, bind_eq_ok_iff.mpr ⟨x, hx _,
      bind_eq_ok_iff.mpr ⟨_, hrest, rfl⟩⟩⟩, (Term.fits_iff_eq rfl).mpr rfl⟩

end Elaboration

/-! ### Evaluation -/

/-- The outcome of guarded branches with a fallback: that of the branch whose guard is the first to
pass, the fault of a guard that is reached, or that of the fallback where no guard passes. -/
inductive Decides {α β : Type} (test : α → Except Fault Bool) (eval : β → Outcome) :
    List (α × β) → β → Outcome → Prop where
  | passes {before : List (α × β)} {guard : α} {branch : β} {after : List (α × β)} {fallback : β} :
      (∀ x ∈ before, test x.1 = .ok false) → test guard = .ok true →
        Decides test eval (before ++ (guard, branch) :: after) fallback (eval branch)
  | faults {before : List (α × β)} {guard : α} {branch : β} {after : List (α × β)} {fallback : β}
      {fault : Fault} :
      (∀ x ∈ before, test x.1 = .ok false) → test guard = .error fault →
        Decides test eval (before ++ (guard, branch) :: after) fallback (.error fault)
  | falls {parts : List (α × β)} {fallback : β} :
      (∀ x ∈ parts, test x.1 = .ok false) → Decides test eval parts fallback (eval fallback)

section Decided

variable {α β : Type} {test : α → Except Fault Bool} {eval : β → Outcome} {fallback : β} {guard : α}
  {branch : β}

theorem Decides.skip {parts : List (α × β)} {r : Outcome} (h : Decides test eval parts fallback r)
    (hguard : test guard = .ok false) :
    Decides test eval ((guard, branch) :: parts) fallback r := by
  cases h with
  | passes hbefore hpass =>
    rw [← cons_append]
    exact .passes (forall_mem_cons.mpr ⟨hguard, hbefore⟩) hpass
  | faults hbefore hfault =>
    rw [← cons_append]
    exact .faults (forall_mem_cons.mpr ⟨hguard, hbefore⟩) hfault
  | falls hall => exact .falls (forall_mem_cons.mpr ⟨hguard, hall⟩)

/-- Tries guards from the first on. -/
def decided (test : α → Except Fault Bool) (eval : β → Outcome) (fallback : β) :
    List (α × β) → Outcome
  | [] => eval fallback
  | (guard, branch) :: rest => do
      if ← test guard then eval branch else decided test eval fallback rest

theorem decided_cons (guard : α) (branch : β) (rest : List (α × β)) :
    decided test eval fallback ((guard, branch) :: rest) = test guard >>= fun pass =>
      if pass = true then eval branch else decided test eval fallback rest := rfl

theorem decides_decided (parts : List (α × β)) :
    Decides test eval parts fallback (decided test eval fallback parts) := by
  induction parts with
  | nil => exact .falls (by simp)
  | cons x rest ih =>
    obtain ⟨guard, branch⟩ := x
    rw [decided_cons]
    cases hguard : test guard with
    | error fault =>
      rw [← nil_append ((guard, branch) :: rest)]
      exact .faults (by simp) hguard
    | ok pass =>
      cases pass with
      | true =>
        rw [← nil_append ((guard, branch) :: rest)]
        exact .passes (by simp) hguard
      | false => exact ih.skip hguard

/-- A guard that does as one before it is never the one that decides. -/
theorem decided_append_cons {before after : List (α × β)}
    (h : test guard = .ok false ∨ ∃ x ∈ before, test x.1 = test guard) :
    decided test eval fallback (before ++ (guard, branch) :: after) =
      decided test eval fallback (before ++ after) := by
  induction before with
  | nil =>
    have hguard : test guard = .ok false := h.resolve_right (by simp)
    rw [nil_append, nil_append, decided_cons, hguard]
    rfl
  | cons x before ih =>
    obtain ⟨g, b⟩ := x
    rw [cons_append, cons_append, decided_cons, decided_cons]
    cases hg : test g with
    | error fault => rfl
    | ok pass =>
      cases pass with
      | true => rfl
      | false =>
        refine ih ?_
        rcases h with h | ⟨x, hx, hsame⟩
        · exact .inl h
        · rcases mem_cons.mp hx with rfl | hx
          · exact .inl (hsame.symm.trans hg)
          · exact .inr ⟨x, hx, hsame⟩

end Decided

namespace Operator

theorem choose_interleaved_cons (guard branch : Outcome) (parts : List (Outcome × Outcome))
    (last : Outcome) : choose (interleaved ((guard, branch) :: parts) last) = guard >>= fun v =>
      if v.truthy = true then branch else choose (interleaved parts last) := by
  obtain ⟨a, rest, h⟩ := interleaved_eq_cons parts last
  rw [interleaved, h]
  rfl

theorem select_interleaved_cons (input : Value) (guard branch : Outcome)
    (parts : List (Outcome × Outcome)) (last : Outcome) :
    select input (interleaved ((guard, branch) :: parts) last) = guard >>= fun v =>
      if input.same v = true then branch else select input (interleaved parts last) := by
  obtain ⟨a, rest, h⟩ := interleaved_eq_cons parts last
  rw [interleaved, h]
  rfl

end Operator

namespace Term

variable (item : List Segment) (c : Context)

theorem map_interleaved {α β : Type} (f : α → β) (pairs : List (α × α)) (last : α) :
    (interleaved pairs last).map f = interleaved (pairs.map (Prod.map f f)) (f last) := by
  induction pairs with
  | nil => rfl
  | cons p pairs ih =>
    rw [interleaved, map_cons, map_cons, ih]
    rfl

theorem eval_case (parts : List (Term × Term)) (last : Term) (type : ValueType) :
    eval item c (.apply .case (interleaved parts last) type) =
      decided (fun g => (eval item c g).map Value.truthy) (eval item c) last parts := by
  rw [eval, evalAll_eq_map, map_interleaved]
  change Operator.choose _ = _
  induction parts with
  | nil => rfl
  | cons x parts ih =>
    obtain ⟨g, b⟩ := x
    rw [decided_cons, ← ih]
    refine (Operator.choose_interleaved_cons _ _ _ _).trans ?_
    cases eval item c g with
    | error fault => rfl
    | ok v => rfl

theorem select_eq_decided (input : Value) (parts : List (Literal × Term)) (last : Term) :
    Operator.select input (interleaved
        (parts.map fun y => (.ok (.ofLiteral y.1), eval item c y.2)) (eval item c last)) =
      decided (fun l => .ok (input.same (.ofLiteral l))) (eval item c) last parts := by
  induction parts with
  | nil => rfl
  | cons x parts ih =>
    rw [decided_cons, ← ih]
    exact Operator.select_interleaved_cons _ _ _ _ _

theorem eval_match (input : Term) (parts : List (Literal × Term)) (last : Term)
    (type : ValueType) :
    eval item c (.apply .match'
        (input :: interleaved (parts.map fun y => (.literal y.1, y.2)) last) type) =
      eval item c input >>= fun v =>
        decided (fun l => .ok (v.same (.ofLiteral l))) (eval item c) last parts := by
  obtain ⟨a, rest, h⟩ := interleaved_eq_cons
    (parts.map fun y => (.ok (.ofLiteral y.1), eval item c y.2)) (eval item c last)
  have hrest : (interleaved (parts.map fun y => (Term.literal y.1, y.2)) last).map (eval item c) =
      a :: rest := by
    rw [← h, map_interleaved, map_map]
    rfl
  rw [eval, evalAll_eq_map, map_cons, hrest]
  simp only [← select_eq_decided, h]
  rfl

end Term

namespace Elaboration

/-- At a definite type `case` evaluates as one of its branches, compiled alone: the one after the
first condition that holds, or the fallback. So does `match`, with the first label that is equal to
its input; a label that was there before changes nothing. -/
theorem property_selects {env : Env} {type : ValueType} (htype : type ≠ .any) (place here : Location)
    (pairs : List (Expr × Expr)) (last : Expr) (t : Term) :
    (property env type place (.expression (.op here .case (interleaved pairs last))) = .ok t →
      ∃ parts fallback,
        Forall₂ (fun x y => Compiles env .bool x.1 y.1 ∧ Compiles env type x.2 y.2) pairs parts ∧
        Compiles env type last fallback ∧
        ∀ item c, Decides (fun g : Term => (g.eval item c).map Value.truthy) (Term.eval item c) parts
          fallback (t.eval item c)) ∧
    ∀ input,
      property env type place (.expression (.op here .match' (input :: interleaved pairs last))) =
        .ok t →
      (∃ label x parts fallback, Compiles env label input x ∧
        Forall₂ (fun p y => IsLabel label p.1 y.1 ∧ Compiles env type p.2 y.2) pairs parts ∧
        Compiles env type last fallback ∧
        ∀ item c,
          (∀ fault, x.eval item c = .error fault → t.eval item c = .error fault) ∧
          ∀ v, x.eval item c = .ok v →
            Decides (fun l => .ok (v.same (.ofLiteral l))) (Term.eval item c) parts fallback
              (t.eval item c)) ∧
      ∀ before after p q l b b', pairs = before ++ (.literal p l, b) :: after →
        (.literal q l, b') ∈ before →
        ∃ u, Compiles env type (.op here .match' (input :: interleaved (before ++ after) last)) u ∧
          ∀ item c, u.eval item c = t.eval item c := by
  refine ⟨fun h => ?_, fun input h => ?_⟩
  · obtain ⟨parts, fallback, hparts, hfallback, rfl⟩ :=
      (compiles_case_iff htype).mp (property_eq_ok_iff.mp h)
    refine ⟨parts, fallback, hparts, hfallback, fun item c => ?_⟩
    rw [Term.eval_case]
    exact decides_decided parts
  · obtain ⟨-, label, x, parts, fallback, hx, hparts, hfallback, rfl⟩ :=
      (compiles_match_iff htype).mp (property_eq_ok_iff.mp h)
    refine ⟨⟨label, x, parts, fallback, hx, hparts, hfallback, fun item c => ⟨?_, ?_⟩⟩, ?_⟩
    · intro fault hfault
      rw [Term.eval_match, hfault]
      rfl
    · intro v hv
      rw [Term.eval_match, hv]
      exact decides_decided parts
    · rintro before after p q l b b' rfl hearlier
      obtain ⟨first, rest, hfirst, hrest, rfl⟩ := forall₂_append_left_iff.mp hparts
      obtain ⟨y, later, hy, hlater, rfl⟩ := forall₂_cons_left_iff.mp hrest
      obtain ⟨z, hz, hlabel, -⟩ := exists_mem_of_forall₂ hfirst.flip hearlier
      -- the guard of the later one passes only where that of the earlier one does
      have hsame : z.1 = y.1 := hlabel.eq.trans hy.1.eq.symm
      have hne : before ++ after ≠ [] :=
        append_ne_nil_of_left_ne_nil (ne_nil_of_mem hearlier) after
      refine ⟨_, (compiles_match_iff htype).mpr ⟨hne, label, x, first ++ later, fallback, hx,
        forall₂_append_left_iff.mpr ⟨first, later, hfirst, hlater, rfl⟩, hfallback, rfl⟩, ?_⟩
      intro item c
      rw [Term.eval_match, Term.eval_match]
      congr 1
      funext v
      exact (decided_append_cons (.inr ⟨z, hz, by rw [hsame]⟩)).symm

/-- The kind of a pet, with a label that stands twice and a branch that cannot be read; and a
condition that cannot be read after one that does not hold. -/
theorem property_selects_pet :
    let env : Env := ⟨.builtin, .html, ⟨110, 110⟩⟩
    let key (s : String) : Expr := .get .root ⟨.item, [.key s]⟩ none
    let text (s : String) : Expr := .literal .root (.string s)
    let kinds := [(text "dog", key "name"), (text "cat", key "owner")]
    let checks := [(Expr.has .root ⟨.item, [.key "owner"]⟩, key "owner"), (key "lost", text "lost")]
    let c : Context := ⟨.object [("kind", .string "dog"), ("name", .string "Rex")], []⟩
    (∃ t u, property env .string .root (.expression (.op .root .match'
          (key "kind" :: interleaved (kinds ++ [(text "dog", text "again")]) (text "?")))) = .ok t ∧
        Compiles env .string (.op .root .match' (key "kind" :: interleaved kinds (text "?"))) u ∧
        t.eval [] c = .ok (.string "Rex") ∧ ∀ item d, u.eval item d = t.eval item d) ∧
      ∃ t parts fallback, property env .string .root
          (.expression (.op .root .case (interleaved checks (text "?")))) = .ok t ∧
        t.eval [] c = .error (.missing "item.lost") ∧
        ∀ item d, Decides (fun g : Term => (g.eval item d).map Value.truthy) (Term.eval item d) parts
          fallback (t.eval item d) := by
  intro env key text kinds checks c
  let read (s : String) (type : ValueType) : Term := .read ⟨.item, [.key s]⟩ type .zero
  let word (s : String) : Term := .literal (.string s)
  constructor
  · have ht : property env .string .root (.expression (.op .root .match'
        (key "kind" :: interleaved (kinds ++ [(text "dog", text "again")]) (text "?")))) =
        .ok (.apply .match' [read "kind" .string, word "dog", read "name" .string, word "cat",
          read "owner" .string, word "dog", word "again", word "?"] .string) := by with_unfolding_all rfl
    have hselects := (property_selects (by decide) .root .root _ _ _).2 (key "kind") ht
    obtain ⟨u, hu, heval⟩ := hselects.2 kinds [] .root .root (.string "dog") (text "again")
      (key "name") rfl mem_cons_self
    exact ⟨_, u, ht, hu, by decide +kernel, heval⟩
  · have ht : property env .string .root
        (.expression (.op .root .case (interleaved checks (text "?")))) =
        .ok (.apply .case [.presence ⟨.item, [.key "owner"]⟩, read "owner" .string,
          read "lost" .bool, word "lost", word "?"] .string) := by with_unfolding_all rfl
    obtain ⟨parts, fallback, -, -, hdecides⟩ :=
      (property_selects (by decide) .root .root checks (text "?") _).1 ht
    exact ⟨_, parts, fallback, ht, by decide +kernel, hdecides⟩

end Elaboration

end Widgetry
