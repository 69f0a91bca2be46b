import Mathlib.Data.List.Basic
import Widgetry.Proofs.Expr.Checking

/-!
# Compilation in one pass

A property value can be written out while it is checked, without a term in between. The pass keeps
of each operand only its type and what an emitter made of it, and hands the state of the emitter
from one node to the next. `Emitter.Writes.run_property` says that this is elaboration followed by
writing the term: the pass fails with the error of elaboration, else it gives the type of the term.
-/

namespace Widgetry

open List

/-- What writes checked nodes out. Each operation takes the state of the emitter and gives the next
one; operands and what is converted come with their types. -/
structure Emitter (σ α : Type) where
  literal : Literal → σ → α × σ
  read : Binding → ValueType → Fallback → σ → α × σ
  presence : Binding → σ → α × σ
  operator : Operator → List (α × ValueType) → ValueType → σ → α × σ
  coerce : α → ValueType → ValueType → σ → α × σ

/-- A step of a compilation: it may fail, and it changes the state of an emitter. -/
abbrev Compilation (σ β : Type) := StateT σ (Except Error) β

namespace Emitter

open Elaboration (Mode branches zipAlternate)

variable {σ α : Type}

def emit (type : ValueType) (write : σ → α × σ) : Compilation σ (α × ValueType) := fun s =>
  .ok (((write s).1, type), (write s).2)

variable (E : Emitter σ α)

def fit (place : Location) (target : ValueType) (o : α × ValueType) :
    Compilation σ (α × ValueType) :=
  if o.2 = target then pure o
  else if o.2.converts target then emit target (E.coerce o.1 o.2 target)
  else throw (.expressionType place (.mismatch target o.2))

/-- Brings several outputs to a type, each with its location. -/
def fitAll (target : ValueType) :
    List Location → List (α × ValueType) → Compilation σ (List (α × ValueType))
  | place :: places, o :: os => do
      let p ← E.fit place target o
      let ps ← fitAll target places os
      return p :: ps
  | _, _ => pure []

/-- The wanted type if it is a definite one, else the one type that is given. -/
def common (want : Option ValueType) (types : List ValueType) : ValueType :=
  match want with
  | some .any | none =>
      match types with
      | [] => .any
      | type :: rest => if rest.all (· == type) then type else .any
  | some type => type

/-- A literal; text is resolved where a color is wanted. -/
def writeLiteral (env : Env) (want : Option ValueType) (place : Location) :
    Literal → Compilation σ (α × ValueType)
  | .string s =>
      if want = some .color then
        match env.style.resolveColor? env.platform s with
        | some c => emit .color (E.literal (.color c))
        | none => throw (.invalidColor place s)
      else emit .string (E.literal (.string s))
  | l => emit l.type (E.literal l)

/-- A read of a binding, or the canvas size. -/
def writeRead (env : Env) (want : Option ValueType) (nullable : Bool) (place : Location)
    (b : Binding) (fallback : Option Literal) : Compilation σ (α × ValueType) :=
  if b.scope = .size then
    match b.axis? with
    | some .width => emit .number (E.literal (.number env.size.width))
    | some .height => emit .number (E.literal (.number env.size.height))
    | none => throw (.schema place (.unresolvedSize b))
  else do
    let fallback ← Elaboration.default? env want place fallback
    match fallback with
    | some l => emit l.type (E.read b l.type (if nullable then .null else .default l))
    | none =>
        let type := want.getD .any
        emit type (E.read b type (if nullable then .null else .zero))

def writeDecimals (e : Expr) : Compilation σ (α × ValueType) :=
  match e with
  | .literal place (.number x) =>
      if Decimal.isWhole x && 0.0 ≤ x && x ≤ 6.0 then emit .number (E.literal (.number x))
      else throw (.expressionType place .badDecimals)
  | e => throw (.expressionType e.place .badDecimals)

/-- Brings the branches among alternating operands to one type. -/
def unifyBranches (want : Option ValueType) (places : List Location) (os : List (α × ValueType)) :
    Compilation σ (List (α × ValueType) × ValueType) := do
  let type := common want ((branches os).2.map Prod.snd)
  let outs ← E.fitAll type (branches places).2 (branches os).2
  return (zipAlternate (branches os).1 outs, type)

def writeCompared (op : Operator) (ordered : Bool) (place : Location) (places : List Location)
    (os : List (α × ValueType)) : Compilation σ (α × ValueType) :=
  match places, os with
  | [p, q], [a, b] => do
      let type ← Elaboration.comparedType place ordered a.2 b.2
      let a ← E.fit p type a
      let b ← E.fit q type b
      emit .bool (E.operator op [a, b] .bool)
  | _, os => emit .bool (E.operator op os .bool)

def assemble (op : Operator) (want : Option ValueType) (place : Location) (places : List Location)
    (os : List (α × ValueType)) : Compilation σ (α × ValueType) :=
  match op with
  | .add | .sub | .mul | .div | .mod => emit .number (E.operator op os .number)
  | .eq | .ne => E.writeCompared op false place places os
  | .lt | .le | .gt | .ge => E.writeCompared op true place places os
  | .all | .any | .not => emit .bool (E.operator op os .bool)
  | .case => do
      let (args, type) ← E.unifyBranches want places os
      emit type (E.operator .case args type)
  | .match' => do
      let (args, type) ← E.unifyBranches want places.tail os.tail
      emit type (E.operator .match' (os.head?.toList ++ args) type)
  | .coalesce => do
      let type := common want (os.map Prod.snd)
      let args ← E.fitAll type places os
      emit type (E.operator .coalesce args type)
  | .toString =>
      match places, os with
      | p :: _, o :: _ => E.fit p .string o
      | _, os => emit .string (E.operator op os .string)
  | .formatNumber =>
      match os with
      | [x] => do
          let unit ← emit .string (E.literal (.string ""))
          let decimals ← emit .number (E.literal (.number 0.0))
          emit .string (E.operator op [x, unit, decimals] .string)
      | [x, unit] => do
          let decimals ← emit .number (E.literal (.number 0.0))
          emit .string (E.operator op [x, unit, decimals] .string)
      | os => emit .string (E.operator op os .string)
  | .concat | .upcase | .downcase | .substring | .formatDate =>
      emit .string (E.operator op os .string)
  | .rgb | .rgba | .interpolateColor | .themeColor => emit .color (E.operator op os .color)

def writeThemeColor (env : Env) : List Expr → Compilation σ (α × ValueType)
  | [.literal place (.string token)] =>
      match env.style.themeColor? env.platform token with
      | some c => emit .color (E.literal (.color c))
      | none => throw (.invalidColor place token)
  | e :: _ => throw (.expressionType e.place .tokenNotLiteral)
  | [] => emit .color (E.operator .themeColor [] .color)

mutual

/-- Checks an expression and writes it, told the wanted type. -/
def expr (env : Env) (want : Option ValueType) : Expr → Compilation σ (α × ValueType)
  | .literal place l => E.writeLiteral env want place l
  | .get place b fallback => E.writeRead env want false place b fallback
  | .has _ b => emit .bool (E.presence b)
  | .op place op args =>
      if !op.arity.admits args.length then
        throw (.expressionType place (.arity op args.length))
      else if op = .themeColor then E.writeThemeColor env args
      else do
        let label ← Elaboration.precheck op args
        let os ← operands env (Elaboration.mode op want label args.length) 0 args
        E.assemble op want place (args.map Expr.place) os

/-- Checks operands and writes them in order, the first one standing at an index. -/
def operands (env : Env) (modeAt : Nat → Mode) (i : Nat) :
    List Expr → Compilation σ (List (α × ValueType))
  | [] => pure []
  | e :: es => do
      let o ← match modeAt i with
        | .expect type => do
            let o ← expr env (some type) e
            E.fit e.place type o
        | .offer want => expr env want e
        | .nullable want =>
            match e with
            | .get place b fallback => E.writeRead env want true place b fallback
            | _ => expr env want e
        | .decimals => E.writeDecimals e
      let os ← operands env modeAt (i + 1) es
      return o :: os

end

/-- Checks a property value at an expected type and writes it. -/
def property (env : Env) (expected : ValueType) (place : Location) (v : PropertyValue) :
    Compilation σ (α × ValueType) := do
  let o ← match v with
    | .literal l => E.writeLiteral env (some expected) place l
    | .binding b => E.writeRead env (some expected) false place b none
    | .setting key => E.writeRead env (some expected) false place (.setting key) none
    | .expression e => E.expr env (some expected) e
  E.fit place expected o

end Emitter

/-! ### Terms as they are written -/

/-- What is kept of a term: what is written for it, and its type. -/
def Term.typed {α : Type} (write : Term → α) (t : Term) : α × ValueType := (write t, t.type)

/-- An emitter that writes a term from what it wrote for the operands. `out` is what is written from
a state, and `after` the state when some terms are written: it gathers what they need, in any order,
and does not change what is written later. -/
structure Emitter.Writes {σ α : Type} (E : Emitter σ α) (out : σ → Term → α)
    (after : σ → List Term → σ) : Prop where
  literal : ∀ s l, E.literal l s = (out s (.literal l), after s [.literal l])
  read : ∀ s b want fallback,
    E.read b want fallback s = (out s (.read b want fallback), after s [.read b want fallback])
  presence : ∀ s b, E.presence b s = (out s (.presence b), after s [.presence b])
  operator : ∀ s op ts result, E.operator op (ts.map (Term.typed (out s))) result (after s ts) =
    (out s (.apply op ts result), after s [.apply op ts result])
  coerce : ∀ s t target, E.coerce (out s t) t.type target (after s [t]) =
    (out s (.coerce t target), after s [.coerce t target])
  out_after : ∀ s ts, out (after s ts) = out s
  after_nil : ∀ s, after s [] = s
  after_after : ∀ s ts us, after (after s ts) us = after s (ts ++ us)
  after_perm : ∀ s {ts us : List Term}, ts.Perm us → after s ts = after s us

namespace Elaboration

variable {α β : Type}

theorem zipAlternate_map (f : α → β) (as bs : List α) :
    zipAlternate (as.map f) (bs.map f) = (zipAlternate as bs).map f := by
  induction as generalizing bs with
  | nil => simp only [map_nil, zipAlternate]
  | cons a as ih =>
    cases bs with
    | nil => simp only [map_cons, map_nil, zipAlternate]
    | cons b bs => simp only [map_cons, zipAlternate, ih]

theorem zipAlternate_perm (as bs : List α) : (zipAlternate as bs).Perm (as ++ bs) := by
  induction as generalizing bs with
  | nil => simp only [zipAlternate, nil_append, Perm.refl]
  | cons a as ih =>
    cases bs with
    | nil => simp only [zipAlternate, append_nil, Perm.refl]
    | cons b bs =>
      simp only [zipAlternate, cons_append]
      exact (((ih bs).cons b).trans perm_middle.symm).cons a

end Elaboration

theorem Emitter.common_map_type (want : Option ValueType) (ts : List Term) :
    Emitter.common want (ts.map Term.type) = Term.common want ts := by
  -- the type that is shared where none is wanted
  have hshared : Emitter.common none (ts.map Term.type) = Term.common none ts := by
    cases ts with
    | nil => rfl
    | cons t ts => simp only [Term.common, Emitter.common, map_cons, all_map,
        Function.comp_def]
  cases want with
  | none => exact hshared
  | some type =>
    cases type with
    | any => exact hshared
    | _ => rfl

namespace Emitter.Writes

variable {σ α : Type} {E : Emitter σ α} {out : σ → Term → α} {after : σ → List Term → σ}
  {β γ β' : Type} {f : β → Compilation σ β'} {places : List Location} {ts : List Term}
  {op : Operator}

/-- Steps in sequence follow an elaboration that each of them follows. -/
theorem run_bind {γ' : Type} {x : Compilation σ β} {y : Except Error γ} {g : γ → Except Error γ'}
    {s : σ} {view : γ → β × σ} {view' : γ' → β' × σ} (hx : x.run s = y.map view)
    (hf : ∀ c, y = .ok c → (f (view c).1).run (view c).2 = (g c).map view') :
    (x >>= f).run s = (y >>= g).map view' := by
  rw [StateT.run_bind, hx]
  cases y with
  | error e => rfl
  | ok c => exact hf c rfl

/-- A check that writes nothing. -/
theorem run_check {y : Except Error β} {g : β → Except Error γ} {s : σ} {view : γ → β' × σ}
    (hf : ∀ b, y = .ok b → (f b).run s = (g b).map view) :
    ((liftM y : Compilation σ β) >>= f).run s = (y >>= g).map view := by
  cases y with
  | error e => rfl
  | ok b => exact hf b rfl

section

variable (h : E.Writes out after) (s : σ)

include h s

theorem run_literal (l : Literal) :
    (emit l.type (E.literal l)).run s =
      .ok ((Term.literal l).typed (out s), after s [.literal l]) := by
  simp only [emit, StateT.run, h.literal]
  rfl

theorem run_read (b : Binding) (want : ValueType) (fallback : Fallback) :
    (emit want (E.read b want fallback)).run s =
      .ok ((Term.read b want fallback).typed (out s), after s [.read b want fallback]) := by
  simp only [emit, StateT.run, h.read]
  rfl

theorem run_operator (op : Operator) (ts : List Term) (result : ValueType) :
    (emit result (E.operator op (ts.map (Term.typed (out s))) result)).run (after s ts) =
      .ok ((Term.apply op ts result).typed (out s), after s [.apply op ts result]) := by
  simp only [emit, StateT.run, h.operator]
  rfl

/-- A conversion of one term, the other ones being written already. -/
theorem run_fit (place : Location) (target : ValueType) (t : Term) (rest : List Term) :
    (E.fit place target (t.typed (out s))).run (after s (t :: rest)) =
      (t.fit place target).map fun u => (u.typed (out s), after s (u :: rest)) := by
  unfold Term.fit
  by_cases htype : t.type = target
  · have hkeep : E.fit place target (t.typed (out s)) = pure (t.typed (out s)) := if_pos htype
    rw [hkeep, if_pos htype]
    rfl
  rw [if_neg htype]
  by_cases hconverts : t.type.converts target = true
  · have hconvert : E.fit place target (t.typed (out s)) =
        emit target (E.coerce (out s t) t.type target) :=
      (if_neg htype).trans (if_pos hconverts)
    have hmove : ∀ u : Term, after s (u :: rest) = after (after s rest) [u] := by
      intro u
      rw [h.after_after]
      exact h.after_perm s (perm_append_singleton u rest).symm
    have hcoerce := h.coerce (after s rest) t target
    rw [h.out_after, ← hmove, ← hmove] at hcoerce
    rw [hconvert, if_pos hconverts]
    simp only [emit, StateT.run, hcoerce]
    rfl
  · have hmismatch : E.fit place target (t.typed (out s)) =
        throw (.expressionType place (.mismatch target t.type)) :=
      (if_neg htype).trans (if_neg hconverts)
    rw [hmismatch, if_neg hconverts]
    rfl

theorem run_fitAll (target : ValueType) (hlen : places.length = ts.length) (rest : List Term) :
    (E.fitAll target places (ts.map (Term.typed (out s)))).run (after s (ts ++ rest)) =
      (Term.fitAll target places ts).map fun us =>
        (us.map (Term.typed (out s)), after s (us ++ rest)) := by
  induction places generalizing ts rest with
  | nil =>
    obtain rfl := eq_nil_of_length_eq_zero hlen.symm
    rfl
  | cons place places ih =>
    cases ts with
    | nil => simp at hlen
    | cons t ts =>
      have hmove : ∀ (u : Term) (us : List Term),
          after s (u :: (us ++ rest)) = after s (us ++ (u :: rest)) := fun u us =>
        h.after_perm s perm_middle.symm
      apply run_bind (h.run_fit s place target t (ts ++ rest))
      intro u _
      dsimp only
      rw [hmove]
      apply run_bind (ih (by simpa using hlen) (u :: rest))
      intro us _
      dsimp only
      rw [← hmove]
      rfl

theorem run_writeLiteral (env : Env) (want : Option ValueType) (place : Location) (l : Literal) :
    (E.writeLiteral env want place l).run s =
      (Elaboration.literal env want place l).map fun t => (t.typed (out s), after s [t]) := by
  cases l with
  | string text =>
    unfold Emitter.writeLiteral Elaboration.literal
    by_cases hwant : want = some .color
    · simp only [if_pos hwant]
      cases env.style.resolveColor? env.platform text with
      | none => rfl
      | some c => exact h.run_literal s (.color c)
    · simp only [if_neg hwant]
      exact h.run_literal s (.string text)
  | number x => exact h.run_literal s (.number x)
  | bool b => exact h.run_literal s (.bool b)
  | color c => exact h.run_literal s (.color c)

theorem run_writeRead (env : Env) (want : Option ValueType) (nullable : Bool) (place : Location)
    (b : Binding) (fallback : Option Literal) :
    (E.writeRead env want nullable place b fallback).run s =
      (Elaboration.get env want nullable place b fallback).map fun t =>
        (t.typed (out s), after s [t]) := by
  unfold Emitter.writeRead Elaboration.get
  by_cases hscope : b.scope = .size
  · simp only [if_pos hscope]
    cases b.axis? with
    | none => rfl
    | some axis =>
      cases axis with
      | width => exact h.run_literal s (.number env.size.width)
      | height => exact h.run_literal s (.number env.size.height)
  · simp only [if_neg hscope]
    apply run_check
    intro fallback _
    cases fallback with
    | none => exact h.run_read s b _ _
    | some l => exact h.run_read s b _ _

theorem run_writeDecimals (e : Expr) :
    (E.writeDecimals e).run s =
      (Elaboration.decimals e).map fun t => (t.typed (out s), after s [t]) := by
  cases e with
  | literal place l =>
    cases l with
    | number x =>
      simp only [Emitter.writeDecimals, Elaboration.decimals]
      split
      · exact h.run_literal s (.number x)
      · rfl
    | _ => rfl
  | _ => rfl

theorem run_writeThemeColor (env : Env) (args : List Expr) :
    (E.writeThemeColor env args).run s =
      (Elaboration.themeColor env args).map fun t => (t.typed (out s), after s [t]) := by
  cases args with
  | nil =>
    have hnone := h.run_operator s .themeColor [] .color
    rw [h.after_nil] at hnone
    exact hnone
  | cons e es =>
    cases e with
    | literal place l =>
      cases l with
      | string token =>
        cases es with
        | nil =>
          simp only [Emitter.writeThemeColor, Elaboration.themeColor]
          cases env.style.themeColor? env.platform token with
          | none => rfl
          | some c => exact h.run_literal s (.color c)
        | cons _ _ => rfl
      | _ => rfl
    | _ => rfl

/-- Branches are brought to one type; what stands before the alternating operands stays. -/
theorem run_unifyBranches (want : Option ValueType) (hlen : places.length = ts.length)
    (before : List Term) :
    (E.unifyBranches want places (ts.map (Term.typed (out s)))).run (after s (before ++ ts)) =
      (Elaboration.unifyBranches want places ts).map fun r =>
        ((r.1.map (Term.typed (out s)), r.2), after s (before ++ r.1)) := by
  obtain ⟨guards, outs, hbranches⟩ : ∃ guards outs, Elaboration.branches ts = (guards, outs) :=
    ⟨_, _, rfl⟩
  have hperm : (before ++ ts).Perm (outs ++ (before ++ guards)) := by
    have hts := Elaboration.branches_perm ts
    rw [hbranches] at hts
    exact ((hts.symm.trans perm_append_comm).append_left before).trans
      (by simpa using perm_append_comm_assoc before outs guards)
  have hzip : ∀ us : List Term,
      (us ++ (before ++ guards)).Perm (before ++ Elaboration.zipAlternate guards us) := by
    intro us
    have hus := (Elaboration.zipAlternate_perm guards us).trans perm_append_comm
    exact (perm_append_comm_assoc us before guards).trans (hus.symm.append_left before)
  have hcount : (Elaboration.branches places).2.length = outs.length := by
    rw [Elaboration.length_branches_congr hlen, hbranches]
  have htypes : (outs.map (Term.typed (out s))).map Prod.snd = outs.map Term.type := by
    rw [map_map]
    rfl
  unfold Emitter.unifyBranches Elaboration.unifyBranches
  simp only [Elaboration.branches_map, hbranches, htypes, Emitter.common_map_type]
  rw [h.after_perm s hperm]
  apply run_bind (h.run_fitAll s (Term.common want outs) hcount (before ++ guards))
  intro us _
  dsimp only
  rw [h.after_perm s (hzip us), Elaboration.zipAlternate_map]
  rfl

theorem run_writeCompared (ordered : Bool) (place : Location) (hcount : ts.length = 2)
    (hlen : places.length = ts.length) :
    (E.writeCompared op ordered place places (ts.map (Term.typed (out s)))).run (after s ts) =
      (Elaboration.assemble.compared op place places ts ordered).map fun t =>
        (t.typed (out s), after s [t]) := by
  obtain ⟨a, b, rfl⟩ := length_eq_two.mp hcount
  obtain ⟨p, q, rfl⟩ := length_eq_two.mp (hlen.trans hcount)
  have hswap : ∀ c d : Term, after s [c, d] = after s [d, c] := fun c d =>
    h.after_perm s (.swap d c [])
  apply run_check
  intro type _
  apply run_bind (h.run_fit s p type a [b])
  intro a' _
  dsimp only
  rw [hswap]
  apply run_bind (h.run_fit s q type b [a'])
  intro b' _
  dsimp only
  rw [hswap]
  exact h.run_operator s op [a', b'] .bool

theorem run_formatNumber (want : Option ValueType) (place : Location) (places : List Location)
    (ts : List Term) :
    (E.assemble .formatNumber want place places (ts.map (Term.typed (out s)))).run (after s ts) =
      (Elaboration.assemble .formatNumber want place places ts).map fun t =>
        (t.typed (out s), after s [t]) := by
  -- a literal that stands for an operand left out is written after the operands
  have happend : ∀ (ts : List Term) (l : Literal)
      (f : α × ValueType → Compilation σ (α × ValueType)),
      (emit l.type (E.literal l) >>= f).run (after s ts) =
        (f ((Term.literal l).typed (out s))).run (after s (ts ++ [.literal l])) := by
    intro ts l f
    rw [StateT.run_bind, h.run_literal, h.out_after, h.after_after]
    rfl
  rcases ts with _ | ⟨x, _ | ⟨unit, _ | ⟨decimals, rest⟩⟩⟩
  · exact h.run_operator s .formatNumber [] .string
  · calc
      _ = _ := happend [x] (.string "") _
      _ = _ := happend [x, .literal (.string "")] (.number 0.0) _
      _ = _ := h.run_operator s .formatNumber
        [x, .literal (.string ""), .literal (.number 0.0)] .string
  · calc
      _ = _ := happend [x, unit] (.number 0.0) _
      _ = _ := h.run_operator s .formatNumber [x, unit, .literal (.number 0.0)] .string
  · exact h.run_operator s .formatNumber (x :: unit :: decimals :: rest) .string

theorem run_assemble (want : Option ValueType) (place : Location)
    (harity : op.arity.admits ts.length = true) (hlen : places.length = ts.length) :
    (E.assemble op want place places (ts.map (Term.typed (out s)))).run (after s ts) =
      (Elaboration.assemble op want place places ts).map fun t =>
        (t.typed (out s), after s [t]) := by
  cases op with
  | eq | ne | lt | le | gt | ge =>
    exact h.run_writeCompared s _ place (Arity.eq_of_exactly harity) hlen
  | case =>
    apply run_bind (h.run_unifyBranches s want hlen [])
    rintro ⟨args, type⟩ _
    exact h.run_operator s .case args type
  | match' =>
    cases ts with
    | nil => cases harity
    | cons t ts =>
      have htail : places.tail.length = ts.length := by simp [hlen]
      apply run_bind (h.run_unifyBranches s want htail [t])
      rintro ⟨args, type⟩ _
      exact h.run_operator s .match' (t :: args) type
  | coalesce =>
    have htypes : (ts.map (Term.typed (out s))).map Prod.snd = ts.map Term.type := by
      rw [map_map]
      rfl
    have hfit := h.run_fitAll s (Term.common want ts) hlen []
    simp only [append_nil] at hfit
    simp only [Emitter.assemble, Elaboration.assemble, htypes, Emitter.common_map_type]
    apply run_bind hfit
    intro args _
    exact h.run_operator s .coalesce args (Term.common want ts)
  | toString =>
    obtain ⟨t, rfl⟩ := length_eq_one_iff.mp (Arity.eq_of_exactly harity)
    obtain ⟨p, rfl⟩ := length_eq_one_iff.mp (hlen.trans (Arity.eq_of_exactly harity))
    exact h.run_fit s p .string t []
  | formatNumber => exact h.run_formatNumber s want place places ts
  | _ => exact h.run_operator s _ ts _

end

mutual

theorem run_expr (h : E.Writes out after) (s : σ) (env : Env) (want : Option ValueType) (e : Expr) :
    (E.expr env want e).run s =
      (Elaboration.expr env want e).map fun t => (t.typed (out s), after s [t]) := by
  cases e with
  | literal place l =>
    rw [Emitter.expr, Elaboration.expr]
    exact h.run_writeLiteral s env want place l
  | get place b fallback =>
    rw [Emitter.expr, Elaboration.expr]
    exact h.run_writeRead s env want false place b fallback
  | has place b =>
    rw [Emitter.expr, Elaboration.expr]
    simp only [emit, StateT.run, h.presence]
    rfl
  | op place op args =>
    rw [Emitter.expr, Elaboration.expr]
    split
    · rfl
    rename_i harity
    simp only [Bool.not_eq_true', Bool.not_eq_false] at harity
    split
    · exact h.run_writeThemeColor s env args
    apply run_check
    intro label _
    apply run_bind (h.run_operands s env (Elaboration.mode op want label args.length) 0 args)
    intro ts hts
    have hcount : ts.length = args.length := Elaboration.length_of_operands hts
    exact h.run_assemble s want place (by rwa [hcount]) (by simp [hcount])

theorem run_operands (h : E.Writes out after) (s : σ) (env : Env)
    (modeAt : Nat → Elaboration.Mode) (i : Nat) (es : List Expr) :
    (E.operands env modeAt i es).run s =
      (Elaboration.operands env modeAt i es).map fun ts =>
        (ts.map (Term.typed (out s)), after s ts) := by
  cases es with
  | nil =>
    rw [Emitter.operands, Elaboration.operands]
    exact congrArg (fun u => Except.ok ([], u)) (h.after_nil s).symm
  | cons e es =>
    rw [Emitter.operands, Elaboration.operands]
    -- what follows the first operand, whatever way it is written
    have hlater : ∀ t : Term,
        (E.operands env modeAt (i + 1) es >>= fun os =>
            (pure (t.typed (out s) :: os) : Compilation σ _)).run (after s [t]) =
          (Elaboration.operands env modeAt (i + 1) es >>= fun ts => pure (t :: ts)).map fun ts =>
            (ts.map (Term.typed (out s)), after s ts) := by
      intro t
      apply run_bind (h.run_operands (after s [t]) env modeAt (i + 1) es)
      intro ts _
      dsimp only
      rw [h.out_after, h.after_after]
      rfl
    cases modeAt i with
    | expect type =>
      apply run_bind (h.run_expr s env (some type) e)
      intro t _
      apply run_bind (h.run_fit s e.place type t [])
      exact fun u _ => hlater u
    | offer want =>
      apply run_bind (h.run_expr s env want e)
      exact fun t _ => hlater t
    | nullable want =>
      -- only a reading is made nullable, any other operand is written as usual
      have hplain := h.run_expr s env want e
      cases e with
      | get place b fallback =>
        apply run_bind (h.run_writeRead s env want true place b fallback)
        exact fun t _ => hlater t
      | _ => exact run_bind hplain fun t _ => hlater t
    | decimals =>
      apply run_bind (h.run_writeDecimals s e)
      exact fun t _ => hlater t

end

theorem run_property (h : E.Writes out after) (s : σ) (env : Env) (expected : ValueType)
    (place : Location) (v : PropertyValue) :
    (E.property env expected place v).run s =
      (Elaboration.property env expected place v).map fun t =>
        (t.typed (out s), after s [t]) := by
  have hfit : ∀ t : Term, (E.fit place expected (t.typed (out s))).run (after s [t]) =
      (t.fit place expected).map fun u => (u.typed (out s), after s [u]) := fun t =>
    h.run_fit s place expected t []
  cases v with
  | literal l => exact run_bind (h.run_writeLiteral s env _ place l) fun t _ => hfit t
  | binding b => exact run_bind (h.run_writeRead s env _ false place b none) fun t _ => hfit t
  | setting key => exact run_bind (h.run_writeRead s env _ false place _ none) fun t _ => hfit t
  | expression e => exact run_bind (h.run_expr s env _ e) fun t _ => hfit t

end Emitter.Writes

end Widgetry
