import Mathlib.Data.Finset.Lattice.Lemmas
import Widgetry.Proofs.Expr.Compilation
import Widgetry.Proofs.Expr.Dependence
import Widgetry.Source.KotlinCode
import Widgetry.Source.SwiftCode
import Widgetry.View.Retained

/-!
# Backends

A property value is compiled to source text of one of two languages, or to a closure over the data.
Each backend writes the terms of elaboration, so that what they report of typing is the same:
`Backend.compile_type_eq`.
-/

namespace Widgetry

open List

namespace Source

/-! ### Source text -/

/-- What is kept while source text is written: the variables of the items at hand, the innermost
last, and the helpers called so far. -/
structure Writing where
  items : List String
  used : Finset Helper

namespace Writing

variable (s : Writing)

def item : String := s.items.getLast?.getD "data"

def requiring (uses : List Helper) : Writing := { s with used := s.used ∪ uses.toFinset }

theorem requiring_nil : s.requiring [] = s := by
  simp only [requiring, toFinset_nil, Finset.union_empty]

theorem requiring_requiring (uses more : List Helper) :
    (s.requiring uses).requiring more = s.requiring (uses ++ more) := by
  simp only [requiring, toFinset_append, Finset.union_assoc]

theorem requiring_perm {uses more : List Helper} (h : uses.Perm more) :
    s.requiring uses = s.requiring more := by
  simp only [requiring, toFinset_eq_of_perm _ _ h]

end Writing

/-- Writes code: its text, and the helpers it calls. -/
def Code.write (c : Code) (s : Writing) : String × Writing := (c.text, s.requiring c.uses)

namespace Language

variable (lang : Language)

/-- Writes source text. Operands come as text, the helpers they call are counted already. -/
def emitter : Emitter Writing String where
  literal l := (lang.literal l).write
  read b want fallback s := (lang.read s.item b want fallback).write s
  presence b s := (lang.presence s.item b).write s
  operator op os _ := (lang.operator op (os.map fun o => (.plain o.1, o.2))).write
  coerce text _ target := (lang.coerce (.plain text) target).write

theorem terms_eq_map (item : String) (ts : List Term) :
    lang.terms item ts = ts.map fun t => (lang.term item t, t.type) := by
  induction ts with
  | nil => rw [terms, map_nil]
  | cons t ts ih => rw [terms, ih, map_cons]

/-- Operands as text alone. -/
def bare (cs : List (Code × ValueType)) : List (Code × ValueType) :=
  cs.map fun o => (.plain o.1.text, o.2)

/-- An operator reads nothing but the texts of its operands, and adds a helper to theirs. -/
theorem operator_eq (op : Operator) (cs : List (Code × ValueType)) :
    lang.operator op cs = ⟨(lang.operator op (bare cs)).text,
      (cs.flatMap fun o => o.1.uses) ++ (lang.operator op (bare cs)).uses⟩ := by
  have hdynamic : (bare cs).any (·.2 == .any) = cs.any (·.2 == .any) := any_map
  have hjoin : ∀ f : List String → String, Code.join f ((bare cs).map Prod.fst) =
      .plain (f ((cs.map Prod.fst).map Code.text)) := by
    intro f
    simp [Code.join, Code.plain, bare, flatMap_map, Function.comp_def]
  unfold operator
  simp only [hdynamic, hjoin]
  cases operatorHelper? op (cs.any (·.2 == .any)) with
  | none => simp [Code.join, Code.plain, flatMap_map]
  | some h => simp [Code.join, Code.plain, flatMap_map, calling, Code.needing]

theorem coerce_eq (c : Code) (target : ValueType) :
    lang.coerce c target =
      ⟨(lang.coerce (.plain c.text) target).text,
        c.uses ++ (lang.coerce (.plain c.text) target).uses⟩ := by
  cases target <;> simp [coerce, calling, either, Code.wrap, Code.needing, Code.plain]

theorem writes_emitter : lang.emitter.Writes (fun s t => (lang.term s.item t).text)
    (fun s ts => s.requiring (ts.flatMap fun t => (lang.term s.item t).uses)) where
  literal s l := by
    rw [flatMap_singleton, term]
    rfl
  read s b want fallback := by
    rw [flatMap_singleton, term]
    rfl
  presence s b := by
    rw [flatMap_singleton, term]
    rfl
  operator s op ts result := by
    have hoperands : (ts.map (Term.typed fun t => (lang.term s.item t).text)).map
        (fun o => (Code.plain o.1, o.2)) = bare (lang.terms s.item ts) := by
      rw [terms_eq_map, bare, map_map, map_map]
      rfl
    have huses : (ts.flatMap fun t => (lang.term s.item t).uses) =
        (lang.terms s.item ts).flatMap fun o => o.1.uses := by
      rw [terms_eq_map, flatMap_map]
    rw [flatMap_singleton, term, operator_eq, huses, ← s.requiring_requiring]
    simp only [emitter, hoperands]
    rfl
  coerce s t target := by
    rw [flatMap_singleton, flatMap_singleton, term, coerce_eq, ← s.requiring_requiring]
    rfl
  out_after s ts := rfl
  after_nil s := s.requiring_nil
  after_after s ts us := by
    rw [flatMap_append]
    exact s.requiring_requiring _ _
  after_perm s ts us h := s.requiring_perm (h.flatMap_right _)

end Language

end Source

/-! ### Closures -/

/-- A value that is computed from a context, with the paths it is computed from. -/
structure Closure where
  deps : List DataPath
  run : Context → Outcome

namespace Closure

def ofFormula (f : Formula) : Closure := ⟨f.deps, f.eval⟩

/-- Makes closures; what is kept is the path of the item at hand. -/
def emitter : Emitter (List Segment) Closure where
  literal l item := (⟨[], fun _ => .ok (.ofLiteral l)⟩, item)
  read b want fallback item :=
    (⟨(b.absolute? item).toList, fun c => Term.readBinding item c b want fallback⟩, item)
  presence b item :=
    (⟨(b.absolute? item).toList, fun c => .ok (.bool (Term.isThere item c b))⟩, item)
  operator op os _ item :=
    (⟨os.foldl (fun acc o => Term.union acc o.1.deps) [],
      fun c => op.apply (os.map fun o => o.1.run c)⟩, item)
  coerce o _ target item := (⟨o.deps, fun c => do (← o.run c).convert target⟩, item)

theorem depsAll_eq_foldl (item : List Segment) (acc : List DataPath) (ts : List Term) :
    Term.depsAll item acc ts = ts.foldl (fun acc t => Term.union acc (t.deps item)) acc := by
  induction ts generalizing acc with
  | nil => rw [Term.depsAll, foldl_nil]
  | cons t ts ih => rw [Term.depsAll, ih, foldl_cons]

theorem ofFormula_eq {item : List Segment} {t : Term} {deps : List DataPath}
    {run : Context → Outcome} (hdeps : t.deps item = deps) (hrun : ∀ c, t.eval item c = run c) :
    ofFormula ⟨item, t⟩ = ⟨deps, run⟩ := by
  have heval : Formula.eval ⟨item, t⟩ = run := funext hrun
  rw [ofFormula, Formula.deps, hdeps, heval]

theorem writes_emitter :
    emitter.Writes (fun item t => ofFormula ⟨item, t⟩) (fun item _ => item) where
  literal item l := by
    rw [ofFormula_eq (by rw [Term.deps]) fun c => by rw [Term.eval]]
    rfl
  read item b want fallback := by
    rw [ofFormula_eq (by rw [Term.deps]) fun c => by rw [Term.eval]]
    rfl
  presence item b := by
    rw [ofFormula_eq (by rw [Term.deps]) fun c => by rw [Term.eval]]
    rfl
  operator item op ts result := by
    have hdeps : (Term.apply op ts result).deps item =
        (ts.map (Term.typed fun t => ofFormula ⟨item, t⟩)).foldl
          (fun acc o => Term.union acc o.1.deps) [] := by
      rw [Term.deps, depsAll_eq_foldl, foldl_map]
      rfl
    have hrun : ∀ c, (Term.apply op ts result).eval item c =
        op.apply ((ts.map (Term.typed fun t => ofFormula ⟨item, t⟩)).map fun o => o.1.run c) := by
      intro c
      rw [Term.eval, Term.evalAll_eq_map, map_map]
      rfl
    rw [ofFormula_eq hdeps hrun]
    rfl
  coerce item t target := by
    rw [ofFormula_eq (t := .coerce t target) (by rw [Term.deps]) fun c => by rw [Term.eval]]
    rfl
  out_after item ts := rfl
  after_nil item := rfl
  after_after item ts us := rfl
  after_perm item ts us h := rfl

end Closure

/-! ### Agreement -/

/-- What property values are compiled to: source text of a language, or closures. -/
inductive Backend where
  | kotlin
  | swift
  | closure
deriving DecidableEq, Repr

namespace Backend

/-- What a backend keeps while it writes. -/
def State : Backend → Type
  | .kotlin | .swift => Source.Writing
  | .closure => List Segment

def Output : Backend → Type
  | .kotlin | .swift => String
  | .closure => Closure

def emitter : (x : Backend) → Emitter x.State x.Output
  | .kotlin => Source.Kotlin.language.emitter
  | .swift => Source.Swift.language.emitter
  | .closure => Closure.emitter

/-- Compiles a property value at an expected type from a state: gives the output with its static
type, and the next state. -/
def compile (x : Backend) (env : Env) (expected : ValueType) (place : Location)
    (v : PropertyValue) (s : x.State) : Except Error ((x.Output × ValueType) × x.State) :=
  (x.emitter.property env expected place v).run s

def output : (x : Backend) → x.State → Term → x.Output
  | .kotlin => fun s t => (Source.Kotlin.language.term s.item t).text
  | .swift => fun s t => (Source.Swift.language.term s.item t).text
  | .closure => fun item t => .ofFormula ⟨item, t⟩

def after : (x : Backend) → x.State → List Term → x.State
  | .kotlin => fun s ts =>
      s.requiring (ts.flatMap fun t => (Source.Kotlin.language.term s.item t).uses)
  | .swift => fun s ts =>
      s.requiring (ts.flatMap fun t => (Source.Swift.language.term s.item t).uses)
  | .closure => fun item _ => item

theorem writes (x : Backend) : x.emitter.Writes x.output x.after := by
  cases x with
  | kotlin => exact Source.Kotlin.language.writes_emitter
  | swift => exact Source.Swift.language.writes_emitter
  | closure => exact Closure.writes_emitter

/-- Typing does not depend on the backend or its state: either all succeed with one static type, or
all fail with one error. A backend gives what it makes of the elaborated term. -/
theorem compile_type_eq (x y : Backend) (s : x.State) (u : y.State) (env : Env)
    (expected : ValueType) (place : Location) (v : PropertyValue) :
    (x.compile env expected place v s).map (fun r => r.1.2) =
        (y.compile env expected place v u).map (fun r => r.1.2) ∧
      x.compile env expected place v s = (Elaboration.property env expected place v).map fun t =>
        ((x.output s t, t.type), x.after s [t]) := by
  have hx := x.writes.run_property s env expected place v
  have hy := y.writes.run_property u env expected place v
  refine ⟨?_, hx⟩
  rw [compile, compile, hx, hy]
  cases Elaboration.property env expected place v with
  | error e => rfl
  | ok t => rfl

end Backend

end Widgetry
