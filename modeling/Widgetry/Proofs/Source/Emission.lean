import Widgetry.Proofs.Element.Acceptance
import Widgetry.Source.File

/-!
# Emissions and their stack

An emission leaves the stack as it found it, whether it succeeds or fails. It reads no more of it than
the variable on top and the height, so the sheet of an element is a function of the stack.
-/

namespace Widgetry.Source

open List

def inside (k : Kind) (stack : List String) : List String :=
  if k = .forEach then itemVariable stack.length :: stack else stack

namespace Emission

def stackOf : Nat → List String
  | 0 => ["data"]
  | depth + 1 => itemVariable (depth + 1) :: stackOf depth

theorem headD_stackOf (depth : Nat) : (stackOf depth).headD "data" = itemVariable depth := by
  cases depth <;> rfl

theorem length_stackOf (depth : Nat) : (stackOf depth).length = depth + 1 := by
  induction depth with
  | zero => rfl
  | succ depth ih => rw [stackOf, length_cons, ih]

theorem inside_stackOf (k : Kind) (depth : Nat) : inside k (stackOf depth) =
    stackOf (if k = .forEach then depth + 1 else depth) := by
  unfold inside
  split
  · rw [length_stackOf]
    rfl
  · rfl

variable {α β : Type} {stack : List String} {x : Emission α} {f : α → Emission β}
  {r : Except Error α} {g : α → Except Error β}

/-- A step gives a result on a stack, be it a failure, and leaves the stack as it was. -/
def Computes (x : Emission α) (stack : List String) (r : Except Error α) : Prop :=
  x.run.run stack = (r, stack)

/-- A step that leaves every stack as it was, whether it succeeds or fails. -/
def Balanced (x : Emission α) : Prop := ∀ stack, (x.run.run stack).2 = stack

theorem computes_pure (a : α) : Computes (pure a) stack (.ok a) := rfl

theorem computes_lift (r : Except Error α) : Computes (liftM r) stack r := rfl

theorem Computes.bind (hx : x.Computes stack r) (hf : ∀ a, (f a).Computes stack (g a)) :
    (x >>= f).Computes stack (r >>= g) := by
  have hrun : (x >>= f).run.run stack =
      (ExceptT.bindCont f (x.run.run stack).1).run (x.run.run stack).2 := rfl
  rw [Computes, hrun, hx]
  cases r with
  | error e => rfl
  | ok a => exact hf a

theorem Computes.bind_ok {a : α} {r : Except Error β} (hx : x.Computes stack (.ok a))
    (hf : (f a).Computes stack r) : (x >>= f).Computes stack r := by
  have hrun : (x >>= f).run.run stack =
      (ExceptT.bindCont f (x.run.run stack).1).run (x.run.run stack).2 := rfl
  rw [Computes, hrun, hx]
  exact hf

theorem computes_within {name : String} (hx : x.Computes (name :: stack) r) :
    (within name x).Computes stack r := by
  have hrun : (within name x).run.run stack =
      ((x.run.run (name :: stack)).1, (x.run.run (name :: stack)).2.tail) := rfl
  rw [Computes, hrun, hx]
  rfl

theorem Computes.start_eq (hx : x.Computes (stackOf 0) r) : x.start = r := congrArg Prod.fst hx

theorem computes_get (stack : List String) : Computes get stack (.ok stack) := rfl

theorem computes_inKind {r : List String → Except Error α} (k : Kind)
    (hx : ∀ stack, x.Computes stack (r stack)) : (inKind k x).Computes stack (r (inside k stack)) := by
  unfold inKind inside
  split
  · exact (computes_get stack).bind_ok (computes_within (hx _))
  · exact hx stack

end Emission

/-! ### Dialects -/

@[simp]
theorem Sheet.nil_append (a : Sheet) : Sheet.plain [] ++ a = a := rfl

@[simp]
theorem Sheet.append_nil (a : Sheet) : a ++ Sheet.plain [] = a := by
  show Sheet.mk (a.directives ++ []) (a.uses ++ []) = a
  rw [List.append_nil, List.append_nil]

namespace Dialect

variable {σ : Type} (D : Dialect σ)

mutual

def element (env : Env) (stack : List String) (flow : Flow) (told : σ) :
    Element → Except Error Sheet
  | ⟨kind, id, properties, children, place⟩ => do
      let e : Element := ⟨kind, id, properties, children, place⟩
      let mods ← modifierCodes D.language env (stack.headD "data") e
      let setting ← D.setting env stack flow told e mods
      let body ← elements env (inside kind stack) setting.flow setting.between true
        (kind.showing children.length) children
      return Sheet.calling (modifierUses mods) ++ setting.around body

def elements (env : Env) (stack : List String) (flow : Flow) (between : List Directive)
    (first : Bool) : Nat → List Element → Except Error Sheet
  | 0, _ => pure (.plain [])
  | _ + 1, [] => pure (.plain [])
  | n + 1, e :: es => do
      let sheet ← element env stack flow D.inner e
      let rest ← elements env stack flow between false n es
      return Sheet.plain (if first then [] else between) ++ sheet ++ rest

end

theorem elements_one {D : Dialect σ} {env : Env} {stack : List String} {flow : Flow}
    {between : List Directive} {e : Element} {es : List Element} :
    D.elements env stack flow between true 1 (e :: es) = D.element env stack flow D.inner e := by
  simp [elements]

/-- The sheet of a layout at some sizes. -/
def sizes (style : Style) (l : Layout) : List SizeClass → Except Error Sheet
  | [] => .ok (.plain [])
  | s :: rest => do
      let body ← D.element ⟨style, D.platform, s.size⟩ ["data"] .overlay (D.outer l) l.root
      let sheets ← sizes style l rest
      return D.part s body ++ sheets

open Emission

mutual

theorem computes_emit (env : Env) (stack : List String) (flow : Flow) (told : σ) (x : Element) :
    (D.emit env flow told x).Computes stack (D.element env stack flow told x) := by
  cases x with
  | mk kind id properties children place =>
    rw [emit, element]
    refine (computes_get stack).bind_ok ((computes_lift _).bind fun mods => ?_)
    refine (computes_lift _).bind fun setting => ?_
    exact (computes_inKind kind fun stack => computes_emitFirst env stack _ _ _ _ children).bind
      fun _ => computes_pure _

theorem computes_emitFirst (env : Env) (stack : List String) (flow : Flow) (between : List Directive)
    (first : Bool) (n : Nat) (xs : List Element) :
    (D.emitFirst env flow between first n xs).Computes stack
      (D.elements env stack flow between first n xs) := by
  cases n with
  | zero =>
    rw [emitFirst, elements]
    exact computes_pure _
  | succ n =>
    cases xs with
    | nil =>
      rw [emitFirst, elements]
      exact computes_pure _
    | cons x xs =>
      rw [emitFirst, elements]
      exact (computes_emit env stack _ _ x).bind fun _ =>
        (computes_emitFirst env stack _ _ _ n xs).bind fun _ => computes_pure _

end

theorem start_emitSizes (style : Style) (l : Layout) (sizes : List SizeClass) :
    (D.emitSizes style l sizes).start = D.sizes style l sizes := by
  refine Computes.start_eq ?_
  induction sizes with
  | nil => exact computes_pure _
  | cons s sizes ih =>
    exact (D.computes_emit _ _ _ _ l.root).bind fun _ => ih.bind fun _ => computes_pure _

theorem balanced_emit (env : Env) (flow : Flow) (told : σ) (x : Element) :
    (D.emit env flow told x).Balanced :=
  fun stack => congrArg Prod.snd (D.computes_emit env stack flow told x)

end Dialect

theorem Kotlin.setting_dialect : Kotlin.dialect.setting = Kotlin.setting := rfl

theorem Swift.setting_dialect : Swift.dialect.setting = Swift.setting := rfl

end Widgetry.Source
