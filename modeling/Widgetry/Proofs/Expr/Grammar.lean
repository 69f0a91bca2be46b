import Widgetry.Element.Reader
import Widgetry.Proofs.Alignment
import Widgetry.Proofs.Computation
import Widgetry.Proofs.Location
import Widgetry.Proofs.Text

/-!
# Grammar of expressions

Templates are text with bindings in placeholders, expressions are literals, paths and operators in front
of their operands. Readers accept what the grammar allows and nothing else.
-/

namespace Widgetry

open List

/-! ### Templates -/

variable {parts : List TemplatePart}

namespace Template

/-- Text in which every placeholder is closed and names a binding. -/
inductive Written : List Char → Prop
  | text {cs : List Char} (h : Text.breakOnPair '\x7b' cs = none) : Written cs
  | placeholder {cs before after inner rest : List Char} {b : Binding}
      (hopen : Text.breakOnPair '\x7b' cs = some (before, after))
      (hclose : Text.breakOnPair '\x7d' after = some (inner, rest))
      (hname : Binding.parseLoose? (Text.trim (String.ofList inner)) = some b)
      (hrest : Written rest) : Written cs

variable {cs : List Char}

theorem length_of_breakOnPair {mark : Char} {before after : List Char}
    (h : Text.breakOnPair mark cs = some (before, after)) :
    before.length + after.length + 2 = cs.length := by
  obtain ⟨rfl, -⟩ := Text.eq_of_breakOnPair h
  simp only [length_append, length_cons]
  omega

theorem succeeds_partsFrom_iff (whole : String) {fuel : Nat} (h : cs.length ≤ fuel) :
    Succeeds (partsFrom whole fuel cs) ↔ Written cs := by
  induction fuel generalizing cs with
  | zero =>
    obtain rfl := eq_nil_of_length_eq_zero (Nat.le_zero.mp h)
    exact iff_of_true (succeeds_ok _) (.text rfl)
  | succ fuel ih =>
    rw [partsFrom]
    cases hopen : Text.breakOnPair '\x7b' cs with
    | none => exact iff_of_true (succeeds_ok _) (.text hopen)
    | some split =>
      obtain ⟨before, after⟩ := split
      simp only
      cases hclose : Text.breakOnPair '\x7d' after with
      | none =>
        refine iff_of_false nofun ?_
        rintro (htext | ⟨hopen', hclose', -, -⟩)
        · rw [hopen] at htext
          cases htext
        · rw [hopen] at hopen'
          cases hopen'
          rw [hclose] at hclose'
          cases hclose'
      | some split =>
        obtain ⟨inner, rest⟩ := split
        simp only
        have hshort : rest.length ≤ fuel := by
          have h₁ := length_of_breakOnPair hopen
          have h₂ := length_of_breakOnPair hclose
          omega
        have hinv : Written cs ↔
            (∃ b, Binding.parseLoose? (Text.trim (String.ofList inner)) = some b) ∧
              Written rest := by
          constructor
          · rintro (htext | ⟨hopen', hclose', hname, hrest⟩)
            · rw [hopen] at htext
              cases htext
            · rw [hopen] at hopen'
              cases hopen'
              rw [hclose] at hclose'
              cases hclose'
              exact ⟨⟨_, hname⟩, hrest⟩
          · rintro ⟨⟨b, hname⟩, hrest⟩
            exact .placeholder hopen hclose hname hrest
        rw [hinv]
        cases Binding.parseLoose? (Text.trim (String.ofList inner)) with
        | none => exact iff_of_false nofun (by simp)
        | some b =>
          rw [← ih hshort]
          refine (succeeds_bind_iff_left fun _ => succeeds_ok _).trans ?_
          simp

theorem succeeds_parse_iff (s : String) : Succeeds (parse s) ↔ Written s.toList := by
  unfold parse
  cases hopen : Text.breakOnPair '\x7b' s.toList with
  | none => exact iff_of_true (succeeds_ok _) (.text hopen)
  | some split =>
    exact succeeds_map_iff.trans (succeeds_partsFrom_iff s (Nat.le_of_eq String.length_toList))

theorem ne_nil_of_parse {s : String} (h : parse s = .ok (some parts)) : parts ≠ [] := by
  unfold parse at h
  split at h
  · cases h
  · rename_i split hopen
    obtain ⟨before, after⟩ := split
    obtain ⟨parts', hparts, heq⟩ := exists_of_map_eq_ok h
    cases heq
    have hlong := length_of_breakOnPair hopen
    rw [String.length_toList] at hlong
    obtain ⟨fuel, hfuel⟩ : ∃ fuel, s.length = fuel + 1 := ⟨s.length - 1, by omega⟩
    rw [hfuel, partsFrom, hopen] at hparts
    simp only at hparts
    split at hparts
    · cases hparts
    · split at hparts
      · cases hparts
      · obtain ⟨rest, -, hrest⟩ := exists_of_bind_eq_ok hparts
        cases hrest
        simp

end Template

section Numbered

-- a reader that takes the values of an array one by one
variable {α : Type} {place : Location} {read : Location → Json → Except Error α}
  {readFrom : Nat → List Json → Except Error (List α)} (hnil : ∀ i, readFrom i [] = .ok [])
  (hcons : ∀ i v vs, readFrom i (v :: vs) = (do
    let a ← read (place.index i) v
    let as ← readFrom (i + 1) vs
    return a :: as)) {i : Nat} {vs : List Json}

include hnil hcons

/-- Each value is read at its index. -/
theorem Location.forall₂_numbered {as : List α} (h : readFrom i vs = .ok as) :
    Forall₂ (fun s a => read s.1 s.2 = .ok a) (place.numbered i vs) as := by
  induction vs generalizing i as with
  | nil =>
    rw [hnil] at h
    cases h
    exact .nil
  | cons v vs ih =>
    rw [hcons] at h
    obtain ⟨a, ha, h⟩ := exists_of_bind_eq_ok h
    obtain ⟨as, has, h⟩ := exists_of_bind_eq_ok h
    cases h
    rw [numbered_cons]
    exact .cons ha (ih has)

theorem Location.succeeds_numbered (h : ∀ v ∈ vs, ∀ place, Succeeds (read place v)) :
    Succeeds (readFrom i vs) := by
  induction vs generalizing i with
  | nil =>
    rw [hnil]
    exact succeeds_ok _
  | cons v vs ih =>
    obtain ⟨hv, hvs⟩ := forall_mem_cons.mp h
    rw [hcons]
    refine (succeeds_bind_iff fun _ => succeeds_bind_iff_left fun _ => succeeds_ok _).mpr ?_
    exact ⟨hv (place.index i), ih hvs⟩

end Numbered

/-! ### Expressions -/

/-- A literal as documents have them; colors come later, from text. -/
def Literal.IsPlain (l : Literal) : Prop := l.type ≠ .color

namespace Expr

def IsLiteral : Json → Prop
  | .number _ | .string _ | .bool _ => True
  | _ => False

/-- The path of a read or of a presence test: a binding, of the canvas only to an axis. -/
def IsPath (v : Json) : Prop :=
  ∃ s b, v = .string s ∧ Binding.parseLoose? s = some b ∧ b.isStraySize = false

inductive Written : Json → Prop
  | literal {v : Json} (h : IsLiteral v) : Written v
  | get {path : Json} (h : IsPath path) : Written (.array [.string "get", path])
  | getOr {path fallback : Json} (h : IsPath path) (hfallback : IsLiteral fallback) :
      Written (.array [.string "get", path, fallback])
  | has {path : Json} (h : IsPath path) : Written (.array [.string "has", path])
  | apply {name : String} {o : Operator} {operands : List Json}
      (hname : Operator.ofName? name = some o)
      (harity : o.arity.admits operands.length = true)
      (hoperands : ∀ v ∈ operands, Written v) : Written (.array (.string name :: operands))

theorem readLiteral?_isSome (v : Json) : (readLiteral? v).isSome = true ↔ IsLiteral v := by
  cases v <;> simp [readLiteral?, IsLiteral]

theorem succeeds_readBinding_iff (place : Location) (v : Json) :
    Succeeds (readBinding place v) ↔ IsPath v := by
  unfold readBinding IsPath
  split
  · rename_i s
    cases hb : Binding.parseLoose? s with
    | none => exact iff_of_false nofun (by simp [hb])
    | some b =>
      simp only
      cases hstray : b.isStraySize with
      | true => exact iff_of_false nofun (by simp [hb, hstray])
      | false => exact iff_of_true (succeeds_ok b) ⟨s, b, rfl, hb, hstray⟩
  · rename_i hstring
    refine iff_of_false nofun ?_
    rintro ⟨s, b, rfl, -⟩
    exact hstring s rfl

variable {name : String} {operands : List Json} {o : Operator} {place : Location} {v : Json} {e : Expr}

theorem readOperator_eq_ok_iff {count : Nat} :
    readOperator place name count = .ok o ↔
      Operator.ofName? name = some o ∧ o.arity.admits count = true := by
  unfold readOperator
  cases Operator.ofName? name with
  | none => exact ⟨nofun, nofun⟩
  | some o' =>
    simp only
    split
    · rename_i harity
      constructor
      · intro h
        cases h
        exact ⟨rfl, harity⟩
      · rintro ⟨h, -⟩
        cases h
        rfl
    · rename_i harity
      refine ⟨nofun, ?_⟩
      rintro ⟨h, h'⟩
      cases h
      exact absurd h' harity

theorem read_literal {l : Literal} (h : readLiteral? v = some l) (place : Location) :
    read place v = .ok (.literal place l) := by
  cases v with
  | number | string | bool =>
    cases h
    rfl
  | _ => cases h

theorem read_op (hget : name ≠ "get") (hhas : name ≠ "has") (place : Location) :
    read place (.array (.string name :: operands)) = (do
      let o ← readOperator place name operands.length
      let args ← readOperands place 1 operands
      return .op place o args) := by
  rw [read, if_neg hget, if_neg hhas]

theorem succeeds_readOperands {vs : List Json} (h : ∀ v ∈ vs, ∀ place, Succeeds (read place v))
    (place : Location) (i : Nat) : Succeeds (readOperands place i vs) :=
  Location.succeeds_numbered (fun _ => by rw [readOperands]) (fun _ _ _ => by rw [readOperands]) h

theorem succeeds_read_of_written (h : Written v) (place : Location) : Succeeds (read place v) := by
  induction h generalizing place with
  | @literal v h =>
    obtain ⟨l, hl⟩ := Option.isSome_iff_exists.mp ((readLiteral?_isSome v).mpr h)
    exact ⟨_, read_literal hl place⟩
  | get h =>
    obtain ⟨b, hb⟩ := (succeeds_readBinding_iff (place.index 1) _).mpr h
    rw [read, if_pos rfl, readGet, hb]
    exact succeeds_ok _
  | @getOr path fallback h hfallback =>
    obtain ⟨b, hb⟩ := (succeeds_readBinding_iff (place.index 1) _).mpr h
    obtain ⟨l, hl⟩ := Option.isSome_iff_exists.mp ((readLiteral?_isSome fallback).mpr hfallback)
    rw [read, if_pos rfl, readGet, hb, hl]
    exact succeeds_ok _
  | has h =>
    obtain ⟨b, hb⟩ := (succeeds_readBinding_iff (place.index 1) _).mpr h
    rw [read, if_neg (by decide), if_pos rfl, readHas, hb]
    exact succeeds_ok _
  | @apply name o operands hname harity _ ih =>
    have hne {s : String} (hs : Operator.ofName? s = none) : name ≠ s := by
      rintro rfl
      rw [hs] at hname
      cases hname
    rw [read_op (hne (by decide)) (hne (by decide)), readOperator_eq_ok_iff.mpr ⟨hname, harity⟩]
    exact (succeeds_bind_iff_left fun _ => succeeds_ok _).mpr (succeeds_readOperands ih place 1)

/-- An expression in which every operator has as many operands as it takes. -/
inductive Formed : Expr → Prop
  | literal {place : Location} {l : Literal} (h : l.IsPlain) : Formed (.literal place l)
  | get {place : Location} {b : Binding} {fallback : Option Literal}
      (h : ∀ l ∈ fallback, l.IsPlain) : Formed (.get place b fallback)
  | has {place : Location} {b : Binding} : Formed (.has place b)
  | op {place : Location} {o : Operator} {args : List Expr}
      (harity : o.arity.admits args.length = true) (hargs : ∀ a ∈ args, Formed a) :
      Formed (.op place o args)

/-- Bindings to the canvas name an axis. -/
def Resolved (e : Expr) : Prop := ∀ b ∈ e.bindings, b.isStraySize = false

theorem isPlain_of_readLiteral? {l : Literal} (h : readLiteral? v = some l) :
    l.IsPlain := by
  cases v <;> cases h <;> exact nofun

theorem mem_bindingsOf {b : Binding} {es : List Expr} :
    b ∈ bindingsOf es ↔ ∃ e ∈ es, b ∈ e.bindings := by
  induction es with
  | nil => simp [bindingsOf]
  | cons e es ih => simp [bindingsOf, ih]

/-- What an expression is read from at a location: a literal, the path of a binding, or operands in an
array behind the name of an operator. -/
def ReadFrom (place : Location) (v : Json) : Expr → Prop
  | .literal p l => p = place ∧ readLiteral? v = some l
  | .get p b fallback => p = place ∧ ∃ path, readBinding (place.index 1) path = .ok b ∧
      (fallback = none ∧ v = .array [.string "get", path] ∨ ∃ w l, fallback = some l ∧
        readLiteral? w = some l ∧ v = .array [.string "get", path, w])
  | .has p b => p = place ∧ ∃ path, readBinding (place.index 1) path = .ok b ∧
      v = .array [.string "has", path]
  | .op p o args => p = place ∧ ∃ name operands, v = .array (.string name :: operands) ∧
      readOperator place name operands.length = .ok o ∧ readOperands place 1 operands = .ok args

theorem readFrom_of_read (h : read place v = .ok e) : e.ReadFrom place v := by
  unfold read at h
  split at h
  · cases h
  · rename_i name operands
    split at h
    · rename_i hname
      subst hname
      unfold readGet at h
      split at h
      · obtain ⟨b, hb, h⟩ := exists_of_bind_eq_ok h
        cases h
        exact ⟨rfl, _, hb, .inl ⟨rfl, rfl⟩⟩
      · obtain ⟨b, hb, h⟩ := exists_of_bind_eq_ok h
        split at h
        · rename_i l hl
          cases h
          exact ⟨rfl, _, hb, .inr ⟨_, l, rfl, hl, rfl⟩⟩
        · cases h
      · cases h
    · split at h
      · rename_i hname
        subst hname
        unfold readHas at h
        split at h
        · obtain ⟨b, hb, h⟩ := exists_of_bind_eq_ok h
          cases h
          exact ⟨rfl, _, hb, rfl⟩
        · cases h
      · obtain ⟨o, ho, h⟩ := exists_of_bind_eq_ok h
        obtain ⟨args, hargs, h⟩ := exists_of_bind_eq_ok h
        cases h
        exact ⟨rfl, name, operands, rfl, ho, hargs⟩
  · cases h
  · split at h
    · rename_i l hl
      cases h
      exact ⟨rfl, hl⟩
    · cases h

theorem place_of_read (h : read place v = .ok e) : e.place = place := by
  cases e <;> exact (readFrom_of_read h).1

theorem cons_of_readOperands {i : Nat} {vs : List Json} {es : List Expr}
    (h : readOperands place i vs = .ok (e :: es)) :
    ∃ w ws, vs = w :: ws ∧ read (place.index i) w = .ok e ∧
      readOperands place (i + 1) ws = .ok es := by
  cases vs with
  | nil => cases h
  | cons w ws =>
    rw [readOperands] at h
    obtain ⟨e', he, h⟩ := exists_of_bind_eq_ok h
    obtain ⟨es', hes, h⟩ := exists_of_bind_eq_ok h
    cases h
    exact ⟨w, ws, rfl, he, hes⟩

theorem forall₂_of_readOperands {i : Nat} {vs : List Json} {es : List Expr}
    (h : readOperands place i vs = .ok es) :
    Forall₂ (fun s e => read s.1 s.2 = .ok e) (place.numbered i vs) es :=
  Location.forall₂_numbered (fun _ => by rw [readOperands]) (fun _ _ _ => by rw [readOperands]) h

theorem length_of_readOperands {i : Nat} {vs : List Json} {es : List Expr}
    (h : readOperands place i vs = .ok es) : vs.length = es.length := by
  have hlength := (forall₂_of_readOperands h).length_eq
  rwa [Location.numbered, length_map, length_zipIdx] at hlength

theorem isPath_of_readBinding {place : Location} {b : Binding} (h : readBinding place v = .ok b) :
    IsPath v := (succeeds_readBinding_iff place v).mp ⟨b, h⟩

theorem isLiteral_of_readLiteral? {l : Literal} (h : readLiteral? v = some l) : IsLiteral v :=
  (readLiteral?_isSome v).mp (Option.isSome_of_eq_some h)

mutual

/-- Only what the grammar describes is read, and operators then have as many operands as they take. -/
theorem written_of_read {place : Location} {v : Json} {e : Expr} (h : read place v = .ok e) :
    Written v ∧ e.Formed := by
  cases e with
  | literal p l =>
    obtain ⟨-, hl⟩ := readFrom_of_read h
    exact ⟨.literal (isLiteral_of_readLiteral? hl), .literal (isPlain_of_readLiteral? hl)⟩
  | get p b fallback =>
    obtain ⟨-, path, hb, ⟨rfl, rfl⟩ | ⟨w, l, rfl, hl, rfl⟩⟩ := readFrom_of_read h
    · exact ⟨.get (isPath_of_readBinding hb), .get nofun⟩
    · refine ⟨.getOr (isPath_of_readBinding hb) (isLiteral_of_readLiteral? hl), .get ?_⟩
      rintro _ ⟨⟩
      exact isPlain_of_readLiteral? hl
  | has p b =>
    obtain ⟨-, path, hb, rfl⟩ := readFrom_of_read h
    exact ⟨.has (isPath_of_readBinding hb), .has⟩
  | op p o args =>
    obtain ⟨-, name, operands, rfl, ho, hargs⟩ := readFrom_of_read h
    obtain ⟨hname, harity⟩ := readOperator_eq_ok_iff.mp ho
    obtain ⟨hwritten, hformed⟩ := written_of_readOperands hargs
    exact ⟨.apply hname harity hwritten, .op (length_of_readOperands hargs ▸ harity) hformed⟩

theorem written_of_readOperands {place : Location} {i : Nat} {vs : List Json} {es : List Expr}
    (h : readOperands place i vs = .ok es) : (∀ v ∈ vs, Written v) ∧ ∀ e ∈ es, e.Formed := by
  cases es with
  | nil =>
    obtain rfl := eq_nil_of_length_eq_zero (length_of_readOperands h)
    exact ⟨nofun, nofun⟩
  | cons e es =>
    obtain ⟨v, vs, rfl, he, hes⟩ := cons_of_readOperands h
    obtain ⟨hv, he⟩ := written_of_read he
    obtain ⟨hvs, hes⟩ := written_of_readOperands hes
    exact ⟨forall_mem_cons.mpr ⟨hv, hvs⟩, forall_mem_cons.mpr ⟨he, hes⟩⟩

end

theorem succeeds_read_iff (place : Location) (v : Json) : Succeeds (read place v) ↔ Written v := by
  refine ⟨?_, fun h => succeeds_read_of_written h place⟩
  rintro ⟨e, h⟩
  exact (written_of_read h).1

end Expr

end Widgetry
