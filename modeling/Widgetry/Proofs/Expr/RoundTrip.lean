import Widgetry.Proofs.Binding
import Widgetry.Proofs.Expr.Grammar

/-!
# Expressions as documents

How an expression is written as a JSON value, and what is read from it: the same expression, with each
node at the place where it stands in that value. What is read from any other value is written in this
way too, so that writing and reading again changes nothing.
-/

namespace Widgetry

open List

/-- A literal as itself. Colors are written as text, though no document has them. -/
def Literal.write : Literal → Json
  | .number x => .number (.float x)
  | .string s => .string s
  | .bool b => .bool b
  | .color c => .string c.toHex

namespace Expr

mutual

/-- An operator is written with its name in front of its operands, a binding as its text. -/
def write : Expr → Json
  | .literal _ l => l.write
  | .get _ b fallback =>
      .array (.string "get" :: .string b.render :: (fallback.map Literal.write).toList)
  | .has _ b => .array [.string "has", .string b.render]
  | .op _ o args => .array (.string o.name :: writeAll args)

def writeAll : List Expr → List Json
  | [] => []
  | e :: es => e.write :: writeAll es

end

/-! ### Nodes and their locations -/

/-- The node reached by positions of operands, counted from one. -/
def node? : Expr → List Nat → Option Expr
  | e, [] => some e
  | .op _ _ args, (i + 1) :: rest => args[i]?.bind fun a => a.node? rest
  | _, _ :: _ => none

/-- All nodes of an expression stand at locations that meet a condition. -/
def StandsIn (T : Location → Prop) (e : Expr) : Prop :=
  ∀ positions n, e.node? positions = some n → T n.place

variable {e : Expr} {o : Operator} {args : List Expr} {l : Literal} {b : Binding} {v : Json}

section Standing

variable {T : Location → Prop}

theorem StandsIn.place (h : e.StandsIn T) : T e.place := h [] e rfl

theorem standsIn_leaf (h : T e.place) (hleaf : ∀ i rest, e.node? (i :: rest) = none) :
    e.StandsIn T := by
  intro positions n hn
  cases positions with
  | nil =>
    cases hn
    exact h
  | cons i rest =>
    rw [hleaf] at hn
    cases hn

theorem standsIn_op_iff {place : Location} :
    (op place o args).StandsIn T ↔ T place ∧ ∀ a ∈ args, a.StandsIn T := by
  constructor
  · intro h
    refine ⟨h.place, fun a ha positions n hn => ?_⟩
    obtain ⟨i, hi⟩ := mem_iff_getElem?.mp ha
    refine h ((i + 1) :: positions) n ?_
    rw [node?, hi]
    exact hn
  · rintro ⟨h, hargs⟩ (_ | ⟨_ | i, rest⟩) n hn
    · cases hn
      exact h
    · cases hn
    · obtain ⟨a, ha, hn⟩ := Option.bind_eq_some_iff.mp hn
      exact hargs a (mem_of_getElem? ha) rest n hn

end Standing

mutual

/-- The expression with its locations counted from another one by positions of operands. -/
def relocate (place : Location) : Expr → Expr
  | .literal _ l => .literal place l
  | .get _ b fallback => .get place b fallback
  | .has _ b => .has place b
  | .op _ o args => .op place o (relocateAll place 1 args)

/-- The first of the operands stands at an index. -/
def relocateAll (place : Location) (i : Nat) : List Expr → List Expr
  | [] => []
  | e :: es => e.relocate (place.index i) :: relocateAll place (i + 1) es

end

/-- Expressions that differ in their locations only. -/
def Alike (a b : Expr) : Prop := a.relocate .root = b.relocate .root

theorem place_relocate (place : Location) (e : Expr) : (e.relocate place).place = place := by
  cases e <;> rfl

mutual

theorem relocate_relocate (p q : Location) (e : Expr) :
    (e.relocate p).relocate q = e.relocate q := by
  cases e with
  | op place o args =>
    simp only [relocate]
    rw [relocateAll_relocateAll]
  | _ => rfl

theorem relocateAll_relocateAll (p q : Location) (i : Nat) (es : List Expr) :
    relocateAll q i (relocateAll p i es) = relocateAll q i es := by
  cases es with
  | nil => rfl
  | cons e es => simp only [relocateAll, relocate_relocate, relocateAll_relocateAll]

end

theorem alike_relocate (place : Location) (e : Expr) : (e.relocate place).Alike e :=
  relocate_relocate place .root e

theorem getElem?_relocateAll (place : Location) (i : Nat) (es : List Expr) (j : Nat) :
    (relocateAll place i es)[j]? = es[j]?.map (relocate (place.index (i + j))) := by
  induction es generalizing i j with
  | nil => rfl
  | cons e es ih =>
    cases j with
    | zero => rfl
    | succ j =>
      rw [relocateAll, List.getElem?_cons_succ, List.getElem?_cons_succ, ih]
      rw [show i + 1 + j = i + (j + 1) by omega]

/-- Each node of a relocated expression is at the location that its positions give. -/
theorem place_of_node?_relocate {place : Location} {d : Expr} {positions : List Nat}
    (h : (e.relocate place).node? positions = some d) : d.place = place.indices positions := by
  induction positions generalizing e place with
  | nil =>
    cases h
    rw [place_relocate, Location.indices, map_nil, append_nil]
  | cons i positions ih =>
    cases e with
    | op _ o args =>
      cases i with
      | zero => cases h
      | succ i =>
        rw [relocate, node?, getElem?_relocateAll, Option.bind_eq_some_iff] at h
        obtain ⟨a, ha, hd⟩ := h
        obtain ⟨a', -, rfl⟩ := Option.map_eq_some_iff.mp ha
        rw [ih hd, Location.indices_cons, Nat.add_comm 1 i]
    | _ => simp [relocate, node?] at h

/-! ### Reading what is written -/

theorem ofName?_name (o : Operator) : Operator.ofName? o.name = some o := by
  cases o <;> decide

theorem readLiteral?_write (h : l.IsPlain) : readLiteral? l.write = some l := by
  cases l with
  | color c => exact absurd rfl h
  | _ => rfl

theorem readBinding_render (h : b.IsSpelled) (hsize : b.isStraySize = false) (place : Location) :
    readBinding place (.string b.render) = .ok b := by
  simp only [readBinding, Binding.parseLoose?_render h, hsize]
  rfl

theorem readGet_write (h : b.IsSpelled) (hsize : b.isStraySize = false) {fallback : Option Literal}
    (hfallback : ∀ l ∈ fallback, l.IsPlain) (place : Location) :
    readGet place (.string b.render :: (fallback.map Literal.write).toList) =
      .ok (.get place b fallback) := by
  cases fallback with
  | none =>
    rw [Option.map_none, Option.toList_none, readGet, readBinding_render h hsize]
    rfl
  | some l =>
    rw [Option.map_some, Option.toList_some, readGet, readBinding_render h hsize]
    simp only [readLiteral?_write (hfallback l rfl)]
    rfl

theorem length_writeAll (es : List Expr) : (writeAll es).length = es.length := by
  induction es with
  | nil => rfl
  | cons e es ih => rw [writeAll, length_cons, length_cons, ih]

mutual

theorem read_write {e : Expr} (hformed : e.Formed) (hresolved : e.Resolved)
    (hspelled : ∀ b ∈ e.bindings, b.IsSpelled) (place : Location) :
    read place e.write = .ok (e.relocate place) := by
  cases hformed with
  | @literal _ l hl => exact read_literal (readLiteral?_write hl) place
  | @get _ b fallback hfallback =>
    rw [write, read, if_pos rfl]
    exact readGet_write (hspelled b mem_cons_self) (hresolved b mem_cons_self) hfallback
      place
  | @has _ b =>
    rw [write, read, if_neg (by decide), if_pos rfl, readHas,
      readBinding_render (hspelled b mem_cons_self) (hresolved b mem_cons_self)]
    rfl
  | @op _ o args harity hargs =>
    have ho : readOperator place o.name (writeAll args).length = .ok o :=
      readOperator_eq_ok_iff.mpr ⟨ofName?_name o, by rwa [length_writeAll]⟩
    rw [write, read_op (by cases o <;> decide) (by cases o <;> decide), ho]
    simp only [readOperands_writeAll args hargs hresolved hspelled place 1]
    rfl

theorem readOperands_writeAll (es : List Expr) (hformed : ∀ e ∈ es, e.Formed)
    (hresolved : ∀ b ∈ bindingsOf es, b.isStraySize = false)
    (hspelled : ∀ b ∈ bindingsOf es, b.IsSpelled) (place : Location) (i : Nat) :
    readOperands place i (writeAll es) = .ok (relocateAll place i es) := by
  cases es with
  | nil => rfl
  | cons e es =>
    rw [bindingsOf, forall_mem_append] at hresolved hspelled
    obtain ⟨he, hes⟩ := forall_mem_cons.mp hformed
    rw [writeAll, readOperands, read_write he hresolved.1 hspelled.1 (place.index i)]
    simp only [readOperands_writeAll es hes hresolved.2 hspelled.2 place (i + 1)]
    rfl

end

/-! ### Writing what is read -/

/-- A binding that can be written, of the canvas only to an axis. -/
theorem resolved_of_readBinding {place : Location} (h : readBinding place v = .ok b) :
    b.isStraySize = false ∧ b.IsSpelled := by
  unfold readBinding at h
  split at h
  · split at h
    · cases h
    · rename_i hb
      split at h
      · cases h
      · rename_i hstray
        cases h
        exact ⟨Bool.eq_false_iff.mpr hstray, Binding.isSpelled_of_parseLoose? hb⟩
  · cases h

mutual

/-- Locations are given by positions, and bindings can be written. -/
theorem relocate_of_read {place : Location} {v : Json} {e : Expr} (h : read place v = .ok e) :
    e.relocate place = e ∧ ∀ b ∈ e.bindings, b.isStraySize = false ∧ b.IsSpelled := by
  cases e with
  | literal p l =>
    obtain ⟨rfl, -⟩ := readFrom_of_read h
    exact ⟨rfl, nofun⟩
  | get p b fallback =>
    obtain ⟨rfl, path, hb, -⟩ := readFrom_of_read h
    exact ⟨rfl, forall_mem_singleton.mpr (resolved_of_readBinding hb)⟩
  | has p b =>
    obtain ⟨rfl, path, hb, -⟩ := readFrom_of_read h
    exact ⟨rfl, forall_mem_singleton.mpr (resolved_of_readBinding hb)⟩
  | op p o args =>
    obtain ⟨rfl, name, operands, -, -, hargs⟩ := readFrom_of_read h
    obtain ⟨hplaces, hbindings⟩ := relocateAll_of_readOperands hargs
    exact ⟨by rw [relocate, hplaces], hbindings⟩

theorem relocateAll_of_readOperands {place : Location} {i : Nat} {vs : List Json} {es : List Expr}
    (h : readOperands place i vs = .ok es) :
    relocateAll place i es = es ∧
      ∀ b ∈ bindingsOf es, b.isStraySize = false ∧ b.IsSpelled := by
  cases es with
  | nil => exact ⟨rfl, nofun⟩
  | cons e es =>
    obtain ⟨v, vs, rfl, he, hes⟩ := cons_of_readOperands h
    obtain ⟨hplace, hbindings⟩ := relocate_of_read he
    obtain ⟨hplaces, hbindings'⟩ := relocateAll_of_readOperands hes
    rw [relocateAll, hplace, hplaces, bindingsOf, forall_mem_append]
    exact ⟨rfl, hbindings, hbindings'⟩

end

/-- Writing and reading again: an expression comes back with its nodes at the locations of their
positions, and one that was read comes back as it is. -/
theorem round_trip (place : Location) :
    (∀ e : Expr, e.Formed → e.Resolved → (∀ b ∈ e.bindings, ∃ s, Binding.parsePath? s = some b) →
      ∃ r, read place e.write = .ok r ∧ r.Alike e ∧
        ∀ positions d, r.node? positions = some d → d.place = place.indices positions) ∧
    ∀ v e, read place v = .ok e → read place e.write = .ok e := by
  constructor
  · intro e hformed hresolved hbindings
    have hspelled (b : Binding) (hb : b ∈ e.bindings) : b.IsSpelled :=
      Binding.exists_parsePath?_iff.mp (hbindings b hb)
    refine ⟨e.relocate place, read_write hformed hresolved hspelled place, alike_relocate place e, ?_⟩
    intro positions d hd
    exact place_of_node?_relocate hd
  · intro v e h
    obtain ⟨hplace, hbindings⟩ := relocate_of_read h
    rw [read_write (written_of_read h).2 (fun b hb => (hbindings b hb).1) (fun b hb => (hbindings b hb).2), hplace]

/-- A comparison with a fallback for the third row, and a denial by its other name. -/
theorem round_trip_any :
    (∃ r, read (.field .root "visible")
        (.array [.string "any",
          .array [.string "has", .string "config.settings.unit"],
          .array [.string "<", .array [.string "get", .string "item.rows.3", .number (.float 1)],
            .array [.string "get", .string "size.width"]]]) = .ok r ∧
      r.Alike (.op .root .any
        [.has .root ⟨.settings, [.key "unit"]⟩,
          .op .root .lt [.get .root ⟨.item, [.key "rows", .index 3]⟩ (some (.number 1)),
            .get .root ⟨.size, [.key "width"]⟩ none]]) ∧
      ∀ positions d, r.node? positions = some d →
        d.place = (Location.field .root "visible").indices positions) ∧
    ∃ e, read .root (.array [.string "!", .array [.string "has", .string "name"]]) = .ok e ∧
      e.write = .array [.string "not", .array [.string "has", .string "item.name"]] ∧
      read .root e.write = .ok e := by
  constructor
  · refine (round_trip (.field .root "visible")).1 (.op .root .any
      [.has .root ⟨.settings, [.key "unit"]⟩,
        .op .root .lt [.get .root ⟨.item, [.key "rows", .index 3]⟩ (some (.number 1)),
          .get .root ⟨.size, [.key "width"]⟩ none]]) ?_ ?_ ?_
    · have hlt : (Expr.op .root .lt [.get .root ⟨.item, [.key "rows", .index 3]⟩ (some (.number 1)),
          .get .root ⟨.size, [.key "width"]⟩ none]).Formed := by
        refine .op rfl (forall_mem_cons.mpr ⟨.get ?_, forall_mem_singleton.mpr (.get (by simp))⟩)
        simp [Literal.IsPlain, Literal.type]
      exact .op rfl (forall_mem_cons.mpr ⟨.has, forall_mem_singleton.mpr hlt⟩)
    · unfold Resolved
      decide
    · intro b hb
      have hb : b = ⟨.settings, [.key "unit"]⟩ ∨ b = ⟨.item, [.key "rows", .index 3]⟩ ∨
          b = ⟨.size, [.key "width"]⟩ := by
        simpa [bindings, bindingsOf] using hb
      obtain rfl | rfl | rfl := hb
      · exact ⟨"config.settings.unit", by with_unfolding_all rfl⟩
      · exact ⟨"item.rows.3", by with_unfolding_all rfl⟩
      · exact ⟨"size.width", by with_unfolding_all rfl⟩
  · have h : read .root (.array [.string "!", .array [.string "has", .string "name"]]) =
        .ok (.op .root .not [.has (.index .root 1) ⟨.item, [.key "name"]⟩]) := by
      with_unfolding_all rfl
    exact ⟨_, h, rfl, (round_trip .root).2 _ _ h⟩

end Expr

end Widgetry
