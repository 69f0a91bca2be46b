import Widgetry.Proofs.Json.Equality
import Widgetry.Proofs.Json.Order

/-!
# Changes of a context

The paths at which two contexts differ cover every difference: where none of them leads to a path or
from it, both contexts hold the same value at that path.
-/

namespace Widgetry

open List

namespace DataPath

theorem agree_self_append (path p : List Segment) : agree path (path ++ p) = true := by
  induction path with
  | nil => cases p <;> rfl
  | cons s path ih => simpa [agree] using ih

theorem agree_append_self (path p : List Segment) : agree (path ++ p) path = true := by
  induction path with
  | nil => cases p <;> rfl
  | cons s path ih => simpa [agree] using ih

end DataPath

variable {k : String}

namespace Json

/-- Whether two places hold the same value, or both none. -/
def sameAt : Option Json → Option Json → Bool
  | none, none => true
  | some a, some b => a.same b
  | _, _ => false

variable {as bs : List (String × Json)} {a b : Json} {path q p : List Segment} {i : Nat}

theorem sameAt_get?_of_sameFields (h : sameFields as bs = true) (k : String) :
    sameAt (Table.get? as k) (Table.get? bs k) = true := by
  induction as generalizing bs with
  | nil =>
    cases bs with
    | nil => rfl
    | cons b bs => simp [sameFields] at h
  | cons a as ih =>
    cases bs with
    | nil => simp [sameFields] at h
    | cons b bs =>
      obtain ⟨l, a⟩ := a
      obtain ⟨m, b⟩ := b
      simp only [sameFields, Bool.and_eq_true, beq_iff_eq] at h
      obtain ⟨⟨rfl, hab⟩, hrest⟩ := h
      by_cases hk : k = l
      · subst hk
        rw [Table.get?_cons_self, Table.get?_cons_self]
        exact hab
      · rw [Table.get?_cons_of_ne hk, Table.get?_cons_of_ne hk]
        exact ih hrest

theorem sameAt_getElem?_of_sameItems {as bs : List Json} (h : sameItems as bs = true) (i : Nat) :
    sameAt as[i]? bs[i]? = true := by
  induction as generalizing bs i with
  | nil =>
    cases bs with
    | nil => rfl
    | cons b bs => simp [sameItems] at h
  | cons a as ih =>
    cases bs with
    | nil => simp [sameItems] at h
    | cons b bs =>
      simp only [sameItems, Bool.and_eq_true] at h
      cases i with
      | zero => exact h.1
      | succ i => simpa using ih h.2 i

theorem at?_cons (v : Json) (s : Segment) (p : List Segment) :
    v.at? (s :: p) = (v.at? [s]).bind fun w => w.at? p := by
  cases v <;> cases s <;> simp only [at?, Option.bind_none, Option.bind_assoc, Option.bind_some]

theorem at?_append (v : Json) (p q : List Segment) :
    v.at? (p ++ q) = (v.at? p).bind fun w => w.at? q := by
  induction p generalizing v with
  | nil => rw [nil_append, at?, Option.bind_some]
  | cons s p ih =>
    rw [cons_append, at?_cons, at?_cons v s p, Option.bind_assoc]
    simp only [ih]

theorem sameAt_bind {x y : Option Json} {f : Json → Option Json} (h : sameAt x y = true)
    (hf : ∀ {a b : Json}, a.same b = true → sameAt (f a) (f b) = true) :
    sameAt (x.bind f) (y.bind f) = true := by
  cases x with
  | none =>
    cases y with
    | none => rfl
    | some b => simp [sameAt] at h
  | some a =>
    cases y with
    | none => simp [sameAt] at h
    | some b => exact hf h

theorem sameAt_step_of_same (h : a.same b = true) (s : Segment) :
    sameAt (a.at? [s]) (b.at? [s]) = true := by
  cases a with
  | object as =>
    cases b with
    | object bs =>
      cases s with
      | key k => simpa [at?] using sameAt_get?_of_sameFields (by simpa [same] using h) k
      | index i => rfl
    | _ => simp [same] at h
  | array as =>
    cases b with
    | array bs =>
      cases s with
      | key k => rfl
      | index i => simpa [at?] using sameAt_getElem?_of_sameItems (by simpa [same] using h) i
    | _ => simp [same] at h
  | _ => cases b <;> simp [same, at?, sameAt] at h ⊢

/-- Values that compare equal hold the same below every path. -/
theorem sameAt_at?_of_same (h : a.same b = true) (p : List Segment) :
    sameAt (a.at? p) (b.at? p) = true := by
  induction p generalizing a b with
  | nil => simpa [at?, sameAt] using h
  | cons s p ih =>
    rw [at?_cons a, at?_cons b]
    exact sameAt_bind (sameAt_step_of_same h s) ih

/-- What a difference consists of: nothing, the differences of the parts, or the whole. -/
theorem diff_cases (path : List Segment) (a b : Json) :
    (a.same b = true ∧ diff path a b = []) ∨
    (∃ as bs, a = .object as ∧ b = .object bs ∧ diff path a b = diffFields path as bs) ∨
    (∃ as bs, a = .array as ∧ b = .array bs ∧ as.length = bs.length ∧
      diff path a b = diffItems path 0 as bs) ∨
    diff path a b = [path] := by
  by_cases h : a.same b = true
  · refine .inl ⟨h, ?_⟩
    cases a <;> cases b <;> simp only [diff, h, if_true]
  · have whole : ∀ {x : List (List Segment)}, (if a.same b = true then [] else x) = x :=
      if_neg h
    cases a with
    | object as =>
      cases b with
      | object bs => exact .inr (.inl ⟨as, bs, rfl, rfl, by simp only [diff, whole]⟩)
      | _ => exact .inr (.inr (.inr (by simp only [diff, whole])))
    | array as =>
      cases b with
      | array bs =>
        by_cases hl : as.length = bs.length
        · exact .inr (.inr (.inl ⟨as, bs, rfl, rfl, hl, by simp only [diff, whole, if_pos hl]⟩))
        · exact .inr (.inr (.inr (by simp only [diff, whole, if_neg hl])))
      | _ => exact .inr (.inr (.inr (by simp only [diff, whole])))
    | _ => exact .inr (.inr (.inr (by simp only [diff, whole])))

/-- Every path of a difference continues the path it starts from. -/
def Continues (a : Json) : Prop := ∀ path b q, q ∈ diff path a b → ∃ p, q = path ++ p

theorem exists_of_mem_diffItems {as bs : List Json} (ih : ∀ a ∈ as, Continues a)
    (h : q ∈ diffItems path i as bs) : ∃ p, q = path ++ p := by
  induction as generalizing i bs with
  | nil => simp [diffItems] at h
  | cons a as iha =>
    cases bs with
    | nil => simp [diffItems] at h
    | cons b bs =>
      rcases mem_append.mp (show q ∈ _ ++ _ from h) with h | h
      · obtain ⟨p, rfl⟩ := ih a mem_cons_self _ _ _ h
        exact ⟨.index i :: p, by simp⟩
      · exact iha (fun a ha => ih a (mem_cons_of_mem _ ha)) h

theorem exists_of_mem_diffFields (ih : ∀ e ∈ as, Continues e.2) (h : q ∈ diffFields path as bs) :
    ∃ p, q = path ++ p := by
  induction as generalizing bs with
  | nil =>
    obtain ⟨e, _, rfl⟩ := mem_map.mp h
    exact ⟨[.key e.1], rfl⟩
  | cons e as iha =>
    obtain ⟨k, a⟩ := e
    have ih' : ∀ e ∈ as, Continues e.2 := fun e he => ih e (mem_cons_of_mem _ he)
    simp only [diffFields, mem_append, mem_map] at h
    rcases h with ⟨e, _, rfl⟩ | h
    · exact ⟨[.key e.1], rfl⟩
    · split at h
      · split at h
        · rcases mem_append.mp h with h | h
          · obtain ⟨p, rfl⟩ := ih (k, a) mem_cons_self _ _ _ h
            exact ⟨.key k :: p, by simp⟩
          · exact iha ih' h
        · rcases mem_cons.mp h with rfl | h
          · exact ⟨[.key k], rfl⟩
          · exact iha ih' h
      · rcases mem_cons.mp h with rfl | h
        · exact ⟨[.key k], rfl⟩
        · exact iha ih' h

theorem continues (a : Json) : Continues a := by
  induction a using parts_induction with
  | step a ih =>
    intro path b q h
    rcases diff_cases path a b with
      ⟨_, hd⟩ | ⟨as, bs, rfl, rfl, hd⟩ | ⟨as, bs, rfl, rfl, _, hd⟩ | hd
    · simp [hd] at h
    · rw [hd] at h
      exact exists_of_mem_diffFields (fun e he => ih e.2 (mem_map_of_mem he)) h
    · rw [hd] at h
      exact exists_of_mem_diffItems ih h
    · exact ⟨[], by simpa [hd] using h⟩

/-- Without a difference two values compare equal. -/
def Settled (a : Json) : Prop := ∀ path b, diff path a b = [] → a.same b = true

theorem sameItems_of_diffItems {as bs : List Json} (ih : ∀ a ∈ as, Settled a)
    (hl : as.length = bs.length) (h : diffItems path i as bs = []) : sameItems as bs = true := by
  induction as generalizing i bs with
  | nil =>
    cases bs with
    | nil => rfl
    | cons b bs => simp at hl
  | cons a as iha =>
    cases bs with
    | nil => simp at hl
    | cons b bs =>
      obtain ⟨hfirst, hrest⟩ := append_eq_nil_iff.mp (show _ ++ _ = [] from h)
      simp only [sameItems, Bool.and_eq_true]
      exact ⟨ih a mem_cons_self _ _ hfirst,
        iha (fun a ha => ih a (mem_cons_of_mem _ ha)) (by simpa using hl) hrest⟩

theorem sameFields_of_diffFields (ih : ∀ e ∈ as, Settled e.2) (h : diffFields path as bs = []) :
    sameFields as bs = true := by
  induction as generalizing bs with
  | nil =>
    cases bs with
    | nil => rfl
    | cons b bs => simp [diffFields] at h
  | cons e as iha =>
    obtain ⟨k, a⟩ := e
    simp only [diffFields, append_eq_nil_iff, map_eq_nil_iff] at h
    obtain ⟨hadded, hrest⟩ := h
    have hall : bs.dropWhile (fun e => compare e.1 k == .lt) = bs := by
      have := takeWhile_append_dropWhile (p := fun e => compare e.1 k == .lt) (l := bs)
      rwa [hadded] at this
    rw [hall] at hrest
    cases bs with
    | nil => simp at hrest
    | cons b bs =>
      obtain ⟨l, b⟩ := b
      simp only at hrest
      split at hrest
      · rename_i hk
        obtain ⟨hfirst, hlater⟩ := append_eq_nil_iff.mp hrest
        simp only [sameFields, Bool.and_eq_true, beq_iff_eq]
        exact ⟨⟨hk.symm, ih (k, a) mem_cons_self _ _ hfirst⟩,
          iha (fun e he => ih e (mem_cons_of_mem _ he)) hlater⟩
      · simp at hrest

theorem settled (a : Json) : Settled a := by
  induction a using parts_induction with
  | step a ih =>
    intro path b h
    rcases diff_cases path a b with
      ⟨hs, _⟩ | ⟨as, bs, rfl, rfl, hd⟩ | ⟨as, bs, rfl, rfl, hl, hd⟩ | hd
    · exact hs
    · rw [hd] at h
      simpa [same] using
        sameFields_of_diffFields (fun e he => ih e.2 (mem_map_of_mem he)) h
    · rw [hd] at h
      rw [same]
      exact sameItems_of_diffItems (fun a ha => ih a ha) hl h
    · simp [hd] at h

/-- Two values hold the same below a path that no path of their difference leads to or from. -/
def Covered (a : Json) : Prop :=
  ∀ path b p, (∀ q ∈ diff path a b, DataPath.agree q (path ++ p) = false) →
    sameAt (a.at? p) (b.at? p) = true

theorem sameAt_of_diffItems {j : Nat} {as bs : List Json} (ih : ∀ a ∈ as, Covered a)
    (hl : as.length = bs.length)
    (h : ∀ q ∈ diffItems path j as bs, DataPath.agree q (path ++ .index (j + i) :: p) = false) :
    sameAt (as[i]?.bind fun v => v.at? p) (bs[i]?.bind fun v => v.at? p) = true := by
  induction as generalizing i j bs with
  | nil =>
    cases bs with
    | nil => rfl
    | cons b bs => simp at hl
  | cons a as iha =>
    cases bs with
    | nil => simp at hl
    | cons b bs =>
      simp only [diffItems, mem_append] at h
      cases i with
      | zero =>
        refine ih a mem_cons_self (path ++ [.index j]) b p fun q hq => ?_
        simpa using h q (.inl hq)
      | succ i =>
        refine iha (j := j + 1) (fun a ha => ih a (mem_cons_of_mem _ ha)) (by simpa using hl) ?_
        intro q hq
        have := h q (.inr hq)
        rwa [show j + (i + 1) = j + 1 + i by omega] at this

theorem get?_dropWhile {f : String × Json → Bool} (h : ∀ e ∈ bs.takeWhile f, e.1 ≠ k) :
    Table.get? (bs.dropWhile f) k = Table.get? bs k := by
  induction bs with
  | nil => rfl
  | cons e bs ih =>
    obtain ⟨l, b⟩ := e
    by_cases hf : f (l, b) = true
    · rw [takeWhile_cons_of_pos hf] at h
      rw [dropWhile_cons_of_pos hf, Table.get?_cons_of_ne (h (l, b) mem_cons_self).symm]
      exact ih fun e he => h e (mem_cons_of_mem _ he)
    · rw [dropWhile_cons_of_neg hf]

theorem sameAt_of_diffFields (ih : ∀ e ∈ as, Covered e.2)
    (h : ∀ q ∈ diffFields path as bs, DataPath.agree q (path ++ .key k :: p) = false) :
    sameAt ((Table.get? as k).bind fun v => v.at? p) ((Table.get? bs k).bind fun v => v.at? p) =
      true := by
  -- a key that is reported whole leads to everything below it
  have reported : ∀ l, DataPath.agree (path ++ [.key l]) (path ++ .key k :: p) = false → k ≠ l := by
    rintro l hq rfl
    rw [show path ++ Segment.key k :: p = (path ++ [.key k]) ++ p by simp,
      DataPath.agree_self_append] at hq
    cases hq
  induction as generalizing bs with
  | nil =>
    have hn : Table.get? bs k = none := by
      induction bs with
      | nil => rfl
      | cons e bs ihb =>
        obtain ⟨l, b⟩ := e
        simp only [diffFields, map_cons] at h
        rw [Table.get?_cons_of_ne (reported l (h _ mem_cons_self))]
        exact ihb fun q hq => h q (mem_cons_of_mem _ hq)
    rw [hn]
    rfl
  | cons e as iha =>
    obtain ⟨l, a⟩ := e
    have ih' : ∀ e ∈ as, Covered e.2 := fun e he => ih e (mem_cons_of_mem _ he)
    simp only [diffFields, mem_append] at h
    have hadded : ∀ e ∈ bs.takeWhile (fun e => compare e.1 l == .lt), e.1 ≠ k := by
      intro e he
      refine (reported e.1 (h _ (.inl ?_))).symm
      exact mem_map_of_mem (f := fun e : String × Json => path ++ [.key e.1]) he
    rw [← get?_dropWhile hadded]
    have hrest := fun q hq => h q (.inr hq)
    clear h
    generalize bs.dropWhile (fun e => compare e.1 l == .lt) = rest at hrest
    split at hrest
    · rename_i m b later
      split at hrest
      · rename_i hml
        subst hml
        by_cases hk : k = m
        · subst hk
          rw [Table.get?_cons_self, Table.get?_cons_self]
          refine ih (k, a) mem_cons_self (path ++ [.key k]) b p fun q hq => ?_
          simpa using hrest q (mem_append_left _ hq)
        · rw [Table.get?_cons_of_ne hk, Table.get?_cons_of_ne hk]
          exact iha ih' fun q hq => hrest q (mem_append_right _ hq)
      · rw [Table.get?_cons_of_ne (reported l (hrest _ mem_cons_self))]
        exact iha ih' fun q hq => hrest q (mem_cons_of_mem _ hq)
    · rw [Table.get?_cons_of_ne (reported l (hrest _ mem_cons_self))]
      exact iha ih' fun q hq => hrest q (mem_cons_of_mem _ hq)

theorem covered (a : Json) : Covered a := by
  induction a using parts_induction with
  | step a ih =>
    intro path b p h
    have hnone : p = [] → diff path a b = [] := by
      rintro rfl
      refine eq_nil_iff_forall_not_mem.mpr fun q hq => ?_
      obtain ⟨r, rfl⟩ := continues a path b q hq
      have := h _ hq
      rw [append_nil, DataPath.agree_append_self] at this
      cases this
    cases p with
    | nil => simpa [at?, sameAt] using settled a path b (hnone rfl)
    | cons s p =>
      rcases diff_cases path a b with
        ⟨hs, _⟩ | ⟨as, bs, rfl, rfl, hd⟩ | ⟨as, bs, rfl, rfl, hl, hd⟩ | hd
      · exact sameAt_at?_of_same hs _
      · rw [hd] at h
        cases s with
        | key k =>
          exact sameAt_of_diffFields (fun e he => ih e.2 (mem_map_of_mem he)) h
        | index i => rfl
      · rw [hd] at h
        cases s with
        | key k => rfl
        | index i => exact sameAt_of_diffItems (j := 0) ih hl (by simpa using h)
      · have := h path (by simp [hd])
        rw [DataPath.agree_self_append] at this
        cases this

theorem unsignedZeros_of_mem_items {as : List Json} (h : unsignedZerosItems as = true) (ha : a ∈ as) :
    a.unsignedZeros = true := by
  induction as with
  | nil => simp at ha
  | cons b as ih =>
    simp only [unsignedZerosItems, Bool.and_eq_true] at h
    rcases mem_cons.mp ha with rfl | ha
    · exact h.1
    · exact ih h.2 ha

theorem unsignedZeros_of_get? (h : unsignedZerosFields as = true) (ha : Table.get? as k = some a) :
    a.unsignedZeros = true := by
  induction as with
  | nil => simp [Table.get?] at ha
  | cons e as ih =>
    obtain ⟨l, b⟩ := e
    simp only [unsignedZerosFields, Bool.and_eq_true] at h
    by_cases hk : k = l
    · subst hk
      rw [Table.get?_cons_self] at ha
      exact Option.some.inj ha ▸ h.1
    · rw [Table.get?_cons_of_ne hk] at ha
      exact ih h.2 ha

theorem unsignedZeros_of_step {s : Segment} (h : a.unsignedZeros = true) (hb : a.at? [s] = some b) :
    b.unsignedZeros = true := by
  cases a with
  | object as =>
    cases s with
    | key k =>
      simp only [at?] at hb
      exact unsignedZeros_of_get? (by simpa [unsignedZeros] using h) (by simpa using hb)
    | index i => simp [at?] at hb
  | array as =>
    cases s with
    | key k => simp [at?] at hb
    | index i =>
      simp only [at?] at hb
      exact unsignedZeros_of_mem_items (by simpa [unsignedZeros] using h)
        (mem_of_getElem? (by simpa using hb))
  | _ => simp [at?] at hb

theorem unsignedZeros_of_at? (h : a.unsignedZeros = true) (hb : a.at? p = some b) :
    b.unsignedZeros = true := by
  induction p generalizing a with
  | nil => exact Option.some.inj (show some a = some b by simpa [at?] using hb) ▸ h
  | cons s p ih =>
    rw [at?_cons] at hb
    obtain ⟨c, hc, hb⟩ := Option.bind_eq_some_iff.mp hb
    exact ih (unsignedZeros_of_step h hc) hb

end Json

theorem sameAt_get?_of_diffSettings {as bs : Table String Json} (h : k ∉ diffSettings as bs) :
    Json.sameAt (Table.get? as k) (Table.get? bs k) = true := by
  induction as generalizing bs with
  | nil =>
    have hn : Table.get? bs k = none := by
      induction bs with
      | nil => rfl
      | cons e bs ih =>
        simp only [diffSettings, map_cons, mem_cons, not_or] at h
        rw [Table.get?_cons_of_ne h.1]
        exact ih h.2
    rw [hn]
    rfl
  | cons e as ih =>
    obtain ⟨l, a⟩ := e
    simp only [diffSettings, mem_append, not_or] at h
    obtain ⟨hadded, h⟩ := h
    have hne : ∀ e ∈ bs.takeWhile (fun e => compare e.1 l == .lt), e.1 ≠ k := by
      rintro e he rfl
      exact hadded (mem_map_of_mem he)
    rw [← Json.get?_dropWhile hne]
    generalize bs.dropWhile (fun e => compare e.1 l == .lt) = rest at h
    split at h
    · rename_i m b later
      split at h
      · rename_i hml
        subst hml
        simp only [mem_append, not_or] at h
        by_cases hk : k = m
        · subst hk
          rw [Table.get?_cons_self, Table.get?_cons_self]
          by_cases hab : a.same b = true
          · exact hab
          · simp [hab] at h
        · rw [Table.get?_cons_of_ne hk, Table.get?_cons_of_ne hk]
          exact ih h.2
      · rw [mem_cons, not_or] at h
        rw [Table.get?_cons_of_ne h.1]
        exact ih h.2
    · rw [mem_cons, not_or] at h
      rw [Table.get?_cons_of_ne h.1]
      exact ih h.2

namespace Context

def unsignedZeros (c : Context) : Bool :=
  c.data.unsignedZeros && Json.unsignedZerosFields c.settings

variable {c d : Context} {p : DataPath}

theorem sameAt_lookup? (h : ∀ q ∈ c.diff d, q.overlaps p = false) :
    Json.sameAt (c.lookup? p) (d.lookup? p) = true := by
  simp only [diff, mem_append, mem_map] at h
  obtain ⟨root, segments⟩ := p
  cases root with
  | data =>
    refine Json.covered c.data [] d.data segments fun q hq => ?_
    simpa [DataPath.overlaps] using h ⟨.data, q⟩ (.inl ⟨q, hq, rfl⟩)
  | settings =>
    cases segments with
    | nil => rfl
    | cons s rest =>
      cases s with
      | index i => rfl
      | key k =>
        refine Json.sameAt_bind (sameAt_get?_of_diffSettings fun hk => ?_)
          fun hab => Json.sameAt_at?_of_same hab rest
        have := h (.setting k) (.inr ⟨k, hk, rfl⟩)
        simp [DataPath.overlaps, DataPath.setting, DataPath.agree] at this

theorem unsignedZeros_of_lookup? {v : Json} (h : c.unsignedZeros = true) (hv : c.lookup? p = some v) :
    v.unsignedZeros = true := by
  obtain ⟨hdata, hsettings⟩ := Bool.and_eq_true_iff.mp h
  obtain ⟨root, segments⟩ := p
  cases root with
  | data => exact Json.unsignedZeros_of_at? hdata hv
  | settings =>
    cases segments with
    | nil => simp [lookup?] at hv
    | cons s rest =>
      cases s with
      | index i => simp [lookup?] at hv
      | key k =>
        obtain ⟨w, hw, hv⟩ := Option.bind_eq_some_iff.mp (show _ = some v from hv)
        exact Json.unsignedZeros_of_at? (Json.unsignedZeros_of_get? hsettings hw) hv

/-- Where no change leads, two contexts without negative zeros hold the very same value. -/
theorem lookup?_eq_of_untouched (hc : c.unsignedZeros = true) (hd : d.unsignedZeros = true)
    (h : ∀ q ∈ c.diff d, q.overlaps p = false) : c.lookup? p = d.lookup? p := by
  have hsame := sameAt_lookup? h
  cases hx : c.lookup? p with
  | none =>
    cases hy : d.lookup? p with
    | none => rfl
    | some b => simp [hx, hy, Json.sameAt] at hsame
  | some a =>
    cases hy : d.lookup? p with
    | none => simp [hx, hy, Json.sameAt] at hsame
    | some b =>
      rw [hx, hy] at hsame
      rw [Json.eq_of_same hsame (unsignedZeros_of_lookup? hc hx) (unsignedZeros_of_lookup? hd hy)]

end Context

end Widgetry
