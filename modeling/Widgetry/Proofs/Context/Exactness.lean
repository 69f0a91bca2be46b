import Widgetry.Proofs.Context.Changes
import Widgetry.Proofs.Merge

/-!
# Exactness of changes

The paths at which two contexts differ are exact: every difference is covered by one of them, the
contexts do differ at each of them, and none of them leads to another.
-/

namespace Widgetry

open List

variable {q : List Segment} {k : String} {as bs : Table String Json}

namespace DataPath

theorem agree_of_ne {s t : Segment} (h : s ≠ t) (path p q : List Segment) :
    agree (path ++ s :: p) (path ++ t :: q) = false := by
  induction path with
  | nil => simp [agree, h]
  | cons r path ih => simp [agree, ih]

theorem not_isPrefix_of_agree {p : List Segment} (h : agree p q = false) :
    ¬ p <+: q ∧ ¬ q <+: p := by
  constructor
  · rintro ⟨r, rfl⟩
    rw [agree_self_append] at h
    cases h
  · rintro ⟨r, rfl⟩
    rw [agree_append_self] at h
    cases h

end DataPath

namespace Json

def fieldDiff (path : List Segment) (k : String) : Option Json → Option Json → List (List Segment)
  | some a, some b => diff (path ++ [.key k]) a b
  | none, none => []
  | _, _ => [path ++ [.key k]]

theorem diffFields_eq_merged (path : List Segment) {as bs : List (String × Json)}
    (ha : Table.Sorted as) (hb : Table.Sorted bs) :
    diffFields path as bs = Table.merged (fieldDiff path) as bs := by
  induction as generalizing bs with
  | nil =>
    rw [Table.merged_nil _ hb, diffFields, map_eq_flatMap]
    rfl
  | cons e as ih =>
    obtain ⟨k, a⟩ := e
    obtain ⟨low, found, high, hcut⟩ := hb.cut k
    have hrest := ih (pairwise_cons.mp ha).2 hcut.sorted
    rw [hcut.merged_cons _ ha hb, diffFields, hcut.take, ← hrest, map_eq_flatMap]
    rcases hcut.drop_cases with ⟨b, rfl, hd⟩ | ⟨rfl, rfl, hd⟩ | ⟨l, b, later, rfl, hne, rfl, hd⟩
    · simp only [hd, if_true, fieldDiff]
    · simp only [hd, fieldDiff, singleton_append]
    · simp only [hd, if_neg hne, fieldDiff, singleton_append]

theorem diff_of_same {a b : Json} (h : a.same b = true) (path : List Segment) :
    diff path a b = [] := by
  cases a <;> simp only [diff, h, if_true]

variable {path : List Segment} {as bs : List Json} {x y : Option Json}

/-- A change in two arrays is one in a pair of their items. -/
theorem exists_items_of_mem_diffItems {i : Nat} (h : q ∈ diffItems path i as bs) :
    ∃ j a b, as[j]? = some a ∧ bs[j]? = some b ∧ q ∈ diff (path ++ [.index (i + j)]) a b := by
  induction as generalizing i bs with
  | nil => simp [diffItems] at h
  | cons a as ih =>
    cases bs with
    | nil => simp [diffItems] at h
    | cons b bs =>
      rcases mem_append.mp (show q ∈ _ ++ _ from h) with h | h
      · exact ⟨0, a, b, rfl, rfl, h⟩
      · obtain ⟨j, a', b', ha, hb, hq⟩ := ih h
        refine ⟨j + 1, a', b', by simpa using ha, by simpa using hb, ?_⟩
        rwa [show i + (j + 1) = i + 1 + j by omega]

theorem exists_of_mem_fieldDiff (h : q ∈ fieldDiff path k x y) : ∃ p, q = path ++ .key k :: p := by
  cases x with
  | none =>
    cases y with
    | none => cases h
    | some b => exact ⟨[], mem_singleton.mp h⟩
  | some a =>
    cases y with
    | none => exact ⟨[], mem_singleton.mp h⟩
    | some b =>
      obtain ⟨p, rfl⟩ := continues a _ b q h
      exact ⟨p, by simp⟩

/-- Two values differ at each path of their difference. -/
def Strict (a : Json) : Prop :=
  ∀ path b q, a.ordered = true → b.ordered = true → q ∈ diff path a b →
    ∃ p, q = path ++ p ∧ sameAt (a.at? p) (b.at? p) = false

theorem Strict.fieldDiff (ih : ∀ a ∈ x, Strict a) (hx : ∀ a ∈ x, a.ordered = true)
    (hy : ∀ b ∈ y, b.ordered = true) (h : q ∈ fieldDiff path k x y) :
    ∃ p, q = path ++ .key k :: p ∧
      sameAt (x.bind fun v => v.at? p) (y.bind fun v => v.at? p) = false := by
  cases x with
  | none =>
    cases y with
    | none => cases h
    | some b => exact ⟨[], mem_singleton.mp h, rfl⟩
  | some a =>
    cases y with
    | none => exact ⟨[], mem_singleton.mp h, rfl⟩
    | some b =>
      obtain ⟨p, rfl, hp⟩ := ih a rfl _ b q (hx a rfl) (hy b rfl) h
      exact ⟨p, by simp, hp⟩

theorem strict (a : Json) : Strict a := by
  induction a using parts_induction with
  | step a ih =>
    intro path b q ha hb h
    -- a change of the whole is one only for values that are not the same
    by_cases hs : a.same b = true
    · rw [diff_of_same hs] at h
      cases h
    rcases diff_cases path a b with
      ⟨hs', _⟩ | ⟨as, bs, rfl, rfl, hd⟩ | ⟨as, bs, rfl, rfl, _, hd⟩ | hd
    · exact absurd hs' hs
    · obtain ⟨hsa, hfa⟩ := ordered_object.mp ha
      obtain ⟨hsb, hfb⟩ := ordered_object.mp hb
      rw [hd, diffFields_eq_merged path hsa hsb] at h
      obtain ⟨k, hk⟩ := Table.mem_merged h
      obtain ⟨p, rfl, hp⟩ := Strict.fieldDiff
        (fun v hv => ih v (mem_map_of_mem (Table.mem_of_get? hv)))
        (fun v hv => hfa _ (Table.mem_of_get? hv)) (fun v hv => hfb _ (Table.mem_of_get? hv)) hk
      exact ⟨.key k :: p, rfl, hp⟩
    · rw [hd] at h
      obtain ⟨j, v, w, hv, hw, hq⟩ := exists_items_of_mem_diffItems h
      have hva := mem_of_getElem? hv
      have hwb := mem_of_getElem? hw
      obtain ⟨p, rfl, hp⟩ :=
        ih v hva _ w q (ordered_array.mp ha v hva) (ordered_array.mp hb w hwb) hq
      refine ⟨.index j :: p, by simp, ?_⟩
      simpa only [at?, hv, hw, Option.bind_some] using hp
    · rw [hd, mem_singleton] at h
      refine ⟨[], by simpa using h, ?_⟩
      simpa [at?, sameAt] using hs

/-- No path of a difference leads to another one. -/
def Apart (a : Json) : Prop :=
  ∀ path b, a.ordered = true → b.ordered = true →
    (diff path a b).Pairwise fun p q => DataPath.agree p q = false

theorem pairwise_diffItems {i : Nat} (ih : ∀ a ∈ as, Apart a) (ha : ∀ a ∈ as, a.ordered = true)
    (hb : ∀ b ∈ bs, b.ordered = true) :
    (diffItems path i as bs).Pairwise fun p q => DataPath.agree p q = false := by
  induction as generalizing i bs with
  | nil => simp [diffItems]
  | cons a as iha =>
    cases bs with
    | nil => simp [diffItems]
    | cons b bs =>
      rw [forall_mem_cons] at ih ha hb
      rw [diffItems, pairwise_append]
      refine ⟨ih.1 _ b ha.1 hb.1, iha ih.2 ha.2 hb.2, ?_⟩
      intro p hp q hq
      obtain ⟨p, rfl⟩ := continues a _ b p hp
      obtain ⟨j, c, d, -, -, hq⟩ := exists_items_of_mem_diffItems hq
      obtain ⟨q, rfl⟩ := continues c _ d q hq
      have hne : Segment.index i ≠ .index (i + 1 + j) := by
        simp only [ne_eq, Segment.index.injEq]
        omega
      simpa using DataPath.agree_of_ne hne path p q

theorem apart (a : Json) : Apart a := by
  induction a using parts_induction with
  | step a ih =>
    intro path b ha hb
    rcases diff_cases path a b with
      ⟨_, hd⟩ | ⟨as, bs, rfl, rfl, hd⟩ | ⟨as, bs, rfl, rfl, _, hd⟩ | hd
    · rw [hd]
      exact .nil
    · obtain ⟨hsa, hfa⟩ := ordered_object.mp ha
      obtain ⟨hsb, hfb⟩ := ordered_object.mp hb
      rw [hd, diffFields_eq_merged path hsa hsb]
      apply Table.pairwise_merged hsa hsb
      · intro k
        cases hx : Table.get? as k with
        | none => cases Table.get? bs k <;> simp [fieldDiff]
        | some v =>
          cases hy : Table.get? bs k with
          | none => simp [fieldDiff]
          | some w =>
            have hv := Table.mem_of_get? hx
            have hw := Table.mem_of_get? hy
            exact ih v (mem_map_of_mem hv) _ w (hfa _ hv) (hfb _ hw)
      -- changes under two keys part at the key, whatever follows it
      · intro j k hjk p hp q hq
        obtain ⟨p, rfl⟩ := exists_of_mem_fieldDiff hp
        obtain ⟨q, rfl⟩ := exists_of_mem_fieldDiff hq
        exact DataPath.agree_of_ne (by simpa using hjk) path p q
    · rw [hd]
      exact pairwise_diffItems ih (ordered_array.mp ha) (ordered_array.mp hb)
    · rw [hd]
      exact pairwise_singleton _ _

end Json

def settingDiff (k : String) (x y : Option Json) : List String :=
  if Json.sameAt x y then [] else [k]

theorem diffSettings_eq_merged (ha : Table.Sorted as) (hb : Table.Sorted bs) :
    diffSettings as bs = Table.merged settingDiff as bs := by
  induction as generalizing bs with
  | nil =>
    rw [Table.merged_nil _ hb, diffSettings, map_eq_flatMap]
    rfl
  | cons e as ih =>
    obtain ⟨k, a⟩ := e
    obtain ⟨low, found, high, hcut⟩ := hb.cut k
    have hrest := ih (pairwise_cons.mp ha).2 hcut.sorted
    rw [hcut.merged_cons _ ha hb, diffSettings, hcut.take, ← hrest, map_eq_flatMap]
    rcases hcut.drop_cases with ⟨b, rfl, hd⟩ | ⟨rfl, rfl, hd⟩ | ⟨l, b, later, rfl, hne, rfl, hd⟩
    · simp only [hd, if_true]
      rfl
    · simp only [hd]
      rfl
    · simp only [hd, if_neg hne]
      rfl

theorem not_sameAt_of_mem_diffSettings (ha : Table.Sorted as) (hb : Table.Sorted bs)
    (h : k ∈ diffSettings as bs) : Json.sameAt (as.get? k) (bs.get? k) = false := by
  rw [diffSettings_eq_merged ha hb] at h
  obtain ⟨l, hl⟩ := Table.mem_merged h
  by_cases hs : Json.sameAt (as.get? l) (bs.get? l) = true
  · simp [settingDiff, hs] at hl
  · simp only [settingDiff, if_neg hs, mem_singleton] at hl
    exact hl ▸ Bool.not_eq_true _ ▸ hs

theorem nodup_diffSettings (ha : Table.Sorted as) (hb : Table.Sorted bs) :
    (diffSettings as bs).Nodup := by
  have hkey : ∀ k x y, ∀ l ∈ settingDiff k x y, l = k := by
    intro k x y l hl
    unfold settingDiff at hl
    split at hl
    · cases hl
    · exact mem_singleton.mp hl
  rw [diffSettings_eq_merged ha hb]
  apply Table.pairwise_merged ha hb
  · intro k
    unfold settingDiff
    split
    · exact .nil
    · exact pairwise_singleton _ _
  · intro j k hjk p hp q hq
    rwa [hkey _ _ _ p hp, hkey _ _ _ q hq]

theorem settingDiff_eq_nil_iff (k : String) (x y : Option Json) :
    settingDiff k x y = [] ↔ Json.sameAt x y = true := by
  unfold settingDiff
  split <;> simp_all

theorem Json.fieldDiff_eq_nil_iff (path : List Segment) (k : String) (x y : Option Json) :
    fieldDiff path k x y = [] ↔ sameAt x y = true := by
  cases x with
  | none => cases y <;> simp [fieldDiff, sameAt]
  | some a =>
    cases y with
    | none => simp [fieldDiff, sameAt]
    | some b => exact ⟨settled a _ b, fun h => diff_of_same h _⟩

/-- Settings are without a change when they compare equal as the fields of objects do. -/
theorem diffSettings_eq_nil_iff (ha : Table.Sorted as) (hb : Table.Sorted bs) :
    diffSettings as bs = [] ↔ Json.sameFields as bs = true := by
  constructor
  · intro h
    -- settings are compared as the fields of an object are, though a change inside one is not
    -- followed
    have hnone : Json.diffFields [] as bs = [] → Json.sameFields as bs = true :=
      Json.sameFields_of_diffFields fun e _ => Json.settled e.2
    apply hnone
    rw [diffSettings_eq_merged ha hb, Table.merged, flatMap_eq_nil_iff] at h
    rw [Json.diffFields_eq_merged [] ha hb, Table.merged, flatMap_eq_nil_iff]
    intro k hk
    exact (Json.fieldDiff_eq_nil_iff [] k _ _).mpr ((settingDiff_eq_nil_iff k _ _).mp (h k hk))
  · intro h
    apply eq_nil_iff_forall_not_mem.mpr
    intro k hk
    have hsame := Json.sameAt_get?_of_sameFields h k
    rw [not_sameAt_of_mem_diffSettings ha hb hk] at hsame
    cases hsame

namespace Context

/-- Objects and settings stand in key order, each key once, as they are read and written. -/
def ordered (c : Context) : Bool := c.data.ordered && (Json.object c.settings).ordered

variable {c d : Context} {q : DataPath}

theorem ordered_iff :
    c.ordered = true ↔ c.data.ordered = true ∧ Table.Sorted c.settings ∧
      ∀ e ∈ c.settings, e.2.ordered = true := by
  rw [ordered, Bool.and_eq_true, Json.ordered_object]

/-- What is read from text is in order. -/
theorem ordered_of_parse {limit : Nat} {data settings : String} {v : Json}
    {fields : List (String × Json)} (hdata : Json.parse limit data = .ok v)
    (hsettings : Json.parse limit settings = .ok (.object fields)) :
    (Context.mk v fields).ordered = true := by
  rw [ordered, Json.ordered_of_parse hdata, Json.ordered_of_parse hsettings]
  rfl

theorem mem_diff (h : q ∈ c.diff d) :
    (∃ p ∈ Json.diff [] c.data d.data, q = ⟨.data, p⟩) ∨
      ∃ k ∈ diffSettings c.settings d.settings, q = .setting k := by
  rcases mem_append.mp h with h | h
  · obtain ⟨p, hp, rfl⟩ := mem_map.mp h
    exact .inl ⟨p, hp, rfl⟩
  · obtain ⟨k, hk, rfl⟩ := mem_map.mp h
    exact .inr ⟨k, hk, rfl⟩

/-- Two contexts differ at every path of their difference. -/
theorem not_sameAt_of_mem_diff (hc : c.ordered = true) (hd : d.ordered = true) (h : q ∈ c.diff d) :
    Json.sameAt (c.lookup? q) (d.lookup? q) = false := by
  obtain ⟨hcd, hcs, -⟩ := ordered_iff.mp hc
  obtain ⟨hdd, hds, -⟩ := ordered_iff.mp hd
  rcases mem_diff h with ⟨p, hp, rfl⟩ | ⟨k, hk, rfl⟩
  · obtain ⟨p, rfl, hp⟩ := Json.strict c.data [] d.data p hcd hdd hp
    exact hp
  · have hk := not_sameAt_of_mem_diffSettings hcs hds hk
    simpa [lookup?, DataPath.setting, Json.at?] using hk

theorem pairwise_diff (hc : c.ordered = true) (hd : d.ordered = true) :
    (c.diff d).Pairwise fun p q => p.overlaps q = false := by
  obtain ⟨hcd, hcs, -⟩ := ordered_iff.mp hc
  obtain ⟨hdd, hds, -⟩ := ordered_iff.mp hd
  apply pairwise_append.mpr
  refine ⟨pairwise_map.mpr ?_, pairwise_map.mpr ?_, ?_⟩
  · apply (Json.apart c.data [] d.data hcd hdd).imp
    intro p q h
    simp [DataPath.overlaps, h]
  · apply (nodup_diffSettings hcs hds).imp
    intro j k h
    simp [DataPath.overlaps, DataPath.setting, DataPath.agree, h]
  · intro p hp q hq
    obtain ⟨p, -, rfl⟩ := mem_map.mp hp
    obtain ⟨k, -, rfl⟩ := mem_map.mp hq
    rfl

theorem diff_eq_nil_iff (hc : c.ordered = true) (hd : d.ordered = true) :
    c.diff d = [] ↔ c.same d = true := by
  obtain ⟨-, hcs, -⟩ := ordered_iff.mp hc
  obtain ⟨-, hds, -⟩ := ordered_iff.mp hd
  have hdata : Json.diff [] c.data d.data = [] ↔ c.data.same d.data = true :=
    ⟨Json.settled c.data [] d.data, fun h => Json.diff_of_same h []⟩
  rw [diff, same, Bool.and_eq_true, append_eq_nil_iff, map_eq_nil_iff,
    map_eq_nil_iff, hdata, diffSettings_eq_nil_iff hcs hds]

/-- The difference of two contexts is exact: some path of it leads to or from every place where they
differ, they differ at each of its paths, no path of it is another one or leads to it, and it is
empty just for contexts that compare equal. -/
theorem diff_exact {c d : Context} (hc : c.ordered = true) (hd : d.ordered = true) :
    (∀ p, Json.sameAt (c.lookup? p) (d.lookup? p) = false → ∃ q ∈ c.diff d, q.overlaps p = true) ∧
    (∀ q ∈ c.diff d, Json.sameAt (c.lookup? q) (d.lookup? q) = false) ∧
    ((c.diff d).Pairwise fun p q =>
      p.root = q.root → ¬ p.segments <+: q.segments ∧ ¬ q.segments <+: p.segments) ∧
    (c.diff d = [] ↔ c.same d = true) := by
  refine ⟨?_, fun q hq => not_sameAt_of_mem_diff hc hd hq, ?_, diff_eq_nil_iff hc hd⟩
  · intro p hp
    by_contra hnone
    have hsame := sameAt_lookup? (p := p) fun q hq =>
      Bool.eq_false_iff.mpr fun ho => hnone ⟨q, hq, ho⟩
    rw [hp] at hsame
    cases hsame
  · apply (pairwise_diff hc hd).imp
    intro p q h hroot
    apply DataPath.not_isPrefix_of_agree
    simpa [DataPath.overlaps, hroot] using h

/-- A change deep inside an array, a key dropped, a key added and a setting changed. -/
theorem diff_exact_nested :
    ∃ c d : Context, c.ordered = true ∧ d.ordered = true ∧
      c.diff d = [⟨.data, [.key "days", .index 1, .key "high"]⟩, ⟨.data, [.key "now"]⟩,
        ⟨.data, [.key "place"]⟩, .setting "units"] ∧
      (∀ p, Json.sameAt (c.lookup? p) (d.lookup? p) = false →
        ∃ q ∈ c.diff d, q.overlaps p = true) ∧
      (∀ q ∈ c.diff d, Json.sameAt (c.lookup? q) (d.lookup? q) = false) ∧
      ((c.diff d).Pairwise fun p q =>
        p.root = q.root → ¬ p.segments <+: q.segments ∧ ¬ q.segments <+: p.segments) := by
  let c : Context :=
    ⟨.object [("days", .array [.null, .object [("high", .number (.integer 20))]]),
      ("now", .bool true)], [("units", .string "metric")]⟩
  let d : Context :=
    ⟨.object [("days", .array [.null, .object [("high", .number (.integer 21))]]),
      ("place", .string "Oslo")], [("units", .string "imperial")]⟩
  have hc : c.ordered = true := by decide +kernel
  have hd : d.ordered = true := by decide +kernel
  obtain ⟨hcover, hstrict, happart, -⟩ := diff_exact hc hd
  exact ⟨c, d, hc, hd, by decide +kernel, hcover, hstrict, happart⟩

end Context

end Widgetry
