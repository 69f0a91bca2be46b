import Widgetry.Json.Outline
import Widgetry.Proofs.Computation

/-!
# Rewordings of JSON text

In a string a slash may be written with a backslash before it. A text in which slashes that follow
`<` are written so, and which has white space around it, holds the same value.
-/

namespace Widgetry.Json

open List

/-- Two texts of which the second one writes some slashes after `<` with a backslash and may end with
white space. -/
inductive Rewords : List Char → List Char → Prop where
  | done {tail : List Char} (h : ∀ c ∈ tail, Cursor.isSpace c = true) : Rewords [] tail
  | step {c : Char} {cs ds : List Char} (h : Rewords cs ds) : Rewords (c :: cs) (c :: ds)
  | slash {cs ds : List Char} (h : Rewords cs ds) :
      Rewords ('<' :: '/' :: cs) ('<' :: '\\' :: '/' :: ds)

/-- Characters that both texts write alike wherever they stand. -/
def isPlain (c : Char) : Bool := !Cursor.isSpace c && c != '<'

theorem isDigit_of_isSpace {c : Char} (h : Cursor.isSpace c = true) : c.isDigit = false := by
  simp only [Cursor.isSpace, Bool.or_eq_true, beq_iff_eq] at h
  rcases h with ((rfl | rfl) | rfl) | rfl <;> rfl

namespace Rewords

variable {a x : Char} {cs ds : List Char}

theorem of_cons (h : Rewords (a :: cs) ds) (ha : a ≠ '<') : ∃ es, ds = a :: es ∧ Rewords cs es := by
  cases h with
  | step h => exact ⟨_, rfl, h⟩
  | slash h => exact absurd rfl ha

theorem exists_cons (h : Rewords (a :: cs) ds) : ∃ es, ds = a :: es := by
  cases h with
  | step h | slash h => exact ⟨_, rfl⟩

/-- Both texts go on with the same character, as long as it is no white space. -/
theorem head?_eq_some_iff (h : Rewords cs ds) (hx : Cursor.isSpace x = false) :
    cs.head? = some x ↔ ds.head? = some x := by
  cases h with
  | done htail =>
    cases ds with
    | nil => exact Iff.rfl
    | cons t tail =>
      have ht := htail t mem_cons_self
      simp only [List.head?_nil, List.head?_cons, reduceCtorEq, false_iff, Option.some.injEq]
      rintro rfl
      rw [hx] at ht
      cases ht
  | step h | slash h => exact Iff.rfl

theorem length_le (h : Rewords cs ds) : cs.length ≤ ds.length := by
  induction h with
  | done h => exact Nat.zero_le _
  | step h ih => exact Nat.succ_le_succ ih
  | slash h ih =>
    simp only [length_cons]
    omega

theorem tail (h : Rewords cs ds) (hne : cs.head? ≠ some '<') : Rewords cs.tail ds.tail := by
  cases h with
  | done h => exact .done fun c hc => h c (mem_of_mem_tail hc)
  | step h => exact h
  | slash h => exact absurd rfl hne

theorem skipSpaceFrom (h : Rewords cs ds) (p q : Position) :
    Rewords (Cursor.skipSpaceFrom cs p).rest (Cursor.skipSpaceFrom ds q).rest := by
  induction h generalizing p q with
  | @done tail h =>
    induction tail generalizing q with
    | nil => exact .done h
    | cons t tail ih =>
      obtain ⟨ht, htail⟩ := forall_mem_cons.mp h
      rw [Cursor.skipSpaceFrom.eq_def (t :: tail)]
      simp only [if_pos ht]
      exact ih htail _
  | @step c cs ds h ih =>
    simp only [Cursor.skipSpaceFrom]
    split
    · exact ih _ _
    · exact .step h
  | slash h => exact .slash h

theorem takeWhile_isDigit (h : Rewords cs ds) :
    ds.takeWhile Char.isDigit = cs.takeWhile Char.isDigit := by
  induction h with
  | @done tail h =>
    cases tail with
    | nil => rfl
    | cons t tail =>
      rw [takeWhile_cons, isDigit_of_isSpace (h t mem_cons_self)]
      rfl
  | step h ih => simp only [takeWhile_cons, ih]
  | slash h => rfl

theorem drop_digits (h : Rewords cs ds) :
    Rewords (cs.drop (cs.takeWhile Char.isDigit).length)
      (ds.drop (cs.takeWhile Char.isDigit).length) := by
  induction h with
  | done h => exact .done h
  | @step c cs ds h ih =>
    rw [takeWhile_cons]
    split
    · exact ih
    · exact .step h
  | slash h => exact .slash h

end Rewords

theorem Cursor.skip_rest (c : Cursor) : c.skip.rest = c.rest.tail := by
  unfold skip
  split
  · rename_i h
    rw [h, tail_nil]
  · rename_i h
    rw [h, tail_cons]

/-! ### Readers -/

section Readers

variable {α β : Type} {c d : Cursor} {x : Char}

/-- If the first reading succeeds, the second one gives the same value and stops at the same place
of a rewording. -/
def Tracks (x y : Except SyntaxError (α × Cursor)) : Prop :=
  ∀ a c, x = .ok (a, c) → ∃ d, y = .ok (a, d) ∧ Rewords c.rest d.rest

theorem tracks_error (e : SyntaxError) (y : Except SyntaxError (α × Cursor)) :
    Tracks (.error e) y := by
  rintro a c ⟨⟩

theorem tracks_ok (a : α) (h : Rewords c.rest d.rest) :
    Tracks (.ok (a, c)) (.ok (a, d)) := by
  rintro _ _ ⟨⟩
  exact ⟨d, rfl, h⟩

/-- A character that is no `<` is passed over in both texts. -/
theorem Rewords.skip (h : Rewords c.rest d.rest) (hne : c.rest.head? ≠ some '<') :
    Rewords c.skip.rest d.skip.rest := by
  rw [c.skip_rest, d.skip_rest]
  exact h.tail hne

theorem Rewords.skipSpace (h : Rewords c.rest d.rest) :
    Rewords c.skipSpace.rest d.skipSpace.rest := h.skipSpaceFrom _ _

theorem Rewords.isAt (h : Rewords c.rest d.rest) (hx : isPlain x = true) : d.isAt x = c.isAt x := by
  rw [isPlain, Bool.and_eq_true, Bool.not_eq_true'] at hx
  rw [Bool.eq_iff_iff, Cursor.isAt, Cursor.isAt, beq_iff_eq, beq_iff_eq]
  exact (h.head?_eq_some_iff hx.1).symm

theorem Rewords.isAtDigit (h : Rewords c.rest d.rest) : d.isAtDigit = c.isAtDigit := by
  unfold Cursor.isAtDigit
  generalize c.rest = cs, d.rest = ds at h
  cases h with
  | done h =>
    cases ds with
    | nil => rfl
    | cons t tail => exact isDigit_of_isSpace (h t mem_cons_self)
  | step h | slash h => rfl

variable {x y x' y' : Except SyntaxError (α × Cursor)}

theorem Tracks.map (h : Tracks x y) (f : α → β) :
    Tracks (x.map fun (a, c) => (f a, c)) (y.map fun (a, c) => (f a, c)) := by
  intro b c hx
  obtain ⟨⟨a, c'⟩, ha, hb⟩ := exists_of_map_eq_ok hx
  cases hb
  obtain ⟨d, rfl, hd⟩ := h a _ ha
  exact ⟨d, rfl, hd⟩

theorem Tracks.bind {f g : α × Cursor → Except SyntaxError (β × Cursor)} (h : Tracks x y)
    (hfg : ∀ a c d, Rewords c.rest d.rest → Tracks (f (a, c)) (g (a, d))) :
    Tracks (x >>= f) (y >>= g) := by
  intro b c hx
  obtain ⟨⟨a, c'⟩, ha, hb⟩ := exists_of_bind_eq_ok hx
  obtain ⟨d, rfl, hd⟩ := h a c' ha
  exact hfg a c' d hd b c hb

/-- Both readings look for the same character next. -/
theorem tracks_isAt {ch : Char} (h : Rewords c.rest d.rest) (hch : isPlain ch = true)
    (hxy : Rewords c.skip.rest d.skip.rest → Tracks x y) (hxy' : Tracks x' y') :
    Tracks (if c.isAt ch then x else x') (if d.isAt ch then y else y') := by
  rw [h.isAt hch]
  split
  · rename_i hc
    refine hxy (h.skip fun hlt => ?_)
    rw [Cursor.isAt, hlt, beq_iff_eq] at hc
    cases hc
    cases hch
  · exact hxy'

theorem tracks_nonempty {e e' : SyntaxError} (h : Rewords c.rest d.rest) (hxy : Tracks x y) :
    Tracks (if c.rest.isEmpty then .error e else x) (if d.rest.isEmpty then .error e' else y) := by
  generalize c.rest = cs, d.rest = ds at h
  cases h with
  | done h => exact tracks_error _ _
  | step h | slash h => exact hxy

end Readers

variable {a : Char} {cs blank : List Char} {v : Json} {limit : Nat} {text : String}

namespace Quotation

open Widgetry.Text (hexValue?)

variable {c d : Cursor}

theorem ne_of_hexValue? {n : Nat} (h : hexValue? a = some n) : a ≠ '<' := by
  rintro rfl
  cases h

theorem readHex_failed_ne (c : Cursor) (r : Nat × Cursor) : readHex.failed c ≠ .ok r := by
  unfold readHex.failed
  split <;> simp

theorem tracks_readHex (h : Rewords c.rest d.rest) : Tracks (readHex c) (readHex d) := by
  intro n c' hread
  unfold readHex at hread
  split at hread
  · rename_i a₁ a₂ a₃ a₄ rest hc
    split at hread
    · rename_i x₁ x₂ x₃ x₄ h₁ h₂ h₃ h₄
      cases hread
      rw [hc] at h
      obtain ⟨es₁, hd, r₁⟩ := h.of_cons (ne_of_hexValue? h₁)
      obtain ⟨es₂, rfl, r₂⟩ := r₁.of_cons (ne_of_hexValue? h₂)
      obtain ⟨es₃, rfl, r₃⟩ := r₂.of_cons (ne_of_hexValue? h₃)
      obtain ⟨es₄, rfl, r₄⟩ := r₃.of_cons (ne_of_hexValue? h₄)
      refine ⟨⟨es₄, ⟨d.place.line, d.place.column + 4⟩⟩, ?_, r₄⟩
      simp only [readHex, hd, h₁, h₂, h₃, h₄]
    · exact absurd hread (readHex_failed_ne c _)
  · exact absurd hread (readHex_failed_ne c _)

variable {ch : Char} {fuel : Nat}

theorem tracks_expectPair (hch : isPlain ch = true) (h : Rewords c.rest d.rest) :
    Tracks (expectPair ch c) (expectPair ch d) :=
  tracks_isAt h hch (tracks_ok ()) (tracks_error _ _)

theorem tracks_readUnicode (h : Rewords c.rest d.rest) : Tracks (readUnicode c) (readUnicode d) := by
  refine (tracks_readHex h).bind fun n c₁ d₁ h₁ => ?_
  dsimp only
  split
  · exact tracks_error _ _
  · split
    · exact tracks_ok _ h₁
    · refine (tracks_expectPair rfl h₁).bind fun _ c₂ d₂ h₂ => ?_
      refine (tracks_expectPair rfl h₂).bind fun _ c₃ d₃ h₃ => ?_
      refine (tracks_readHex h₃).bind fun m c₄ d₄ h₄ => ?_
      dsimp only
      split
      · exact tracks_ok _ h₄
      · exact tracks_error _ _

theorem tracks_readEscape (h : Rewords c.rest d.rest) : Tracks (readEscape c) (readEscape d) := by
  refine tracks_isAt h rfl tracks_readUnicode ?_
  split
  · exact tracks_error _ _
  · rename_i a cs hc
    obtain ⟨es, hd⟩ := (hc ▸ h).exists_cons
    simp only [hd]
    split
    · rename_i hescape
      refine tracks_ok _ (h.skip ?_)
      rw [hc]
      rintro ⟨⟩
      cases hescape
    · exact tracks_error _ _

/-- Reading goes on alike after one character, or after the slash that follows a `<`. -/
theorem tracks_readFrom {fuel' : Nat} (hfuel : fuel ≤ fuel') (read : List Char)
    (h : Rewords c.rest d.rest) : Tracks (readFrom fuel read c) (readFrom fuel' read d) := by
  induction fuel using Nat.strongRecOn generalizing fuel' read c d with
  | ind fuel ih =>
    cases fuel with
    | zero => exact tracks_error _ _
    | succ fuel =>
      obtain ⟨fuel', rfl⟩ : ∃ n, fuel' = n + 1 := ⟨fuel' - 1, by omega⟩
      have hfuel := Nat.le_of_succ_le_succ hfuel
      refine tracks_isAt h rfl (tracks_ok _) (tracks_isAt h rfl (fun hskip =>
        (tracks_readEscape hskip).bind fun ch c₁ d₁ h₁ =>
          ih fuel fuel.lt_succ_self hfuel (ch :: read) h₁) ?_)
      generalize hcs : c.rest = cs, hds : d.rest = ds at h
      cases h with
      | done h => exact tracks_error _ _
      | @step a cs ds h =>
        dsimp only
        split
        · exact tracks_error _ _
        · refine ih fuel fuel.lt_succ_self hfuel (a :: read) ?_
          rwa [c.skip_rest, d.skip_rest, hcs, hds]
      | @slash cs ds h =>
        cases fuel with
        | zero => exact tracks_error _ _
        | succ fuel =>
          obtain ⟨fuel', rfl⟩ : ∃ n, fuel' = n + 1 := ⟨fuel' - 1, by omega⟩
          have hc : c.skip.rest = '/' :: cs := by rw [c.skip_rest, hcs, tail_cons]
          have hd : d.skip.rest = '\\' :: '/' :: ds := by rw [d.skip_rest, hds, tail_cons]
          have hslash : d.skip.skip.rest = '/' :: ds := by rw [Cursor.skip_rest, hd, tail_cons]
          have hescape : readEscape d.skip.skip = .ok ('/', d.skip.skip.skip) := by
            simp [readEscape, Cursor.isAt, hslash, simpleEscape?]
          have hplain : readFrom (fuel + 1) ('<' :: read) c.skip =
              readFrom fuel ('/' :: '<' :: read) c.skip.skip := by
            simp [readFrom, Cursor.isAt, hc]
          have hescaped : readFrom (fuel' + 1) ('<' :: read) d.skip =
              readFrom fuel' ('/' :: '<' :: read) d.skip.skip.skip := by
            rw [readFrom, Cursor.isAt, Cursor.isAt, hd, hescape]
            rfl
          simp only [hplain, hescaped]
          refine ih fuel (by omega) (Nat.le_of_succ_le_succ hfuel) _ ?_
          rwa [Cursor.skip_rest, hc, Cursor.skip_rest, hslash]

theorem tracks_read (h : Rewords c.rest d.rest) : Tracks (read c) (read d) :=
  (tracks_readFrom (Nat.succ_le_succ h.length_le) [] h).map String.ofList

end Quotation

namespace Numeral

variable {c d : Cursor} {negative : Bool} {significand : Nat}

theorem tracks_finish (exponent : Int) (h : Rewords c.rest d.rest) :
    Tracks (finish negative significand exponent c) (finish negative significand exponent d) := by
  unfold finish
  split
  · exact tracks_ok _ h
  · exact tracks_error _ _

/-- Exponent digits run out in both texts or give the same value in both. -/
theorem exponentDigits_cases {digits : List Char} (hdigits : ∀ x ∈ digits, x.isDigit = true)
    (hstart : digits <+: c.rest) (value : Nat) (h : Rewords c.rest d.rest) :
    (∃ n c' d', exponentDigits value digits c = .ok (n, c') ∧
      exponentDigits value digits d = .ok (n, d') ∧ Rewords c'.rest d'.rest) ∨
    ∃ c' d', exponentDigits value digits c = .error c' ∧
      exponentDigits value digits d = .error d' := by
  induction digits generalizing value c d with
  | nil => exact .inl ⟨value, c, d, rfl, rfl, h⟩
  | cons a digits ih =>
    obtain ⟨ha, hdigits⟩ := forall_mem_cons.mp hdigits
    obtain ⟨rest, hrest⟩ := hstart
    have hskip := h.skip (by rw [← hrest]; rintro ⟨⟩; cases ha)
    have hstart : digits <+: c.skip.rest := ⟨rest, by rw [c.skip_rest, ← hrest]; rfl⟩
    simp only [exponentDigits]
    split
    · exact ih hdigits hstart _ hskip
    · exact .inr ⟨_, _, rfl, rfl⟩

theorem tracks_readPower (start : Int) (down : Bool) (h : Rewords c.rest d.rest) :
    Tracks (readPower negative significand start down c)
      (readPower negative significand start down d) := by
  have hstart : c.rest.takeWhile Char.isDigit <+: c.rest := takeWhile_prefix _
  have hsplit := exponentDigits_cases (all_eq_true.mp all_takeWhile) hstart 0 h
  unfold readPower
  simp only [h.isAtDigit, h.takeWhile_isDigit]
  split
  · rcases hsplit with ⟨n, c', d', hn, hn', hrest⟩ | ⟨c', d', he, he'⟩
    · rw [hn, hn']
      exact tracks_finish _ hrest
    · rw [he, he']
      dsimp only
      split
      · exact tracks_error _ _
      · exact tracks_ok _ h.drop_digits
  · exact tracks_error _ _

theorem tracks_readExponent (start : Int) (h : Rewords c.rest d.rest) :
    Tracks (readExponent negative significand start c)
      (readExponent negative significand start d) :=
  tracks_isAt h rfl (tracks_readPower start false)
    (tracks_isAt h rfl (tracks_readPower start true) (tracks_readPower start false h))

theorem tracks_readTail (exponent : Int) (h : Rewords c.rest d.rest) :
    Tracks (readTail negative significand exponent c) (readTail negative significand exponent d) :=
  tracks_isAt h rfl (tracks_readExponent exponent)
    (tracks_isAt h rfl (tracks_readExponent exponent) (tracks_finish exponent h))

theorem tracks_readFraction (spilled : Nat) (h : Rewords c.rest d.rest) :
    Tracks (readFraction negative significand spilled c)
      (readFraction negative significand spilled d) := by
  unfold readFraction
  simp only [h.isAtDigit, h.takeWhile_isDigit]
  split
  · exact tracks_readTail _ h.drop_digits
  · exact tracks_error _ _

theorem tracks_readAfterWhole (spilled : Nat) (h : Rewords c.rest d.rest) :
    Tracks (readAfterWhole negative significand spilled c)
      (readAfterWhole negative significand spilled d) := by
  refine tracks_isAt h rfl (tracks_readFraction spilled) (tracks_isAt h rfl
    (tracks_readExponent spilled) (tracks_isAt h rfl (tracks_readExponent spilled) ?_))
  split
  · exact tracks_ok _ h
  · exact tracks_finish _ h

theorem tracks_readUnsigned (h : Rewords c.rest d.rest) :
    Tracks (readUnsigned negative c) (readUnsigned negative d) := by
  refine tracks_isAt h rfl (fun hskip => ?_) ?_
  · rw [hskip.isAtDigit]
    split
    · exact tracks_error _ _
    · exact tracks_readAfterWhole 0 hskip
  · simp only [h.isAtDigit, h.takeWhile_isDigit]
    split
    · exact tracks_readAfterWhole _ h.drop_digits
    · exact tracks_error _ _

theorem tracks_read (h : Rewords c.rest d.rest) : Tracks (read c) (read d) :=
  tracks_isAt h rfl tracks_readUnsigned (tracks_readUnsigned h)

end Numeral

namespace Outline

variable {c d : Cursor} {first : Bool}

theorem tracks_readWord (v : Json) {ws : List Char} (hws : ws.all isPlain = true)
    (h : Rewords c.rest d.rest) : Tracks (readWord v ws c) (readWord v ws d) := by
  induction ws generalizing c d with
  | nil => exact tracks_ok v h
  | cons w ws ih =>
    obtain ⟨hw, hws⟩ := Bool.and_eq_true_iff.mp hws
    exact tracks_isAt h hw (ih hws) (tracks_error _ _)

theorem tracks_readLeaf (h : Rewords c.rest d.rest) : Tracks (readLeaf c) (readLeaf d) := by
  refine tracks_isAt h rfl (tracks_readWord _ rfl) (tracks_isAt h rfl (tracks_readWord _ rfl)
    (tracks_isAt h rfl (tracks_readWord _ rfl) (tracks_isAt h rfl
      (fun hskip => (Quotation.tracks_read hskip).map Json.string) ?_)))
  rw [h.isAt rfl, h.isAtDigit]
  split
  · exact (Numeral.tracks_read h).map Json.number
  · exact tracks_error _ _

theorem tracks_nextPart {close : Char} (hclose : isPlain close = true)
    (ended separated : SyntaxFault) (first : Bool) (h : Rewords c.rest d.rest) :
    Tracks (nextPart close ended separated first c) (nextPart close ended separated first d) := by
  have h := h.skipSpace
  refine tracks_isAt h hclose (tracks_ok false) (tracks_nonempty h ?_)
  cases first with
  | true => exact tracks_ok true h
  | false =>
    refine tracks_isAt h rfl (fun hskip => ?_) (tracks_error _ _)
    have h := hskip.skipSpace
    exact tracks_isAt h hclose (fun _ => tracks_error _ _) (tracks_nonempty h (tracks_ok true h))

/-! ### Parts -/

section Parts

variable {α β : Type} {value : α → Except SyntaxError β}
  {next : Bool → Cursor → Except SyntaxError (Bool × Cursor)} {one one' : Cursor → List α × Stop}
  {read read' : Cursor → Outline × Stop} {fuel fuel' : Nat}

/-- The values of parts that were read up to the closing bracket. -/
def gathered (value : α → Except SyntaxError β) (r : List α × Stop) :
    Except SyntaxError (List β × Cursor) := do
  let vs ← r.1.mapM value
  let c ← r.2
  return (vs, c)

theorem gathered_append (parts rest : List α) (stop : Stop) : gathered value (parts ++ rest, stop) =
    (parts.mapM value >>= fun vs =>
      (gathered value (rest, stop)).map fun (ws, c) => (vs ++ ws, c)) := by
  simp only [gathered, mapM_append]
  cases parts.mapM value with
  | error e => rfl
  | ok vs =>
    cases rest.mapM value with
    | error e => rfl
    | ok ws => cases stop <;> rfl

theorem gathered_readParts : gathered value (readParts next one (fuel + 1) first c) =
    (next first c >>= fun (goes, c) =>
      if goes then gathered value (one c) >>= fun (vs, c) =>
        (gathered value (readParts next one fuel false c)).map fun (ws, c) => (vs ++ ws, c)
      else .ok ([], c)) := by
  rw [readParts]
  cases next first c with
  | error e => rfl
  | ok found =>
    obtain ⟨goes, c⟩ := found
    cases goes with
    | false => rfl
    | true =>
      dsimp only
      show _ = gathered value (one c) >>= _
      obtain ⟨parts, stop⟩ := one c
      cases stop with
      | error e =>
        rw [gathered]
        cases parts.mapM value <;> rfl
      | ok c =>
        dsimp only
        rw [gathered_append, gathered.eq_def value (parts, _)]
        cases parts.mapM value <;> rfl

theorem tracks_readParts
    (hnext : ∀ first {c d}, Rewords c.rest d.rest → Tracks (next first c) (next first d))
    (hone : ∀ {c d}, Rewords c.rest d.rest →
      Tracks (gathered value (one c)) (gathered value (one' d)))
    (hfuel : fuel ≤ fuel') (first : Bool) (h : Rewords c.rest d.rest) :
    Tracks (gathered value (readParts next one fuel first c))
      (gathered value (readParts next one' fuel' first d)) := by
  induction fuel generalizing fuel' first c d with
  | zero => exact tracks_error _ _
  | succ fuel ih =>
    obtain ⟨fuel', rfl⟩ : ∃ n, fuel' = n + 1 := ⟨fuel' - 1, by omega⟩
    rw [gathered_readParts, gathered_readParts]
    refine (hnext first h).bind fun goes c d h => ?_
    cases goes with
    | false => exact tracks_ok [] h
    | true =>
      refine (hone h).bind fun vs c d h => ?_
      exact (ih (Nat.le_of_succ_le_succ hfuel) false h).map (vs ++ ·)

def taken (r : Outline × Stop) : Except SyntaxError (Json × Cursor) := do
  let v ← r.1.toJson
  let c ← r.2
  return (v, c)

def fieldValue (f : Key × Outline) : Except SyntaxError (String × Json) :=
  f.2.toJson.map fun v => (f.1.name, v)

theorem itemsToJson_eq_mapM (items : List Outline) : itemsToJson items = items.mapM toJson := by
  induction items with
  | nil => rfl
  | cons o items ih => rw [itemsToJson, ih, mapM_cons]

theorem fieldsToJson_eq_mapM (fields : List (Key × Outline)) :
    fieldsToJson fields = fields.mapM fieldValue := by
  induction fields with
  | nil => rfl
  | cons f fields ih =>
    rw [fieldsToJson, ih, mapM_cons, fieldValue]
    cases f.2.toJson <;> rfl

theorem taken_array (p : Position) (r : List Outline × Stop) :
    taken (.array p r.1 (fault? r.2), r.2) =
      (gathered toJson r).map fun (vs, c) => (.array vs, c) := by
  obtain ⟨items, stop⟩ := r
  rw [taken, toJson, gathered, itemsToJson_eq_mapM]
  cases items.mapM toJson with
  | error e => rfl
  | ok vs => cases stop <;> rfl

theorem taken_object (p : Position) (r : List (Key × Outline) × Stop) :
    taken (.object p r.1 (fault? r.2), r.2) =
      (gathered fieldValue r).map fun (vs, c) => (.object (Table.ofList vs), c) := by
  obtain ⟨fields, stop⟩ := r
  rw [taken, toJson, gathered, fieldsToJson_eq_mapM]
  cases fields.mapM fieldValue with
  | error e => rfl
  | ok vs => cases stop <;> rfl

theorem tracks_halted (e : SyntaxError) (y : Except SyntaxError (Json × Cursor)) :
    Tracks (taken (halted c e)) y := by
  rw [halted, taken, toJson]
  exact tracks_error _ _

theorem gathered_readItem (c : Cursor) :
    gathered toJson (readItem read c) = (taken (read c)).map fun (v, c) => ([v], c) := by
  simp only [gathered, readItem, taken, mapM_cons, mapM_nil]
  cases (read c).1.toJson with
  | error e => rfl
  | ok v => cases (read c).2 <;> rfl

theorem gathered_readField (c : Cursor) : gathered fieldValue (readField read c) =
    if c.isAt '"' then Quotation.read c.skip >>= fun (name, c) =>
      (taken (readValue read c)).map fun (v, c) => ([(name, v)], c)
    else .error (c.failNext .keyNotString) := by
  rw [readField]
  split
  · cases Quotation.read c.skip with
    | error e => rfl
    | ok found =>
      obtain ⟨name, c⟩ := found
      show gathered fieldValue ([(_, (readValue read c).1)], (readValue read c).2) =
        (taken (readValue read c)).map fun (v, c) => ([(name, v)], c)
      simp only [gathered, taken, mapM_cons, mapM_nil, fieldValue]
      cases (readValue read c).1.toJson with
      | error e => rfl
      | ok v => cases (readValue read c).2 <;> rfl
  · rfl

/-- Two ways to read values, of which the second one reads rewordings. -/
def Follows (read read' : Cursor → Outline × Stop) : Prop := ∀ {c d},
  Rewords c.skipSpace.rest d.skipSpace.rest → Tracks (taken (read c)) (taken (read' d))

theorem Follows.item (hread : Follows read read') (h : Rewords c.rest d.rest) :
    Tracks (gathered toJson (readItem read c)) (gathered toJson (readItem read' d)) := by
  rw [gathered_readItem, gathered_readItem]
  exact (hread h.skipSpace).map ([·])

theorem Follows.field (hread : Follows read read') (h : Rewords c.rest d.rest) :
    Tracks (gathered fieldValue (readField read c)) (gathered fieldValue (readField read' d)) := by
  rw [gathered_readField, gathered_readField]
  refine tracks_isAt h rfl (fun hskip => ?_) (tracks_error _ _)
  refine (Quotation.tracks_read hskip).bind fun name c d h => Tracks.map ?_ fun v => [(name, v)]
  unfold readValue
  have h := h.skipSpace
  dsimp only
  rw [h.isAt rfl]
  split
  · rename_i hc
    refine hread (h.skip ?_).skipSpace
    rw [beq_iff_eq.mp hc]
    rintro ⟨⟩
  · exact tracks_halted _ _

end Parts

theorem tracks_readWith {below below' : Option (Cursor → Outline × Stop)}
    (hbelow : Option.Rel (fun read read' => Follows read read') below below')
    (h : Rewords c.skipSpace.rest d.skipSpace.rest) :
    Tracks (taken (readWith below c)) (taken (readWith below' d)) := by
  unfold readWith
  dsimp only
  rw [h.isAt rfl, h.isAt rfl]
  split
  · rename_i hopen
    have hskip : Rewords c.skipSpace.skip.rest d.skipSpace.skip.rest := by
      refine h.skip fun hlt => ?_
      simp [Cursor.isAt, hlt] at hopen
    cases hbelow with
    | none => exact tracks_halted _ _
    | some hread =>
      dsimp only
      split
      · rw [taken_array, taken_array]
        exact (tracks_readParts (fun first _ _ => tracks_nextPart rfl _ _ first)
          (fun h => hread.item h) h.length_le true hskip).map Json.array
      · rw [taken_object, taken_object]
        exact (tracks_readParts (fun first _ _ => tracks_nextPart rfl _ _ first)
          (fun h => hread.field h) h.length_le true hskip).map
          fun vs => Json.object (Table.ofList vs)
  · intro v c' hv
    cases hleaf : readLeaf c.skipSpace with
    | error e =>
      rw [hleaf] at hv
      exact tracks_halted _ _ v c' hv
    | ok found =>
      rw [hleaf] at hv
      cases hv
      obtain ⟨d', hd, hrest⟩ := tracks_readLeaf h _ _ hleaf
      exact ⟨d', by rw [hd]; rfl, hrest⟩

theorem follows_read (depth : Nat) : Follows (read depth) (read depth) := by
  induction depth with
  | zero => exact fun h => tracks_readWith .none h
  | succ depth ih => exact fun h => tracks_readWith (.some ih) h

end Outline

/-! ### Whole texts -/

theorem skipSpaceFrom_append (h : ∀ c ∈ blank, Cursor.isSpace c = true) (cs : List Char)
    (p : Position) : ∃ q, Cursor.skipSpaceFrom (blank ++ cs) p = Cursor.skipSpaceFrom cs q := by
  induction blank generalizing p with
  | nil => exact ⟨p, rfl⟩
  | cons b blank ih =>
    obtain ⟨hb, hblank⟩ := forall_mem_cons.mp h
    obtain ⟨q, hq⟩ := ih hblank (p.after b)
    refine ⟨q, ?_⟩
    rw [cons_append, Cursor.skipSpaceFrom, if_pos hb, hq]

theorem parse_eq (limit : Nat) (text : String) : parse limit text =
    (Outline.taken (Outline.read (limit - 1) (.ofString text)) >>= fun (v, c) =>
      if c.skipSpace.rest.isEmpty then .ok v
      else .error (c.skipSpace.failNext .trailingCharacters)) := by
  unfold parse Document.read Outline.taken
  obtain ⟨root, stop⟩ := Outline.read (limit - 1) (.ofString text)
  dsimp only
  cases root.toJson with
  | error e => rfl
  | ok v =>
    cases stop with
    | error e => rfl
    | ok c =>
      dsimp only [bind, Except.bind, pure, Except.pure]
      cases c.skipSpace.rest <;> rfl

theorem skipSpaceFrom_of_blank (h : ∀ c ∈ blank, Cursor.isSpace c = true) (p : Position) :
    (Cursor.skipSpaceFrom blank p).rest = [] := by
  obtain ⟨q, hq⟩ := skipSpaceFrom_append h [] p
  rw [append_nil] at hq
  rw [hq]
  rfl

theorem skipSpaceFrom_idem (cs : List Char) (p q : Position) :
    (Cursor.skipSpaceFrom (Cursor.skipSpaceFrom cs p).rest q).rest =
      (Cursor.skipSpaceFrom cs p).rest := by
  induction cs generalizing p with
  | nil => rfl
  | cons c cs ih =>
    rw [Cursor.skipSpaceFrom]
    split
    · exact ih _
    · rename_i hc
      rw [Cursor.skipSpaceFrom, if_neg hc]

/-- A rewording of a text, with white space around it, holds the same value. -/
theorem parse_of_rewords {s t : String} {ds : List Char} (blank : List Char)
    (hs : parse limit s = .ok v) (hblank : ∀ c ∈ blank, Cursor.isSpace c = true)
    (h : Rewords s.toList ds) (ht : t.toList = blank ++ ds) : parse limit t = .ok v := by
  rw [parse_eq] at hs ⊢
  obtain ⟨⟨w, c⟩, hread, hs⟩ := exists_of_bind_eq_ok hs
  have hstart : Rewords (Cursor.ofString s).skipSpace.rest (Cursor.ofString t).skipSpace.rest := by
    obtain ⟨q, hq⟩ := skipSpaceFrom_append hblank ds .origin
    rw [Cursor.ofString, Cursor.ofString, Cursor.skipSpace, Cursor.skipSpace, ht, hq]
    exact h.skipSpaceFrom _ q
  obtain ⟨d, hd, hrest⟩ := Outline.follows_read _ hstart w c hread
  rw [hd]
  dsimp only at hs
  split at hs
  · rename_i hend
    cases hs
    have hrest := hrest.skipSpace
    rw [List.isEmpty_iff.mp hend] at hrest
    cases hrest with
    | done htail =>
      refine if_pos (List.isEmpty_iff.mpr ?_)
      rw [← skipSpaceFrom_of_blank htail .origin]
      exact (skipSpaceFrom_idem _ _ _).symm
  · cases hs

end Widgetry.Json
