import Mathlib.Data.List.Basic
import Mathlib.Logic.Relation
import Widgetry.Fingerprint
import Widgetry.Proofs.Json.Order

/-!
# What a fingerprint tells

The stream of a document ends where its tags and lengths say, whatever follows it, so it can be taken
apart again. What it does not tell is how a number was written beyond the bits of its float, and in
which order the keys of an object stood.
-/

namespace Widgetry

open List

/-! ### Words -/

variable {s t : List UInt8} {vs : List Json} {fields : List (String × Json)}

namespace Digest

theorem length_wordBytes (x : UInt64) : (wordBytes x).length = 8 := by
  simp [wordBytes]

theorem toNat_byte (x : UInt64) {i : Nat} (hi : i < 8) :
    (x >>> UInt64.ofNat (8 * i)).toUInt8.toNat = (x.toNat >>> (8 * i)) % 256 := by
  have hshift : (UInt64.ofNat (8 * i)).toNat = 8 * i :=
    UInt64.toNat_ofNat_of_lt' (by unfold UInt64.size; omega)
  have hmod : 8 * i % 64 = 8 * i := Nat.mod_eq_of_lt (by omega)
  rw [UInt64.toNat_toUInt8, UInt64.toNat_shiftRight, hshift, hmod]

/-- Numbers of so many bytes are equal if their bytes are. -/
theorem eq_of_bytes {n x y : Nat} (hx : x >>> (8 * n) = 0) (hy : y >>> (8 * n) = 0)
    (h : ∀ i < n, (x >>> (8 * i)) % 256 = (y >>> (8 * i)) % 256) : x = y := by
  induction n generalizing x y with
  | zero => exact hx.trans hy.symm
  | succ n ih =>
    have hrest : x >>> 8 = y >>> 8 := by
      refine ih ?_ ?_ fun i hi => ?_
      · rwa [← Nat.shiftRight_add, Nat.add_comm, ← Nat.mul_succ]
      · rwa [← Nat.shiftRight_add, Nat.add_comm, ← Nat.mul_succ]
      · have hnext := h (i + 1) (by omega)
        rwa [Nat.mul_succ, Nat.add_comm, Nat.shiftRight_add, Nat.shiftRight_add] at hnext
    have hlow := h 0 (by omega)
    simp only [Nat.mul_zero, Nat.shiftRight_zero] at hlow
    simp only [Nat.shiftRight_eq_div_pow] at hrest
    omega

variable {x y : UInt64}

theorem wordBytes_inj (h : wordBytes x = wordBytes y) : x = y := by
  have hsmall (z : UInt64) : z.toNat >>> (8 * 8) = 0 := by
    have hlt := z.toNat_lt
    simp only [Nat.shiftRight_eq_div_pow]
    omega
  refine UInt64.toNat_inj.mp (eq_of_bytes (hsmall x) (hsmall y) fun i hi => ?_)
  have hbyte := map_eq_map_iff.mp h i (mem_range.mpr hi)
  rw [← toNat_byte x hi, ← toNat_byte y hi, hbyte]

theorem wordBytes_append_inj (h : wordBytes x ++ s = wordBytes y ++ t) : x = y ∧ s = t := by
  obtain ⟨hword, hrest⟩ := append_inj h (by rw [length_wordBytes, length_wordBytes])
  exact ⟨wordBytes_inj hword, hrest⟩

theorem lengthBytes_append_inj {m n : Nat} (hm : m < UInt64.size) (hn : n < UInt64.size)
    (h : wordBytes (UInt64.ofNat m) ++ s = wordBytes (UInt64.ofNat n) ++ t) : m = n ∧ s = t := by
  obtain ⟨hword, hrest⟩ := wordBytes_append_inj h
  refine ⟨?_, hrest⟩
  rw [← UInt64.toNat_ofNat_of_lt' hm, hword, UInt64.toNat_ofNat_of_lt' hn]

end Digest

namespace Json

mutual

/-- Whether the length of every text, array and object in a document is a word. -/
def fits : Json → Bool
  | .string s => s.utf8ByteSize < UInt64.size
  | .array items => items.length < UInt64.size && fitsItems items
  | .object fields => fields.length < UInt64.size && fitsFields fields
  | _ => true

def fitsItems : List Json → Bool
  | [] => true
  | v :: vs => v.fits && fitsItems vs

def fitsFields : List (String × Json) → Bool
  | [] => true
  | (key, v) :: fields => key.utf8ByteSize < UInt64.size && v.fits && fitsFields fields

end

theorem fitsItems_iff : fitsItems vs = true ↔ ∀ v ∈ vs, v.fits = true := by
  induction vs with
  | nil => exact iff_of_true rfl (by simp)
  | cons v vs ih =>
    change (v.fits && fitsItems vs) = true ↔ _
    rw [Bool.and_eq_true, ih, forall_mem_cons]

theorem fitsFields_iff : fitsFields fields = true ↔
    ∀ e ∈ fields, e.1.utf8ByteSize < UInt64.size ∧ e.2.fits = true := by
  induction fields with
  | nil => exact iff_of_true rfl (by simp)
  | cons e fields ih =>
    obtain ⟨key, v⟩ := e
    change (decide (key.utf8ByteSize < UInt64.size) && v.fits && fitsFields fields) = true ↔ _
    rw [Bool.and_eq_true, Bool.and_eq_true, decide_eq_true_eq, ih, forall_mem_cons]

theorem fits_array :
    (Json.array vs).fits = true ↔ vs.length < UInt64.size ∧ ∀ v ∈ vs, v.fits = true := by
  rw [← fitsItems_iff, ← decide_eq_true_eq (p := vs.length < UInt64.size), ← Bool.and_eq_true]
  rfl

theorem fits_object :
    (Json.object fields).fits = true ↔ fields.length < UInt64.size ∧
      ∀ e ∈ fields, e.1.utf8ByteSize < UInt64.size ∧ e.2.fits = true := by
  rw [← fitsFields_iff, ← decide_eq_true_eq (p := fields.length < UInt64.size), ← Bool.and_eq_true]
  rfl

/-- One object somewhere in a document has its entries in another order. -/
inductive Reorders : Json → Json → Prop
  | here {fields others : List (String × Json)} (hkeys : (fields.map Prod.fst).Nodup)
      (h : fields.Perm others) : Reorders (.object fields) (.object others)
  | item {v w : Json} (before after : List Json) (h : Reorders v w) :
      Reorders (.array (before ++ v :: after)) (.array (before ++ w :: after))
  | field {v w : Json} (before after : List (String × Json)) (key : String) (h : Reorders v w) :
      Reorders (.object (before ++ (key, v) :: after)) (.object (before ++ (key, w) :: after))

end Json

namespace Fingerprint

open Widgetry.Digest (wordBytes)

/-! ### Content -/

/-- A document with its numbers as the bits of their floats and its objects as maps. -/
inductive Content where
  | null
  | bool (b : Bool)
  | number (bits : UInt64)
  | string (s : String)
  | array (items : List Content)
  | object (fields : String → Option Content)

mutual

def content : Json → Content
  | .null => .null
  | .bool b => .bool b
  | .number n => .number n.toFloat.toBits
  | .string s => .string s
  | .array items => .array (contentItems items)
  | .object fields => .object (contentAt fields)

def contentItems : List Json → List Content
  | [] => []
  | v :: vs => content v :: contentItems vs

/-- The content under a key, that of its last entry. -/
def contentAt : List (String × Json) → String → Option Content
  | [], _ => none
  | (k, v) :: fields, key =>
      (contentAt fields key).or (if key = k then some (content v) else none)

end

theorem contentItems_eq_map (vs : List Json) : contentItems vs = vs.map content := by
  induction vs with
  | nil => rfl
  | cons v vs ih => exact congrArg (content v :: ·) ih

theorem contentAt_eq_get? (fields : List (String × Json)) (key : String) :
    contentAt fields key = (Table.mapValues content (Table.ofList fields)).get? key := by
  rw [Table.get?_mapValues, Table.get?_ofList]
  induction fields with
  | nil => rfl
  | cons e fields ih =>
    obtain ⟨k, v⟩ := e
    change (contentAt fields key).or (if key = k then some (content v) else none) = _
    rw [ih, reverse_cons, Table.get?_append, Option.map_or]
    by_cases hk : key = k
    · subst hk
      rw [if_pos rfl, Table.get?_cons_self, Option.map_some]
    · rw [if_neg hk, Table.get?_cons_of_ne hk]
      rfl

theorem content_array (vs : List Json) : content (.array vs) = .array (vs.map content) :=
  congrArg Content.array (contentItems_eq_map vs)

theorem content_object (fields : List (String × Json)) : content (.object fields) =
    .object (Table.get? (Table.mapValues content (Table.ofList fields))) :=
  congrArg Content.object (funext (contentAt_eq_get? fields))

/-! ### Streams -/

theorem streamItems_eq_flatMap (vs : List Json) : streamItems vs = vs.flatMap stream := by
  induction vs with
  | nil => rfl
  | cons v vs ih => exact congrArg (stream v ++ ·) ih

theorem streamFields_eq_mapValues (fields : List (String × Json)) :
    streamFields fields = Table.mapValues stream fields := by
  induction fields with
  | nil => rfl
  | cons e fields ih =>
    obtain ⟨k, v⟩ := e
    exact congrArg ((k, stream v) :: ·) ih

theorem stream_array (vs : List Json) : stream (.array vs) =
    4 :: (wordBytes (UInt64.ofNat vs.length) ++ vs.flatMap stream) := by
  rw [← streamItems_eq_flatMap]
  rfl

theorem stream_object (fields : List (String × Json)) :
    stream (.object fields) =
      5 :: (wordBytes (UInt64.ofNat (Table.ofList fields).length) ++
        (Table.mapValues stream (Table.ofList fields)).flatMap entryBytes) := by
  have hlength : (Table.mapValues stream (Table.ofList fields)).length =
      (Table.ofList fields).length := length_map _
  rw [← hlength, ← Table.ofList_mapValues, ← streamFields_eq_mapValues]
  rfl

theorem textBytes_append_inj {x y : String} (hx : x.utf8ByteSize < UInt64.size)
    (hy : y.utf8ByteSize < UInt64.size) (h : textBytes x ++ s = textBytes y ++ t) :
    x = y ∧ s = t := by
  simp only [textBytes, append_assoc] at h
  obtain ⟨hlength, h⟩ := Digest.lengthBytes_append_inj hx hy h
  obtain ⟨hbytes, hrest⟩ := append_inj h hlength
  refine ⟨String.toByteArray_inj.mp (ByteArray.ext ?_), hrest⟩
  exact Array.toList_inj.mp hbytes

variable {α β : Type} {g : α → β} {as bs : List α} {v : Json}

/-- Parts that can each be told from what follows can be told apart one after the other. -/
theorem flatMap_append_inj {f : α → List UInt8}
    (h : ∀ a ∈ as, ∀ b ∈ bs, ∀ s t, f a ++ s = f b ++ t → g a = g b ∧ s = t)
    (hlength : as.length = bs.length) (heq : as.flatMap f ++ s = bs.flatMap f ++ t) :
    as.map g = bs.map g ∧ s = t := by
  induction as generalizing bs with
  | nil =>
    obtain rfl := eq_nil_of_length_eq_zero hlength.symm
    exact ⟨rfl, heq⟩
  | cons a as ih =>
    cases bs with
    | nil => cases hlength
    | cons b bs =>
      simp only [flatMap_cons, append_assoc] at heq
      obtain ⟨hfirst, heq⟩ := h a mem_cons_self b mem_cons_self _ _ heq
      obtain ⟨hrest, hst⟩ := ih (fun c hc d hd => h c (mem_cons_of_mem _ hc) d
        (mem_cons_of_mem _ hd)) (Nat.succ.inj hlength) heq
      exact ⟨by rw [map_cons, map_cons, hfirst, hrest], hst⟩

/-- A document whose stream tells its content and ends by itself. -/
def Tells (v : Json) : Prop :=
  ∀ w : Json, w.fits = true → ∀ s t, stream v ++ s = stream w ++ t → content v = content w ∧ s = t

theorem tells_array (hfits : (Json.array vs).fits = true) (h : ∀ v ∈ vs, Tells v) :
    Tells (.array vs) := by
  intro w hw s t heq
  obtain ⟨hlength, -⟩ := Json.fits_array.mp hfits
  cases w with
  | array ws =>
    obtain ⟨hlength', hws⟩ := Json.fits_array.mp hw
    simp only [stream_array, cons_append, append_assoc] at heq
    obtain ⟨hsame, heq⟩ := Digest.lengthBytes_append_inj hlength hlength' (List.cons.inj heq).2
    obtain ⟨hitems, hst⟩ := flatMap_append_inj
      (fun v hv w hw => h v hv w (hws w hw)) hsame heq
    exact ⟨by rw [content_array, content_array, hitems], hst⟩
  | _ => exact absurd (List.cons.inj heq).1 (by decide)

theorem tells_object (hfits : (Json.object fields).fits = true) (h : ∀ e ∈ fields, Tells e.2) :
    Tells (.object fields) := by
  intro w hw s t heq
  obtain ⟨hlength, hentries⟩ := Json.fits_object.mp hfits
  cases w with
  | object others =>
    obtain ⟨hlength', hothers⟩ := Json.fits_object.mp hw
    simp only [stream_object, cons_append, append_assoc, Table.mapValues,
      flatMap_map] at heq
    obtain ⟨hsame, heq⟩ := Digest.lengthBytes_append_inj
      (Nat.lt_of_le_of_lt (Table.length_ofList_le fields) hlength)
      (Nat.lt_of_le_of_lt (Table.length_ofList_le others) hlength') (List.cons.inj heq).2
    have hentry : ∀ e ∈ Table.ofList fields, ∀ f ∈ Table.ofList others, ∀ s t,
        entryBytes (e.1, stream e.2) ++ s = entryBytes (f.1, stream f.2) ++ t →
          (e.1, content e.2) = (f.1, content f.2) ∧ s = t := by
      intro e he f hf s t heq
      have he := Table.mem_of_mem_ofList he
      have hf := Table.mem_of_mem_ofList hf
      simp only [entryBytes, append_assoc] at heq
      obtain ⟨hkey, heq⟩ := textBytes_append_inj (hentries e he).1 (hothers f hf).1 heq
      obtain ⟨hvalue, hst⟩ := h e he f.2 (hothers f hf).2 s t heq
      exact ⟨Prod.ext hkey hvalue, hst⟩
    obtain ⟨htables, hst⟩ := flatMap_append_inj hentry hsame heq
    refine ⟨?_, hst⟩
    rw [content_object, content_object]
    exact congrArg (fun table => Content.object (Table.get? table)) htables
  | _ => exact absurd (List.cons.inj heq).1 (by decide)

theorem tells_of_fits (hv : v.fits = true) : Tells v := by
  induction v using Json.parts_induction with
  | step v ih =>
    cases v with
    | array vs =>
      exact tells_array hv fun v hmem => ih v hmem ((Json.fits_array.mp hv).2 v hmem)
    | object fields =>
      refine tells_object hv fun e he => ?_
      exact ih e.2 (mem_map_of_mem he) ((Json.fits_object.mp hv).2 e he).2
    | null =>
      intro w hw s t heq
      cases w <;> simp_all [stream, content]
    | bool b =>
      intro w hw s t heq
      cases w with
      | bool b' =>
        simp only [stream, cons_append, nil_append] at heq
        cases b <;> cases b' <;> simp_all
      | _ => simp [stream] at heq
    | number n =>
      intro w hw s t heq
      cases w with
      | number n' =>
        simp only [stream, cons_append] at heq
        obtain ⟨hbits, hst⟩ := Digest.wordBytes_append_inj (List.cons.inj heq).2
        exact ⟨by rw [content, content, hbits], hst⟩
      | _ => simp [stream] at heq
    | string x =>
      intro w hw s t heq
      cases w with
      | string y =>
        simp only [Json.fits, decide_eq_true_eq] at hv hw
        simp only [stream, cons_append] at heq
        obtain ⟨hxy, hst⟩ := textBytes_append_inj hv hw (List.cons.inj heq).2
        exact ⟨by rw [hxy], hst⟩
      | _ => simp [stream] at heq

/-- What depends on the content of parts only is the same for lists of the same content. -/
theorem map_eq_of_map_eq {γ : Type} {f : α → γ} (h : ∀ a ∈ as, ∀ b, g a = g b → f a = f b)
    (heq : as.map g = bs.map g) : as.map f = bs.map f := by
  induction as generalizing bs with
  | nil =>
    obtain rfl := map_eq_nil_iff.mp heq.symm
    rfl
  | cons a as ih =>
    cases bs with
    | nil => cases heq
    | cons b bs =>
      obtain ⟨hfirst, hrest⟩ := List.cons.inj heq
      rw [map_cons, map_cons, h a mem_cons_self b hfirst,
        ih (fun c hc => h c (mem_cons_of_mem _ hc)) hrest]

theorem mapValues_content_eq {others : List (String × Json)}
    (h : contentAt fields = contentAt others) :
    Table.mapValues content (Table.ofList fields) =
      Table.mapValues content (Table.ofList others) := by
  refine Table.Sorted.ext ((Table.sorted_ofList fields).mapValues content)
    ((Table.sorted_ofList others).mapValues content) fun key => ?_
  rw [← contentAt_eq_get?, ← contentAt_eq_get?, h]

/-- Nothing but the content of a document is in its stream. -/
theorem stream_eq_of_content_eq {w : Json} (h : content v = content w) : stream v = stream w := by
  induction v using Json.parts_induction generalizing w with
  | step v ih =>
    cases v with
    | array vs =>
      cases w with
      | array ws =>
        rw [content_array, content_array, Content.array.injEq] at h
        have hlength : vs.length = ws.length := by simpa using congrArg List.length h
        have hstreams : vs.map stream = ws.map stream :=
          map_eq_of_map_eq (fun v hv _ hvw => ih v hv hvw) h
        rw [stream_array, stream_array, flatMap_def, flatMap_def, hlength, hstreams]
      | _ => cases h
    | object fields =>
      cases w with
      | object others =>
        have hvalues := mapValues_content_eq (Content.object.inj h)
        have hlength : (Table.ofList fields).length = (Table.ofList others).length := by
          simpa [Table.mapValues] using congrArg List.length hvalues
        have hstreams : Table.mapValues stream (Table.ofList fields) =
            Table.mapValues stream (Table.ofList others) := by
          refine map_eq_of_map_eq (fun e he f hef => ?_) hvalues
          obtain ⟨hkey, hvalue⟩ := Prod.mk.inj hef
          have hmem := mem_map_of_mem (f := Prod.snd) (Table.mem_of_mem_ofList he)
          rw [hkey, ih e.2 hmem hvalue]
        rw [stream_object, stream_object, hlength, hstreams]
      | _ => cases h
    | number n =>
      cases w with
      | number n' =>
        exact congrArg (fun bits => 2 :: wordBytes bits) (Content.number.inj h)
      | _ => cases h
    | _ => cases w <;> simp_all [content]

theorem content_eq_of_reorders {w : Json} (h : v.Reorders w) : content v = content w := by
  induction h with
  | @here fields others hkeys h =>
    have hreverse : (fields.reverse.map Prod.fst).Nodup :=
      (fields.reverse_perm.map Prod.fst).nodup_iff.mpr hkeys
    have hperm := fields.reverse_perm.trans (h.trans others.reverse_perm.symm)
    rw [content_object, content_object, Content.object.injEq]
    funext key
    rw [Table.get?_mapValues, Table.get?_mapValues, Table.get?_ofList, Table.get?_ofList,
      Table.get?_perm hperm hreverse]
  | item before after _ ih =>
    simp only [content_array, map_append, map_cons, ih]
  | @field v w before after key _ ih =>
    have hat (k : String) : contentAt (before ++ (key, v) :: after) k =
        contentAt (before ++ (key, w) :: after) k := by
      induction before with
      | nil => rw [nil_append, nil_append, contentAt, contentAt, ih]
      | cons e before ihb => rw [cons_append, cons_append, contentAt, contentAt, ihb]
    rw [content, content, funext hat]

/-- Different streams with the same digest. -/
def Collide (s t : List UInt8) : Prop := s ≠ t ∧ Digest.digest seed s = Digest.digest seed t

/-- The stream of a document determines its content and where it ends. So fingerprints of documents
of different content are equal by a collision of the digest only, and the order in which keys were
written does not matter. -/
theorem stream_determines (v w : Json) (hv : v.fits = true) (hw : w.fits = true) :
    (∀ s t, stream v ++ s = stream w ++ t ↔ content v = content w ∧ s = t) ∧
      (ofJson v = ofJson w ↔ content v = content w ∨ Collide (stream v) (stream w)) ∧
      ∀ u, Relation.ReflTransGen Json.Reorders v u → stream u = stream v ∧ ofJson u = ofJson v := by
  have hstream : ∀ s t, stream v ++ s = stream w ++ t ↔ content v = content w ∧ s = t := by
    intro s t
    refine ⟨tells_of_fits hv w hw s t, ?_⟩
    rintro ⟨hcontent, rfl⟩
    rw [stream_eq_of_content_eq hcontent]
  refine ⟨hstream, ⟨fun heq => ?_, ?_⟩, fun u hu => ?_⟩
  · by_cases hsame : stream v = stream w
    · exact .inl ((hstream [] []).mp (by rw [hsame])).1
    · exact .inr ⟨hsame, heq⟩
  · rintro (hcontent | hcollide)
    · rw [ofJson, ofJson, stream_eq_of_content_eq hcontent]
    · exact hcollide.2
  · have hcontent : content u = content v := by
      induction hu with
      | refl => rfl
      | tail _ hstep ih => exact (content_eq_of_reorders hstep).symm.trans ih
    have hsame := stream_eq_of_content_eq hcontent
    exact ⟨hsame, by rw [ofJson, ofJson, hsame]⟩

/-- The start of a text does not slide into the key before it. -/
theorem stream_determines_keys :
    (Json.object [("b", .null), ("a", .string "xy")]).fits = true ∧
      (Json.object [("ax", .string "y"), ("b", .null)]).fits = true ∧
      ∀ s t, stream (.object [("b", .null), ("a", .string "xy")]) ++ s ≠
        stream (.object [("ax", .string "y"), ("b", .null)]) ++ t := by
  refine ⟨by decide, by decide, fun s t heq => ?_⟩
  obtain ⟨hcontent, -⟩ := ((stream_determines _ _ (by decide) (by decide)).1 s t).mp heq
  rw [content, content, Content.object.injEq] at hcontent
  simpa [contentAt] using congrFun hcontent "a"

end Fingerprint

end Widgetry
