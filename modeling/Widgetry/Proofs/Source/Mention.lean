import Mathlib.Data.List.Basic
import Widgetry.Proofs.Expr.Checking
import Widgetry.Proofs.Source.Operand

/-!
# Lookups in the code of values

The code of an operator holds that of each of its operands, so the code of a value holds a lookup for
each binding that the value names.
-/

namespace Widgetry.Source

open List

/-! ### Texts in texts -/

/-- A text stands in another one. -/
def Within (s t : String) : Prop := s.toList <:+: t.toList

section

variable {s t a : String} {ls : List String}

theorem Within.refl (s : String) : Within s s := infix_rfl

theorem Within.trans {u : String} (hst : Within s t) (htu : Within t u) : Within s u :=
  IsInfix.trans hst htu

theorem Within.after (h : Within s t) (a : String) : Within s (a ++ t) := by
  refine h.trans ?_
  rw [Within, String.toList_append]
  exact (suffix_append _ _).isInfix

theorem Within.before (h : Within s t) (a : String) : Within s (t ++ a) := by
  refine h.trans ?_
  rw [Within, String.toList_append]
  exact (prefix_append _ _).isInfix

theorem Within.between (h : Within s t) (a b : String) : Within s (a ++ t ++ b) :=
  (h.after a).before b

/-- Text that holds another one holds its bytes. -/
theorem Within.bytes (h : Within s t) :
    s.toByteArray.data.toList <:+: t.toByteArray.data.toList := by
  obtain ⟨a, b, hcut⟩ := h
  have htext : String.ofList a ++ s ++ String.ofList b = t := by
    rw [← String.toList_inj, String.toList_append, String.toList_append, String.toList_ofList,
      String.toList_ofList, hcut]
  rw [← htext]
  simp only [String.toByteArray_append, ByteArray.data_append, Array.toList_append]
  exact infix_append _ _ _

theorem within_join (h : s ∈ ls) : Within s (String.join ls) := by
  induction ls with
  | nil => cases h
  | cons l ls ih =>
    rw [String.join_cons]
    rcases mem_cons.mp h with rfl | h
    · exact (Within.refl s).before _
    · exact (ih h).after _

theorem within_joinWith (separator : String) (h : s ∈ ls) :
    Within s (Text.joinWith separator ls) := by
  unfold Text.joinWith
  induction ls with
  | nil => cases h
  | cons l ls ih =>
    cases ls with
    | nil =>
      rw [String.intercalate_singleton, mem_singleton.mp h]
      exact .refl l
    | cons l' ls =>
      rw [String.intercalate_cons_cons]
      rcases mem_cons.mp h with rfl | h
      · exact ((Within.refl s).before _).before _
      · exact (ih h).after _

theorem Within.parens (h : Within s t) : Within s (parens t) := h.between "(" ")"

theorem Within.group (h : Within s t) : Within s (group t) := by
  unfold Source.group
  split
  · exact h
  · exact h.between "(" ")"

theorem within_chain (symbol : String) (h : s ∈ ls) : Within s (chain symbol ls) :=
  (within_joinWith _ h).parens

theorem within_call (name : String) (h : s ∈ ls) : Within s (call name ls) :=
  ((within_joinWith _ h).after _).before _

end

/-- A text stands in one of several. -/
def Among (s : String) (ls : List String) : Prop := ∃ l ∈ ls, Within s l

section

variable {s : String} {ls : List String}

theorem Within.among {l : String} (h : Within s l) (hl : l ∈ ls) : Among s ls := ⟨l, hl, h⟩

theorem Among.left (h : Among s ls) (ks : List String) : Among s (ls ++ ks) := by
  obtain ⟨l, hl, hs⟩ := h
  exact hs.among (mem_append_left _ hl)

theorem Among.right (h : Among s ls) (ks : List String) : Among s (ks ++ ls) := by
  obtain ⟨l, hl, hs⟩ := h
  exact hs.among (mem_append_right _ hl)

theorem among_toList {t : String} {o : Option String} {f : String → String} (ho : o = some t)
    (hs : Within s (f t)) : Among s (o.map f).toList := by
  rw [ho]
  exact hs.among mem_cons_self

theorem Among.joinWith (h : Among s ls) (separator : String) :
    Within s (Text.joinWith separator ls) := by
  obtain ⟨l, hl, hs⟩ := h
  exact hs.trans (within_joinWith separator hl)

theorem Among.call (h : Among s ls) (name : String) : Within s (call name ls) :=
  ((h.joinWith _).after _).before _

end

/-! ### Operators -/

/-- Branches and what they fall back to, in one list. -/
def alternatives (branches : List (String × String)) (fallback : String) : List String :=
  branches.flatMap (fun b => [b.1, b.2]) ++ [fallback]

/-- A language in which the texts of operands stand in those of the operators. -/
structure Language.Mentions (lang : Language) : Prop where
  remainder : ∀ a b, ∀ s ∈ [a, b], Within s (lang.remainder a b)
  choose : ∀ branches fallback, ∀ s ∈ alternatives branches fallback,
    Within s (lang.choose branches fallback)
  select : ∀ input branches fallback, branches ≠ [] →
    ∀ s ∈ input :: alternatives branches fallback, Within s (lang.select input branches fallback)

variable {branches : List (String × String)} {fallback s : String}

theorem mem_alternatives_iff :
    s ∈ alternatives branches fallback ↔ (∃ b ∈ branches, s ∈ [b.1, b.2]) ∨ s = fallback := by
  rw [alternatives, mem_append, mem_flatMap, mem_singleton]

theorem alternatives_pairs {args : List String} (hodd : args.length % 2 = 1) :
    alternatives (pairs args.dropLast) (args.getLast?.getD "") = args := by
  induction args using pairs.induct with
  | case1 a b rest ih =>
    simp only [length_cons] at hodd
    cases rest with
    | nil => simp at hodd
    | cons c rest =>
      have hlast : (a :: b :: c :: rest).getLast? = (c :: rest).getLast? := by simp
      have hrest : (c :: rest).length % 2 = 1 := by
        simp only [length_cons] at hodd ⊢
        omega
      rw [dropLast_cons_cons, dropLast_cons_cons, pairs, hlast]
      show a :: b :: alternatives (pairs (c :: rest).dropLast) _ = _
      rw [ih hrest]
  | case2 args hshort =>
    cases args with
    | nil => cases hodd
    | cons a rest =>
      cases rest with
      | nil => rfl
      | cons b rest => exact absurd rfl (hshort a b rest)

theorem Kotlin.mentions_language : Kotlin.language.Mentions where
  remainder := fun _ _ _ hs => within_chain _ hs
  choose := by
    intro branches fallback s hs
    refine Within.parens ?_
    rcases mem_alternatives_iff.mp hs with ⟨b, hb, hs⟩ | rfl
    · refine Within.before (Within.trans ?_ (within_join (mem_map_of_mem hb))) _
      simp only [mem_cons, not_mem_nil, or_false] at hs
      rcases hs with rfl | rfl
      · exact (((Within.refl _).between _ _).before _).before _
      · exact (Within.refl _).between _ _
    · exact (Within.refl s).after _
  select := by
    intro input branches fallback _ s hs
    rcases mem_cons.mp hs with rfl | hs
    · exact (((((Within.refl s).between _ _).before _).before _).before _).before _
    · rcases mem_alternatives_iff.mp hs with ⟨b, hb, hs⟩ | rfl
      · have hbranch := within_join (mem_map_of_mem (f := fun b : String × String =>
          b.1 ++ " -> " ++ b.2 ++ "; ") hb)
        refine ((((Within.trans ?_ hbranch).after _).before _).before _).before _
        simp only [mem_cons, not_mem_nil, or_false] at hs
        rcases hs with rfl | rfl
        · exact (((Within.refl _).before _).before _).before _
        · exact (Within.refl _).between _ _
      · exact ((Within.refl s).after _).before _

theorem Swift.within_nest (hs : s ∈ alternatives branches fallback) :
    Within s (Swift.nest branches fallback) := by
  rcases mem_alternatives_iff.mp hs with ⟨b, hb, hs⟩ | rfl
  · refine ((Within.trans ?_ (within_join (mem_map_of_mem hb))).before _).before _
    simp only [mem_cons, not_mem_nil, or_false] at hs
    rcases hs with rfl | rfl
    · exact (((Within.refl _).between _ _).before _).before _
    · exact (Within.refl _).between _ _
  · exact (Within.refl s).between _ _

theorem Swift.mentions_language : Swift.language.Mentions where
  remainder := by
    intro a b s hs
    simp only [mem_cons, not_mem_nil, or_false] at hs
    rcases hs with rfl | rfl
    · exact ((((Within.refl s).group).before _).before _).before _
    · exact (Within.refl s).between _ _
  choose := fun _ _ _ hs => Swift.within_nest hs
  select := by
    intro input branches fallback hne s hs
    -- the input is compared with each label, so it stands in the branch of the first one
    rcases mem_cons.mp hs with rfl | hs
    · obtain ⟨b, rest, rfl⟩ := exists_cons_of_ne_nil hne
      have hlabel : Within (Source.group s ++ " == " ++ b.1) (Swift.select s (b :: rest) fallback) :=
        Swift.within_nest (mem_alternatives_iff.mpr (.inl ⟨_, mem_cons_self, mem_cons_self⟩))
      exact ((((Within.refl s).group).before _).before _).trans hlabel
    · rcases mem_alternatives_iff.mp hs with ⟨b, hb, hs⟩ | rfl
      · have hmem : (Source.group input ++ " == " ++ b.1, b.2) ∈
            branches.map fun b => (Source.group input ++ " == " ++ b.1, b.2) :=
          mem_map_of_mem hb
        simp only [mem_cons, not_mem_nil, or_false] at hs
        rcases hs with rfl | rfl
        · exact ((Within.refl _).after _).trans
            (Swift.within_nest (mem_alternatives_iff.mpr (.inl ⟨_, hmem, mem_cons_self⟩)))
        · exact Swift.within_nest (mem_alternatives_iff.mpr
            (.inl ⟨_, hmem, mem_cons_of_mem _ mem_cons_self⟩))
      · exact Swift.within_nest (mem_alternatives_iff.mpr (.inr rfl))

namespace Language

variable {lang : Language} {op : Operator} {args : List String} {s : String}

theorem within_operatorText (hlang : lang.Mentions) (dynamic : Bool)
    (harity : op.arity.admits args.length = true) (hs : s ∈ args) :
    Within s (lang.operatorText op dynamic args) := by
  have htwo : args.length = 2 → s ∈ [at' args 0, at' args 1] := by
    intro hlen
    obtain ⟨a, b, rfl⟩ := length_eq_two.mp hlen
    exact hs
  have hone : args.length = 1 → s = at' args 0 := by
    intro hlen
    obtain ⟨a, rfl⟩ := length_eq_one_iff.mp hlen
    exact mem_singleton.mp hs
  cases op with
  | add | mul | all | any | coalesce => exact within_chain _ hs
  | formatNumber | rgba | interpolateColor => exact within_call _ hs
  | div | lt | le | gt | ge => exact within_chain _ (htwo (Arity.eq_of_exactly harity))
  | mod => exact hlang.remainder _ _ _ (htwo (Arity.eq_of_exactly harity))
  | formatDate => exact within_call _ (htwo (Arity.eq_of_exactly harity))
  | rgb => exact within_call _ (mem_append_left _ hs)
  | toString =>
    rw [hone (Arity.eq_of_exactly harity)]
    exact within_call _ mem_cons_self
  | not =>
    rw [hone (Arity.eq_of_exactly harity)]
    exact ((Within.refl _).group).between _ _
  | upcase | downcase =>
    rw [hone (Arity.eq_of_exactly harity)]
    exact ((((Within.refl _).group).before _).before _).before _
  | themeColor =>
    rw [hone (Arity.eq_of_exactly harity)]
    exact .refl _
  | eq =>
    have hmem := htwo (Arity.eq_of_exactly harity)
    cases dynamic with
    | false => exact within_chain _ hmem
    | true => exact within_call _ hmem
  | ne =>
    have hmem := htwo (Arity.eq_of_exactly harity)
    cases dynamic with
    | false => exact within_chain _ hmem
    | true => exact (within_call _ hmem).between _ _
  | sub =>
    simp only [operatorText]
    split
    · rename_i hlen
      rw [hone hlen]
      exact (Within.refl _).between _ _
    · rename_i hlen
      have hbounds := Arity.bounds_of_between harity
      exact within_chain _ (htwo (by omega))
  | concat =>
    simp only [operatorText]
    split
    · rename_i hlen
      rw [hone hlen]
      exact .refl _
    · exact within_chain _ hs
  | substring =>
    have hbounds := Arity.bounds_of_between harity
    have hlen : args.length = 2 ∨ args.length = 3 := by omega
    rcases hlen with hlen | hlen
    · obtain ⟨a, b, rfl⟩ := length_eq_two.mp hlen
      exact within_call _ (mem_append_left [lang.nothing] hs)
    · obtain ⟨a, b, c, rfl⟩ := length_eq_three.mp hlen
      exact within_call _ hs
  | case =>
    have hodd : args.length % 2 = 1 := by
      simpa [Operator.arity, Arity.admits, Arity.hasParity] using (Bool.and_eq_true_iff.mp harity).2
    refine hlang.choose _ _ s ?_
    rwa [alternatives_pairs hodd]
  | match' =>
    have heven : args.length % 2 = 0 := by
      simpa [Operator.arity, Arity.admits, Arity.hasParity] using (Bool.and_eq_true_iff.mp harity).2
    have hleast : 4 ≤ args.length :=
      of_decide_eq_true (Bool.and_eq_true_iff.mp (Bool.and_eq_true_iff.mp harity).1).1
    cases args with
    | nil => cases hs
    | cons input rest =>
      rw [length_cons] at heven hleast
      cases rest with
      | nil => simp at hleast
      | cons a rest =>
        have hlast : (input :: a :: rest).getLast? = (a :: rest).getLast? := by simp
        have hodd : (a :: rest).length % 2 = 1 := by omega
        show Within s (lang.select input (pairs (a :: rest).dropLast)
          ((input :: a :: rest).getLast?.getD ""))
        rw [hlast]
        refine hlang.select _ _ _ ?_ s ?_
        · intro hnil
          have hall := alternatives_pairs hodd
          rw [hnil] at hall
          have hcount : 1 = (a :: rest).length := congrArg List.length hall
          omega
        · rwa [alternatives_pairs hodd]

/-! ### Terms -/

variable {depth : Nat} {b : Binding}

theorem text_lookup (h : lang.lookup? depth b = some s) :
    (lang.lookup (itemVariable depth) b).text = s := by
  obtain ⟨root, hroot, rfl⟩ := Option.map_eq_some_iff.mp h
  unfold root? at hroot
  unfold lookup
  cases hscope : b.scope with
  | size =>
    rw [hscope] at hroot
    cases hroot
  | _ =>
    rw [hscope] at hroot
    rw [← Option.some.inj hroot]
    rfl

theorem scope_ne_size (h : lang.lookup? depth b = some s) : b.scope ≠ .size := by
  intro hscope
  rw [lookup?, root?, hscope] at h
  cases h

variable {c : Code}

theorem within_either (h : Within s c.text) (d : Code) : Within s (lang.either c d).text :=
  h.trans (within_chain _ mem_cons_self)

theorem within_wrap {name : String} (h : Within s c.text) (helper : Helper) :
    Within s (lang.calling helper (c.wrap fun t => call name [t])).text :=
  h.trans (within_call _ mem_cons_self)

theorem within_read (h : lang.lookup? depth b = some s) (want : ValueType) (fallback : Fallback) :
    Within s (lang.read (itemVariable depth) b want fallback).text := by
  have hraw : Within s (lang.lookup (itemVariable depth) b).text := by
    rw [text_lookup h]
    exact .refl s
  unfold read
  cases lang.conversion? want with
  | none =>
    cases fallback with
    | default l => exact within_either hraw _
    | null | zero => exact hraw
  | some conversion =>
    have hwrapped : Within s (lang.calling conversion.1 ((lang.lookup (itemVariable depth) b).wrap
        fun t => call conversion.1.name [t])).text := within_wrap hraw conversion.1
    cases fallback with
    | null => exact hwrapped
    | zero => exact within_either hwrapped _
    | default l => exact within_either hwrapped _

theorem within_presence (h : lang.lookup? depth b = some s) :
    Within s (lang.presence (itemVariable depth) b).text := by
  have hraw : Within s (lang.lookup (itemVariable depth) b).text := by
    rw [text_lookup h]
    exact .refl s
  unfold presence
  rw [if_neg (scope_ne_size h)]
  exact within_wrap hraw .present

theorem within_coerce (h : Within s c.text) (target : ValueType) :
    Within s (lang.coerce c target).text := by
  cases target with
  | any => exact h
  | string => exact within_wrap h .str
  | bool => exact within_wrap h .truthy
  | color => exact within_either (within_wrap h .asColor) _
  | number => exact within_either (within_wrap h .asNumber) _

theorem map_fst_terms (item : String) (ts : List Term) :
    (lang.terms item ts).map Prod.fst = ts.map (lang.term item) := by
  induction ts with
  | nil => rfl
  | cons t ts ih => rw [terms, map_cons, map_cons, ih]

theorem text_operator (lang : Language) (op : Operator) (operands : List (Code × ValueType)) :
    ∃ dynamic, (lang.operator op operands).text =
      lang.operatorText op dynamic ((operands.map Prod.fst).map Code.text) := by
  refine ⟨operands.any (·.2 == .any), ?_⟩
  unfold operator
  dsimp only
  split <;> rfl

/-- The code of a term holds a lookup of each binding that the term reads. -/
theorem within_term (hlang : lang.Mentions) {known : List Binding} {nullable : Bool} {t : Term}
    (ht : t.WellTyped known nullable) (hb : b ∈ t.bindings) (hs : lang.lookup? depth b = some s) :
    Within s (lang.term (itemVariable depth) t).text := by
  induction ht with
  | literal => cases hb
  | read =>
    rw [mem_singleton.mp hb] at hs
    exact within_read hs _ _
  | presence =>
    rw [mem_singleton.mp hb] at hs
    exact within_presence hs
  | coerce target _ ih => exact within_coerce (ih hb) target
  | @apply nullable op args result harity _ _ ih =>
    have hflat : b ∈ (args.map Term.bindings).flatten := by
      rw [← Term.bindingsOf_eq_flatten]
      exact hb
    obtain ⟨bs, hbs, hb⟩ := mem_flatten.mp hflat
    obtain ⟨t, ht, rfl⟩ := mem_map.mp hbs
    obtain ⟨i, hi⟩ := mem_iff_getElem?.mp ht
    refine (ih i t hi hb).trans ?_
    obtain ⟨dynamic, htext⟩ := text_operator lang op (lang.terms (itemVariable depth) args)
    rw [term, htext, map_fst_terms]
    refine within_operatorText hlang dynamic (by simpa using harity) ?_
    exact mem_map_of_mem (mem_map_of_mem ht)

/-- The code of a value holds a lookup of each binding that the value names. -/
theorem within_property (hlang : lang.Mentions) {env : Env} {type : ValueType} {place : Location}
    {v : PropertyValue} {t : Term} (ht : Elaboration.property env type place v = .ok t)
    (hb : b ∈ v.bindings) (hs : lang.lookup? depth b = some s) :
    Within s (lang.term (itemVariable depth) t).text := by
  obtain ⟨hconveys, -⟩ := (Elaboration.yields_conveys_property env type place v).of_ok ht
  exact within_term hlang hconveys.typed (hconveys.keeps.mem hb (scope_ne_size hs)) hs

end Language

end Widgetry.Source
