import Widgetry.Files.Path
import Widgetry.Proofs.Text

/-!
# Names on paths

The names on a path are never empty, stay nowhere and hold no slash. Joining such a name to a path
puts it behind the others, so a path may be built from its names.
-/

namespace Widgetry.Path

open List

/-- What may stand on a path as the name of a file or directory. -/
def IsName (name : String) : Prop := name ≠ "" ∧ name ≠ "." ∧ '/' ∉ name.toList

instance (name : String) : Decidable (IsName name) :=
  inferInstanceAs (Decidable (name ≠ "" ∧ name ≠ "." ∧ '/' ∉ name.toList))

/-- Whether a part of a path names something. -/
def isProper (part : String) : Bool := part != "." && !part.isEmpty

theorem names_eq (p : Path) : p.names = p.parts.filter isProper := by
  have hidle : List.filter (· != ".") (if p.endsInSlash then ["."] else []) = [] := by
    split <;> rfl
  rw [names, steps, filter_append, hidle, append_nil, filter_filter]
  rfl

variable {p : Path} {name extension : String} {as bs : List String}

theorem isName_of_mem_names (h : name ∈ p.names) : IsName name := by
  rw [names_eq, mem_filter] at h
  obtain ⟨hpart, hproper⟩ := h
  obtain ⟨piece, hpiece, rfl⟩ := mem_map.mp hpart
  refine ⟨?_, ?_, ?_⟩
  · intro hempty
    simp [isProper, hempty] at hproper
  · intro hdot
    simp [isProper, hdot] at hproper
  · rw [String.toList_ofList]
    exact Text.notMem_of_mem_splitOn hpiece

theorem IsName.filter_isProper (h : IsName name) : List.filter isProper [name] = [name] := by
  simp [isProper, h.1, h.2.1]

theorem parts_slash (text rest : String) :
    parts ⟨text ++ "/" ++ rest⟩ = parts ⟨text⟩ ++ parts ⟨rest⟩ := by
  simp only [parts, String.toList_append, append_assoc]
  rw [show "/".toList = ['/'] from rfl, singleton_append, Text.splitOn_append, map_append]

theorem IsName.parts_eq (h : IsName name) : parts ⟨name⟩ = [name] := by
  rw [parts, Text.splitOn_of_notMem h.2.2, map_singleton, String.ofList_toList]

/-- A path that ends in a slash, without it. -/
theorem exists_of_endsInSlash (h : p.endsInSlash = true) : ∃ text : String, p = ⟨text ++ "/"⟩ := by
  rw [endsInSlash, beq_iff_eq, List.getLast?_eq_some_iff] at h
  obtain ⟨letters, hletters⟩ := h
  refine ⟨String.ofList letters, ?_⟩
  cases p with
  | mk text =>
    congr 1
    rw [← String.toList_inj, hletters, String.toList_append, String.toList_ofList]
    rfl

theorem names_join (p : Path) (h : IsName name) : (p.join name).names = p.names ++ [name] := by
  simp only [names_eq]
  unfold join
  split
  · rename_i hplain
    rcases Bool.or_eq_true_iff.mp hplain with hempty | hslash
    · have hp : p = ⟨""⟩ := by
        cases p
        congr 1
        exact String.isEmpty_iff.mp hempty
      subst hp
      rw [String.empty_append, h.parts_eq, h.filter_isProper]
      rfl
    · obtain ⟨text, rfl⟩ := exists_of_endsInSlash hslash
      have hparts := parts_slash text ""
      rw [String.append_empty] at hparts
      rw [parts_slash, hparts, h.parts_eq, filter_append, filter_append,
        h.filter_isProper]
      congr 1
      exact (append_nil _).symm
  · rw [parts_slash, filter_append, h.parts_eq, h.filter_isProper]

/-- The path that goes down some names from another one. -/
def descend (p : Path) (names : List String) : Path := names.foldl join p

theorem names_descend {rest : List String} (h : ∀ name ∈ rest, IsName name) :
    (p.descend rest).names = p.names ++ rest := by
  induction rest generalizing p with
  | nil => exact (append_nil _).symm
  | cons name rest ih =>
    rw [descend, foldl_cons]
    refine (ih fun other hother => h other (mem_cons_of_mem name hother)).trans ?_
    rw [names_join p (h name mem_cons_self), append_assoc, singleton_append]

/-- The order of names is that of lists. -/
theorem namesUpTo_eq (as bs : List String) : namesUpTo as bs = (compare as bs).isLE := by
  fun_induction namesUpTo as bs with
  | case1 bs => cases bs <;> rfl
  | case2 a as => rfl
  | case3 a as b bs h => simp [h]
  | case4 a as b bs h ih => simp [h, ih]
  | case5 a as b bs h => simp [h]

theorem namesUpTo_trans {cs : List String} (h : namesUpTo as bs = true)
    (h' : namesUpTo bs cs = true) : namesUpTo as cs = true := by
  rw [namesUpTo_eq] at *
  exact Std.TransCmp.isLE_trans h h'

theorem namesUpTo_total (as bs : List String) : (namesUpTo as bs || namesUpTo bs as) = true := by
  have hswap : compare bs as = (compare as bs).swap := Std.OrientedOrd.eq_swap
  rw [namesUpTo_eq, namesUpTo_eq, hswap]
  cases compare as bs <;> rfl

theorem eq_of_namesUpTo (h : namesUpTo as bs = true) (h' : namesUpTo bs as = true) : as = bs := by
  rw [namesUpTo_eq] at *
  exact Std.LawfulEqCmp.eq_of_compare (Std.OrientedCmp.isLE_antisymm h h')

/-! ### Endings -/

def ending? (p : Path) : Option Char := p.fileName.toList.getLast?

theorem ending?_congr {q : Path} (h : p.names = q.names) : p.ending? = q.ending? := by
  rw [ending?, ending?, fileName, fileName, h]

theorem ending?_join (p : Path) (h : IsName name) :
    (p.join name).ending? = name.toList.getLast? := by
  rw [ending?, fileName, names_join p h, getLastD_concat]

/-- The last letter of a file name is that of its extension. -/
theorem getLast?_of_splitName {stem : String} (h : splitName name = (stem, some extension))
    (hextension : extension ≠ "") : name.toList.getLast? = extension.toList.getLast? := by
  simp only [splitName] at h
  split at h
  · cases h
    rw [String.toList_ofList, List.getLast?_reverse, ← List.head?_reverse]
    cases hletters : name.toList.reverse with
    | nil => rfl
    | cons c letters =>
      by_cases hc : c = '.'
      · simp [hletters, hc] at hextension
      · simp [hc]
  · cases h

theorem ending?_of_extension? (h : p.extension? = some extension) (hextension : extension ≠ "") :
    p.ending? = extension.toList.getLast? :=
  getLast?_of_splitName (Prod.ext rfl h) hextension

end Widgetry.Path
