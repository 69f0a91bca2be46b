import Widgetry.Files.Disk
import Widgetry.Proofs.Files.Path
import Widgetry.Proofs.Table

/-!
# Maps of files

The simplest file system: texts under the names on their paths. All that can go wrong is to read or
move a file that is not there. A directory lists the files below it in no order of their names.
-/

namespace Widgetry

open List

/-- Texts of files by the names on their paths. -/
structure FileMap where
  entries : Table (List String) String
  sorted : entries.Sorted
  named : ∀ e ∈ entries, ∀ name ∈ e.1, Path.IsName name

namespace FileMap

variable {fs : FileMap} {p q : Path}

def empty : FileMap := ⟨[], Table.sorted_nil, forall_mem_nil _⟩

def get? (fs : FileMap) (p : Path) : Option String := fs.entries.get? p.names

def put (fs : FileMap) (p : Path) (text : String) : FileMap where
  entries := fs.entries.insert p.names text
  sorted := fs.sorted.insert p.names text
  named := by
    intro e he name hname
    rcases Table.mem_insert he with rfl | he
    · exact Path.isName_of_mem_names hname
    · exact fs.named e he name hname

def remove (fs : FileMap) (p : Path) : FileMap where
  entries := fs.entries.erase p.names
  sorted := fs.sorted.erase p.names
  named := fun e he => fs.named e ((Table.erase_sublist fs.entries p.names).subset he)

theorem get?_congr (fs : FileMap) (h : p.names = q.names) : fs.get? p = fs.get? q := by
  rw [get?, get?, h]

theorem get?_put (fs : FileMap) (p q : Path) (text : String) :
    (fs.put p text).get? q = if q.names = p.names then some text else fs.get? q := by
  split
  · rename_i h
    rw [get?, h]
    exact Table.get?_insert_self fs.entries p.names text
  · rename_i h
    exact Table.get?_insert_of_ne h fs.entries text

theorem get?_remove (fs : FileMap) (p q : Path) :
    (fs.remove p).get? q = if q.names = p.names then none else fs.get? q := by
  split
  · rename_i h
    rw [get?, h]
    exact fs.sorted.get?_erase_self p.names
  · rename_i h
    exact Table.get?_erase_of_ne h fs.entries

variable {names : List String}

/-- Names that stand for a file or might are those on a path. -/
theorem exists_path (h : ∀ name ∈ names, Path.IsName name) : ∃ p : Path, p.names = names :=
  ⟨Path.descend ⟨""⟩ names, Path.names_descend h⟩

/-- Maps that hold the same files of some kind list the same ones. -/
theorem filter_entries_congr {gs : FileMap} {kind : List String × String → Bool}
    (h : ∀ p, (fs.get? p).filter (fun text => kind (p.names, text)) =
      (gs.get? p).filter fun text => kind (p.names, text)) :
    fs.entries.filter kind = gs.entries.filter kind := by
  refine Table.Sorted.ext (List.Pairwise.filter _ fs.sorted) (List.Pairwise.filter _ gs.sorted) ?_
  intro names
  rw [fs.sorted.get?_filter, gs.sorted.get?_filter]
  by_cases hnames : ∀ name ∈ names, Path.IsName name
  · obtain ⟨p, rfl⟩ := exists_path hnames
    exact h p
  · have hnone : ∀ fs : FileMap, fs.entries.get? names = none := fun fs =>
      Table.get?_eq_none_of_ne fun e he heq => hnames (heq ▸ fs.named e he)
    rw [hnone fs, hnone gs]

/-! ### Files below a directory -/

/-- Whether names lead below others. -/
def isBelow (above names : List String) : Bool :=
  above.isPrefixOf names && above.length < names.length

/-- The path by which a walk from a directory comes to a file. -/
def pathFrom (directory : Path) (names : List String) : Path :=
  directory.descend (names.drop directory.names.length)

def filesBelow (fs : FileMap) (directory : Path) : List Path :=
  (fs.entries.filter fun e => isBelow directory.names e.1).map fun e => pathFrom directory e.1

theorem names_pathFrom {directory : Path} (hbelow : isBelow directory.names names = true)
    (h : ∀ name ∈ names, Path.IsName name) : (pathFrom directory names).names = names := by
  rw [isBelow, Bool.and_eq_true, isPrefixOf_iff_prefix] at hbelow
  obtain ⟨rest, rfl⟩ := hbelow.1
  rw [pathFrom, drop_left]
  exact Path.names_descend fun name hname => h name (mem_append_right _ hname)

/-! ### Operations -/

def read (fs : FileMap) (p : Path) : Except SystemError String :=
  match fs.get? p with
  | some text => .ok text
  | none => .error .missing

def move (fs : FileMap) (p q : Path) : Except SystemError Unit × FileMap :=
  match fs.get? p with
  | some text => (.ok (), (fs.remove p).put q text)
  | none => (.error .missing, fs)

theorem read_eq_ok_iff {text : String} : fs.read p = .ok text ↔ fs.get? p = some text := by
  unfold read
  cases fs.get? p <;> simp

theorem move_put (fs : FileMap) (p q : Path) (text : String) :
    (fs.put p text).move p q = (.ok (), ((fs.put p text).remove p).put q text) := by
  rw [move, get?_put, if_pos rfl]

/-- The file system of a map, whose directories list files in the order that a function gives. -/
def disk (order : List Path → List Path) : Disk (StateM FileMap) where
  isDirectory p := fun fs => (!(fs.filesBelow p).isEmpty, fs)
  filesBelow p := fun fs => (.ok (order (fs.filesBelow p)), fs)
  read p := fun fs => (fs.read p, fs)
  createDirectories _ := fun fs => (.ok (), fs)
  write p text := fun fs => (.ok (), fs.put p text)
  rename p q := fun fs => fs.move p q

end FileMap

/-! ## Computations that come to a result -/

section

variable {ε σ α β : Type}

/-- A computation that comes from a state to a result and another state. -/
def Reaches (x : ExceptT ε (StateM σ) α) (s : σ) (a : α) (s' : σ) : Prop := x.run.run s = (.ok a, s')

variable {s s' : σ} {a : α}

theorem reaches_pure (a : α) (s : σ) : Reaches (pure a : ExceptT ε (StateM σ) α) s a s := rfl

variable {f : α → ExceptT ε (StateM σ) β} {g : α → β} {as : List α}

theorem Reaches.bind {x : ExceptT ε (StateM σ) α} {b : β} {t : σ} (hx : Reaches x s a s')
    (hf : Reaches (f a) s' b t) : Reaches (x >>= f) s b t := by
  rw [Reaches, ExceptT.run_bind, StateT.run_bind, show x.run.run s = _ from hx]
  exact hf

theorem reaches_lift {x : StateM σ α} (h : x.run s = (a, s')) :
    Reaches (liftM x : ExceptT ε (StateM σ) α) s a s' := by
  rw [Reaches, ExceptT.run_liftM, StateT.run_map, h]
  rfl

/-- Steps that do not disturb what later steps need come to the results they would come to alone. -/
theorem reaches_mapM (Ready : α → σ → Prop) {next : σ → α → σ}
    (hf : ∀ a s, Ready a s → Reaches (f a) s (g a) (next s a))
    (hkeep : as.Pairwise fun a b => ∀ s, Ready b s → Ready b (next s a)) (hs : ∀ a ∈ as, Ready a s) :
    Reaches (as.mapM f) s (as.map g) (as.foldl next s) := by
  induction as generalizing s with
  | nil => exact reaches_pure [] s
  | cons a as ih =>
    obtain ⟨hfirst, hrest⟩ := pairwise_cons.mp hkeep
    rw [mapM_cons]
    refine (hf a s (hs a mem_cons_self)).bind ?_
    refine Reaches.bind (ih hrest ?_) (reaches_pure _ _)
    exact fun b hb => hfirst b hb s (hs b (mem_cons_of_mem a hb))

theorem reaches_mapM_same (hf : ∀ a ∈ as, Reaches (f a) s (g a) s) :
    Reaches (as.mapM f) s (as.map g) s := by
  have h := reaches_mapM (fun a t => t = s ∧ a ∈ as) (f := f) (g := g)
    (fun a t ht => ht.1 ▸ hf a ht.2) (pairwise_of_forall fun _ _ _ => id)
    (fun a ha => ⟨rfl, ha⟩)
  rwa [foldl_fixed] at h

theorem reaches_forIn {f : α → PUnit → ExceptT ε (StateM σ) (ForInStep PUnit)}
    (hf : ∀ a, Reaches (f a ⟨⟩) s (.yield ⟨⟩) s) (as : List α) :
    Reaches (forIn as ⟨⟩ f) s ⟨⟩ s := by
  induction as with
  | nil => exact reaches_pure _ _
  | cons a as ih =>
    rw [forIn_cons]
    exact (hf a).bind ih

end

end Widgetry
