import Mathlib.Data.List.Nodup
import Widgetry.Proofs.Batch.Writing
import Widgetry.Proofs.Element.Acceptance

/-!
# Runs of a batch

What a run comes to on a map of files: which candidates it takes up, the entry of each of them, and
the files that are stored in the end.
-/

namespace Widgetry.Batch

open List

/-! ## Files of a candidate -/

section Generation

variable {style : Style} {o : Options} {l : Layout} {files : List (SourceTarget × Source.File)}

theorem mem_generate (h : generate style o l = .ok files) : files.map Prod.fst = o.targets ∧
    ∀ x ∈ files, Source.File.generate style o.package x.1 l = .ok x.2 := by
  unfold generate at h
  generalize o.targets = targets at h ⊢
  induction targets generalizing files with
  | nil =>
    cases h
    exact ⟨rfl, forall_mem_nil _⟩
  | cons target targets ih =>
    rw [mapM_cons] at h
    obtain ⟨x, hx, h⟩ := exists_of_bind_eq_ok h
    obtain ⟨rest, hrest, h⟩ := exists_of_bind_eq_ok h
    obtain ⟨file, hfile, hpair⟩ := exists_of_bind_eq_ok hx
    cases h
    cases hpair
    obtain ⟨htargets, hfiles⟩ := ih hrest
    exact ⟨congrArg (List.cons target) htargets, forall_mem_cons.mpr ⟨hfile, hfiles⟩⟩

theorem succeeds_generate_iff : Succeeds (generate style o l) ↔
    ∀ target ∈ o.targets, Succeeds (Source.File.generate style o.package target l) := by
  unfold generate
  induction o.targets with
  | nil => exact iff_of_true (succeeds_ok _) (forall_mem_nil _)
  | cons target targets ih =>
    rw [mapM_cons, forall_mem_cons, ← ih]
    refine (succeeds_bind_iff fun x => succeeds_bind_iff_left fun xs => succeeds_ok _).trans ?_
    exact and_congr_left' (succeeds_bind_iff_left fun file => succeeds_ok _)

theorem name_of_generate {target : SourceTarget} {file : Source.File}
    (h : Source.File.generate style o.package target l = .ok file) :
    file.name = Source.File.nameOf l.name target := by
  unfold Source.File.generate at h
  split at h
  · rw [← Except.ok.inj h]
  · cases h

end Generation

namespace Candidate

/-- The name that a candidate goes by, and its files. -/
def plan (style : Style) (o : Options) (c : Candidate) :
    String × Except Error (List (SourceTarget × Source.File)) :=
  match c.layout with
  | .error e => (c.stem, .error (e.inWidget c.stem))
  | .ok l => (l.name, (generate style o l).mapError (Error.inWidget l.name))

def files (style : Style) (o : Options) (c : Candidate) : List (SourceTarget × Source.File) :=
  (c.plan style o).2.toOption.getD []

/-- The entry of a candidate whose files are stored on a map of files. -/
def entry (output : Path) (style : Style) (o : Options) (fs : FileMap) (c : Candidate) : Entry where
  source := c.source
  widget := (c.plan style o).1
  result := (c.plan style o).2.map (List.map (product output fs))

variable {output : Path} {style : Style} {o : Options} {fs s : FileMap} {c : Candidate} {l : Layout}

theorem plan_of_error {e : Error} (h : c.layout = .error e) :
    c.plan style o = (c.stem, .error (e.inWidget c.stem)) := by
  rw [plan, h]

theorem plan_of_ok (h : c.layout = .ok l) :
    c.plan style o = (l.name, (generate style o l).mapError (Error.inWidget l.name)) := by
  rw [plan, h]

/-- A candidate that fails has no files, and any other one those that were generated. -/
theorem plan_cases (style : Style) (o : Options) (c : Candidate) :
    (c.files style o = [] ∧ ∃ e, (c.plan style o).2 = .error e) ∨
      ∃ l, c.layout = .ok l ∧ generate style o l = .ok (c.files style o) ∧
        c.plan style o = (l.name, .ok (c.files style o)) := by
  rw [files]
  cases hlayout : c.layout with
  | error e =>
    rw [plan_of_error hlayout]
    exact .inl ⟨rfl, _, rfl⟩
  | ok l =>
    rw [plan_of_ok hlayout]
    cases hfiles : generate style o l with
    | error e => exact .inl ⟨rfl, _, rfl⟩
    | ok written => exact .inr ⟨l, rfl, hfiles, rfl⟩

variable {x : SourceTarget × Source.File}

theorem of_mem_files (h : x ∈ c.files style o) : x.1 ∈ o.targets ∧
    ∃ l, c.layout = .ok l ∧ Source.File.generate style o.package x.1 l = .ok x.2 := by
  rcases plan_cases style o c with ⟨hnil, -⟩ | ⟨l, hl, hfiles, -⟩
  · simp [hnil] at h
  · obtain ⟨htargets, hgenerated⟩ := mem_generate hfiles
    exact ⟨htargets ▸ mem_map_of_mem h, l, hl, hgenerated x h⟩

theorem of_result_ok {products : List Product}
    (h : (c.entry output style o fs).result = .ok products) :
    products = (c.files style o).map (product output fs) ∧ ∃ l, c.layout = .ok l ∧
      (c.entry output style o fs).widget = l.name ∧
        generate style o l = .ok (c.files style o) := by
  simp only [entry] at h ⊢
  rcases plan_cases style o c with ⟨-, e, herror⟩ | ⟨l, hl, hfiles, hplan⟩
  · rw [herror] at h
    cases h
  · rw [hplan] at h ⊢
    exact ⟨(Except.ok.inj h).symm, l, hl, rfl, hfiles⟩

theorem succeeds_result_iff : Succeeds (c.entry output style o fs).result ↔
    ∃ l, c.layout = .ok l ∧ Succeeds (generate style o l) := by
  refine ⟨?_, ?_⟩
  · rintro ⟨products, h⟩
    obtain ⟨-, l, hl, -, hfiles⟩ := of_result_ok h
    exact ⟨l, hl, _, hfiles⟩
  · rintro ⟨l, hl, written, hfiles⟩
    refine ⟨written.map (product output fs), ?_⟩
    rw [entry, plan_of_ok hl, hfiles]
    rfl

theorem files_eq_nil_of_failed (h : ¬Succeeds (c.entry output style o fs).result) :
    c.files style o = [] := by
  rcases plan_cases style o c with ⟨hnil, -⟩ | ⟨l, hl, hfiles, -⟩
  · exact hnil
  · exact absurd (succeeds_result_iff.mpr ⟨l, hl, _, hfiles⟩) h

theorem nodup_targets_files (style : Style) (htargets : o.targets.Nodup) (c : Candidate) :
    ((c.files style o).map Prod.fst).Nodup := by
  rcases plan_cases style o c with ⟨hnil, -⟩ | ⟨l, -, hfiles, -⟩
  · rw [hnil]
    exact nodup_nil
  · rw [(mem_generate hfiles).1]
    exact htargets

/-- The layout of a candidate has a name that may stand in a file name. -/
def Named (c : Candidate) : Prop := ∀ l, c.layout = .ok l → Text.isIdentifier l.name = true

theorem Named.apart {d : Candidate} {y : SourceTarget × Source.File} (hc : c.Named) (hd : d.Named)
    (hx : x ∈ c.files style o) (hy : y ∈ d.files style o)
    (hne : ∀ l l', c.layout = .ok l → d.layout = .ok l' → l.name = l'.name → x.1 ≠ y.1) :
    Apart output x y := by
  obtain ⟨-, l, hl, hfile⟩ := of_mem_files hx
  obtain ⟨-, l', hl', hfile'⟩ := of_mem_files hy
  exact apart_of_ne (hc l hl) (hd l' hl') (name_of_generate hfile) (name_of_generate hfile')
    (hne l l' hl hl')

theorem Named.pairwise_apart (hc : c.Named) (htargets : o.targets.Nodup) :
    (c.files style o).Pairwise (Apart output) := by
  have hpairwise := pairwise_map.mp (nodup_targets_files style htargets c)
  exact hpairwise.imp_of_mem fun hx hy htarget => hc.apart hc hx hy fun _ _ _ _ _ => htarget

theorem run_process (order : List Path → List Path)
    (hapart : (c.files style o).Pairwise (Apart output))
    (hs : ∀ x ∈ c.files style o, s.get? (placeOf output x) = fs.get? (placeOf output x)) :
    (c.process (FileMap.disk order) output style o).run s =
      (c.entry output style o fs, (c.files style o).foldl (store output) s) := by
  cases hlayout : c.layout with
  | error e =>
    simp only [process, entry, files, plan_of_error hlayout, hlayout]
    rfl
  | ok l =>
    simp only [process, entry, files, plan_of_ok hlayout, hlayout] at hapart hs ⊢
    cases hfiles : generate style o l with
    | error e => rfl
    | ok written =>
      rw [hfiles] at hapart hs
      have hwrite : Reaches (writeAll _ output written) s _ _ := reaches_writeAll order hapart hs
      rw [StateT.run_bind, hwrite]
      rfl

end Candidate

/-! ## Candidates on a map of files -/

/-- Whether names lead to a layout file below a directory. -/
def isSource (input : Path) (names : List String) : Bool :=
  FileMap.isBelow input.names names && (Path.splitName (names.getLastD "")).2 == some "json"

/-- The layout files below a directory, with their texts. -/
def sources (input : Path) (fs : FileMap) : Table (List String) String :=
  fs.entries.filter fun e => isSource input e.1

def candidate (input : Path) (e : List String × String) : Candidate :=
  .ofText (FileMap.pathFrom input e.1) (.ok e.2)

def candidates (input : Path) (fs : FileMap) : List Candidate :=
  (sources input fs).map (candidate input)

variable {order : List Path → List Path}

section Discovery

variable {input : Path} {fs : FileMap} {e : List String × String}

theorem source_candidate (input : Path) (e : List String × String) :
    (candidate input e).source = FileMap.pathFrom input e.1 := by
  rw [candidate, Candidate.ofText]

theorem stem_candidate (input : Path) (e : List String × String) :
    (candidate input e).stem = (FileMap.pathFrom input e.1).stem := by
  rw [candidate, Candidate.ofText]

theorem layout_candidate (input : Path) (e : List String × String) :
    (candidate input e).layout = Layout.parse e.2 := by
  rw [candidate, Candidate.ofText]

theorem mem_sources_iff : e ∈ sources input fs ↔ e ∈ fs.entries ∧ isSource input e.1 = true :=
  mem_filter

theorem names_source (h : e ∈ sources input fs) : (FileMap.pathFrom input e.1).names = e.1 := by
  obtain ⟨he, hsource⟩ := mem_sources_iff.mp h
  exact FileMap.names_pathFrom (Bool.and_eq_true_iff.mp hsource).1 (fs.named e he)

theorem get?_source (h : e ∈ sources input fs) :
    fs.get? (FileMap.pathFrom input e.1) = some e.2 := by
  rw [FileMap.get?, names_source h]
  exact fs.sorted.get?_of_mem (mem_sources_iff.mp h).1

theorem sorted_sources (input : Path) (fs : FileMap) : (sources input fs).Sorted :=
  List.Pairwise.filter _ fs.sorted

theorem filter_filesBelow (input : Path) (fs : FileMap) :
    (fs.filesBelow input).filter (·.extension? == some "json") =
      (sources input fs).map fun e => FileMap.pathFrom input e.1 := by
  rw [FileMap.filesBelow, filter_map, filter_filter, sources]
  refine congrArg (List.map _) (filter_congr fun e he => ?_)
  by_cases hbelow : FileMap.isBelow input.names e.1 = true
  · have hnames := FileMap.names_pathFrom hbelow (fs.named e he)
    simp [isSource, hbelow, Path.extension?, Path.fileName, hnames]
  · simp [isSource, hbelow]

/-- Layout files are found in the order of their names, however directories list them. -/
theorem layoutFiles_order (horder : ∀ files, (order files).Perm files) (input : Path) (fs : FileMap) :
    layoutFiles (order (fs.filesBelow input)) =
      (sources input fs).map fun e => FileMap.pathFrom input e.1 := by
  have hperm : (layoutFiles (order (fs.filesBelow input))).Perm
      ((sources input fs).map fun e => FileMap.pathFrom input e.1) := by
    rw [← filter_filesBelow]
    exact (mergeSort_perm _ _).trans ((horder _).filter _)
  refine hperm.eq_of_pairwise ?_ (pairwise_mergeSort ?_ ?_ _) ?_
  · intro a b ha hb hab hba
    obtain ⟨e, he, rfl⟩ := mem_map.mp (hperm.subset ha)
    obtain ⟨f, hf, rfl⟩ := mem_map.mp hb
    have hnames := Path.eq_of_namesUpTo hab hba
    rw [names_source he, names_source hf] at hnames
    rw [hnames]
  · exact fun a b c => Path.namesUpTo_trans
  · exact fun a b => Path.namesUpTo_total a.names b.names
  · rw [pairwise_map]
    refine (sorted_sources input fs).imp_of_mem fun {e f} he hf hlt => ?_
    rw [names_source he, names_source hf, Path.namesUpTo_eq, hlt]
    rfl

theorem reaches_discover (horder : ∀ files, (order files).Perm files) (input : Path) (fs : FileMap) :
    Reaches (discover (FileMap.disk order) input) fs
      ((sources input fs).map fun e => FileMap.pathFrom input e.1) fs := by
  rw [← layoutFiles_order horder]
  exact Reaches.bind (reaches_lift rfl) (reaches_pure _ _)

theorem reaches_candidates (order : List Path → List Path) (input : Path) (fs : FileMap) :
    Reaches (((sources input fs).map fun e => FileMap.pathFrom input e.1).mapM fun source =>
      (liftM ((FileMap.disk order).read source) : ExceptT Error (StateM FileMap) _) >>= fun text =>
        pure (Candidate.ofText source text)) fs (candidates input fs) fs := by
  rw [mapM_map]
  refine reaches_mapM_same fun e he => ?_
  have hread := FileMap.read_eq_ok_iff.mpr (get?_source he)
  rw [candidate, ← hread]
  exact Reaches.bind (reaches_lift rfl) (reaches_pure _ _)

end Discovery

/-! ## Names that are declared once -/

/-- More than one candidate declares a name. -/
def Shared (cs : List Candidate) (name : String) : Prop :=
  ∃ c d rest, cs.filter (·.name? == some name) = c :: d :: rest

section Sharing

variable {input : Path} {cs : List Candidate} {c d : Candidate} {l : Layout} {name : String}

theorem Candidate.name?_eq_some_iff :
    c.name? = some name ↔ ∃ l, c.layout = .ok l ∧ l.name = name := by
  unfold Candidate.name?
  cases c.layout <;> simp

theorem Candidate.name?_of_ok (h : c.layout = .ok l) : c.name? = some l.name :=
  name?_eq_some_iff.mpr ⟨l, h, rfl⟩

theorem refuseShared_of_shared (input : Path) (hname : c.name? = some name) (h : Shared cs name) :
    ∃ e, refuseShared input cs c = { c with stem := name, layout := .error e } := by
  obtain ⟨a, b, rest, hfilter⟩ := h
  simp only [refuseShared, hname, hfilter]
  exact ⟨_, rfl⟩

theorem refuseShared_of_not_shared (h : ∀ name, c.name? = some name → ¬Shared cs name) :
    refuseShared input cs c = c := by
  unfold refuseShared
  split
  · rfl
  · rename_i name hname
    split
    · rename_i a b rest hfilter
      exact absurd ⟨a, b, rest, hfilter⟩ (h name hname)
    · rfl

theorem source_refuseShared (input : Path) (cs : List Candidate) (c : Candidate) :
    (refuseShared input cs c).source = c.source := by
  unfold refuseShared
  split
  · rfl
  · split <;> rfl

theorem layout_refuseShared_iff : (refuseShared input cs c).layout = .ok l ↔
    c.layout = .ok l ∧ ¬Shared cs l.name := by
  by_cases hshared : ∃ name, c.name? = some name ∧ Shared cs name
  · obtain ⟨name, hname, hshared⟩ := hshared
    obtain ⟨e, hrefused⟩ := refuseShared_of_shared input hname hshared
    refine iff_of_false ?_ ?_
    · rw [hrefused]
      rintro ⟨⟩
    · rintro ⟨hl, hnot⟩
      rw [Candidate.name?_of_ok hl, Option.some.injEq] at hname
      exact hnot (hname ▸ hshared)
  · have hnot : ∀ name, c.name? = some name → ¬Shared cs name :=
      fun name hname h => hshared ⟨name, hname, h⟩
    rw [refuseShared_of_not_shared hnot]
    exact ⟨fun hl => ⟨hl, hnot _ (Candidate.name?_of_ok hl)⟩, And.left⟩

theorem refuseShared_congr {ds : List Candidate} (input : Path)
    (h : ∀ name, c.name? = some name →
      ds.filter (·.name? == some name) = cs.filter (·.name? == some name)) :
    refuseShared input ds c = refuseShared input cs c := by
  unfold refuseShared
  cases hname : c.name? with
  | none => rfl
  | some name => simp only [h name hname]

theorem shared_of_sublist (h : [c, d].Sublist cs) (hc : c.name? = some name)
    (hd : d.name? = some name) : Shared cs name := by
  have hfilter := h.filter (·.name? == some name)
  simp only [filter_cons, hc, hd, beq_self_eq_true, if_true, filter_nil] at hfilter
  rw [Shared]
  cases hcs : cs.filter (·.name? == some name) with
  | nil => simp [hcs] at hfilter
  | cons a rest =>
    cases rest with
    | nil => simpa [hcs] using hfilter.length_le
    | cons b rest => exact ⟨a, b, rest, rfl⟩

theorem eq_of_not_shared (h : ¬Shared cs name) (hc : c ∈ cs) (hd : d ∈ cs)
    (hname : c.name? = some name) (hname' : d.name? = some name) : c = d := by
  have hc' : c ∈ cs.filter (·.name? == some name) := mem_filter.mpr ⟨hc, by simp [hname]⟩
  have hd' : d ∈ cs.filter (·.name? == some name) := mem_filter.mpr ⟨hd, by simp [hname']⟩
  cases hcs : cs.filter (·.name? == some name) with
  | nil => simp [hcs] at hc'
  | cons a rest =>
    cases rest with
    | nil =>
      rw [hcs, mem_singleton] at hc' hd'
      exact hc'.trans hd'.symm
    | cons b rest => exact absurd ⟨a, b, rest, hcs⟩ h

theorem exists_of_shared (hcs : cs.Nodup) (h : Shared cs name) (c : Candidate) :
    ∃ d ∈ cs, d ≠ c ∧ d.name? = some name := by
  obtain ⟨a, b, rest, hfilter⟩ := h
  have hmem : ∀ d ∈ a :: b :: rest, d ∈ cs ∧ d.name? = some name := by
    intro d hd
    rw [← hfilter, mem_filter, beq_iff_eq] at hd
    exact hd
  have hne : a ≠ b := by
    have hnodup := hfilter ▸ hcs.filter fun c : Candidate => c.name? == some name
    rintro rfl
    exact (nodup_cons.mp hnodup).1 mem_cons_self
  by_cases ha : a = c
  · obtain ⟨hb, hname⟩ := hmem b (by simp)
    exact ⟨b, hb, fun hbc => hne (ha.trans hbc.symm), hname⟩
  · obtain ⟨ha', hname⟩ := hmem a (by simp)
    exact ⟨a, ha', ha, hname⟩

/-- What is left has no name twice, so its files are apart. -/
theorem pairwise_apart_refuseAllShared {output : Path} {style : Style} {o : Options}
    (hnamed : ∀ c ∈ cs, c.Named) (htargets : o.targets.Nodup) :
    ((refuseAllShared input cs).flatMap (Candidate.files style o)).Pairwise (Apart output) := by
  have hleft : ∀ c ∈ cs, (refuseShared input cs c).Named :=
    fun c hc l hl => hnamed c hc l (layout_refuseShared_iff.mp hl).1
  rw [refuseAllShared, flatMap_map, pairwise_flatMap]
  refine ⟨fun c hc => (hleft c hc).pairwise_apart htargets, ?_⟩
  rw [pairwise_iff_forall_sublist]
  intro c d hcd x hx y hy
  refine (hleft c (hcd.subset (by simp))).apart (hleft d (hcd.subset (by simp))) hx hy ?_
  intro l l' hl hl' hname
  obtain ⟨hc, hnot⟩ := layout_refuseShared_iff.mp hl
  have hd := Candidate.name?_of_ok (layout_refuseShared_iff.mp hl').1
  exact absurd (shared_of_sublist hcd (Candidate.name?_of_ok hc) (hname ▸ hd)) hnot

end Sharing

/-! ## Whole runs -/

def selected (input : Path) (o : Options) (fs : FileMap) : List Candidate :=
  select o.widgets (candidates input fs)

/-- The candidates that a request covers, with those failed that share a name. -/
def chosen (input : Path) (o : Options) (fs : FileMap) : List Candidate :=
  refuseAllShared input (selected input o fs)

def writings (input : Path) (style : Style) (o : Options) (fs : FileMap) :
    List (SourceTarget × Source.File) :=
  (chosen input o fs).flatMap (Candidate.files style o)

def stored (input output : Path) (style : Style) (o : Options) (fs : FileMap) : FileMap :=
  (writings input style o fs).foldl (store output) fs

section Runs

variable {input output : Path} {style : Style} {o : Options} {fs : FileMap} {c d : Candidate}

theorem named_candidate (input : Path) (e : List String × String) : (candidate input e).Named := by
  intro l hl
  rw [layout_candidate, Layout.parse] at hl
  split at hl
  · cases hl
  · exact (Layout.checked_of_read hl).1

theorem mem_selected_iff : c ∈ selected input o fs ↔
    c ∈ candidates input fs ∧ (o.widgets = [] ∨ ∃ w ∈ o.widgets, c.isCalled w = true) := by
  unfold selected select
  cases o.widgets with
  | nil => simp
  | cons w ws => simp

theorem named_of_mem_selected (h : c ∈ selected input o fs) : c.Named := by
  obtain ⟨e, -, rfl⟩ := mem_map.mp (mem_selected_iff.mp h).1
  exact named_candidate input e

theorem exists_of_mem_chosen (h : d ∈ chosen input o fs) : ∃ c ∈ selected input o fs,
    d.source = c.source ∧ ∀ l, d.layout = .ok l ↔
      c.layout = .ok l ∧ ¬Shared (selected input o fs) l.name := by
  obtain ⟨c, hc, rfl⟩ := mem_map.mp h
  exact ⟨c, hc, source_refuseShared input _ c, fun l => layout_refuseShared_iff⟩

theorem named_of_mem_chosen (h : d ∈ chosen input o fs) : d.Named := by
  obtain ⟨c, hc, -, hlayout⟩ := exists_of_mem_chosen h
  exact fun l hl => named_of_mem_selected hc l ((hlayout l).mp hl).1

theorem pairwise_apart_writings (input output : Path) (style : Style) (htargets : o.targets.Nodup)
    (fs : FileMap) : (writings input style o fs).Pairwise (Apart output) :=
  pairwise_apart_refuseAllShared (fun _ => named_of_mem_selected) htargets

theorem reaches_entries (order : List Path → List Path) (htargets : o.targets.Nodup)
    (fs : FileMap) :
    Reaches ((chosen input o fs).mapM fun c =>
      (liftM (c.process (FileMap.disk order) output style o) : ExceptT Error (StateM FileMap) Entry))
      fs ((chosen input o fs).map (Candidate.entry output style o fs))
      (stored input output style o fs) := by
  obtain ⟨heach, hpairs⟩ := pairwise_flatMap.mp
    (pairwise_apart_writings input output style htargets fs)
  rw [stored, writings, foldl_flatMap]
  refine reaches_mapM (fun c s => c ∈ chosen input o fs ∧
    ∀ x ∈ c.files style o, s.get? (placeOf output x) = fs.get? (placeOf output x)) ?_ ?_ ?_
  · rintro c s ⟨hc, hs⟩
    exact reaches_lift (c.run_process order (heach c hc) hs)
  · refine hpairs.imp_of_mem fun {c d} hc hd hcd s hs => ⟨hd, fun y hy => ?_⟩
    rw [← hs.2 y hy]
    exact get?_foldl_store (heach c hc) fun x hx _ =>
      ⟨(hcd x hx y hy).1.symm, (hcd x hx y hy).2.2⟩
  · exact fun c hc => ⟨hc, fun _ _ => rfl⟩

theorem reaches_run (horder : ∀ files, (order files).Perm files) (input output : Path)
    (style : Style) (htargets : o.targets.Nodup) (hjobs : o.jobs ≠ some 0) (fs : FileMap) :
    Reaches (run (FileMap.disk order) input output style o) fs
      ⟨(chosen input o fs).map (Candidate.entry output style o fs) ++
        (unmatched o.widgets (candidates input fs)).map (Entry.ofUnmatched input)⟩
      (stored input output style o fs) := by
  unfold run
  refine (reaches_discover horder input fs).bind ?_
  rw [if_neg hjobs]
  refine Reaches.bind (reaches_forIn (fun target => ?_) o.targets) ?_
  · exact (reaches_attempt _ rfl).bind (reaches_pure _ _)
  · refine (reaches_candidates order input fs).bind ?_
    exact (reaches_entries order htargets fs).bind (reaches_pure _ _)

end Runs

end Widgetry.Batch
