import Widgetry.Proofs.Batch.Running

/-!
# Isolation of the widgets of a batch

What a batch does to a map of files, in terms of the files alone: which layout files it takes up,
which of them succeed, and what stands at every path in the end. The outcome of a layout file
depends on that file, on the others that declare its widget and on nothing else, and a second run
finds all its work done.
-/

namespace Widgetry

open List

namespace FileMap

def layout? (fs : FileMap) (p : Path) : Option Layout :=
  (fs.get? p).bind fun text => (Layout.parse text).toOption

/-- The file at a path declares a widget. -/
def Declares (fs : FileMap) (p : Path) (widget : String) : Prop :=
  (fs.layout? p).map Layout.name = some widget

instance (fs : FileMap) (p : Path) (widget : String) : Decidable (fs.Declares p widget) :=
  inferInstanceAs (Decidable (_ = _))

end FileMap

namespace Batch

/-! ## Files that a request covers -/

/-- A layout file below a directory. -/
def IsLayoutFile (input : Path) (fs : FileMap) (p : Path) : Prop :=
  p ∈ fs.filesBelow input ∧ p.extension? = some "json"

/-- A widget is asked for by its file or by the name in it. -/
def IsCalled (fs : FileMap) (p : Path) (widget : String) : Prop :=
  widget = p.stem ∨ fs.Declares p widget

/-- A layout file that a request covers. -/
def IsCovered (input : Path) (o : Options) (fs : FileMap) (p : Path) : Prop :=
  IsLayoutFile input fs p ∧ (o.widgets = [] ∨ ∃ widget ∈ o.widgets, IsCalled fs p widget)

instance (input : Path) (fs : FileMap) (p : Path) : Decidable (IsLayoutFile input fs p) :=
  inferInstanceAs (Decidable (_ ∧ _))

instance (fs : FileMap) (p : Path) (widget : String) : Decidable (IsCalled fs p widget) :=
  inferInstanceAs (Decidable (_ ∨ _))

instance (input : Path) (o : Options) (fs : FileMap) (p : Path) :
    Decidable (IsCovered input o fs p) :=
  inferInstanceAs (Decidable (_ ∧ _))

/-- The requests that call no layout file. -/
def uncalled (input : Path) (o : Options) (fs : FileMap) : List String :=
  o.widgets.filter fun widget =>
    ∀ p ∈ fs.filesBelow input, p.extension? = some "json" → ¬IsCalled fs p widget

section Coverage

variable {input p : Path} {o : Options} {fs : FileMap} {c d : Candidate} {widget : String}

theorem layout?_source (h : c ∈ candidates input fs) :
    fs.layout? c.source = c.layout.toOption := by
  obtain ⟨e, he, rfl⟩ := mem_map.mp h
  rw [FileMap.layout?, source_candidate, get?_source he, layout_candidate, Option.bind_some]

theorem layout?_source_eq_some_iff {l : Layout} (h : c ∈ candidates input fs) :
    fs.layout? c.source = some l ↔ c.layout = .ok l := by
  rw [layout?_source h]
  cases c.layout <;> simp [Except.toOption]

theorem declares_source_iff (h : c ∈ candidates input fs) :
    fs.Declares c.source widget ↔ c.name? = some widget := by
  rw [FileMap.Declares, Option.map_eq_some_iff, Candidate.name?_eq_some_iff]
  simp only [layout?_source_eq_some_iff h]

theorem isCalled_source_iff (h : c ∈ candidates input fs) :
    IsCalled fs c.source widget ↔ c.isCalled widget = true := by
  have hstem : c.stem = c.source.stem := by
    obtain ⟨e, he, rfl⟩ := mem_map.mp h
    rw [stem_candidate, source_candidate]
  rw [IsCalled, declares_source_iff h, Candidate.isCalled, hstem, Bool.or_eq_true, beq_iff_eq,
    beq_iff_eq]

theorem isLayoutFile_iff : IsLayoutFile input fs p ↔ ∃ c ∈ candidates input fs, c.source = p := by
  have hfilter : IsLayoutFile input fs p ↔
      p ∈ (fs.filesBelow input).filter (·.extension? == some "json") := by
    rw [IsLayoutFile, mem_filter, beq_iff_eq]
  rw [hfilter, filter_filesBelow, mem_map]
  constructor
  · rintro ⟨e, he, rfl⟩
    exact ⟨candidate input e, mem_map_of_mem he, source_candidate input e⟩
  · rintro ⟨c, hc, rfl⟩
    obtain ⟨e, he, rfl⟩ := mem_map.mp hc
    exact ⟨e, he, (source_candidate input e).symm⟩

theorem isCovered_iff :
    IsCovered input o fs p ↔ ∃ c ∈ selected input o fs, c.source = p := by
  rw [IsCovered, isLayoutFile_iff]
  constructor
  · rintro ⟨⟨c, hc, rfl⟩, hcalled⟩
    refine ⟨c, mem_selected_iff.mpr ⟨hc, ?_⟩, rfl⟩
    simpa only [isCalled_source_iff hc] using hcalled
  · rintro ⟨c, hc, rfl⟩
    obtain ⟨hc, hcalled⟩ := mem_selected_iff.mp hc
    refine ⟨⟨c, hc, rfl⟩, ?_⟩
    simpa only [isCalled_source_iff hc] using hcalled

theorem unmatched_eq (input : Path) (o : Options) (fs : FileMap) :
    unmatched o.widgets (candidates input fs) = uncalled input o fs := by
  refine filter_congr fun widget _ => ?_
  rw [Bool.eq_iff_iff]
  simp only [Bool.not_eq_true', any_eq_false, decide_eq_true_eq]
  constructor
  · intro h p hp hjson hcalled
    obtain ⟨c, hc, rfl⟩ := isLayoutFile_iff.mp ⟨hp, hjson⟩
    exact h c hc ((isCalled_source_iff hc).mp hcalled)
  · intro h c hc hcalled
    obtain ⟨hp, hjson⟩ := isLayoutFile_iff.mpr ⟨c, hc, rfl⟩
    exact h c.source hp hjson ((isCalled_source_iff hc).mpr hcalled)

/-- Candidates stand in the order of their paths, each path once. -/
theorem pairwise_candidates (input : Path) (fs : FileMap) :
    (candidates input fs).Pairwise fun c d => compare c.source.names d.source.names = .lt := by
  rw [candidates, pairwise_map]
  refine (sorted_sources input fs).imp_of_mem fun {e f} he hf hlt => ?_
  rwa [source_candidate, source_candidate, names_source he, names_source hf]

theorem eq_of_source (hc : c ∈ candidates input fs) (hd : d ∈ candidates input fs)
    (h : c.source = d.source) : c = d := by
  obtain ⟨e, he, rfl⟩ := mem_map.mp hc
  obtain ⟨f, hf, rfl⟩ := mem_map.mp hd
  rw [source_candidate, source_candidate] at h
  have htext : some e.2 = some f.2 := by rw [← get?_source he, ← get?_source hf, h]
  have hnames : e.1 = f.1 := by rw [← names_source he, ← names_source hf, h]
  rw [Prod.ext hnames (Option.some.inj htext)]

theorem pairwise_selected (input : Path) (o : Options) (fs : FileMap) :
    (selected input o fs).Pairwise fun c d => compare c.source.names d.source.names = .lt := by
  unfold selected select
  split
  · exact pairwise_candidates input fs
  · exact (pairwise_candidates input fs).filter _

/-- A name is declared once when every file that declares it is the same one. -/
theorem not_shared_iff (hc : c ∈ selected input o fs)
    (hname : c.name? = some widget) :
    ¬Shared (selected input o fs) widget ↔
      ∀ q, IsCovered input o fs q → fs.Declares q widget → q = c.source := by
  constructor
  · intro hshared q hq hdeclares
    obtain ⟨d, hd, rfl⟩ := isCovered_iff.mp hq
    rw [declares_source_iff (mem_selected_iff.mp hd).1] at hdeclares
    rw [eq_of_not_shared hshared hd hc hdeclares hname]
  · intro honce hshared
    have hnodup : (selected input o fs).Nodup := by
      refine (pairwise_selected input o fs).imp ?_
      rintro c d hlt rfl
      simp at hlt
    obtain ⟨d, hd, hne, hname'⟩ := exists_of_shared hnodup hshared c
    have hd' := (mem_selected_iff.mp hd).1
    have hsource := honce d.source (isCovered_iff.mpr ⟨d, hd, rfl⟩)
      ((declares_source_iff hd').mpr hname')
    exact hne (eq_of_source hd' (mem_selected_iff.mp hc).1 hsource)

end Coverage

/-! ## One run -/

/-- What becomes of a map of files when layouts are handled apart from each other. -/
structure Isolated (input output : Path) (style : Style) (o : Options) (fs fs' : FileMap)
    (entries : List Entry) : Prop where
  /-- Entries stand in the order of their paths, -/
  ordered : entries.Pairwise fun e f => compare e.source.names f.source.names = .lt
  /-- one for each file that the request covers. -/
  covers : ∀ p, IsCovered input o fs p ↔ ∃ e ∈ entries, e.source = p
  /-- A file succeeds that holds a layout with a name of its own and all files of which can be
  generated. -/
  succeeds_iff : ∀ e ∈ entries, Succeeds e.result ↔ ∃ l, fs.layout? e.source = some l ∧
    (∀ q, IsCovered input o fs q → fs.Declares q l.name → q = e.source) ∧
      ∀ target ∈ o.targets, Succeeds (Source.File.generate style o.package target l)
  /-- Its files hold what is generated for its layout alone. -/
  generated : ∀ e ∈ entries, ∀ products, e.result = .ok products →
    products.map Product.target = o.targets ∧
      ∃ l, fs.layout? e.source = some l ∧ e.widget = l.name ∧ ∀ x ∈ products,
        x.path = productPath output l.name x.target ∧
          ∃ file, Source.File.generate style o.package x.target l = .ok file ∧
            fs'.get? x.path = some file.contents ∧
              (x.status = .unchanged ↔ fs.get? x.path = some file.contents)
  /-- No path belongs to two files. -/
  apart : ∀ e ∈ entries, ∀ f ∈ entries, ∀ products products', e.result = .ok products →
    f.result = .ok products' → ∀ x ∈ products, ∀ y ∈ products', x.path.names = y.path.names →
      e = f ∧ x = y
  /-- A layout that fails has none of its files written. -/
  failed : ∀ e ∈ entries, ¬Succeeds e.result → ∀ l, fs.layout? e.source = some l → ∀ target,
    fs'.get? (productPath output l.name target) = fs.get? (productPath output l.name target) ∧
      fs'.get? (draftPath output l.name target) = fs.get? (draftPath output l.name target)
  /-- Every other path stays as it was. -/
  frame : ∀ p, (∀ e ∈ entries, ∀ products, e.result = .ok products → ∀ x ∈ products,
    x.status = .written → p.names ≠ x.path.names ∧
      p.names ≠ (draftPath output e.widget x.target).names) → fs'.get? p = fs.get? p

section Run

variable {input output p : Path} {style : Style} {o : Options} {fs : FileMap} {c d : Candidate}
  {l l' : Layout} {x y : SourceTarget × Source.File}

theorem mem_writings_iff :
    x ∈ writings input style o fs ↔ ∃ d ∈ chosen input o fs, x ∈ d.files style o :=
  mem_flatMap

theorem eq_of_name_eq (hc : c ∈ chosen input o fs) (hd : d ∈ chosen input o fs)
    (hl : c.layout = .ok l) (hl' : d.layout = .ok l') (h : l.name = l'.name) : c = d := by
  obtain ⟨a, ha, rfl⟩ := mem_map.mp hc
  obtain ⟨b, hb, rfl⟩ := mem_map.mp hd
  obtain ⟨hla, hnot⟩ := layout_refuseShared_iff.mp hl
  have hlb := (layout_refuseShared_iff.mp hl').1
  rw [eq_of_not_shared hnot ha hb (Candidate.name?_of_ok hla) (h ▸ Candidate.name?_of_ok hlb)]

theorem layout?_of_mem_chosen (hd : d ∈ chosen input o fs) (hl : d.layout = .ok l) :
    fs.layout? d.source = some l := by
  obtain ⟨c, hc, hsource, hlayout⟩ := exists_of_mem_chosen hd
  rw [hsource, layout?_source_eq_some_iff (mem_selected_iff.mp hc).1]
  exact ((hlayout l).mp hl).1

theorem source_entry (output : Path) (style : Style) (o : Options) (fs : FileMap) (d : Candidate) :
    (d.entry output style o fs).source = d.source := rfl

theorem status_product_eq_unchanged_iff : (product output fs x).status = .unchanged ↔
    fs.get? (placeOf output x) = some x.2.contents := by
  unfold product
  split <;> simp_all

theorem stored_at_place (htargets : o.targets.Nodup) (hd : d ∈ chosen input o fs)
    (hx : x ∈ d.files style o) :
    (stored input output style o fs).get? (placeOf output x) = some x.2.contents :=
  get?_foldl_store_of_mem (pairwise_apart_writings input output style htargets fs)
    (mem_writings_iff.mpr ⟨d, hd, hx⟩)

theorem stored_elsewhere (htargets : o.targets.Nodup)
    (h : ∀ d ∈ chosen input o fs, ∀ x ∈ d.files style o,
      fs.get? (placeOf output x) ≠ some x.2.contents →
        p.names ≠ (placeOf output x).names ∧ p.names ≠ (draftOf output x).names) :
    (stored input output style o fs).get? p = fs.get? p := by
  refine get?_foldl_store (pairwise_apart_writings input output style htargets fs) fun x hx => ?_
  obtain ⟨d, hd, hx⟩ := mem_writings_iff.mp hx
  exact h d hd x hx

/-- A widget that no file is written for keeps its files. -/
theorem stored_of_unwritten (htargets : o.targets.Nodup) {widget : String}
    (hwidget : Text.isIdentifier widget = true)
    (h : ∀ d ∈ chosen input o fs, d.files style o ≠ [] → d.name? ≠ some widget)
    (target : SourceTarget) :
    (stored input output style o fs).get? (productPath output widget target) =
        fs.get? (productPath output widget target) ∧
      (stored input output style o fs).get? (draftPath output widget target) =
        fs.get? (draftPath output widget target) := by
  have hothers : ∀ d ∈ chosen input o fs, ∀ x ∈ d.files style o, ∃ other,
      Text.isIdentifier other = true ∧ widget ≠ other ∧
        x.2.name = Source.File.nameOf other x.1 := by
    intro d hd x hx
    obtain ⟨-, l, hl, hfile⟩ := Candidate.of_mem_files hx
    refine ⟨l.name, named_of_mem_chosen hd l hl, ?_, name_of_generate hfile⟩
    rintro rfl
    exact h d hd (ne_nil_of_mem hx) (Candidate.name?_of_ok hl)
  constructor
  · refine stored_elsewhere htargets fun d hd x hx _ => ?_
    obtain ⟨other, hother, hne, hname⟩ := hothers d hd x hx
    rw [placeOf_eq hname, draftOf_eq hname]
    exact ⟨fun heq => hne (productPath_inj hwidget hother heq).1,
      productPath_ne_draftPath hwidget hother⟩
  · refine stored_elsewhere htargets fun d hd x hx _ => ?_
    obtain ⟨other, hother, hne, hname⟩ := hothers d hd x hx
    rw [placeOf_eq hname, draftOf_eq hname]
    exact ⟨(productPath_ne_draftPath hother hwidget).symm,
      fun heq => hne (draftPath_inj hwidget hother heq).1⟩

theorem isolated_stored (htargets : o.targets.Nodup) (fs : FileMap) :
    Isolated input output style o fs (stored input output style o fs)
      ((chosen input o fs).map (Candidate.entry output style o fs)) where
  ordered := by
    rw [pairwise_map, chosen, refuseAllShared, pairwise_map]
    simp only [Candidate.entry, source_refuseShared]
    exact pairwise_selected input o fs
  covers := by
    intro p
    rw [isCovered_iff]
    constructor
    · rintro ⟨c, hc, rfl⟩
      have hd := mem_map_of_mem (f := refuseShared input (selected input o fs)) hc
      exact ⟨_, mem_map_of_mem hd, source_refuseShared input _ c⟩
    · rintro ⟨e, he, rfl⟩
      obtain ⟨d, hd, rfl⟩ := mem_map.mp he
      obtain ⟨c, hc, hsource, -⟩ := exists_of_mem_chosen hd
      exact ⟨c, hc, hsource.symm⟩
  succeeds_iff := by
    rw [forall_mem_map]
    intro d hd
    obtain ⟨c, hc, hsource, hlayout⟩ := exists_of_mem_chosen hd
    rw [Candidate.succeeds_result_iff, source_entry, hsource]
    refine exists_congr fun l => ?_
    rw [hlayout, succeeds_generate_iff, layout?_source_eq_some_iff (mem_selected_iff.mp hc).1,
      and_assoc]
    refine and_congr_right fun hl => ?_
    rw [not_shared_iff hc (Candidate.name?_of_ok hl)]
  generated := by
    rw [forall_mem_map]
    intro d hd products hresult
    obtain ⟨rfl, l, hl, hwidget, hfiles⟩ := Candidate.of_result_ok hresult
    obtain ⟨htargets', hgenerated⟩ := mem_generate hfiles
    refine ⟨?_, l, ?_, hwidget, ?_⟩
    · rw [map_map]
      exact htargets'
    · exact layout?_of_mem_chosen hd hl
    · rw [forall_mem_map]
      intro x hx
      have hfile := hgenerated x hx
      refine ⟨placeOf_eq (name_of_generate hfile), x.2, hfile, stored_at_place htargets hd hx, ?_⟩
      exact status_product_eq_unchanged_iff
  apart := by
    rw [forall_mem_map]
    intro c hc
    rw [forall_mem_map]
    intro d hd products products' hresult hresult'
    obtain ⟨rfl, l, hl, -, hfiles⟩ := Candidate.of_result_ok hresult
    obtain ⟨rfl, l', hl', -, hfiles'⟩ := Candidate.of_result_ok hresult'
    rw [forall_mem_map]
    intro x hx
    rw [forall_mem_map]
    intro y hy hpaths
    have hxfile := (mem_generate hfiles).2 x hx
    have hyfile := (mem_generate hfiles').2 y hy
    have hplaces : (placeOf output x).names = (placeOf output y).names := hpaths
    rw [placeOf_eq (name_of_generate hxfile), placeOf_eq (name_of_generate hyfile)] at hplaces
    obtain ⟨hname, htarget⟩ :=
      productPath_inj (named_of_mem_chosen hc l hl) (named_of_mem_chosen hd l' hl') hplaces
    obtain rfl := eq_of_name_eq hc hd hl hl' hname
    obtain rfl := Except.ok.inj (hl.symm.trans hl')
    rw [← htarget, hxfile] at hyfile
    rw [Prod.ext htarget (Except.ok.inj hyfile)]
    exact ⟨rfl, rfl⟩
  failed := by
    rw [forall_mem_map]
    intro d hd hfail l hl
    obtain ⟨c, hc, rfl⟩ := mem_map.mp hd
    rw [source_entry, source_refuseShared,
      layout?_source_eq_some_iff (mem_selected_iff.mp hc).1] at hl
    refine stored_of_unwritten htargets (named_of_mem_selected hc l hl) ?_
    intro d' hd' hfiles hname
    obtain ⟨c', hc', rfl⟩ := mem_map.mp hd'
    obtain ⟨l', hl', hname⟩ := Candidate.name?_eq_some_iff.mp hname
    obtain ⟨hl', hnot⟩ := layout_refuseShared_iff.mp hl'
    have heq := eq_of_not_shared hnot hc' hc (Candidate.name?_of_ok hl')
      (hname ▸ Candidate.name?_of_ok hl)
    exact hfiles (heq ▸ Candidate.files_eq_nil_of_failed hfail)
  frame := by
    intro p h
    refine stored_elsewhere htargets fun d hd x hx hnew => ?_
    obtain ⟨products, hresult⟩ : Succeeds (d.entry output style o fs).result := by
      by_contra hfail
      simp [Candidate.files_eq_nil_of_failed hfail] at hx
    obtain ⟨rfl, l, hl, hwidget, hfiles⟩ := Candidate.of_result_ok hresult
    have hname := name_of_generate ((mem_generate hfiles).2 x hx)
    have hkept := h _ (mem_map_of_mem hd) _ hresult _ (mem_map_of_mem hx) (if_neg hnew)
    rw [hwidget] at hkept
    rw [draftOf_eq hname]
    exact hkept

end Run

/-! ## A second run -/

/-- An entry with all its files up to date. -/
def Entry.settled (e : Entry) : Entry :=
  { e with result := e.result.map (List.map fun x => { x with status := .unchanged }) }

section Again

variable {input output : Path} {style : Style} {o : Options} {fs gs : FileMap} {c : Candidate}

theorem map_plan_congr {α : Type} {f g : SourceTarget × Source.File → α}
    (h : ∀ x ∈ c.files style o, f x = g x) :
    (c.plan style o).2.map (List.map f) = (c.plan style o).2.map (List.map g) := by
  rcases Candidate.plan_cases style o c with ⟨-, e, herror⟩ | ⟨l, -, -, hplan⟩
  · rw [herror]
    rfl
  · rw [hplan]
    exact congrArg Except.ok (map_congr_left h)

theorem entry_congr (h : ∀ x ∈ c.files style o,
    gs.get? (placeOf output x) = fs.get? (placeOf output x)) :
    c.entry output style o gs = c.entry output style o fs := by
  refine congrArg (Entry.mk c.source (c.plan style o).1) (map_plan_congr fun x hx => ?_)
  rw [product, product, h x hx]

theorem settled_entry_eq (output : Path) (style : Style) (o : Options) (fs : FileMap)
    (c : Candidate) : (c.entry output style o fs).settled =
      ⟨c.source, (c.plan style o).1, (c.plan style o).2.map
        (List.map fun x => ⟨x.1, placeOf output x, .unchanged⟩)⟩ := by
  rw [Entry.settled, Candidate.entry]
  congr 1
  cases (c.plan style o).2 with
  | error e => rfl
  | ok written => exact congrArg Except.ok map_map

theorem entry_of_stored (h : ∀ x ∈ c.files style o,
    gs.get? (placeOf output x) = some x.2.contents) :
    c.entry output style o gs = (c.entry output style o fs).settled := by
  rw [settled_entry_eq]
  refine congrArg (Entry.mk c.source (c.plan style o).1) (map_plan_congr fun x hx => ?_)
  rw [product, if_pos (h x hx)]

/-- Nothing is written where a layout file lies. -/
theorem sources_stored (htargets : o.targets.Nodup) :
    sources input (stored input output style o fs) = sources input fs := by
  refine FileMap.filter_entries_congr fun p => ?_
  by_cases hsource : isSource input p.names = true
  · have hextension : p.extension? = some "json" :=
      beq_iff_eq.mp (Bool.and_eq_true_iff.mp hsource).2
    have hending := Path.ending?_of_extension? hextension (by decide)
    rw [stored_elsewhere htargets]
    intro d hd x hx _
    obtain ⟨-, l, hl, hfile⟩ := Candidate.of_mem_files hx
    have hwidget := named_of_mem_chosen hd l hl
    rw [placeOf_eq (name_of_generate hfile), draftOf_eq (name_of_generate hfile)]
    constructor
    · intro hnames
      rw [Path.ending?_congr hnames, ending?_productPath hwidget] at hending
      exact absurd hending (by decide)
    · intro hnames
      rw [Path.ending?_congr hnames, ending?_draftPath hwidget] at hending
      exact absurd hending (by decide)
  · simp [hsource]

theorem reaches_again {order : List Path → List Path} (horder : ∀ files, (order files).Perm files)
    (htargets : o.targets.Nodup) (hjobs : o.jobs ≠ some 0) :
    Reaches (run (FileMap.disk order) input output style o) (stored input output style o fs)
      ⟨((chosen input o fs).map (Candidate.entry output style o fs) ++
        (uncalled input o fs).map (Entry.ofUnmatched input)).map Entry.settled⟩
      (stored input output style o fs) := by
  have hcandidates : candidates input (stored input output style o fs) = candidates input fs :=
    congrArg (List.map (candidate input)) (sources_stored htargets)
  have hchosen : chosen input o (stored input output style o fs) = chosen input o fs := by
    rw [chosen, chosen, selected, selected, hcandidates]
  have hentries : (chosen input o fs).map
      (Candidate.entry output style o (stored input output style o fs)) =
        ((chosen input o fs).map (Candidate.entry output style o fs)).map Entry.settled := by
    rw [map_map]
    refine map_congr_left fun d hd => ?_
    exact entry_of_stored fun x hx => stored_at_place htargets hd hx
  have hstored : stored input output style o (stored input output style o fs) =
      stored input output style o fs := by
    rw [stored, writings, hchosen]
    exact foldl_store_of_stored fun x hx => by
      obtain ⟨d, hd, hx⟩ := mem_flatMap.mp hx
      exact stored_at_place htargets hd hx
  have hagain :=
    reaches_run horder input output style htargets hjobs (stored input output style o fs)
  rw [hstored, hchosen, hcandidates, hentries, unmatched_eq] at hagain
  rw [map_append, map_map (f := Entry.ofUnmatched input)]
  exact hagain

end Again

/-! ## A run on other files -/

/-- Maps that agree on a file, and differ in no file that declares the same widget on either. -/
structure Alike (p : Path) (fs gs : FileMap) : Prop where
  source : gs.get? p = fs.get? p
  others : ∀ q, q.names ≠ p.names → gs.get? q ≠ fs.get? q → ∀ widget, fs.Declares p widget →
    ¬fs.Declares q widget ∧ ¬gs.Declares q widget

/-- What one file comes to on two maps that runs lead from `fs` to `fs'` and from `gs` to `gs'`. -/
structure SameOutcome (output : Path) (o : Options) (fs fs' gs gs' : FileMap) (e e' : Entry) :
    Prop where
  /-- Whether its files were up to date is all that may differ, -/
  settled : e'.settled = e.settled
  /-- they are so in the end, -/
  files : ∀ products, e.result = .ok products → ∀ x ∈ products, gs'.get? x.path = fs'.get? x.path
  /-- and where they agree before, nothing differs. -/
  same : (∀ l, fs.layout? e.source = some l → ∀ target ∈ o.targets,
      gs.get? (productPath output l.name target) = fs.get? (productPath output l.name target)) →
    e' = e ∧ ∀ l, fs.layout? e.source = some l → ∀ target ∈ o.targets,
      gs'.get? (productPath output l.name target) = fs'.get? (productPath output l.name target)

section Others

variable {input output p : Path} {style : Style} {o : Options} {fs gs : FileMap} {c d : Candidate}
  {widget : String}

theorem select_eq_filter (widgets : List String) (cs : List Candidate) :
    select widgets cs = cs.filter fun c => widgets.isEmpty || widgets.any c.isCalled := by
  unfold select
  cases widgets with
  | nil => simp
  | cons w ws => simp

/-- Candidates of some kind are those of the files of some kind. -/
theorem filter_selected (input : Path) (o : Options) (fs : FileMap) (kind : Candidate → Bool) :
    (selected input o fs).filter kind =
      (fs.entries.filter fun e => (kind (candidate input e) &&
        (o.widgets.isEmpty || o.widgets.any (candidate input e).isCalled)) &&
          isSource input e.1).map (candidate input) := by
  rw [selected, select_eq_filter, candidates, sources, filter_filter, filter_map,
    filter_filter]
  rfl

theorem declares_iff_of_get? {text : String} (h : fs.get? p = some text) :
    fs.Declares p widget ↔ (candidate input (p.names, text)).name? = some widget := by
  rw [FileMap.Declares, FileMap.layout?, h, Option.bind_some, Candidate.name?_eq_some_iff,
    layout_candidate]
  cases Layout.parse text <;> simp [Except.toOption]

theorem Alike.filter_selected (h : Alike p fs gs) (hdeclares : fs.Declares p widget) :
    (selected input o gs).filter (·.name? == some widget) =
      (selected input o fs).filter (·.name? == some widget) := by
  rw [Batch.filter_selected, Batch.filter_selected]
  refine congrArg (List.map (candidate input)) (FileMap.filter_entries_congr fun q => ?_)
  by_cases hget : gs.get? q = fs.get? q
  · rw [hget]
  · have hne : q.names ≠ p.names := by
      intro hnames
      rw [gs.get?_congr hnames, fs.get?_congr hnames] at hget
      exact hget h.source
    obtain ⟨hfs, hgs⟩ := h.others q hne hget widget hdeclares
    refine (Option.filter_eq_none_iff.mpr ?_).trans (Option.filter_eq_none_iff.mpr ?_).symm
    · intro text htext
      simp [mt (declares_iff_of_get? htext).mpr hgs]
    · intro text htext
      simp [mt (declares_iff_of_get? htext).mpr hfs]

theorem Alike.mem_selected (h : Alike c.source fs gs) (hc : c ∈ selected input o fs) :
    c ∈ selected input o gs := by
  rw [mem_selected_iff] at hc ⊢
  refine ⟨?_, hc.2⟩
  obtain ⟨e, he, rfl⟩ := mem_map.mp hc.1
  refine mem_map_of_mem (mem_sources_iff.mpr ⟨?_, (mem_sources_iff.mp he).2⟩)
  have hget := h.source
  rw [source_candidate, get?_source he, FileMap.get?, names_source he] at hget
  exact Table.mem_of_get? hget

theorem Alike.refuseShared_eq (h : Alike c.source fs gs) (hc : c ∈ candidates input fs) :
    refuseShared input (selected input o gs) c = refuseShared input (selected input o fs) c :=
  refuseShared_congr input fun _ hname => h.filter_selected ((declares_source_iff hc).mpr hname)

theorem Alike.mem_chosen (h : Alike d.source fs gs) (hd : d ∈ chosen input o fs) :
    d ∈ chosen input o gs := by
  obtain ⟨c, hc, rfl⟩ := mem_map.mp hd
  rw [source_refuseShared] at h
  rw [← h.refuseShared_eq (mem_selected_iff.mp hc).1]
  exact mem_map_of_mem (h.mem_selected hc)

theorem Alike.layout?_eq (h : Alike p fs gs) : gs.layout? p = fs.layout? p := by
  rw [FileMap.layout?, FileMap.layout?, h.source]

theorem Alike.sameOutcome (htargets : o.targets.Nodup) (h : Alike d.source fs gs)
    (hd : d ∈ chosen input o fs) :
    SameOutcome output o fs (stored input output style o fs) gs (stored input output style o gs)
      (d.entry output style o fs) (d.entry output style o gs) := by
  have hd' := h.mem_chosen hd
  have hfiles : ∀ x ∈ d.files style o,
      (stored input output style o gs).get? (placeOf output x) =
        (stored input output style o fs).get? (placeOf output x) :=
    fun x hx => (stored_at_place htargets hd' hx).trans (stored_at_place htargets hd hx).symm
  refine ⟨by rw [settled_entry_eq, settled_entry_eq], ?_, fun hagree => ⟨?_, ?_⟩⟩
  · intro products hresult
    obtain ⟨rfl, -⟩ := Candidate.of_result_ok hresult
    exact forall_mem_map.mpr hfiles
  · refine entry_congr fun x hx => ?_
    obtain ⟨htarget, l, hl, hfile⟩ := Candidate.of_mem_files hx
    rw [placeOf_eq (name_of_generate hfile)]
    exact hagree l (layout?_of_mem_chosen hd hl) x.1 htarget
  · intro l hl target htarget
    rw [source_entry] at hl
    by_cases hresult : Succeeds (d.entry output style o fs).result
    · obtain ⟨products, hresult⟩ := hresult
      obtain ⟨-, l', hl', -, hgenerate⟩ := Candidate.of_result_ok hresult
      obtain rfl := Option.some.inj (hl.symm.trans (layout?_of_mem_chosen hd hl'))
      obtain ⟨htargets', hgenerated⟩ := mem_generate hgenerate
      rw [← htargets'] at htarget
      obtain ⟨x, hx, rfl⟩ := mem_map.mp htarget
      rw [← placeOf_eq (name_of_generate (hgenerated x hx))]
      exact hfiles x hx
    · have hresult' : ¬Succeeds (d.entry output style o gs).result := by
        rwa [Candidate.succeeds_result_iff, ← Candidate.succeeds_result_iff]
      have hkept := (isolated_stored htargets fs).failed _ (mem_map_of_mem hd) hresult l hl target
      have hkept' := (isolated_stored htargets gs).failed _ (mem_map_of_mem hd') hresult' l
        (h.layout?_eq.trans hl) target
      rw [hkept.1, hkept'.1, hagree l hl target htarget]

end Others

/-- A batch handles each layout file by itself, in whatever order directories list their files: it
writes what the layout of a file alone gives, nothing for a file that fails, and finds nothing to do
the second time; and changes to other files do not matter to a file unless they concern a
declaration of its own widget. -/
theorem run_isolates {order : List Path → List Path} (horder : ∀ files, (order files).Perm files)
    (input output : Path) (style : Style) {o : Options} (htargets : o.targets.Nodup)
    (hjobs : o.jobs ≠ some 0) (fs : FileMap) :
    ∃ entries fs',
      Reaches (run (FileMap.disk order) input output style o) fs
        ⟨entries ++ (uncalled input o fs).map (Entry.ofUnmatched input)⟩ fs' ∧
      Isolated input output style o fs fs' entries ∧
      Reaches (run (FileMap.disk order) input output style o) fs'
        ⟨(entries ++ (uncalled input o fs).map (Entry.ofUnmatched input)).map Entry.settled⟩ fs' ∧
      ∀ e ∈ entries, ∀ gs, Alike e.source fs gs → ∃ report gs',
        Reaches (run (FileMap.disk order) input output style o) gs report gs' ∧
          ∃ e' ∈ report.entries, SameOutcome output o fs fs' gs gs' e e' := by
  have hruns := reaches_run horder input output style htargets hjobs
  refine ⟨(chosen input o fs).map (Candidate.entry output style o fs),
    stored input output style o fs, ?_, isolated_stored htargets fs,
    reaches_again horder htargets hjobs, ?_⟩
  · rw [← unmatched_eq]
    exact hruns fs
  · rw [forall_mem_map]
    intro d hd gs halike
    refine ⟨_, _, hruns gs, d.entry output style o gs, ?_, halike.sameOutcome htargets hd⟩
    exact mem_append_left _ (mem_map_of_mem (halike.mem_chosen hd))

/-- A layout, and another file that is not complete yet. -/
def twoFiles : FileMap :=
  (FileMap.empty.put ⟨"layouts/clock.json"⟩
    "\x7b\"name\": \"Clock\", \"layout\": \x7b\"type\": \"spacer\"\x7d,
      \"supportedSizes\": [\x7b\"id\": \"small\", \"width\": 80, \"height\": 40\x7d]\x7d").put
    ⟨"layouts/notes.json"⟩ "\x7b\"name\": "

theorem alike_twoFiles :
    Alike ⟨"layouts/clock.json"⟩ twoFiles (twoFiles.remove ⟨"layouts/notes.json"⟩) where
  source := by rw [FileMap.get?_remove, if_neg (by decide +kernel)]
  others := by
    intro q hne hget widget hdeclares
    have hq : q.names = Path.names ⟨"layouts/notes.json"⟩ := by
      by_contra hq
      rw [FileMap.get?_remove, if_neg hq] at hget
      exact hget rfl
    have hnone : twoFiles.layout? ⟨"layouts/notes.json"⟩ = none :=
      Option.isNone_iff_eq_none.mp (by decide +kernel)
    rw [FileMap.Declares, FileMap.Declares, FileMap.layout?, FileMap.layout?, FileMap.get?_remove,
      if_pos hq, twoFiles.get?_congr hq, ← FileMap.layout?, hnone]
    simp

theorem declares_twoFiles : ∀ q ∈ twoFiles.filesBelow ⟨"layouts"⟩,
    twoFiles.Declares q "Clock" → q = ⟨"layouts/clock.json"⟩ := by
  decide +kernel

theorem exists_layout_twoFiles : ∃ l, twoFiles.layout? ⟨"layouts/clock.json"⟩ = some l ∧
    l.name = "Clock" ∧ ∀ target ∈ SourceTarget.all,
      Succeeds (Source.File.generate .builtin Source.defaultPackage target l) := by
  have hlayout : (twoFiles.layout? ⟨"layouts/clock.json"⟩).any (fun l => l.name = "Clock" ∧
      ∀ target ∈ SourceTarget.all,
        Succeeds (Source.File.generate .builtin Source.defaultPackage target l)) = true := by
    decide +kernel
  rw [Option.any_eq_true_iff_get] at hlayout
  obtain ⟨hsome, hl⟩ := hlayout
  exact ⟨_, (Option.some_get hsome).symm, of_decide_eq_true hl⟩

theorem run_isolates_twoFiles :
    (∀ files : List Path, files.reverse.Perm files) ∧ ({} : Options).targets.Nodup ∧
      ({} : Options).jobs ≠ some 0 ∧
    ∃ entries fs',
      Reaches (run (FileMap.disk List.reverse) ⟨"layouts"⟩ ⟨"out"⟩ .builtin {}) twoFiles
        ⟨entries ++ (uncalled ⟨"layouts"⟩ {} twoFiles).map (Entry.ofUnmatched ⟨"layouts"⟩)⟩ fs' ∧
      ∃ e ∈ entries, e.source = ⟨"layouts/clock.json"⟩ ∧ Succeeds e.result ∧
        Alike e.source twoFiles (twoFiles.remove ⟨"layouts/notes.json"⟩) ∧ ∃ report gs',
          Reaches (run (FileMap.disk List.reverse) ⟨"layouts"⟩ ⟨"out"⟩ .builtin {})
            (twoFiles.remove ⟨"layouts/notes.json"⟩) report gs' ∧
              ∃ e' ∈ report.entries, SameOutcome ⟨"out"⟩ {} twoFiles fs'
                (twoFiles.remove ⟨"layouts/notes.json"⟩) gs' e e' := by
  have horder : ∀ files : List Path, files.reverse.Perm files := reverse_perm
  have htargets : ({} : Options).targets.Nodup := by decide
  have hjobs : ({} : Options).jobs ≠ some 0 := by decide
  refine ⟨horder, htargets, hjobs, ?_⟩
  obtain ⟨entries, fs', hrun, hisolated, -, hothers⟩ :=
    run_isolates horder ⟨"layouts"⟩ ⟨"out"⟩ .builtin htargets hjobs twoFiles
  have hcovered : IsCovered ⟨"layouts"⟩ {} twoFiles ⟨"layouts/clock.json"⟩ := by decide +kernel
  obtain ⟨e, he, hsource⟩ := (hisolated.covers _).mp hcovered
  refine ⟨entries, fs', hrun, e, he, hsource, ?_, ?_, ?_⟩
  · obtain ⟨l, hl, hname, hgenerate⟩ := exists_layout_twoFiles
    rw [hisolated.succeeds_iff e he, hsource]
    refine ⟨l, hl, fun q hq hdeclares => ?_, hgenerate⟩
    exact declares_twoFiles q hq.1.1 (hname ▸ hdeclares)
  · rw [hsource]
    exact alike_twoFiles
  · exact hothers e he _ (hsource ▸ alike_twoFiles)

end Batch

end Widgetry
