import Widgetry.Proofs.Decimal.Denotation
import Widgetry.Proofs.Source.Acceptance
import Widgetry.Proofs.Source.Generation

/-!
# The choice of a size

A file picks a size by branches that ask for a least width and a least height, the last one in any
case. The branches are read back from the directives that write the file. Sizes are tried by area, so
the first branch that is taken stands for the largest size that fits.
-/

namespace Widgetry

open List

/-! ### Which size is right -/

namespace SizeClass

/-- Whether a size is no larger than what there is. -/
def Fits (s : SizeClass) (width height : Float) : Prop := s.width ≤ width ∧ s.height ≤ height

def areaKey (s : SizeClass) : Int := Decimal.totalKey s.size.area

/-- A size that has the greatest area of those that fit, or the least of all if none fits. -/
structure Suits (sizes : List SizeClass) (width height : Float) (s : SizeClass) : Prop where
  largest : (∃ t ∈ sizes, t.Fits width height) →
    s.Fits width height ∧ ∀ t ∈ sizes, t.Fits width height → t.areaKey ≤ s.areaKey
  least : (∀ t ∈ sizes, ¬t.Fits width height) → ∀ t ∈ sizes, s.areaKey ≤ t.areaKey

end SizeClass

namespace Source

/-! ### Branches -/

/-- A branch: the literals of the least width and height, if any, and the name it calls. -/
structure Branch where
  limits : Option (String × String)
  name : String

variable {width height : Float} {sizes : List SizeClass} {s : SizeClass}

/-- Whether a branch is taken where its turn comes. -/
def Branch.Taken (b : Branch) (width height : Float) : Prop :=
  ∀ limits ∈ b.limits, ∃ x y, Decimal.Denotes limits.1 x ∧ Decimal.Denotes limits.2 y ∧
    x ≤ width ∧ y ≤ height

/-- The name that the first branch calls that is taken. -/
inductive Selects (width height : Float) : List Branch → String → Prop
  | here {b : Branch} (rest : List Branch) (h : b.Taken width height) :
      Selects width height (b :: rest) b.name
  | later {b : Branch} {rest : List Branch} {name : String} (h : ¬b.Taken width height)
      (hrest : Selects width height rest name) : Selects width height (b :: rest) name

/-- The branches of sizes in their order. -/
def branches (name : SizeClass → String) : List SizeClass → List Branch
  | [] => []
  | [s] => [⟨none, name s⟩]
  | s :: rest =>
      ⟨some (numberLiteral s.width, numberLiteral s.height), name s⟩ :: branches name rest

theorem map_name_branches (name : SizeClass → String) (sizes : List SizeClass) :
    (branches name sizes).map Branch.name = sizes.map name := by
  fun_induction branches name sizes <;> simp_all

theorem taken_iff (hs : s.Sound) (width height : Float) (name : String) :
    Branch.Taken ⟨some (numberLiteral s.width, numberLiteral s.height), name⟩ width height ↔
      s.Fits width height := by
  have hwidth := Decimal.denotes_numberLiteral hs.width
  have hheight := Decimal.denotes_numberLiteral hs.height
  constructor
  · intro h
    obtain ⟨x, y, hx, hy, hfits⟩ := h _ rfl
    rwa [hx.unique hwidth, hy.unique hheight] at hfits
  · rintro h _ ⟨⟩
    exact ⟨_, _, hwidth, hheight, h⟩

/-- Of sizes by falling area, the first branch that is taken stands for the right one. -/
theorem exists_selects (hne : sizes ≠ []) (hsound : ∀ s ∈ sizes, s.Sound)
    (hsorted : sizes.Pairwise fun s t => t.areaKey ≤ s.areaKey) (width height : Float) :
    ∃ s ∈ sizes, s.Suits sizes width height ∧
      ∀ name, Selects width height (branches name sizes) (name s) := by
  induction sizes with
  | nil => exact absurd rfl hne
  | cons s rest ih =>
    obtain ⟨hfirst, hsorted⟩ := pairwise_cons.mp hsorted
    cases rest with
    | nil =>
      refine ⟨s, mem_cons_self, ⟨?_, ?_⟩, fun name => .here [] (by rintro _ ⟨⟩)⟩
      · rintro ⟨t, ht, hfits⟩
        rw [mem_singleton.mp ht] at hfits
        exact ⟨hfits, fun u hu _ => by rw [mem_singleton.mp hu]⟩
      · exact fun _ t ht => by rw [mem_singleton.mp ht]
    | cons next rest =>
      have htaken (name : String) := taken_iff (hsound s mem_cons_self) width height name
      by_cases hfits : s.Fits width height
      · refine ⟨s, mem_cons_self, ⟨fun _ => ⟨hfits, fun t ht _ => ?_⟩, fun hnone => ?_⟩,
          fun name => .here _ ((htaken _).mpr hfits)⟩
        · rcases mem_cons.mp ht with rfl | ht
          · exact le_rfl
          · exact hfirst t ht
        · exact absurd hfits (hnone s mem_cons_self)
      · obtain ⟨t, ht, hsuits, hselects⟩ := ih (cons_ne_nil _ _)
          (fun u hu => hsound u (mem_cons_of_mem s hu)) hsorted
        refine ⟨t, mem_cons_of_mem s ht, ⟨?_, fun hnone u hu => ?_⟩,
          fun name => .later (mt (htaken _).mp hfits) (hselects name)⟩
        · rintro ⟨u, hu, hu'⟩
          have hrest : ∀ v ∈ s :: next :: rest, v.Fits width height → v ∈ next :: rest := by
            intro v hv hv'
            rcases mem_cons.mp hv with rfl | hv
            · exact absurd hv' hfits
            · exact hv
          obtain ⟨hfit, hmax⟩ := hsuits.largest ⟨u, hrest u hu hu', hu'⟩
          exact ⟨hfit, fun v hv hv' => hmax v (hrest v hv hv') hv'⟩
        · rcases mem_cons.mp hu with rfl | hu
          · exact hfirst t ht
          · exact hsuits.least (fun v hv => hnone v (mem_cons_of_mem s hv)) u hu

/-! ### Reading branches -/

def words (text : String) : List String := (Text.splitOn ' ' text.toList).map String.ofList

def stem? (ending text : String) : Option String :=
  (Text.dropPrefix? ending.toList.reverse text.toList.reverse).map fun cs =>
    String.ofList cs.reverse

theorem stem?_append (text ending : String) : stem? ending (text ++ ending) = some text := by
  rw [stem?, String.toList_append, reverse_append, Text.dropPrefix?_append, Option.map_some,
    reverse_reverse, String.ofList_toList]

/-- A branch of a `when`. -/
def Kotlin.branch? : Directive → Option Branch
  | .line text =>
      match words text with
      | ["else", "->", callee, "settings,", "images,", "modifier)"] => do
          return ⟨none, ← stem? "(data," callee⟩
      | ["size.width", ">=", width, "&&", "size.height", ">=", height, "->", callee, "settings,",
          "images,", "modifier)"] => do
          return ⟨some (← stem? ".dp" width, ← stem? ".dp" height), ← stem? "(data," callee⟩
      | _ => none
  | _ => none

/-- The branches of a `when` up to its end. -/
def Kotlin.branches? : List Directive → Option (List Branch)
  | [] => none
  | .leave _ :: _ => some []
  | d :: ds => do return (← branch? d) :: (← branches? ds)

/-- The condition of an `if` or of what follows one. -/
def Swift.condition? (text : String) : Option (Option (String × String)) :=
  match words text with
  | ["if", "size.width", ">=", width, "&&", "size.height", ">=", height, "\x7b"]
  | ["\x7d", "else", "if", "size.width", ">=", width, "&&", "size.height", ">=", height, "\x7b"] =>
      some (some (width, height))
  | ["\x7d", "else", "\x7b"] => some none
  | _ => none

/-- The branches after the first one up to the end. -/
def Swift.later? : List Directive → Option (List Branch)
  | .leave _ :: _ => some []
  | .reenter head :: .line name :: ds => do return ⟨← condition? head, name⟩ :: (← later? ds)
  | _ => none

def Swift.branches? : List Directive → Option (List Branch)
  | .line name :: .leave _ :: _ => some [⟨none, name⟩]
  | .enter head :: .line name :: ds => do return ⟨← condition? head, name⟩ :: (← later? ds)
  | _ => none

def choice : SourceTarget → Directive
  | .glance => .enter "when \x7b"
  | .swiftUI => .enter "private func content(for size: CGSize) -> some View \x7b"

def dispatch? (target : SourceTarget) (ds : List Directive) : Option (List Branch) :=
  let after := (ds.dropWhile fun d => decide (d ≠ choice target)).tail
  match target with
  | .glance => Kotlin.branches? after
  | .swiftUI => Swift.branches? after

variable {ws : List String} {x : Float} {a : String} {es : List Element} {after : List Directive}

theorem words_eq {text : String} (htext : text = Text.joinWith " " ws) (hne : ws ≠ [])
    (h : ∀ w ∈ ws, ' ' ∉ w.toList) : words text = ws := by
  rw [htext]
  exact Text.splitOn_joinWith hne h

theorem space_notMem_pascal (id : String) : ' ' ∉ (Text.pascal id).toList := by
  intro hmem
  exact absurd (all_eq_true.mp (all_isWordChar_pascal id) _ hmem) (by decide)

theorem space_notMem_numberLiteral (h : SizeClass.Measures x) : ' ' ∉ (numberLiteral x).toList := by
  obtain ⟨_, _, _, _, htext, -⟩ := Decimal.denotes_numberLiteral h
  rw [htext.text_eq, mem_append, mem_cons]
  rintro (h | h | h)
  · exact absurd (htext.whole _ h) (by decide)
  · exact absurd h (by decide)
  · exact absurd (htext.fraction _ h) (by decide)

namespace Kotlin

theorem dp_numberLiteral (h : SizeClass.Measures x) :
    dp (numberLiteral x) = numberLiteral x ++ ".dp" := by
  obtain ⟨_, _, _, _, htext, -⟩ := Decimal.denotes_numberLiteral h
  rw [dp, htext.group]

theorem branch?_else (s : SizeClass) :
    branch? (.line ("else -> " ++ sizeCall s)) = some ⟨none, sizeName s⟩ := by
  have hwords : words ("else -> " ++ sizeCall s) =
      ["else", "->", sizeName s ++ "(data,", "settings,", "images,", "modifier)"] := by
    refine words_eq ?_ (by simp) (by simp [sizeName, space_notMem_pascal])
    rw [← String.toList_inj]
    simp [sizeCall, call, Text.joinWith, String.intercalate_cons_cons]
  simp only [branch?, hwords, stem?_append]
  rfl

theorem branch?_fits (hs : s.Sound) :
    branch? (.line ("size.width >= " ++ dp (numberLiteral s.width) ++ " && size.height >= "
      ++ dp (numberLiteral s.height) ++ " -> " ++ sizeCall s)) =
      some ⟨some (numberLiteral s.width, numberLiteral s.height), sizeName s⟩ := by
  rw [dp_numberLiteral hs.width, dp_numberLiteral hs.height]
  have hwords : words ("size.width >= " ++ (numberLiteral s.width ++ ".dp") ++ " && size.height >= "
      ++ (numberLiteral s.height ++ ".dp") ++ " -> " ++ sizeCall s) =
      ["size.width", ">=", numberLiteral s.width ++ ".dp", "&&", "size.height", ">=",
        numberLiteral s.height ++ ".dp", "->", sizeName s ++ "(data,", "settings,", "images,",
        "modifier)"] := by
    refine words_eq ?_ (by simp) (by simp [sizeName, space_notMem_pascal,
      space_notMem_numberLiteral hs.width, space_notMem_numberLiteral hs.height])
    rw [← String.toList_inj]
    simp [sizeCall, call, Text.joinWith, String.intercalate_cons_cons]
  simp only [branch?, hwords, stem?_append]
  rfl

theorem branches?_line (text : String) (ds : List Directive) :
    branches? (.line text :: ds) = do return (← branch? (.line text)) :: (← branches? ds) := rfl

theorem branches?_dispatch (hsound : ∀ s ∈ sizes, s.Sound) (text : String) (ds : List Directive) :
    branches? (dispatch sizes ++ .leave text :: ds) = some (branches sizeName sizes) := by
  fun_induction dispatch sizes with
  | case1 => rfl
  | case2 s =>
    rw [singleton_append, branches?_line, branch?_else]
    rfl
  | case3 s rest hne ih =>
    obtain ⟨hs, hrest⟩ := forall_mem_cons.mp hsound
    rw [cons_append, branches?_line, branch?_fits hs, ih hrest, branches]
    · rfl
    · exact hne

end Kotlin

namespace Swift

theorem words_fits (hs : s.Sound) {lead : String} (hlead : lead = String.join (ws.map (· ++ " ")))
    (hws : ∀ w ∈ ws, ' ' ∉ w.toList) :
    words (lead ++ fits s ++ " \x7b") = ws ++ ["size.width", ">=", numberLiteral s.width, "&&",
      "size.height", ">=", numberLiteral s.height, "\x7b"] := by
  have hfits : words (fits s ++ " \x7b") = ["size.width", ">=", numberLiteral s.width, "&&",
      "size.height", ">=", numberLiteral s.height, "\x7b"] := by
    have hwidth := space_notMem_numberLiteral hs.width
    have hheight := space_notMem_numberLiteral hs.height
    refine words_eq ?_ (by simp) (by simp [hwidth, hheight])
    rw [← String.toList_inj]
    simp [fits, Text.joinWith, String.intercalate_cons_cons]
  rw [hlead, ← hfits]
  clear hlead hfits
  induction ws with
  | nil => simp
  | cons w ws ih =>
    obtain ⟨hw, hws⟩ := forall_mem_cons.mp hws
    rw [cons_append, ← ih hws]
    simp [words, Text.splitOn_append_cons hw]

theorem condition?_fits (hs : s.Sound) :
    condition? ("if " ++ fits s ++ " \x7b") =
      some (some (numberLiteral s.width, numberLiteral s.height)) ∧
    condition? ("\x7d else if " ++ fits s ++ " \x7b") =
      some (some (numberLiteral s.width, numberLiteral s.height)) := by
  have hif : "if " = String.join (["if"].map (· ++ " ")) := rfl
  have helse : "\x7d else if " = String.join (["\x7d", "else", "if"].map (· ++ " ")) := rfl
  constructor
  · rw [condition?, words_fits hs hif (by simp)]
    rfl
  · rw [condition?, words_fits hs helse (by simp)]
    rfl

theorem later?_cons (head name : String) (ds : List Directive) :
    later? (.reenter head :: .line name :: ds) = do
      return ⟨← condition? head, name⟩ :: (← later? ds) := rfl

theorem later?_laterBranches (hsound : ∀ s ∈ sizes, s.Sound) (text : String) (ds : List Directive) :
    later? (laterBranches sizes ++ .leave text :: ds) = some (branches sizeName sizes) := by
  fun_induction laterBranches sizes with
  | case1 => rfl
  | case2 s => rfl
  | case3 s rest hne ih =>
    obtain ⟨hs, hrest⟩ := forall_mem_cons.mp hsound
    rw [append_assoc, cons_append, singleton_append, later?_cons,
      (condition?_fits hs).2, ih hrest, branches]
    · rfl
    · exact hne

theorem branches?_dispatch (hne : sizes ≠ []) (hsound : ∀ s ∈ sizes, s.Sound) (text : String)
    (ds : List Directive) :
    branches? (dispatch sizes ++ .leave text :: ds) = some (branches sizeName sizes) := by
  cases sizes with
  | nil => exact absurd rfl hne
  | cons s rest =>
    obtain ⟨hs, hrest⟩ := forall_mem_cons.mp hsound
    cases rest with
    | nil => rfl
    | cons next rest =>
      have hlater := later?_laterBranches hrest "\x7d" (.leave text :: ds)
      have hstep (head name : String) (ds : List Directive) :
          branches? (.enter head :: .line name :: ds) = do
            return ⟨← condition? head, name⟩ :: (← later? ds) := rfl
      rw [dispatch, branches, append_assoc, append_assoc, cons_append,
        singleton_append, hstep, (condition?_fits hs).1, singleton_append, hlater]
      · rfl
      · exact cons_ne_nil _ _
      · exact cons_ne_nil _ _

end Swift

/-! ### Definitions -/

/-- The name of the function or property that draws a size. -/
def sizeName : SourceTarget → SizeClass → String
  | .glance => Kotlin.sizeName
  | .swiftUI => Swift.sizeName

def definition (target : SourceTarget) (name : String) : Directive :=
  match target with
  | .glance => .enter ("private fun " ++ name ++ "(")
  | .swiftUI => .enter ("private var " ++ name ++ ": some View \x7b")

/-- Whether none of some directives starts a definition of a size. Such a definition starts with
`private fun ` or `private var `, so with a `p`, and its twelfth character is a blank; what dispatches
on the size, a `private func`, has a letter there. No directive of an element has both. -/
def bland : List Directive → Bool
  | [] => true
  | .enter text :: ds =>
      (text.toList.head? != some 'p' || text.toList[11]? != some ' ') && bland ds
  | _ :: ds => bland ds

attribute [simp] bland

@[simp]
theorem bland_append (as bs : List Directive) : bland (as ++ bs) = (bland as && bland bs) := by
  fun_induction bland as <;> simp_all [Bool.and_assoc]

@[simp]
theorem bland_map_line (f : String → String) (texts : List String) :
    bland (texts.map fun text => .line (f text)) = true := by
  induction texts with
  | nil => rfl
  | cons text texts ih => exact ih

theorem count_definition_of_bland {ds : List Directive} (h : bland ds = true)
    (target : SourceTarget) (name : String) : ds.count (definition target name) = 0 := by
  rw [count_eq_zero]
  intro hmem
  obtain ⟨before, after, rfl⟩ := append_of_mem hmem
  cases target <;> simp [definition] at h

/-- Whether a sheet defines no size. -/
def Sheet.bland (sheet : Sheet) : Bool := Source.bland sheet.directives

@[simp]
theorem Sheet.bland_mk (ds : List Directive) (uses : List Helper) :
    (mk ds uses).bland = Source.bland ds := rfl

@[simp]
theorem Sheet.bland_append (a b : Sheet) : (a ++ b).bland = (a.bland && b.bland) :=
  Source.bland_append _ _

@[simp]
theorem bland_flatMap {α : Type} {f : α → List Directive} (h : ∀ x, bland (f x) = true)
    (xs : List α) : bland (xs.flatMap f) = true := by
  induction xs with
  | nil => rfl
  | cons x xs ih => simp [h, ih]

/-- A setting that defines no size. -/
structure Setting.Bland (setting : Setting) : Prop where
  between : bland setting.between = true
  around : ∀ body, body.bland = true → (setting.around body).bland = true

theorem Setting.bland_leaf {sheet : Sheet} (h : sheet.bland = true) : (leaf sheet).Bland :=
  ⟨rfl, fun _ _ => h⟩

namespace Dialect
variable {σ : Type} {D : Dialect σ}

def Bland (D : Dialect σ) : Prop := ∀ env stack flow told x mods,
  Yields Setting.Bland (D.setting env stack flow told x mods)

mutual

theorem Bland.yields_element (h : D.Bland) (env : Env) (stack : List String) (flow : Flow) (told : σ)
    (x : Element) : Yields (Sheet.bland · = true) (D.element env stack flow told x) := by
  cases x with
  | mk kind id properties children place =>
    rw [element]
    refine (yields_true _).bind fun mods _ => (h ..).bind fun setting hsetting => ?_
    exact (h.yields_elements env _ _ hsetting.between _ _ _).bind fun _ => hsetting.around _

theorem Bland.yields_elements (h : D.Bland) (env : Env) (stack : List String) (flow : Flow)
    {between : List Directive} (hbetween : bland between = true) (first : Bool) (n : Nat)
    (xs : List Element) :
    Yields (Sheet.bland · = true) (D.elements env stack flow between first n xs) := by
  cases n with
  | zero => rw [elements]; exact rfl
  | succ n =>
    cases xs with
    | nil => rw [elements]; exact rfl
    | cons x xs =>
      rw [elements]
      refine (h.yields_element env _ _ _ x).bind fun a ha =>
        (h.yields_elements env _ _ hbetween _ n xs).bind fun b hb => ?_
      show Sheet.bland _ = true
      cases first <;> simp [ha, hb, hbetween, Sheet.plain]

end

variable {style : Style} {l : Layout} {sizes : List SizeClass} {sheet : Sheet}

/-- Directives that define a size once for each time it is among the given ones. -/
theorem Bland.count_sizes (h : D.Bland) {target : SourceTarget}
    (hpart : ∀ s body name, (D.part s body).directives.count (definition target name) =
      body.directives.count (definition target name) + if sizeName target s == name then 1 else 0)
    (hsheet : D.sizes style l sizes = .ok sheet) (name : String) :
    sheet.directives.count (definition target name) = (sizes.map (sizeName target)).count name := by
  induction sizes generalizing sheet with
  | nil =>
    rw [← Except.ok.inj hsheet]
    rfl
  | cons s sizes ih =>
    obtain ⟨body, hbody, heq⟩ := exists_of_bind_eq_ok hsheet
    obtain ⟨others, hothers, heq⟩ := exists_of_bind_eq_ok heq
    have hnone := count_definition_of_bland ((h.yields_element ..).of_ok hbody) target name
    rw [← Except.ok.inj heq, map_cons, count_cons, ← ih hothers, Nat.add_comm]
    refine count_append.trans (congrArg (· + _) ?_)
    simp [hpart, hnone]

end Dialect

variable {env : Env} {template inner : Sheet}

namespace Kotlin

theorem bland_callLines {name : String} (hname : ∃ c ∈ name.toList.head?, c ≠ 'p')
    (args : List String) : bland (callLines name args) = true := by
  obtain ⟨c, hc, hne⟩ := hname
  simp only [callLines]
  split <;> simp [Option.mem_def.mp hc, hne]

theorem bland_blockLines {name : String} (hname : ∃ c ∈ name.toList.head?, c ≠ 'p')
    (args : List String) : bland (blockLines name args) = true := by
  obtain ⟨c, hc, hne⟩ := hname
  simp only [blockLines]
  split
  · simp [Option.mem_def.mp hc, hne]
  · split <;> simp [Option.mem_def.mp hc, hne, call]

theorem head?_along (horizontal : Bool) : ∃ c ∈ (along horizontal).1.toList.head?, c ≠ 'p' := by
  cases horizontal <;> exact ⟨_, rfl, by decide⟩

theorem bland_loop (style : Style) (item : String) (k : Nat) (base : String)
    (mods : List (Modifier Code)) (e : Element) (h : template.bland = true) :
    (loop style item k base mods e template).bland = true := by
  simp only [loop]
  cases computedText? mods .spacing <;>
    simp [h, bland_blockLines (head?_along _), gap, Sheet.plain]

theorem bland_conditional (condition : Option Code) (visible : Option String)
    (h : inner.bland = true) : (conditional condition visible inner).bland = true := by
  cases visible <;> simp [conditional, h, Sheet.plain]

theorem bland_leaf (env : Env) (item : String) (flow : Flow) (base : String) (mods : List (Modifier Code))
    (e : Element) : Yields (Sheet.bland · = true) (label env item base mods e) ∧
      Yields (Sheet.bland · = true) (image env item base mods e) ∧
      Yields (Sheet.bland · = true) (spacer env item flow base mods e) ∧
      Yields (Sheet.bland · = true) (divider env item flow base mods e) := by
  have hcall {name : String} (hname : ∃ c ∈ name.toList.head?, c ≠ 'p') (args : List String)
      (uses : List Helper) : (Sheet.mk (callLines name args) uses).bland = true :=
    bland_callLines hname args
  refine ⟨(yields_true _).bind fun _ _ => hcall ⟨_, rfl, by decide⟩ _ _, ?_,
    (yields_true _).bind fun _ _ => hcall ⟨_, rfl, by decide⟩ _ _,
    (yields_true _).bind fun _ _ => rfl⟩
  exact (yields_true _).bind fun _ _ => (yields_true _).bind fun _ _ =>
    hcall ⟨_, rfl, by decide⟩ _ _

theorem bland_dialect : dialect.Bland := by
  intro env stack flow base x mods
  rw [setting_dialect, setting]
  obtain ⟨kind, id, properties, children, place⟩ := x
  obtain ⟨hlabel, himage, hspacer, hdivider⟩ := bland_leaf env (stack.headD "data") flow base mods
    ⟨kind, id, properties, children, place⟩
  have hleaf (sheet : Sheet) (h : sheet.bland = true) := Setting.bland_leaf h
  cases kind with
  | column | row | stack =>
    refine ⟨?_, fun body hbody => ?_⟩
    · cases computedText? mods .spacing <;> rfl
    · simp [hbody, bland_blockLines, Sheet.plain]
  | scrollView =>
    refine ⟨rfl, fun body hbody => ?_⟩
    cases Element.isHorizontal ⟨.scrollView, id, properties, children, place⟩ <;>
      simp [hbody, bland_blockLines, Sheet.plain]
  | label => exact hlabel.bind hleaf
  | image => exact himage.bind hleaf
  | spacer => exact hspacer.bind hleaf
  | divider => exact hdivider.bind hleaf
  | forEach => exact ⟨rfl, fun _ => bland_loop _ _ _ _ _ _⟩
  | conditional =>
    exact (yields_true _).bind fun condition _ => ⟨rfl, fun _ => bland_conditional _ _⟩

end Kotlin

namespace Swift

theorem bland_stackOpening (style : Style) (kind : Kind) (mods : List (Modifier Code)) :
    (stackOpening style kind mods).1.toList.head? ≠ some 'p' := by
  unfold stackOpening
  split <;> simp

theorem bland_dressed (mods : List (Modifier Code)) (more : List String) {view : View}
    (h : view.sheet.bland = true) : (dressed mods more view).bland = true := by
  have hlines (lines : List String) : bland (modifierLines lines) = true := by
    have hmap : bland (lines.map .line) = true := bland_map_line id lines
    unfold modifierLines
    split <;> simp [hmap]
  simp [dressed, h, hlines, Sheet.plain]

theorem bland_guarded (visible : Option String) {sheet : Sheet} (h : sheet.bland = true) :
    (guarded visible sheet).bland = true := by
  cases visible <;> simp [guarded, h, Sheet.plain]

theorem bland_loop (style : Style) (item : String) (k : Nat) (mods : List (Modifier Code))
    (e : Element) (h : template.bland = true) : (loop style item k mods e template).bland = true := by
  simp [loop, h, bland_stackOpening, Sheet.plain]

theorem bland_leaf (env : Env) (item : String) (flow : Flow) (mods : List (Modifier Code)) (e : Element) :
    Yields (·.sheet.bland = true) (label env item mods e) ∧
      Yields (·.sheet.bland = true) (image env item mods e) ∧
      Yields (·.sheet.bland = true) (spacer env item flow e) ∧
      Yields (·.sheet.bland = true) (divider env item flow mods e) := by
  refine ⟨(yields_true _).bind fun _ _ => rfl,
    (yields_true _).bind fun _ _ => (yields_true _).bind fun _ _ => rfl,
    (yields_true _).bind fun size _ => ?_, (yields_true _).bind fun _ _ => rfl⟩
  cases size <;> exact rfl

theorem bland_dialect : dialect.Bland := by
  intro env stack flow more x mods
  rw [setting_dialect, setting]
  obtain ⟨kind, id, properties, children, place⟩ := x
  obtain ⟨hlabel, himage, hspacer, hdivider⟩ := bland_leaf env (stack.headD "data") flow mods
    ⟨kind, id, properties, children, place⟩
  have hdone (view : View) (h : view.sheet.bland = true) :
      (guarded (computedText? mods .visible) (dressed mods more view)).bland = true :=
    bland_guarded _ (bland_dressed mods more h)
  have hleaf (view : View) (h : view.sheet.bland = true) := Setting.bland_leaf (hdone view h)
  cases kind with
  | column | row | stack => exact ⟨rfl, fun body hbody => hdone _ (by simp [hbody, Sheet.plain])⟩
  | scrollView =>
    refine ⟨rfl, fun body hbody => hdone _ ?_⟩
    cases Element.isHorizontal ⟨.scrollView, id, properties, children, place⟩ <;>
      simp [along, hbody, Sheet.plain]
  | label => exact hlabel.bind hleaf
  | image => exact himage.bind hleaf
  | spacer => exact hspacer.bind hleaf
  | divider => exact hdivider.bind hleaf
  | forEach => exact ⟨rfl, fun _ h => hdone _ (bland_loop _ _ _ _ _ h)⟩
  | conditional =>
    exact (yields_true _).bind fun condition _ =>
      ⟨rfl, fun _ h => bland_guarded _ (bland_guarded _ h)⟩

end Swift

variable {style : Style} {l : Layout} {target : SourceTarget} {sheet : Sheet} {ds : List Directive}

theorem Kotlin.count_sizeFunction (s : SizeClass) (body : Sheet) (name : String) :
    (sizeFunction s body).directives.count (definition .glance name) =
      body.directives.count (definition .glance name) +
        if Source.sizeName .glance s == name then 1 else 0 := by
  show List.count _ ([_, _, definition .glance (sizeName s), _, _, _, _, _] ++ body.directives
    ++ [_]) = _
  simp [definition, count_cons, Source.sizeName]

theorem Swift.count_sizeProperty (s : SizeClass) (body : Sheet) (name : String) :
    (sizeProperty s body).directives.count (definition .swiftUI name) =
      body.directives.count (definition .swiftUI name) +
        if Source.sizeName .swiftUI s == name then 1 else 0 := by
  show List.count _ ([_, _, definition .swiftUI (sizeName s)] ++ body.directives ++ [_]) = _
  simp [definition, count_cons, Source.sizeName]

/-! ### Files -/

/-- What is read from the directives of a file: the branches, and definitions of the sizes. -/
structure Reads (target : SourceTarget) (sizes : List SizeClass) (ds : List Directive) : Prop where
  branches : dispatch? target ds = some (branches (sizeName target) sizes)
  definitions : ∀ name, ds.count (definition target name) = (sizes.map (sizeName target)).count name

theorem Kotlin.reads_object {helpers : List Helper} (hsound : ∀ s ∈ l.sizesByArea, s.Sound)
    (h : object style l = .ok (ds, helpers)) : Reads .glance l.sizesByArea ds := by
  obtain ⟨functions, hfunctions, heq⟩ := exists_of_bind_eq_ok h
  rw [Dialect.start_emitSizes] at hfunctions
  obtain ⟨rfl, -⟩ := Prod.mk.inj (Except.ok.inj heq)
  constructor
  · simp [dispatch?, choice, contentFunction, ← String.toList_inj, branches?_dispatch hsound,
      Source.sizeName]
  · intro name
    have hdispatch : bland (dispatch l.sizesByArea) = true := by
      fun_induction dispatch l.sizesByArea <;> simp_all
    rw [count_append, count_append, count_append,
      bland_dialect.count_sizes count_sizeFunction hfunctions, count_definition_of_bland,
      count_definition_of_bland, count_definition_of_bland]
    · simp
    · rfl
    · exact bland_flatMap (fun _ => rfl) _
    · simp [contentFunction, hdispatch]

theorem Swift.reads_view (hne : l.sizesByArea ≠ []) (hsound : ∀ s ∈ l.sizesByArea, s.Sound)
    (h : view style l = .ok ds) : Reads .swiftUI l.sizesByArea ds := by
  obtain ⟨properties, hproperties, heq⟩ := exists_of_bind_eq_ok h
  rw [Dialect.start_emitSizes] at hproperties
  obtain rfl := Except.ok.inj heq
  constructor
  · simp [dispatch?, choice, contentFunction, ← String.toList_inj,
      branches?_dispatch hne hsound, Source.sizeName]
  · intro name
    have hlater (sizes : List SizeClass) : bland (laterBranches sizes) = true := by
      fun_induction laterBranches sizes <;> simp_all
    have hdispatch : bland (dispatch l.sizesByArea) = true := by
      unfold dispatch
      split <;> simp [hlater]
    rw [count_append, count_append, count_append,
      bland_dialect.count_sizes count_sizeProperty hproperties, count_definition_of_bland,
      count_definition_of_bland, count_definition_of_bland]
    · simp
    · exact bland_flatMap (fun _ => rfl) _
    · rfl
    · simp [contentFunction, hdispatch]

namespace File

variable {document : Json}

theorem directives_of_generate {package : String} {file : File}
    (h : generate style package target l = .ok file) :
    ∃ preamble ds, directives style l target = .ok ds ∧ file.contents = preamble ++ render ds := by
  unfold generate at h
  split at h
  · rename_i contents htext
    rw [← Except.ok.inj h]
    cases target with
    | glance =>
      obtain ⟨⟨ds, helpers⟩, hobject, heq⟩ := exists_of_bind_eq_ok htext
      exact ⟨_, ds, by rw [directives, hobject]; rfl,
        (Except.ok.inj heq).symm.trans String.append_assoc.symm⟩
    | swiftUI =>
      obtain ⟨ds, hview, heq⟩ := exists_of_bind_eq_ok htext
      exact ⟨_, ds, hview, (Except.ok.inj heq).symm.trans String.append_assoc.symm⟩
  · cases h

theorem mem_sizesByArea {s : SizeClass} : s ∈ l.sizesByArea ↔ s ∈ l.sizes := mem_mergeSort

section

variable (hread : Layout.read document = .ok l)

include hread

theorem sorted_of_read : l.sizesByArea ≠ [] ∧ ∀ s ∈ l.sizesByArea, s.Sound := by
  obtain ⟨hne, hsound, -⟩ := (Layout.checked_of_read hread).2.1
  obtain ⟨s, hs⟩ := exists_mem_of_ne_nil _ hne
  exact ⟨ne_nil_of_mem (mem_sizesByArea.mpr hs), fun t ht => hsound t (mem_sizesByArea.mp ht)⟩

theorem reads_directives (h : directives style l target = .ok ds) :
    Reads target l.sizesByArea ds := by
  obtain ⟨hne, hsound⟩ := sorted_of_read hread
  cases target with
  | glance =>
    obtain ⟨⟨ds', helpers⟩, hobject, rfl⟩ := exists_of_map_eq_ok h
    exact Kotlin.reads_object hsound hobject
  | swiftUI => exact Swift.reads_view hne hsound h

theorem nodup_sizeNames (target : SourceTarget) :
    (l.sizesByArea.map (sizeName target)).Nodup := by
  have hdiffer : l.sizesByArea.Pairwise SizeClass.Differs :=
    ((mergeSort_perm _ _).pairwise_iff (Std.Symm.symm _ _)).mpr
      (Layout.checked_of_read hread).2.1.2.2
  refine pairwise_map.mpr (hdiffer.imp fun hab heq => hab ?_)
  cases target <;> simpa [sizeName, Kotlin.sizeName, Swift.sizeName, ← String.toList_inj] using heq

end

/-- At every width and height there is a declared size that files for all targets pick: it has the
greatest area of those that fit, or the least of all if none fits. Each branch of a file names what the
file defines once. -/
theorem dispatch_selects (hread : Layout.read document = .ok l) (width height : Float) :
    ∃ s ∈ l.sizes, s.Suits l.sizes width height ∧
      ∀ style package target file, generate style package target l = .ok file →
        ∃ preamble ds branches, directives style l target = .ok ds ∧
          file.contents = preamble ++ render ds ∧ dispatch? target ds = some branches ∧
          Selects width height branches (sizeName target s) ∧
          ∀ b ∈ branches, ds.count (definition target b.name) = 1 := by
  obtain ⟨hne, hsound⟩ := sorted_of_read hread
  have hsorted : l.sizesByArea.Pairwise fun s t => t.areaKey ≤ s.areaKey := by
    refine (Layout.pairwise_sizesByArea l).imp fun hab => ?_
    rcases Layout.sizeBefore_iff.mp hab with hlt | ⟨heq, -⟩
    · exact hlt.le
    · exact heq.ge
  obtain ⟨s, hs, hsuits, hselects⟩ := exists_selects hne hsound hsorted width height
  refine ⟨s, mem_sizesByArea.mp hs, ⟨by simpa only [mem_sizesByArea] using hsuits.largest,
    by simpa only [mem_sizesByArea] using hsuits.least⟩, fun style package target file hfile => ?_⟩
  obtain ⟨preamble, ds, hds, htext⟩ := directives_of_generate hfile
  have hreads := reads_directives hread hds
  refine ⟨preamble, ds, _, hds, htext, hreads.branches, hselects _, fun b hb => ?_⟩
  have hname := mem_map_of_mem (f := Branch.name) hb
  rw [map_name_branches] at hname
  rw [hreads.definitions]
  exact count_eq_one_of_mem (nodup_sizeNames hread target) hname

/-- A layout of two sizes where only the smaller one fits. -/
theorem dispatch_selects_pair :
    let document : Json := .object
      [("layout", .object [("text", .string "x"), ("type", .string "label")]),
       ("name", .string "Note"),
       ("supportedSizes", .array
         [.object [("height", .number (.integer 40)), ("id", .string "small"),
            ("width", .number (.integer 80))],
          .object [("height", .number (.float 90.5)), ("id", .string "large"),
            ("width", .number (.integer 160))]])]
    ∃ l, Layout.read document = .ok l ∧ ∃ s ∈ l.sizes, s.Suits l.sizes 100.0 60.0 ∧
      ∀ target, ∃ file, generate .builtin defaultPackage target l = .ok file ∧
        ∃ preamble ds branches, directives .builtin l target = .ok ds ∧
          file.contents = preamble ++ render ds ∧ dispatch? target ds = some branches ∧
          Selects 100.0 60.0 branches (sizeName target s) ∧
          ∀ b ∈ branches, ds.count (definition target b.name) = 1 := by
  intro document
  obtain ⟨l, hread, hfiles⟩ : ∃ l, Layout.read document = .ok l ∧
      ∀ target, ∃ file, generate .builtin defaultPackage target l = .ok file :=
    exists_files_of_singles (by decide +kernel)
  obtain ⟨s, hs, hsuits, hselects⟩ := dispatch_selects hread 100.0 60.0
  refine ⟨l, hread, s, hs, hsuits, fun target => ?_⟩
  obtain ⟨file, hfile⟩ := hfiles target
  exact ⟨file, hfile, hselects _ _ _ _ hfile⟩

end File

end Source

end Widgetry
