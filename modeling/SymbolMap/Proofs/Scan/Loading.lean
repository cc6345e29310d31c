import Mathlib
import SymbolMap.Proofs.Disk.Walks
import SymbolMap.Proofs.Ignore.Verdict
import SymbolMap.Proofs.Path.Names
import SymbolMap.Proofs.Text.OctetOrder
import SymbolMap.Scan

/-! The rules that a walk loads, and their order. An ignore file is read at
the place that its name has among its siblings. So it is read before a
directory beside it only if its name comes first, and then what is nested
deeper has the last word; else the outer file has it. -/
namespace SymbolMap.Scan

open SymbolMap.Path SymbolMap.Text SymbolMap.Ignore

section Reading

variable {listing : Listing}

/-- Whether the walk for ignore files enters the directory that some names
lead to, once it is in the one above. -/
def reaches (root : String) (dir : List String) : Bool :=
  !isHiddenName (dir.getLastD "") && isOpenable root (ofNames dir)

/-- The rules that are read at a place: those of an ignore file that can be
opened. -/
def rulesAt (ignoreFile root : String) (place : List String × Document) : List Rule :=
  if place.1.getLastD "" = ignoreFile && isOpenable root (ofNames place.1) then
    rulesOf place.2.text (ofNames place.1.dropLast).toList
  else []

theorem rulesIn_eq_collect (ignoreFile root : String) (hOrdered : listing.Ordered)
    {here : List String} (hHere : ∀ name ∈ here, IsEntryName name) :
    rulesIn ignoreFile root (ofNames here) listing =
      listing.collect (reaches root) (rulesAt ignoreFile root) here := by
  have hJoin : ∀ name, join (ofNames here) name = ofNames (here ++ [name]) :=
    join_ofNames fun step hStep => (hHere step hStep).isStep
  induction listing generalizing here with
  | nil => rfl
  | file name doc rest ih =>
      obtain ⟨_, _, hRest⟩ := hOrdered
      rw [rulesIn, Listing.collect, ih hRest hHere hJoin, rulesAt, List.getLastD_concat,
        List.dropLast_concat, hJoin]
  | dir name below rest ihBelow ihRest =>
      obtain ⟨hName, _, hBelow, hRest⟩ := hOrdered
      have hInner := Listing.isEntryName_concat hHere hName
      simp only [rulesIn, Listing.collect, ihRest hRest hHere hJoin, hJoin]
      rw [ihBelow hBelow hInner (join_ofNames fun step hStep => (hInner step hStep).isStep),
        reaches, List.getLastD_concat, ← ite_not]
      simp
  | link name target rest ih => exact ih hOrdered.2.2 hHere hJoin

theorem rulesIn_eq_flatMap (ignoreFile root : String) (hOrdered : listing.Ordered) :
    rulesIn ignoreFile root "" listing =
      ((listing.places []).filter fun place => (properInits place.1).all (reaches root)).flatMap
        (rulesAt ignoreFile root) := by
  rw [← ofNames_nil, rulesIn_eq_collect ignoreFile root hOrdered (by simp),
    Listing.collect_eq_flatMap]
  intro dir hNe hPrefix
  exact absurd (List.prefix_nil.mp hPrefix) hNe

theorem exists_dir_of_mem_rulesAt {ignoreFile root : String} {place : List String × Document}
    (hNe : place.1 ≠ []) (hNames : ∀ name ∈ place.1, IsEntryName name) {rule : Rule}
    (hRule : rule ∈ rulesAt ignoreFile root place) :
    ∃ dir, place.1 = dir ++ [ignoreFile] ∧ rule.base = ofNames dir := by
  rw [rulesAt] at hRule
  split at hRule
  · rename_i hRead
    rw [Bool.and_eq_true, decide_eq_true_eq] at hRead
    obtain ⟨dir, name, hPlace⟩ := (List.eq_nil_or_concat' place.1).resolve_left hNe
    rw [hPlace, List.getLastD_concat] at hRead
    rw [hPlace, List.dropLast_concat] at hRule
    have hSteps : ∀ name ∈ dir, IsStep name := by
      intro name hName
      exact (hNames name (by simp [hPlace, hName])).isStep
    refine ⟨dir, by rw [hPlace, hRead.1], ?_⟩
    rw [base_of_mem_rulesOf hRule, stripWhere_slash_ofNames hSteps, String.ofList_toList]
  · cases hRule

/-- The base of a rule is the directory of the ignore file that it is read
from. -/
theorem place_of_mem_rulesAt {ignoreFile root : String} (hOrdered : listing.Ordered)
    {place : List String × Document} (hPlace : place ∈ listing.places []) {rule : Rule}
    (hRule : rule ∈ rulesAt ignoreFile root place) :
    place.1 = components rule.base.toList ++ [ignoreFile] := by
  obtain ⟨name, _, rest, hPath⟩ := Listing.exists_head_of_mem_places hPlace
  have hNames := Listing.isEntryName_of_mem_places hOrdered (by simp) hPlace
  obtain ⟨dir, hDir, hBase⟩ := exists_dir_of_mem_rulesAt (by simp [hPath]) hNames hRule
  have hSteps : ∀ name ∈ dir, IsStep name := by
    intro name hName
    exact (hNames name (by simp [hDir, hName])).isStep
  rw [hBase, components_ofNames hSteps, hDir]

theorem exists_file_of_mem_rulesIn {ignoreFile root : String} (hOrdered : listing.Ordered)
    {rule : Rule} (hRule : rule ∈ rulesIn ignoreFile root "" listing) :
    ∃ doc, listing.at? (components rule.base.toList ++ [ignoreFile]) = some (.file doc) := by
  rw [rulesIn_eq_flatMap ignoreFile root hOrdered] at hRule
  obtain ⟨place, hPlace, hRule⟩ := List.mem_flatMap.mp hRule
  have hPlace := (List.mem_filter.mp hPlace).1
  obtain ⟨inner, hInner, hFile⟩ := (Listing.mem_places_iff hOrdered [] place.1 place.2).mp hPlace
  rw [← place_of_mem_rulesAt hOrdered hPlace hRule, hInner]
  exact ⟨place.2, hFile⟩

/-- The directory through which the way to a nested ignore file leads cannot
have the name of the ignore file beside it. -/
theorem ne_ignoreFile_of_nested {ignoreFile root : String} (hOrdered : listing.Ordered)
    {outer inner : Rule} (hOuter : outer ∈ rulesIn ignoreFile root "" listing)
    (hInner : inner ∈ rulesIn ignoreFile root "" listing) {next : String} {below : List String}
    (hNested : components inner.base.toList = components outer.base.toList ++ next :: below) :
    next ≠ ignoreFile := by
  rintro rfl
  obtain ⟨doc, hFile⟩ := exists_file_of_mem_rulesIn hOrdered hOuter
  obtain ⟨doc', hFile'⟩ := exists_file_of_mem_rulesIn hOrdered hInner
  rw [hNested, List.append_assoc, List.cons_append, List.append_cons] at hFile'
  obtain ⟨entries, hDir⟩ := Listing.exists_dir_of_at? (by simp) hFile'
  rw [hDir] at hFile
  cases hFile

end Reading

section Order

/-- Of two rules the first comes from the same ignore file as the second or
from one that is met earlier. -/
def MetBefore (ignoreFile : String) (a b : Rule) : Prop :=
  components a.base.toList = components b.base.toList ∨
    components a.base.toList ++ [ignoreFile] < components b.base.toList ++ [ignoreFile]

variable {ignoreFile root : String} {early late : Rule}

theorem pairwise_rulesIn {listing : Listing} (hOrdered : listing.Ordered) :
    (rulesIn ignoreFile root "" listing).Pairwise (MetBefore ignoreFile) := by
  rw [rulesIn_eq_flatMap ignoreFile root hOrdered, List.pairwise_flatMap]
  constructor
  · intro place hPlace
    have hPlace := (List.mem_filter.mp hPlace).1
    apply List.pairwise_of_forall_mem_list
    intro a hA b hB
    have hSame := place_of_mem_rulesAt hOrdered hPlace hB
    rw [place_of_mem_rulesAt hOrdered hPlace hA] at hSame
    exact Or.inl (List.append_cancel_right hSame)
  · apply List.Pairwise.imp_of_mem _ ((Listing.pairwise_places hOrdered []).filter _)
    intro first second hFirst hSecond hLess a hA b hB
    rw [place_of_mem_rulesAt hOrdered (List.mem_filter.mp hFirst).1 hA,
      place_of_mem_rulesAt hOrdered (List.mem_filter.mp hSecond).1 hB] at hLess
    exact Or.inr hLess

theorem metBefore_of_lt {rules : List Rule} (hOrder : rules.Pairwise (MetBefore ignoreFile))
    {i j : Nat} (hEarly : rules[i]? = some early) (hLate : rules[j]? = some late) (hLess : i < j) :
    MetBefore ignoreFile early late := by
  obtain ⟨hI, rfl⟩ := List.getElem?_eq_some_iff.mp hEarly
  obtain ⟨hJ, rfl⟩ := List.getElem?_eq_some_iff.mp hLate
  exact List.pairwise_iff_getElem.mp hOrder i j hI hJ hLess

theorem MetBefore.components_eq (hFirst : MetBefore ignoreFile early late)
    (hBack : MetBefore ignoreFile late early) :
    components early.base.toList = components late.base.toList := by
  rcases hFirst with hSame | hLess
  · exact hSame
  · rcases hBack with hSame | hGreater
    · exact hSame.symm
    · exact absurd hGreater (lt_asymm hLess)

/-- Between an ignore file and one below it, the names of the ignore file and
of the directory beside it decide. -/
theorem concat_lt_nested_iff {name next : String} (hNe : next ≠ name) (dir below : List String) :
    (dir ++ [name] < (dir ++ next :: below) ++ [name] ↔ name < next) ∧
      ((dir ++ next :: below) ++ [name] < dir ++ [name] ↔ next < name) := by
  induction dir with
  | nil => simp [List.cons_lt_cons_iff, hNe, hNe.symm]
  | cons first dir ih => simpa [List.cons_lt_cons_iff] using ih

/-- The rules but those of the ignore file in one directory. -/
def withoutFile (set : RuleSet) (base : String) : RuleSet :=
  { rules := set.rules.filter (·.base ≠ base) }

/-- A rule that is met later and matches silences the ignore file of the
earlier one. -/
theorem excludes_without_earlier {set : RuleSet} (hOrder : set.rules.Pairwise (MetBefore ignoreFile))
    (hBefore : MetBefore ignoreFile early late)
    (hOther : components early.base.toList ≠ components late.base.toList)
    (hLate : late ∈ set.rules) {path : List Char} {isDir : Bool}
    (hMatch : late.matches path isDir = true) :
    set.excludes path isDir = (withoutFile set early.base).excludes path isDir := by
  apply (RuleSet.excludes_filter _).symm
  intro last hLast
  rw [decide_eq_true_eq]
  intro hBase
  rcases RuleSet.before_last hOrder hLate hMatch hLast with rfl | hAfter
  · exact hOther (by rw [hBase])
  · rw [MetBefore, hBase] at hAfter
    exact hOther (hBefore.components_eq hAfter)

end Order

section Precedence

variable {disk : Disk} {root : String} {listing : Listing}

theorem loadRules_eq (hRoot : disk.readDir root = .ok listing) (ignoreFile : String) :
    loadRules disk root ignoreFile =
      .ok { rules := rulesIn ignoreFile root "" (if isDash root then .nil else listing) } := by
  rw [loadRules, openRoot, hRoot]
  rfl

/-- Of an ignore file and one nested below it the names decide which is read
first, and the one that is read later is the only one of the two that counts
for a path which both have rules for. -/
theorem nested_order {ignoreFile : String} (hOrdered : listing.Ordered) {i j : Nat}
    {outer inner : Rule} {next : String} {below : List String}
    (hOuter : (rulesIn ignoreFile root "" listing)[i]? = some outer)
    (hInner : (rulesIn ignoreFile root "" listing)[j]? = some inner)
    (hNested : components inner.base.toList = components outer.base.toList ++ next :: below) :
    (i < j ↔ encode ignoreFile.toList < encode next.toList) ∧
      ∀ path isDir, outer.matches path isDir = true → inner.matches path isDir = true →
        RuleSet.excludes { rules := rulesIn ignoreFile root "" listing } path isDir =
          (withoutFile { rules := rulesIn ignoreFile root "" listing }
            (if i < j then outer.base else inner.base)).excludes path isDir := by
  have hOrder : (rulesIn ignoreFile root "" listing).Pairwise (MetBefore ignoreFile) :=
    pairwise_rulesIn hOrdered
  have hOuterMem := List.mem_of_getElem? hOuter
  have hInnerMem := List.mem_of_getElem? hInner
  have hOther : components outer.base.toList ≠ components inner.base.toList := by
    simp [hNested]
  obtain ⟨hOuterLess, hInnerLess⟩ :=
    concat_lt_nested_iff (ne_ignoreFile_of_nested hOrdered hOuterMem hInnerMem hNested)
      (components outer.base.toList) below
  rw [← hNested] at hOuterLess hInnerLess
  rw [← lt_iff_encode_lt]
  rcases lt_trichotomy i j with hLess | rfl | hLess
  · have hBefore := metBefore_of_lt hOrder hOuter hInner hLess
    refine ⟨iff_of_true hLess (hOuterLess.mp (hBefore.resolve_left hOther)), ?_⟩
    intro path isDir _ hMatch
    rw [if_pos hLess]
    exact excludes_without_earlier hOrder hBefore hOther hInnerMem hMatch
  · rw [hOuter] at hInner
    cases hInner
    exact absurd rfl hOther
  · have hBefore := metBefore_of_lt hOrder hInner hOuter hLess
    have hGreater := hInnerLess.mp (hBefore.resolve_left hOther.symm)
    refine ⟨iff_of_false (lt_asymm hLess) (lt_asymm hGreater), ?_⟩
    intro path isDir hMatch _
    rw [if_neg (lt_asymm hLess)]
    exact excludes_without_earlier hOrder hBefore hOther.symm hOuterMem hMatch

/-- Of an ignore file and one nested below it, the outer one is read first
exactly if its name comes, octet by octet, before the name of the directory
beside it through which the way leads. On a path that both have rules for, the
one that is read later overrules the other. The path is then ignored if the
remaining rules exclude it, or if a directory above it is excluded, where the
other may still have its say. -/
theorem loadRules_outer_first_iff (hRoot : disk.readDir root = .ok listing)
    (hOrdered : listing.Ordered) (ignoreFile : String) :
    ∃ set, loadRules disk root ignoreFile = .ok set ∧
      ∀ (i j : Nat) (outer inner : Rule) (next : String) (below : List String),
        set.rules[i]? = some outer → set.rules[j]? = some inner →
        components inner.base.toList = components outer.base.toList ++ next :: below →
        (i < j ↔ encode ignoreFile.toList < encode next.toList) ∧
        (∀ path isDir, outer.matches path isDir = true → inner.matches path isDir = true →
          set.excludes path isDir =
            (withoutFile set (if i < j then outer.base else inner.base)).excludes path isDir) ∧
        ∀ path isDir, outer.matches (normalize path) isDir = true →
          inner.matches (normalize path) isDir = true → normalize path ≠ [] →
          set.ignores path isDir = ((ancestors (normalize path)).any (set.excludes · true) ||
            (withoutFile set (if i < j then outer.base else inner.base)).excludes
              (normalize path) isDir) := by
  refine ⟨_, loadRules_eq hRoot ignoreFile, ?_⟩
  have hListed : (if isDash root then Listing.nil else listing).Ordered := by
    split
    · trivial
    · exact hOrdered
  intro i j outer inner next below hOuter hInner hNested
  obtain ⟨hFirst, hOverrules⟩ := nested_order hListed hOuter hInner hNested
  refine ⟨hFirst, hOverrules, fun path isDir hOuterMatch hInnerMatch hNe => ?_⟩
  rw [RuleSet.ignores_of_normalize_ne hNe, hOverrules _ _ hOuterMatch hInnerMatch]

/-- A directory with an ignore file, between two directories with one each. -/
def threeIgnoreFiles : Listing :=
  .dir "-a" (.file ".gitignore" (.ofText "!keep.gen\n") .nil)
    (.file ".gitignore" (.ofText "*.gen\n")
      (.dir "b" (.file ".gitignore" (.ofText "!keep.gen\n") .nil) .nil))

theorem readDir_dot (listing : Listing) :
    ({ root := listing } : Disk).readDir "." = .ok listing := by
  have hRoute : Disk.route? "." = some ["."] := by decide
  have hFault : Disk.pathFault? ".".toList = none := by decide
  have hStart : Disk.startOf [] "." = [] := by decide
  simp only [Disk.readDir, Disk.lookup, Disk.locate, hRoute, hFault, hStart]
  simp [Disk.resolve, Listing.at?]

theorem loadRules_threeIgnoreFiles :
    loadRules { root := threeIgnoreFiles } "." ".gitignore" = .ok { rules := [
      { pattern := "keep.gen", negated := true, directoryOnly := false, anchored := false
        base := "-a" },
      { pattern := "*.gen", negated := false, directoryOnly := false, anchored := false
        base := "" },
      { pattern := "keep.gen", negated := true, directoryOnly := false, anchored := false
        base := "b" }] } := by
  rw [loadRules_eq (readDir_dot _)]
  rfl

theorem loadRules_outer_first_iff_threeIgnoreFiles :
    ({ root := threeIgnoreFiles } : Disk).readDir "." = .ok threeIgnoreFiles ∧
      threeIgnoreFiles.Ordered ∧
      ∃ set, loadRules { root := threeIgnoreFiles } "." ".gitignore" = .ok set ∧
        ¬encode ".gitignore".toList < encode "-a".toList ∧
        encode ".gitignore".toList < encode "b".toList ∧
        set.excludes "-a/keep.gen".toList false =
          (withoutFile set "-a").excludes "-a/keep.gen".toList false ∧
        set.ignores "b/keep.gen".toList false =
          (set.excludes "b".toList true ||
            (withoutFile set "").excludes "b/keep.gen".toList false) := by
  have hOrdered : threeIgnoreFiles.Ordered := by decide
  refine ⟨readDir_dot _, hOrdered, ?_⟩
  obtain ⟨set, hSet, hFirst⟩ :=
    loadRules_outer_first_iff (readDir_dot threeIgnoreFiles) hOrdered ".gitignore"
  cases loadRules_threeIgnoreFiles.symm.trans hSet
  obtain ⟨hDash, hDashed, _⟩ := hFirst 1 0 _ _ "-a" [] rfl rfl (by decide)
  obtain ⟨hB, _, hBeside⟩ := hFirst 1 2 _ _ "b" [] rfl rfl (by decide)
  have hNormal : normalize "b/keep.gen".toList = "b/keep.gen".toList := by decide
  have hAbove : ancestors "b/keep.gen".toList = ["b".toList] := by decide
  have hIgnores := hBeside "b/keep.gen".toList false
  rw [hNormal, hAbove] at hIgnores
  exact ⟨_, hSet, fun h => absurd (hDash.mpr h) (by decide), hB.mp (by decide),
    hDashed _ _ (by cbv) (by cbv),
    by simpa using hIgnores (by cbv) (by cbv) (by simp)⟩

/-- A nested ignore file does not always come later: one in a directory whose
name comes first is overruled by the file above it. -/
theorem outer_overrules_nested :
    threeIgnoreFiles.Ordered ∧ ({} : ScanSettings).fault? = none ∧
      ∃ set, loadRules { root := threeIgnoreFiles } "." ({} : ScanSettings).ignoreFile = .ok set ∧
        ∃ outer inner, set.rules[0]? = some inner ∧ set.rules[1]? = some outer ∧
          components inner.base.toList = components outer.base.toList ++ ["-a"] ∧
          outer.matches "-a/keep.gen".toList false = true ∧
          inner.matches "-a/keep.gen".toList false = true ∧ inner.negated = true ∧
          set.excludes "-a/keep.gen".toList false = true :=
  ⟨by decide, by decide, _, loadRules_threeIgnoreFiles, _, _, rfl, rfl, by decide, by cbv, by cbv,
    rfl, by cbv⟩

end Precedence

end SymbolMap.Scan
