import SymbolMap.Proofs.Scan.Loading
import SymbolMap.Proofs.Scan.Selection

/-! What lies below a directory that a walk does not enter. Ignore files there
are still read, but their rules speak only of what lies below them. So no
verdict outside the directory depends on it, the verdict on the directory
itself among them, and neither do the files that are found. -/
namespace SymbolMap.Scan

open SymbolMap.Path SymbolMap.Text SymbolMap.Ignore

section Scope

variable {dir names : List String}

theorem properInits_subset {outer inner : List String} (hPrefix : outer <+: inner) :
    properInits outer ⊆ properInits inner := by
  intro init hInit
  obtain ⟨hNe, hOuter, hNot⟩ := (mem_properInits_iff _ _).mp hInit
  refine (mem_properInits_iff _ _).mpr ⟨hNe, hOuter.trans hPrefix, ?_⟩
  rintro rfl
  exact hNot (hOuter.eq_of_length_le hPrefix.length_le)

theorem not_mem_properInits_self (dir : List String) : dir ∉ properInits dir := by
  intro hDir
  exact ((mem_properInits_iff _ _).mp hDir).2.2 rfl

/-- A rule of an ignore file in a directory, or further below, matches only
what lies below the directory. -/
theorem matches_outside {rule : Rule} {base : List String} (hBase : rule.base = ofNames base)
    (hSteps : ∀ name ∈ base, IsStep name) (hDir : dir ≠ []) (hPrefix : dir <+: base)
    (hNames : ∀ name ∈ names, IsStep name) (hOutside : dir ∉ properInits names) (isDir : Bool) :
    rule.matches (ofNames names).toList isDir = false := by
  have hNe : base ≠ [] := by
    rintro rfl
    exact hDir (List.prefix_nil.mp hPrefix)
  have hFilled : rule.base ≠ "" := by
    intro hEmpty
    have hComponents := components_ofNames hSteps
    rw [← hBase, hEmpty] at hComponents
    exact hNe hComponents.symm
  refine Rule.matches_of_not_below hFilled fun rest hBelow => ?_
  rw [hBase, ← below?_eq_some_iff] at hBelow
  have hInit := mem_properInits_of_below? hNe hSteps hNames hBelow
  apply hOutside
  by_cases hSame : dir = base
  · exact hSame ▸ hInit
  · exact properInits_subset ((mem_properInits_iff _ _).mp hInit).2.1
      ((mem_properInits_iff _ _).mpr ⟨hDir, hPrefix, hSame⟩)

/-- Nothing that is read below a directory matches outside of it. -/
theorem filter_rulesAt_eq_nil {ignoreFile root : String} {place : List String × Document}
    (hPlace : ∀ name ∈ place.1, IsEntryName name) (hInside : dir ∈ properInits place.1)
    (hNames : ∀ name ∈ names, IsStep name) (hOutside : dir ∉ properInits names) (isDir : Bool) :
    (rulesAt ignoreFile root place).filter (·.matches (ofNames names).toList isDir) = [] := by
  rw [List.filter_eq_nil_iff]
  intro rule hRule
  obtain ⟨hDir, hPrefix, hNot⟩ := (mem_properInits_iff _ _).mp hInside
  have hNe : place.1 ≠ [] := by
    intro hNil
    rw [hNil] at hInside
    cases hInside
  obtain ⟨base, hFile, hBase⟩ := exists_dir_of_mem_rulesAt hNe hPlace hRule
  rw [hFile] at hPrefix hNot hPlace
  have hBelow : dir <+: base := (List.prefix_concat_iff.mp hPrefix).resolve_left hNot
  have hSteps : ∀ name ∈ base, IsStep name := by
    intro name hName
    exact (hPlace name (List.mem_append_left _ hName)).isStep
  rw [matches_outside hBase hSteps hDir hBelow hNames hOutside isDir]
  simp

end Scope

section Verdicts

/-- Two rule sets give the same verdict on every path that does not lie below
a directory. -/
def AgreeOutside (dir : List String) (rules rules' : RuleSet) : Prop :=
  ∀ names isDir, (∀ name ∈ names, IsStep name) → dir ∉ properInits names →
    rules.excludes (ofNames names).toList isDir = rules'.excludes (ofNames names).toList isDir

/-- Leaving out items that contribute nothing changes nothing. -/
theorem flatMap_filter_of_nil {α β : Type} {items : List α} {keep : α → Bool} {f : α → List β}
    (hNil : ∀ item ∈ items, keep item = false → f item = []) :
    (items.filter keep).flatMap f = items.flatMap f := by
  induction items with
  | nil => rfl
  | cons item items ih =>
      obtain ⟨hItem, hItems⟩ := List.forall_mem_cons.mp hNil
      cases hKeep : keep item with
      | true => simp [hKeep, ih hItems]
      | false => simp [hKeep, ih hItems, hItem hKeep]

variable {dir names : List String} {rules rules' : RuleSet}

/-- The rules that match outside a directory are those of the ignore files
outside it. -/
theorem matching_rulesIn_outside {listing : Listing} (hOrdered : listing.Ordered)
    (ignoreFile root : String) (hNames : ∀ name ∈ names, IsStep name)
    (hOutside : dir ∉ properInits names) (isDir : Bool) :
    RuleSet.matching { rules := rulesIn ignoreFile root "" listing } (ofNames names).toList isDir =
      (((listing.places []).filter fun place => dir ∉ properInits place.1).filter
        fun place => (properInits place.1).all (reaches root)).flatMap
        fun place => (rulesAt ignoreFile root place).filter
          (·.matches (ofNames names).toList isDir) := by
  rw [RuleSet.matching, rulesIn_eq_flatMap ignoreFile root hOrdered, List.filter_flatMap,
    List.filter_comm]
  apply (flatMap_filter_of_nil _).symm
  intro place hPlace hInside
  rw [decide_eq_false_iff_not, not_not] at hInside
  have hEntries := Listing.isEntryName_of_mem_places hOrdered (by simp)
    (List.mem_filter.mp hPlace).1
  exact filter_rulesAt_eq_nil hEntries hInside hNames hOutside isDir

theorem agreeOutside_rulesIn {listing listing' : Listing}
    (hSame : Listing.SameOutside dir listing listing') (hDir : dir ≠ [])
    (hOrdered : listing.Ordered) (hOrdered' : listing'.Ordered) (ignoreFile root : String) :
    AgreeOutside dir { rules := rulesIn ignoreFile root "" listing }
      { rules := rulesIn ignoreFile root "" listing' } := by
  intro names isDir hNames hOutside
  have hPlaces := hSame.filter_places [] (by simpa using hDir)
  rw [List.nil_append] at hPlaces
  apply RuleSet.excludes_congr
  rw [matching_rulesIn_outside hOrdered ignoreFile root hNames hOutside,
    matching_rulesIn_outside hOrdered' ignoreFile root hNames hOutside, hPlaces]

/-- The directories above a path outside lie outside as well. -/
theorem AgreeOutside.ignores_eq (hAgree : AgreeOutside dir rules rules')
    (hNames : ∀ name ∈ names, IsEntryName name) (hPlain : ∀ name ∈ names, '\\' ∉ name.toList)
    (hOutside : dir ∉ properInits names) (isDir : Bool) :
    rules.ignores (ofNames names).toList isDir = rules'.ignores (ofNames names).toList isDir := by
  have hSteps : ∀ name ∈ names, IsStep name := fun name hName => (hNames name hName).isStep
  have hNormal := normalize_ofNames hSteps hPlain
  apply RuleSet.ignores_congr
  · rw [hNormal, ancestors_ofNames hSteps, List.forall_mem_map]
    intro init hInit
    have hPrefix := ((mem_properInits_iff _ _).mp hInit).2.1
    apply hAgree
    · exact fun name hName => hSteps name (hPrefix.subset hName)
    · exact fun hInside => hOutside (properInits_subset hPrefix hInside)
  · rw [hNormal]
    exact hAgree names isDir hSteps hOutside

theorem AgreeOutside.enters_eq (hAgree : AgreeOutside dir rules rules')
    (hNames : ∀ name ∈ names, IsEntryName name) (hPlain : ∀ name ∈ names, '\\' ∉ name.toList)
    (hOutside : dir ∉ properInits names) (skipDirs : List String) (root : String) :
    enters rules skipDirs root names = enters rules' skipDirs root names := by
  rw [enters, enters, hAgree.ignores_eq hNames hPlain hOutside]

end Verdicts

section Found

/-- Whether a walk finds the file at a place. -/
def finds (rules : RuleSet) (skipDirs : List String) (root : String)
    (place : List String × Document) : Bool :=
  isWanted rules (ofNames place.1) && (properInits place.1).all (enters rules skipDirs root)

variable {dir skipDirs : List String} {root : String} {rules rules' : RuleSet}

/-- Below a directory that is not entered nothing is found. -/
theorem filter_finds_outside (hNot : enters rules skipDirs root dir = false)
    (places : List (List String × Document)) :
    places.filter (finds rules skipDirs root) =
      (places.filter fun place => dir ∉ properInits place.1).filter
        (finds rules skipDirs root) := by
  rw [List.filter_filter]
  apply List.filter_congr
  intro place _
  by_cases hInside : dir ∈ properInits place.1
  · have hNever : (properInits place.1).all (enters rules skipDirs root) = false := by
      rw [List.all_eq_false]
      exact ⟨dir, hInside, by simp [hNot]⟩
    rw [finds, hNever, Bool.and_false, Bool.false_and]
  · simp [hInside]

/-- A place outside is found under both rule sets or under neither. -/
theorem AgreeOutside.finds_eq (hAgree : AgreeOutside dir rules rules')
    {place : List String × Document} (hNames : ∀ name ∈ place.1, IsEntryName name)
    (hPlain : ∀ name ∈ place.1, '\\' ∉ name.toList) (hOutside : dir ∉ properInits place.1)
    (skipDirs : List String) (root : String) :
    finds rules skipDirs root place = finds rules' skipDirs root place := by
  have hEnters : ∀ init ∈ properInits place.1,
      enters rules skipDirs root init = enters rules' skipDirs root init := by
    intro init hInit
    have hPrefix := ((mem_properInits_iff _ _).mp hInit).2.1
    apply hAgree.enters_eq
    · exact fun name hName => hNames name (hPrefix.subset hName)
    · exact fun name hName => hPlain name (hPrefix.subset hName)
    · exact fun hInside => hOutside (properInits_subset hPrefix hInside)
  have hAll : (properInits place.1).all (enters rules skipDirs root) =
      (properInits place.1).all (enters rules' skipDirs root) := by
    rw [Bool.eq_iff_iff, List.all_eq_true, List.all_eq_true]
    exact forall₂_congr fun init hInit => by rw [hEnters init hInit]
  rw [finds, finds, hAll, isWanted, isWanted,
    hAgree.ignores_eq hNames hPlain hOutside]

theorem filesIn_same_outside {listing listing' : Listing}
    (hSame : Listing.SameOutside dir listing listing') (hDir : dir ≠ [])
    (hOrdered : listing.Ordered) (hOrdered' : listing'.Ordered)
    (hPlain : listing.EveryName fun name => '\\' ∉ name.toList)
    (hAgree : AgreeOutside dir rules rules') (hNot : enters rules skipDirs root dir = false) :
    filesIn rules skipDirs root "" listing = filesIn rules' skipDirs root "" listing' := by
  -- the directory does not lie below itself, so the other rules leave it out as well
  have hNot' : enters rules' skipDirs root dir = false := by
    rw [← hAgree.enters_eq (hSame.everyName hOrdered.everyName) (hSame.everyName hPlain)
      (not_mem_properInits_self dir), hNot]
  have hPlaces := hSame.filter_places [] (by simpa using hDir)
  rw [List.nil_append] at hPlaces
  have hFound : (listing.places []).filter (finds rules skipDirs root) =
      (listing'.places []).filter (finds rules' skipDirs root) := by
    rw [filter_finds_outside hNot, filter_finds_outside hNot', ← hPlaces]
    apply List.filter_congr
    intro place hPlace
    obtain ⟨hPlace, hOutside⟩ := List.mem_filter.mp hPlace
    exact hAgree.finds_eq (Listing.isEntryName_of_mem_places hOrdered (by simp) hPlace)
      (hPlain.of_mem_places (by simp) hPlace) (by simpa using hOutside) skipDirs root
  have hTop : ∀ {rules : RuleSet} (dir : List String), dir ≠ [] → dir <+: [] →
      enters rules skipDirs root dir = true :=
    fun dir hNe hPrefix => absurd (List.prefix_nil.mp hPrefix) hNe
  rw [← ofNames_nil, filesIn_eq_filter hOrdered (by simp) hTop,
    filesIn_eq_filter hOrdered' (by simp) hTop]
  exact congrArg (List.map (sourceAt root)) hFound

theorem files_eq {disk : Disk} {listing : Listing} (hRoot : disk.readDir root = .ok listing)
    (settings : ScanSettings) :
    files disk root settings =
      .ok (filesIn
        { rules := rulesIn settings.ignoreFile root "" (if isDash root then .nil else listing) }
        settings.skipDirs root "" (if isDash root then .nil else listing)) := by
  rw [files, loadRules_eq hRoot]
  change filesWith disk root _ settings.skipDirs = _
  rw [filesWith, openRoot, hRoot]
  rfl

/-- Trees that differ only below a directory have the same source files if the
walk of one does not get into the directory, whatever ignore files lie below
it. -/
theorem files_eq_of_sameOutside {disk disk' : Disk} {listing listing' : Listing}
    (hRoot : disk.readDir root = .ok listing) (hRoot' : disk'.readDir root = .ok listing')
    (hOrdered : listing.Ordered) (hOrdered' : listing'.Ordered)
    (hPlain : listing.EveryName fun name => '\\' ∉ name.toList)
    (hSame : Listing.SameOutside dir listing listing') {settings : ScanSettings}
    (hRules : loadRules disk root settings.ignoreFile = .ok rules)
    (hNot : ∃ above, above ≠ [] ∧ above <+: dir ∧
      enters rules settings.skipDirs root above = false) :
    ∃ found, files disk root settings = .ok found ∧ files disk' root settings = .ok found := by
  obtain ⟨above, hNe, ⟨more, rfl⟩, hNot⟩ := hNot
  refine ⟨_, files_eq hRoot settings, ?_⟩
  rw [files_eq hRoot' settings]
  rw [loadRules_eq hRoot] at hRules
  cases hRules
  by_cases hDash : isDash root = true
  · simp only [if_pos hDash]
  · simp only [if_neg hDash] at hNot ⊢
    exact congrArg Except.ok (filesIn_same_outside hSame.outward hNe hOrdered hOrdered' hPlain
      (agreeOutside_rulesIn hSame.outward hNe hOrdered hOrdered' settings.ignoreFile root)
      hNot).symm

/-- A tree with an ignored directory. -/
def ignoringTree (ignored : Listing) : Listing :=
  .file ".gitignore" (.ofText "gen/\n")
    (.dir "gen" ignored (.file "main.rs" { bytes := [] } .nil))

/-- An ignore file and a source file. -/
def ignoredFiles : Listing :=
  .file ".gitignore" (.ofText "!*\n") (.file "out.rs" { bytes := [] } .nil)

theorem files_eq_of_sameOutside_ignoringTree :
    (ignoringTree ignoredFiles).Ordered ∧ (ignoringTree .nil).Ordered ∧
      ∃ found, files { root := ignoringTree ignoredFiles } "." {} = .ok found ∧
        files { root := ignoringTree .nil } "." {} = .ok found := by
  have hOrdered : (ignoringTree ignoredFiles).Ordered := by decide
  have hOrdered' : (ignoringTree .nil).Ordered := by decide
  have hPlain : (ignoringTree ignoredFiles).EveryName fun name => '\\' ∉ name.toList := by
    simp [ignoringTree, ignoredFiles, Listing.EveryName]
  have hSame : Listing.SameOutside ["gen"] (ignoringTree ignoredFiles) (ignoringTree .nil) :=
    .file _ _ (.enter _ _ (.inside _ _))
  have hRules : loadRules { root := ignoringTree ignoredFiles } "." ".gitignore" =
      .ok { rules := [
        { pattern := "gen", negated := false, directoryOnly := true, anchored := false
          base := "" },
        { pattern := "*", negated := true, directoryOnly := false, anchored := false
          base := "gen" }] } := by
    rw [loadRules_eq (readDir_dot _)]
    rfl
  exact ⟨hOrdered, hOrdered', files_eq_of_sameOutside (readDir_dot _) (readDir_dot _) hOrdered
    hOrdered' hPlain hSame hRules ⟨["gen"], by simp, List.prefix_rfl, by cbv⟩⟩

end Found

end SymbolMap.Scan
