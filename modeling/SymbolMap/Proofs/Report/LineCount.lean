import SymbolMap.Proofs.Plan.Budgets
import SymbolMap.Report

/-! The lines of a written map. A plan charges each file for lines that are
counted without writing them; here the same number comes out as the line
breaks of the text. -/
namespace SymbolMap.Report

open SymbolMap.Plan SymbolMap.Path SymbolMap.Text

/-- The number of line breaks in a text. -/
def lineBreaks (text : String) : Nat := text.toList.count '\n'

section LineBreaks

@[simp] theorem lineBreaks_append (a b : String) :
    lineBreaks (a ++ b) = lineBreaks a + lineBreaks b := by
  simp [lineBreaks]

theorem lineBreaks_eq_zero {text : String} (h : '\n' ∉ text.toList) : lineBreaks text = 0 :=
  List.count_eq_zero_of_not_mem h

theorem lineBreaks_join (texts : List String) :
    lineBreaks (String.join texts) = (texts.map lineBreaks).sum := by
  induction texts with
  | nil => simp [lineBreaks]
  | cons text texts ih => rw [String.join_cons, lineBreaks_append, ih, List.map_cons, List.sum_cons]

theorem lineBreaks_intercalate {sep : String} (hSep : '\n' ∉ sep.toList) {texts : List String}
    (hTexts : ∀ text ∈ texts, '\n' ∉ text.toList) :
    lineBreaks (sep.intercalate texts) = 0 := by
  induction texts with
  | nil => simp [lineBreaks]
  | cons text texts ih =>
      have hText := lineBreaks_eq_zero (hTexts text List.mem_cons_self)
      have hRest := ih fun other hOther => hTexts other (List.mem_cons_of_mem _ hOther)
      cases texts with
      | nil => simp [hText]
      | cons next texts =>
          rw [String.intercalate_cons_cons, lineBreaks_append, lineBreaks_append, hText, hRest,
            lineBreaks_eq_zero hSep]

theorem lineBreaks_toString (n : Nat) : lineBreaks (toString n) = 0 := by
  apply lineBreaks_eq_zero
  intro hMem
  have hDigits : '\n' ∈ Nat.toDigits 10 n := by simpa using hMem
  exact absurd (Nat.isDigit_of_mem_toDigits (by decide) (by decide) hDigits) (by decide)

end LineBreaks

section Entries

variable {files : List FileOutline} {options : Options}

/-- The line breaks of an entry: one for its header, one behind it, and those
of its body. -/
theorem lineBreaks_entryText {entry : Entry} (hPath : '\n' ∉ entry.path.toList) :
    lineBreaks (entryText files entry) = lineBreaks (entryBody files entry) + 2 := by
  have hHeader : lineBreaks "## " = 0 := by decide
  have hBreak : lineBreaks "\n" = 1 := by decide
  simp only [entryText, lineBreaks_append, hHeader, hBreak, lineBreaks_eq_zero hPath]
  omega

/-- An entry without declarations takes the lines of a placeholder. -/
theorem lineBreaks_of_status_ne_full {entry : Entry} (hPath : '\n' ∉ entry.path.toList)
    (hStatus : entry.status ≠ .full) :
    lineBreaks (entryText files entry) = placeholderLines := by
  rw [lineBreaks_entryText hPath, entryBody]
  split
  · exact absurd ‹_› hStatus
  · have hNotice : lineBreaks truncatedNotice = 1 := by decide
    rw [hNotice]
    rfl
  · have hNotice : lineBreaks skippedNotice = 1 := by decide
    rw [hNotice]
    rfl

/-- A file that is shown in full takes the lines that it costs. -/
theorem lineBreaks_of_full {file : FileOutline} {entry : Entry}
    (hPath : '\n' ∉ entry.path.toList) (hStatus : entry.status = .full)
    (hFile : files[entry.index]? = some file) (hCost : 0 < file.cost)
    (hSymbols : ∀ symbol ∈ file.outline.symbols, '\n' ∉ symbol.render.toList) :
    lineBreaks (entryText files entry) = file.cost := by
  have hShown : ¬file.outline.symbols.isEmpty = true := by
    intro hNone
    simp [FileOutline.cost, hNone] at hCost
  have hLine : ∀ symbol ∈ file.outline.symbols, lineBreaks (symbol.render ++ "\n") = 1 := by
    intro symbol hSymbol
    rw [lineBreaks_append, lineBreaks_eq_zero (hSymbols symbol hSymbol)]
    decide
  have hLines : (file.outline.symbols.map fun symbol => lineBreaks (symbol.render ++ "\n")).sum =
      file.outline.symbols.length := by
    rw [List.map_congr_left hLine]
    simp
  rw [lineBreaks_entryText hPath, entryBody, hStatus]
  simp only [entrySymbols, hStatus, hFile]
  rw [lineBreaks_join, List.map_map, FileOutline.cost, if_neg hShown, FileOutline.overheadLines]
  exact congrArg (· + 2) hLines

/-- A planned file is one of the files, at its position. -/
theorem exists_of_mem_plannedRecords {file : Record × Nat}
    (hFile : file ∈ plannedRecords options (files.map (·.record)).zipIdx) :
    ∃ outline, files[file.2]? = some outline ∧ outline.record = file.1 ∧ 0 < outline.cost := by
  obtain ⟨hMem, hChosen⟩ := List.mem_filter.mp hFile
  rw [List.mk_mem_zipIdx_iff_getElem?, List.getElem?_map] at hMem
  obtain ⟨outline, hOutline, hRecord⟩ := Option.map_eq_some_iff.mp hMem
  refine ⟨outline, hOutline, hRecord, ?_⟩
  simp only [Bool.and_eq_true, decide_eq_true_eq, ← hRecord] at hChosen
  exact hChosen.2

end Entries

section Text

variable {files : List FileOutline} {options : Options}

/-- The lines of the notice that something was cut. -/
def noticeLines (plan : MapPlan) : Nat :=
  if plan.pruned then
    2 + (if plan.truncatedDirs.isEmpty then 0 else 1) + (if plan.dropped.isEmpty then 0 else 1)
  else 0

theorem noticeLines_le (plan : MapPlan) : noticeLines plan ≤ 4 := by
  rw [noticeLines]
  split
  · split <;> split <;> omega
  · exact Nat.zero_le 4

/-- The number of entries for files that a skip pattern covers. -/
def skippedCount (plan : MapPlan) : Nat := plan.entries.countP (·.status = .skipped)

theorem lineBreaks_notice {plan : MapPlan}
    (hDirs : ∀ dir ∈ plan.truncatedDirs, '\n' ∉ dir.toList) :
    lineBreaks (notice plan) = noticeLines plan := by
  have hNote : lineBreaks "# Note: Output pruned to fit line limit\n" = 1 := by decide
  have hDirsLine : lineBreaks "# Pruned directories: " = 0 := by decide
  have hFilesLine : lineBreaks "# Omitted files: " = 0 := by decide
  have hBreak : lineBreaks "\n" = 1 := by decide
  have hEmpty : lineBreaks "" = 0 := by decide
  have hList := lineBreaks_intercalate (by decide : '\n' ∉ ", ".toList) hDirs
  rw [notice, noticeLines]
  split
  · simp only [lineBreaks_append, apply_ite lineBreaks, hNote, hDirsLine, hFilesLine, hBreak,
      hEmpty, hList, lineBreaks_toString, Nat.zero_add]
    omega
  · exact hEmpty

/-- No path of a plan's directories has a line break if no file's path has
one. -/
theorem newline_not_mem_truncatedDirs (hPaths : ∀ file ∈ files, '\n' ∉ file.path.toList) :
    ∀ dir ∈ (planMap files options).truncatedDirs, '\n' ∉ dir.toList := by
  intro dir hDir hBreak
  rw [planMap, plan_eq _ _ rfl] at hDir
  obtain ⟨names, hNames, rfl⟩ := List.mem_map.mp ((sorted_perm _).mem_iff.mp hDir)
  obtain ⟨_, ⟨file, hFile, hFolder⟩, _⟩ := isLeaf_of_mem_cutFor _ _ names hNames
  obtain ⟨outline, hOutline, hRecord, _⟩ := exists_of_mem_plannedRecords hFile
  rw [ofNames, String.toList_ofList] at hBreak
  rcases mem_joinWith hBreak with hSlash | ⟨piece, hPiece, hChar⟩
  · exact absurd hSlash (by decide)
  · obtain ⟨name, hName, rfl⟩ := List.mem_map.mp hPiece
    rw [← hFolder] at hName
    have hInPath := (isStep_of_mem_directory hName).2 _ hChar
    rw [← hRecord] at hInPath
    exact hPaths outline (List.mem_of_getElem? hOutline) hInPath

/-- A shown file takes the lines that it is charged. -/
theorem lineBreaks_entryOf (hPaths : ∀ file ∈ files, '\n' ∉ file.path.toList)
    (hSymbols : ∀ file ∈ files, ∀ symbol ∈ file.outline.symbols, '\n' ∉ symbol.render.toList)
    {file : Record × Nat} (hFile : file ∈ plannedRecords options (files.map (·.record)).zipIdx)
    (cut : List (List String)) :
    lineBreaks (entryText files (entryOf cut file)) =
      if folder file ∈ cut then placeholderLines else file.1.cost := by
  obtain ⟨outline, hOutline, hRecord, hCost⟩ := exists_of_mem_plannedRecords hFile
  have hMem := List.mem_of_getElem? hOutline
  have hPath : '\n' ∉ (entryOf cut file).path.toList := by
    rw [entryOf, ← hRecord]
    exact hPaths outline hMem
  split
  · rename_i hCut
    exact lineBreaks_of_status_ne_full hPath (by simp [entryOf, hCut])
  · rename_i hCut
    rw [lineBreaks_of_full hPath (by simp [entryOf, hCut]) hOutline hCost (hSymbols outline hMem),
      ← hRecord]
    rfl

/-- A skipped file takes the lines of a placeholder. -/
theorem lineBreaks_of_mem_skippedEntries (hPaths : ∀ file ∈ files, '\n' ∉ file.path.toList)
    {entry : Entry} (hEntry : entry ∈ skippedEntries options (files.map (·.record)).zipIdx) :
    lineBreaks (entryText files entry) = placeholderLines := by
  refine lineBreaks_of_status_ne_full ?_ (by simp [status_of_mem_skippedEntries hEntry])
  obtain ⟨⟨record, index⟩, hRecord, rfl⟩ := List.mem_map.mp hEntry
  have hAt := List.mk_mem_zipIdx_iff_getElem?.mp (List.mem_filter.mp hRecord).1
  obtain ⟨file, hFile, rfl⟩ := List.mem_map.mp (List.mem_of_getElem? hAt)
  exact hPaths file hFile

/-- Counting the skipped entries of a plan counts the files that were
skipped. -/
theorem skippedCount_planMap (files : List FileOutline) (options : Options) :
    skippedCount (planMap files options) =
      (skippedEntries options (files.map (·.record)).zipIdx).length := by
  rw [skippedCount, planMap, plan_eq _ _ rfl, (List.mergeSort_perm _ _).countP_eq,
    List.countP_append, List.countP_eq_length.mpr, List.countP_eq_zero.mpr, Nat.add_zero]
  · intro entry hEntry
    obtain ⟨file, _, rfl⟩ := List.mem_map.mp hEntry
    simpa using status_entryOf_ne _ file
  · intro entry hEntry
    simpa using status_of_mem_skippedEntries hEntry

/-- The entries of a map take the lines of what is shown, and those of the
skipped files. -/
theorem sum_lineBreaks_entries (hPaths : ∀ file ∈ files, '\n' ∉ file.path.toList)
    (hSymbols : ∀ file ∈ files, ∀ symbol ∈ file.outline.symbols, '\n' ∉ symbol.render.toList)
    {planned : List (Record × Nat)}
    (hPlanned : plannedRecords options (files.map (·.record)).zipIdx = planned) :
    ((planMap files options).entries.map fun entry => lineBreaks (entryText files entry)).sum =
      chargeAll planned (cutFor options.budget planned) (leftFor options.budget planned) +
        3 * skippedCount (planMap files options) := by
  have hSkipped : ((skippedEntries options (files.map (·.record)).zipIdx).map fun entry =>
      lineBreaks (entryText files entry)).sum =
        3 * (skippedEntries options (files.map (·.record)).zipIdx).length := by
    rw [List.map_congr_left fun entry hEntry => lineBreaks_of_mem_skippedEntries hPaths hEntry,
      List.map_const', List.sum_replicate_nat, Nat.mul_comm]
    rfl
  have hShown : ((planned.filter (· ∉ leftFor options.budget planned)).map fun file =>
      lineBreaks (entryText files (entryOf (cutFor options.budget planned) file))).sum =
        chargeAll planned (cutFor options.budget planned) (leftFor options.budget planned) := by
    rw [chargeAll_eq_sum_shown _ fun file hFile => folder_not_mem_cutFor hFile]
    refine congrArg List.sum (List.map_congr_left fun file hFile => ?_)
    have hFile := (List.mem_filter.mp hFile).1
    rw [← hPlanned] at hFile
    exact lineBreaks_entryOf hPaths hSymbols hFile _
  rw [skippedCount_planMap, planMap, plan_eq _ _ hPlanned,
    ((List.mergeSort_perm _ _).map _).sum_nat, List.map_append, List.sum_append_nat, hSkipped,
    List.map_map, Nat.add_comm]
  exact congrArg (· + _) hShown

/-- The line breaks of a map that shows or cuts something. -/
theorem lineBreaks_text (hPaths : ∀ file ∈ files, '\n' ∉ file.path.toList)
    (hSymbols : ∀ file ∈ files, ∀ symbol ∈ file.outline.symbols, '\n' ∉ symbol.render.toList)
    {planned : List (Record × Nat)}
    (hPlanned : plannedRecords options (files.map (·.record)).zipIdx = planned)
    (hShown : (planMap files options).entries ≠ [] ∨ (planMap files options).pruned = true) :
    lineBreaks (text files (planMap files options)) =
      chargeAll planned (cutFor options.budget planned) (leftFor options.budget planned) +
        3 * skippedCount (planMap files options) + noticeLines (planMap files options) := by
  have hSomething :
      ¬((planMap files options).isEmpty && !(planMap files options).pruned) = true := by
    simpa [MapPlan.isEmpty, or_iff_not_imp_left] using hShown
  rw [text, if_neg hSomething, lineBreaks_append,
    lineBreaks_notice (newline_not_mem_truncatedDirs hPaths), lineBreaks_join, List.map_map,
    Nat.add_comm]
  exact congrArg (· + _) (sum_lineBreaks_entries hPaths hSymbols hPlanned)

/-- A map that shows and cuts nothing is one fixed text. -/
theorem text_eq_emptyText {plan : MapPlan} (hNothing : ¬(plan.entries ≠ [] ∨ plan.pruned = true)) :
    text files plan = emptyText := by
  have hEmpty : (plan.isEmpty && !plan.pruned) = true := by
    simpa [MapPlan.isEmpty, or_iff_not_imp_left] using hNothing
  rw [text, if_pos hEmpty]

/-- The line breaks of a written map are the lines that its plan charges in a
word, three for each skipped file, and those of the notice. A plan that shows
and cuts nothing is written as one fixed text. No text has more line breaks than
a word counts; so the charge is exact, and a plan within its budget exceeds the
limit by skipped files and the notice alone. -/
theorem lineBreaks_text_planMap (files : List FileOutline) (options : Options)
    (hPaths : ∀ file ∈ files, '\n' ∉ file.path.toList)
    (hSymbols : ∀ file ∈ files, ∀ symbol ∈ file.outline.symbols, '\n' ∉ symbol.render.toList) :
    let plan := planMap files options
    (if plan.entries ≠ [] ∨ plan.pruned = true then
      ∃ charged, plan.totalCost = wrap charged ∧
        lineBreaks (text files plan) = charged + 3 * skippedCount plan + noticeLines plan
    else text files plan = emptyText) ∧
    (lineBreaks (text files plan) < 2 ^ 64 →
      (if plan.entries ≠ [] ∨ plan.pruned = true then
        lineBreaks (text files plan) = plan.totalCost + 3 * skippedCount plan + noticeLines plan
      else text files plan = emptyText) ∧
      ∀ limit, options.budget = .lines limit → plan.withinBudget = true →
        lineBreaks (text files plan) ≤ limit + 3 * skippedCount plan + noticeLines plan) := by
  intro plan
  generalize hPlanned : plannedRecords options (files.map (·.record)).zipIdx = planned
  have hTotal : plan.totalCost = wrap
      (chargeAll planned (cutFor options.budget planned) (leftFor options.budget planned)) :=
    congrArg MapPlan.totalCost (plan_eq _ _ hPlanned)
  by_cases hShown : plan.entries ≠ [] ∨ plan.pruned = true
  · have hLines : lineBreaks (text files plan) =
        chargeAll planned (cutFor options.budget planned) (leftFor options.budget planned) +
          3 * skippedCount plan + noticeLines plan :=
      lineBreaks_text hPaths hSymbols hPlanned hShown
    simp only [if_pos hShown]
    refine ⟨⟨_, hTotal, hLines⟩, fun hWord => ?_⟩
    have hExact : lineBreaks (text files plan) =
        plan.totalCost + 3 * skippedCount plan + noticeLines plan := by
      rw [hTotal, wrap_of_lt (by omega)]
      exact hLines
    refine ⟨hExact, fun limit hBudget hWithin => ?_⟩
    have hSame : plan.budget = .lines limit := by
      rw [← hBudget]
      exact congrArg MapPlan.budget (plan_eq _ _ rfl)
    have hLimit : plan.totalCost ≤ limit := by
      simpa [MapPlan.withinBudget, hSame, Budget.allows] using hWithin
    omega
  · have hText : text files plan = emptyText := text_eq_emptyText hShown
    have hNone : lineBreaks emptyText = 0 := by decide
    simp only [if_neg hShown]
    refine ⟨hText, fun _ => ⟨hText, fun limit _ _ => ?_⟩⟩
    rw [hText, hNone]
    exact Nat.zero_le _

/-- Two files with two declarations each. -/
def twoOutlines : List FileOutline :=
  ["lib/a.rs", "src/b.rs"].map fun path =>
    { path
      language := .rust
      outline := { symbols := ["fn first()", "fn second()"].map fun signature =>
        { name := "", kind := .function, range := Range.ofLines 0 0, signature, doc := none } } }

theorem lineBreaks_text_twoOutlines :
    (∀ file ∈ twoOutlines, '\n' ∉ file.path.toList) ∧
      (∀ file ∈ twoOutlines, ∀ symbol ∈ file.outline.symbols, '\n' ∉ symbol.render.toList) ∧
      ∃ plan, plan = planMap twoOutlines { skipPatterns := ["lib"], budget := .lines 3 } ∧
        lineBreaks (text twoOutlines plan) < 2 ^ 64 ∧
        lineBreaks (text twoOutlines plan) = plan.totalCost + 3 + noticeLines plan := by
  have hPaths : ∀ file ∈ twoOutlines, '\n' ∉ file.path.toList := by decide
  have hSymbols : ∀ file ∈ twoOutlines, ∀ symbol ∈ file.outline.symbols,
      '\n' ∉ symbol.render.toList := by decide
  generalize hOptions : ({ skipPatterns := ["lib"], budget := .lines 3 } : Options) = options
  have hCount : skippedCount (planMap twoOutlines options) = 1 := by
    rw [skippedCount_planMap, ← hOptions]
    decide
  have hShown : (planMap twoOutlines options).entries ≠ [] := by
    intro hNone
    simp [skippedCount, hNone] at hCount
  generalize hPlanned :
    plannedRecords options (twoOutlines.map (·.record)).zipIdx = planned
  have hCosts : ∀ file ∈ planned, placeholderLines ≤ file.1.cost := by
    rw [← hPlanned, ← hOptions]
    decide
  have hSum : (planned.map (·.1.cost)).sum ≤ 9 := by
    rw [← hPlanned, ← hOptions]
    decide
  have hCharged : chargeAll planned (cutFor options.budget planned)
      (leftFor options.budget planned) ≤ 9 := (chargeAll_le_sum hCosts).trans hSum
  have hNotice := noticeLines_le (planMap twoOutlines options)
  have hWord : lineBreaks (text twoOutlines (planMap twoOutlines options)) < 2 ^ 64 := by
    rw [lineBreaks_text hPaths hSymbols hPlanned (Or.inl hShown), hCount]
    omega
  have hText := ((lineBreaks_text_planMap twoOutlines options hPaths hSymbols).2 hWord).1
  rw [if_pos (Or.inl hShown), hCount] at hText
  exact ⟨hPaths, hSymbols, _, rfl, hWord, hText⟩

end Text

end SymbolMap.Report
