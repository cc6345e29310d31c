import Mathlib
import SymbolMap.Proofs.Settings.Keys

/-! Which layer decides a setting. Sections are merged key by key, so each
setting by itself has the value of the last layer that sets it, whatever other
settings the layers hold, and its default when none does. -/
namespace SymbolMap.Settings

section Ways

/-- The value to which keys lead through tables. -/
def valueAt? : List String → Fields → Option Value
  | [], _ => none
  | [key], fields => field? key fields
  | key :: next :: keys, fields =>
    match field? key fields with
    | some (.table inner) => valueAt? (next :: keys) inner
    | _ => none

/-- The keys but the last lead to tables, wherever they are set. -/
def TablesAlong : List String → Fields → Prop
  | [], _ => True
  | [_], _ => True
  | key :: next :: keys, fields =>
    ∀ value, field? key fields = some value →
      ∃ inner, value = .table inner ∧ TablesAlong (next :: keys) inner

theorem valueAt?_nil (keys : List String) : valueAt? keys [] = none := by
  match keys with
  | [] => rfl
  | [_] => rfl
  | _ :: _ :: _ => rfl

theorem tablesAlong_nil (keys : List String) : TablesAlong keys [] := by
  match keys with
  | [] => trivial
  | [_] => trivial
  | _ :: _ :: _ => simp [TablesAlong]

@[simp] theorem over?_none (earlier : Option Value) : over? earlier none = earlier := by
  cases earlier <;> rfl

@[simp] theorem none_over? (later : Option Value) : over? none later = later := by
  cases later <;> rfl

theorem over?_tables (earlier later : Fields) :
    over? (some (.table earlier)) (some (.table later)) =
      some (.table (fieldsOver earlier later)) := by
  rw [over?, Value.over]

/-- Only a table lets something of an earlier value remain. -/
theorem over?_of_not_table (earlier : Option Value) {later : Value}
    (hPlain : ∀ fields, over? earlier (some later) ≠ some (.table fields)) :
    over? earlier (some later) = some later := by
  cases earlier with
  | none => rfl
  | some old =>
      cases later with
      | table fields =>
          cases old with
          | table outer => exact absurd (over?_tables outer fields) (hPlain _)
          | _ =>
              rw [over?, Value.over]
              simp
      | _ =>
          rw [over?, Value.over]
          simp

/-- Under keys that lead through tables stands the later value over the earlier
one, and they still lead through tables. -/
theorem valueAt?_fieldsOver {keys : List String} {earlier later : Fields}
    (hLater : (Value.table later).Distinct)
    (hTables : TablesAlong keys earlier) (hTables' : TablesAlong keys later) :
    TablesAlong keys (fieldsOver earlier later) ∧
      valueAt? keys (fieldsOver earlier later) =
        over? (valueAt? keys earlier) (valueAt? keys later) := by
  have hMerged := field?_fieldsOver ((distinct_table_iff _).mp hLater).1 earlier
  induction keys generalizing earlier later with
  | nil => exact ⟨trivial, rfl⟩
  | cons key keys ih =>
      cases keys with
      | nil => exact ⟨trivial, hMerged key⟩
      | cons next keys =>
          have hKey := hMerged key
          simp only [TablesAlong, valueAt?] at hTables hTables' ⊢
          rw [hKey]
          cases hNew : field? key later with
          | none => simpa using hTables
          | some new =>
              obtain ⟨inner, rfl, hInner⟩ := hTables' new hNew
              cases hOld : field? key earlier with
              | none => simpa using hInner
              | some old =>
                  obtain ⟨outer, rfl, hOuter⟩ := hTables old hOld
                  have hBelow := distinct_of_field? hLater hNew
                  have hNext := ih hBelow hOuter hInner
                    (field?_fieldsOver ((distinct_table_iff _).mp hBelow).1 outer)
                  simpa [over?_tables] using hNext

/-- The value that the last of some layers to set it gives. -/
def lastGiven? (layers : List Fields) (keys : List String) : Option Value :=
  layers.reverse.findSome? (valueAt? keys)

theorem lastGiven?_concat (layers : List Fields) (last : Fields) (keys : List String) :
    lastGiven? (layers ++ [last]) keys = (valueAt? keys last).or (lastGiven? layers keys) := by
  rw [lastGiven?, List.reverse_concat, List.findSome?_cons]
  cases valueAt? keys last <;> rfl

/-- Once all layers are merged, a value that is no table is the one that the
last layer gives. -/
theorem valueAt?_foldl_fieldsOver {layers : List Fields} {keys : List String}
    (hDistinct : ∀ layer ∈ layers, (Value.table layer).Distinct)
    (hTables : ∀ layer ∈ layers, TablesAlong keys layer) :
    TablesAlong keys (layers.foldl fieldsOver []) ∧
      ((∀ fields, valueAt? keys (layers.foldl fieldsOver []) ≠ some (.table fields)) →
        valueAt? keys (layers.foldl fieldsOver []) = lastGiven? layers keys) := by
  induction layers using List.reverseRecOn with
  | nil => exact ⟨tablesAlong_nil keys, fun _ => valueAt?_nil keys⟩
  | append_singleton layers last ih =>
      rw [List.forall_mem_append, List.forall_mem_singleton] at hDistinct hTables
      obtain ⟨hSofar, hGiven⟩ := ih hDistinct.1 hTables.1
      obtain ⟨hAlong, hValue⟩ := valueAt?_fieldsOver hDistinct.2 hSofar hTables.2
      rw [List.foldl_concat, lastGiven?_concat, hValue]
      refine ⟨hAlong, fun hPlain => ?_⟩
      cases hLast : valueAt? keys last with
      | none =>
          rw [hLast, over?_none] at hPlain
          simpa using hGiven hPlain
      | some value =>
          rw [hLast] at hPlain
          simpa using over?_of_not_table _ hPlain

end Ways

section Reading

/-- One of the settings. -/
inductive Setting where
  | version
  | skipPatterns
  | lineLimit
  | ignoreFile
  | skipDirs
  | maxFileSize
deriving Repr, DecidableEq

/-- The keys under which a layer sets a setting. -/
def Setting.keys : Setting → List String
  | version => ["version"]
  | skipPatterns => ["map", "skip_patterns"]
  | lineLimit => ["map", "line_limit"]
  | ignoreFile => ["scan", "ignore_file"]
  | skipDirs => ["scan", "skip_dirs"]
  | maxFileSize => ["scan", "max_file_size"]

/-- A list of texts as a value. -/
def Value.ofTexts (texts : List String) : Value := .arr (texts.map .str)

/-- What a setting is, as a value that a layer could give. -/
def valueOf (settings : Settings) : Setting → Value
  | .version => .str settings.version
  | .skipPatterns => .ofTexts settings.map.skipPatterns
  | .lineLimit => .int settings.map.lineLimit
  | .ignoreFile => .str settings.scan.ignoreFile
  | .skipDirs => .ofTexts settings.scan.skipDirs
  | .maxFileSize => .int settings.scan.maxFileSize

theorem valueOf_ne_table (settings : Settings) (setting : Setting) (fields : Fields) :
    settings.valueOf setting ≠ .table fields := by
  cases setting <;> simp [valueOf, Value.ofTexts]

theorem eq_map_of_mapM {α β : Type} {read? : α → Option β} {write : β → α}
    (hRead : ∀ a b, read? a = some b → a = write b) {items : List α} {results : List β}
    (hItems : items.mapM read? = some results) : items = results.map write := by
  induction items generalizing results with
  | nil =>
      cases hItems
      rfl
  | cons item items ih =>
      simp only [List.mapM_cons, Option.bind_eq_bind, Option.bind_eq_some_iff] at hItems
      obtain ⟨result, hResult, others, hOthers, hSame⟩ := hItems
      cases hSame
      rw [List.map_cons, ← ih hOthers, ← hRead item result hResult]

theorem eq_str_of_text? (value : Value) (text : String) (hText : value.text? = some text) :
    value = .str text := by
  cases value <;> simp_all [Value.text?]

theorem eq_ofTexts_of_texts? (value : Value) (texts : List String)
    (hTexts : value.texts? = some texts) : value = .ofTexts texts := by
  cases value with
  | arr items => rw [Value.ofTexts, eq_map_of_mapM eq_str_of_text? hTexts]
  | _ => cases hTexts

theorem eq_int_of_intIn? {low high : Int} (value : Value) (number : Int)
    (hNumber : value.intIn? low high = some number) : value = .int number ∧ low ≤ number := by
  cases value with
  | int n =>
      rw [Value.intIn?] at hNumber
      split at hNumber
      · rename_i hBounds
        cases hNumber
        simp only [Bool.and_eq_true, decide_eq_true_eq] at hBounds
        exact ⟨rfl, hBounds.1⟩
      · cases hNumber
  | _ => cases hNumber

/-- A field that is read holds the value that was read, or is missing. -/
theorem value_of_readField {α : Type} {fields : Fields} {key : String} {read? : Value → Option α}
    {missing a : α} (write : α → Value) (hRead : ∀ value a, read? value = some a → value = write a)
    (hField : readField fields key read? missing = some a) :
    write a = (field? key fields).getD (write missing) := by
  rw [readField] at hField
  split at hField
  · rename_i value hValue
    rw [hValue, Option.getD_some, hRead value a hField]
  · rename_i hNone
    rw [hNone, Option.getD_none, Option.some.inj hField]

/-- A field of a section, when the section is a table or missing. -/
theorem value_of_section {α : Type} {fields : Fields} {name key : String}
    {read? : Value → Option α} {missing a : α} (write : α → Value)
    (hRead : ∀ inner a, read? (.table inner) = some a →
      write a = (field? key inner).getD (write missing))
    (hTables : TablesAlong [name, key] fields)
    (hField : readField fields name read? missing = some a) :
    write a = (valueAt? [name, key] fields).getD (write missing) := by
  rw [readField] at hField
  rw [valueAt?]
  split at hField
  · rename_i value hValue
    obtain ⟨inner, rfl, _⟩ := hTables value hValue
    rw [hValue]
    exact hRead inner a hField
  · rename_i hNone
    rw [hNone, Option.getD_none, Option.some.inj hField]

theorem values_of_readMap? (inner : Fields) (map : MapSettings)
    (hRead : readMap? (.table inner) = some map) :
    Value.ofTexts map.skipPatterns = (field? "skip_patterns" inner).getD (.ofTexts []) ∧
      Value.int map.lineLimit = (field? "line_limit" inner).getD (.int 0) := by
  simp only [readMap?, Value.section?, Option.bind_eq_bind, Option.bind_some,
    Option.bind_eq_some_iff] at hRead
  obtain ⟨skipPatterns, hSkip, lineLimit, hLimit, hSame⟩ := hRead
  cases hSame
  exact ⟨value_of_readField .ofTexts eq_ofTexts_of_texts? hSkip,
    value_of_readField .int (fun value n h => (eq_int_of_intIn? value n h).1) hLimit⟩

theorem values_of_readScan? (inner : Fields) (scan : ScanSettings)
    (hRead : readScan? (.table inner) = some scan) :
    Value.str scan.ignoreFile = (field? "ignore_file" inner).getD (.str ".gitignore") ∧
      Value.ofTexts scan.skipDirs =
        (field? "skip_dirs" inner).getD (.ofTexts ["vendor", "node_modules"]) ∧
      Value.int scan.maxFileSize = (field? "max_file_size" inner).getD (.int 2097152) := by
  simp only [readScan?, Value.section?, Option.bind_eq_bind, Option.bind_some,
    Option.bind_eq_some_iff] at hRead
  obtain ⟨ignoreFile, hIgnore, skipDirs, hSkip, maxFileSize, hSize, hSame⟩ := hRead
  cases hSame
  refine ⟨value_of_readField .str eq_str_of_text? hIgnore,
    value_of_readField .ofTexts eq_ofTexts_of_texts? hSkip,
    value_of_readField (fun n : Nat => .int n) (fun value n hNumber => ?_) hSize⟩
  obtain ⟨number, hIn, rfl⟩ := Option.map_eq_some_iff.mp hNumber
  obtain ⟨rfl, hLow⟩ := eq_int_of_intIn? value number hIn
  rw [Int.toNat_of_nonneg hLow]

/-- Settings that are read from fields have the values under their keys, and
their defaults where there is none. -/
theorem valueOf_of_ofFields? {fields : Fields} {settings : Settings}
    (hRead : ofFields? fields = some settings) {setting : Setting}
    (hTables : TablesAlong setting.keys fields) :
    settings.valueOf setting =
      (valueAt? setting.keys fields).getD (({} : Settings).valueOf setting) := by
  simp only [ofFields?, Option.bind_eq_bind, Option.bind_eq_some_iff] at hRead
  obtain ⟨version, hVersion, map, hMap, scan, hScan, hSame⟩ := hRead
  cases hSame
  cases setting with
  | version => exact value_of_readField .str eq_str_of_text? hVersion
  | skipPatterns =>
      exact value_of_section (fun map => .ofTexts map.skipPatterns)
        (fun inner map hRead => (values_of_readMap? inner map hRead).1) hTables hMap
  | lineLimit =>
      exact value_of_section (fun map => .int map.lineLimit)
        (fun inner map hRead => (values_of_readMap? inner map hRead).2) hTables hMap
  | ignoreFile =>
      exact value_of_section (fun scan => .str scan.ignoreFile)
        (fun inner scan hRead => (values_of_readScan? inner scan hRead).1) hTables hScan
  | skipDirs =>
      exact value_of_section (fun scan => .ofTexts scan.skipDirs)
        (fun inner scan hRead => (values_of_readScan? inner scan hRead).2.1) hTables hScan
  | maxFileSize =>
      exact value_of_section (fun scan => .int scan.maxFileSize)
        (fun inner scan hRead => (values_of_readScan? inner scan hRead).2.2) hTables hScan

end Reading

section Layers

variable {disk : Disk} {vars : Environment.Variables} {root : String} {explicit : Option String}

/-- The layers of the settings for a project, the earliest first: the global
file, the file of the project, the file asked for, and the variables. -/
def layersOf (disk : Disk) (vars : Environment.Variables) (root : String)
    (explicit : Option String) : List (Option Fields) :=
  (globalFile? vars).toList.map (presentLayer disk) ++ [presentLayer disk (projectFile root)] ++
    explicit.toList.map (presentLayer disk) ++ [some (Environment.fieldsOf vars)]

/-- The sections of a layer are tables, where it sets them. -/
def SectionsAreTables (layer : Fields) : Prop :=
  ∀ name ∈ ["map", "scan"], ∀ value, field? name layer = some value →
    ∃ fields, value = .table fields

instance (value : Value) : Decidable (∃ fields, value = .table fields) :=
  match value with
  | .table fields => .isTrue ⟨fields, rfl⟩
  | .str _ | .int _ | .float | .bool _ | .arr _ => .isFalse (by simp)

instance (layer : Fields) : Decidable (SectionsAreTables layer) :=
  inferInstanceAs (Decidable (∀ name ∈ ["map", "scan"], ∀ value ∈ field? name layer, _))

theorem SectionsAreTables.along {layer : Fields} (hSections : SectionsAreTables layer)
    (setting : Setting) : TablesAlong setting.keys layer := by
  have hTables : ∀ name ∈ ["map", "scan"], ∀ key, TablesAlong [name, key] layer := by
    intro name hName key value hValue
    obtain ⟨fields, rfl⟩ := hSections name hName value hValue
    exact ⟨fields, rfl, trivial⟩
  cases setting with
  | version => trivial
  | skipPatterns | lineLimit => exact hTables "map" (by simp) _
  | ignoreFile | skipDirs | maxFileSize => exact hTables "scan" (by simp) _

theorem distinct_fileLayer {path : String} {layer : Fields}
    (hLayer : fileLayer disk path = some layer) : (Value.table layer).Distinct := by
  rw [fileLayer] at hLayer
  split at hLayer
  · cases hLayer
    exact distinct_table_nil
  · split at hLayer
    · exact distinct_read? hLayer
    · cases hLayer

theorem distinct_presentLayer {path : String} {layer : Fields}
    (hLayer : presentLayer disk path = some layer) : (Value.table layer).Distinct := by
  rw [presentLayer] at hLayer
  split at hLayer
  · exact distinct_fileLayer hLayer
  · cases hLayer
    exact distinct_table_nil

/-- However it is written, a layer has no key twice. -/
theorem distinct_of_mem_layersOf {layer : Fields}
    (hLayer : some layer ∈ layersOf disk vars root explicit) :
    (Value.table layer).Distinct := by
  simp only [layersOf, List.mem_append, List.mem_map, List.mem_singleton] at hLayer
  rcases hLayer with ((⟨path, _, hFile⟩ | hFile) | ⟨path, _, hFile⟩) | hVariables
  · exact distinct_presentLayer hFile
  · exact distinct_presentLayer hFile.symm
  · exact distinct_presentLayer hFile
  · cases hVariables
    exact distinct_fieldsOf vars

theorem eq_of_validate {settings valid : Settings} (hValid : settings.validate = .ok valid) :
    settings = valid := by
  rw [Settings.validate] at hValid
  split at hValid
  · cases hValid
  · exact Except.ok.inj hValid

/-- Settings that load are those of all layers merged, and can be used. -/
theorem exists_layers_of_load {settings : Settings}
    (hLoad : load disk vars root explicit = .ok settings) :
    settings.validate = .ok settings ∧ ∃ layers : List Fields,
      layersOf disk vars root explicit = layers.map some ∧
      ofFields? (layers.foldl fieldsOver []) = some settings := by
  rw [load] at hLoad
  split at hLoad
  · cases hLoad
  · have hPaths : ofLayers (layersOf disk vars root explicit) = .ok settings := by
      rw [← hLoad]
      simp [layersOf]
    rw [ofLayers] at hPaths
    split at hPaths
    · rename_i read hRead
      obtain ⟨layers, hLayers, hMerged⟩ := Option.bind_eq_some_iff.mp hRead
      have hSame := eq_of_validate hPaths
      subst hSame
      exact ⟨hPaths, layers, eq_map_of_mapM (fun _ _ hLayer => hLayer) hLayers, hMerged⟩
    · cases hPaths

/-- Each setting has the value of the last layer that sets it, whichever layers
set the others, and its default when no layer does. Settings that could not be
used do not load. -/
theorem load_gives_last_set (disk : Disk) (vars : Environment.Variables) (root : String)
    (explicit : Option String)
    (hSections : ∀ layer, some layer ∈ layersOf disk vars root explicit → SectionsAreTables layer)
    (settings : Settings) (hLoad : load disk vars root explicit = .ok settings) :
    settings.validate = .ok settings ∧ ∃ layers : List Fields,
      layersOf disk vars root explicit = layers.map some ∧ ∀ setting : Setting,
        settings.valueOf setting =
          (lastGiven? layers setting.keys).getD (({} : Settings).valueOf setting) := by
  obtain ⟨hValid, layers, hLayers, hMerged⟩ := exists_layers_of_load hLoad
  have hMem : ∀ layer ∈ layers, some layer ∈ layersOf disk vars root explicit := by
    intro layer hLayer
    rw [hLayers]
    exact List.mem_map_of_mem hLayer
  refine ⟨hValid, layers, hLayers, fun setting => ?_⟩
  obtain ⟨hTables, hLast⟩ := valueAt?_foldl_fieldsOver
    (fun layer hLayer => distinct_of_mem_layersOf (hMem layer hLayer))
    (fun layer hLayer => (hSections layer (hMem layer hLayer)).along setting)
  have hValue := valueOf_of_ofFields? hMerged hTables
  have hPlain : ∀ fields, valueAt? setting.keys (layers.foldl fieldsOver []) ≠
      some (.table fields) := by
    intro fields hTable
    rw [hTable, Option.getD_some] at hValue
    exact valueOf_ne_table settings setting fields hValue
  rw [hValue, hLast hPlain]

def globalText : String := "version='2'\nmap.line_limit=3"

def projectText : String := "[map]\nskip_patterns=['g']\nline_limit=5"

/-- A project whose limit is set in two files and by a variable. The global file
lies outside the project. -/
def layeredDisk : Disk :=
  { root := .dir "g" (.dir "codemap" (.file "config.toml" (.ofText globalText) .nil) .nil)
      (.dir "p" (.dir ".codemap" (.file "config.toml" (.ofText projectText) .nil) .nil) .nil)
    cwd := ["p"] }

def layeredVars : Environment.Variables :=
  [("XDG_CONFIG_HOME", "/g"), ("CODEMAP_MAP__LINE_LIMIT", "7")]

theorem layersOf_layeredDisk : layersOf layeredDisk layeredVars "." none =
    [Toml.read? globalText.toList, Toml.read? projectText.toList,
      some (Environment.fieldsOf layeredVars)] := by
  have hGlobal : globalFile? layeredVars = some "/g/codemap/config.toml" := by decide
  have hProject : projectFile "." = "./.codemap/config.toml" := by decide
  have hGlobalFile : searchFile? layeredDisk "/g/codemap/config.toml" =
      some (.ofText globalText) := by cbv
  have hProjectFile : searchFile? layeredDisk "./.codemap/config.toml" =
      some (.ofText projectText) := by cbv
  have hPresent : layeredDisk.isPresent "/g/codemap/config.toml" = true ∧
      layeredDisk.isPresent "./.codemap/config.toml" = true := ⟨by cbv, by cbv⟩
  have hTexts : ∀ text ∈ [globalText, projectText],
      Text.isUtf8 (Document.ofText text).bytes = true ∧
        (Document.ofText text).text = text.toList := by
    decide +kernel
  simp only [List.forall_mem_cons] at hTexts
  simp [layersOf, hGlobal, hProject, presentLayer, hPresent, fileLayer, hGlobalFile,
    hProjectFile, hTexts]

theorem load_gives_last_set_layeredDisk :
    (∀ layer, some layer ∈ layersOf layeredDisk layeredVars "." none → SectionsAreTables layer) ∧
      ∃ settings, load layeredDisk layeredVars "." none = .ok settings ∧
        settings.validate = .ok settings ∧ ∃ layers : List Fields,
          layersOf layeredDisk layeredVars "." none = layers.map some ∧
          lastGiven? layers ["map", "line_limit"] = some (.int 7) := by
  have hSections : ∀ layer, some layer ∈ layersOf layeredDisk layeredVars "." none →
      SectionsAreTables layer := by
    have hAll : ∀ read ∈ layersOf layeredDisk layeredVars "." none, ∀ layer ∈ read,
        SectionsAreTables layer := by
      rw [layersOf_layeredDisk]
      decide +kernel
    exact fun layer hLayer => hAll (some layer) hLayer layer rfl
  have hRead : (ofLayers (layersOf layeredDisk layeredVars "." none)).toOption =
      some { version := "2", map := { skipPatterns := ["g"], lineLimit := 7 } } := by
    rw [layersOf_layeredDisk]
    decide +kernel
  have hLoad : load layeredDisk layeredVars "." none =
      .ok { version := "2", map := { skipPatterns := ["g"], lineLimit := 7 } } := by
    change ofLayers (layersOf layeredDisk layeredVars "." none) = _
    cases hResult : ofLayers (layersOf layeredDisk layeredVars "." none) with
    | error fault => simp [hResult, Except.toOption] at hRead
    | ok settings => simpa [hResult, Except.toOption] using hRead
  obtain ⟨hValid, layers, hLayers, hValues⟩ :=
    load_gives_last_set layeredDisk layeredVars "." none hSections _ hLoad
  refine ⟨hSections, _, hLoad, hValid, layers, hLayers, ?_⟩
  have hLimit := hValues .lineLimit
  cases hGiven : lastGiven? layers ["map", "line_limit"] with
  | none => simp [hGiven, Setting.keys, valueOf] at hLimit
  | some value => simpa [hGiven, Setting.keys, valueOf, eq_comm] using hLimit

end Layers

end SymbolMap.Settings
