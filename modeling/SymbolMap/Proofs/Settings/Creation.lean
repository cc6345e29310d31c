import SymbolMap.Proofs.Disk.Parents
import SymbolMap.Settings.Layers

/-! Making a settings file: what is left behind when it fails, when a file is
kept, and when one is written. Directories are made before anything else is
decided, so a failure can come after some of them; on a path that never leads
upwards, and is not too long, it cannot. -/
namespace SymbolMap

open SymbolMap.Path SymbolMap.Text

/-- A path never leads upwards. -/
def Path.IsDownward (path : String) : Prop := ['.', '.'] ∉ segments path.toList

instance (path : String) : Decidable (IsDownward path) :=
  inferInstanceAs (Decidable (_ ∉ _))

/-- Neither a path nor a name in it is too long to be followed. -/
def Disk.IsWithinLimits (path : String) : Prop :=
  octetLength path.toList ≤ pathLimit ∧ ∀ seg ∈ segments path.toList, octetLength seg ≤ nameLimit

instance (path : String) : Decidable (Disk.IsWithinLimits path) :=
  inferInstanceAs (Decidable (_ ∧ _))

namespace Settings

/-- The settings file of all projects, or that of the project at a root. -/
def fileFor? (vars : Environment.Variables) (root : String) (everywhere : Bool) : Option String :=
  if everywhere then globalFile? vars else some (projectFile root)

/-- Make the settings file of all projects, or that of the project at a
root. -/
def createFor (disk : Disk) (vars : Environment.Variables) (root : String)
    (everywhere force : Bool) : Disk × Except Error Created :=
  if everywhere then createGlobal disk vars force else createProject disk root force

/-- What making the settings file at a path leaves behind. -/
structure Leaves (before after : Disk) (path : String) (force : Bool)
    (outcome : Except Error Created) : Prop where
  /-- A failure leaves at most directories above the file that were missing. It
  leaves nothing where the path led to something, or goes down and is not too
  long. -/
  failed : ∀ error, outcome = .error error → before.GainsDirs after (parents path) ∧
    (before.isPresent path = true → after = before) ∧
    (IsDownward path → Disk.IsWithinLimits path → after = before)
  /-- The outcome is about the file. -/
  path_eq : ∀ created, outcome = .ok created → created.path = path
  /-- What is kept is there. On a path that goes down it was there before, and
  if it was, nothing is different. -/
  kept : outcome = .ok { path, written := false } → after.isPresent path = true ∧
    before.GainsDirs after (parents path) ∧ (before.isPresent path = true → after = before) ∧
    (IsDownward path → before.isPresent path = true)
  /-- What is written holds the template. The directories above it are there,
  nothing else is different, and it replaces nothing unless it is forced to. -/
  written : outcome = .ok { path, written := true } →
    after.file? path = some (.ofText template) ∧
    (∀ dir ∈ parents path, after.isDir dir = true) ∧
    after.cwd = before.cwd ∧
    (∀ place, after.LeadsTo .target path place ∨ after.shape? place = before.shape? place ∨
      before.IsNewDir after (parents path) place) ∧
    (force = false → before.isPresent path = false)

/-- Everything that making a settings file can do. -/
inductive CreateRun (before : Disk) (path : String) (force : Bool) :
    Disk → Except Error Created → Prop where
  | blocked {after : Disk} {fault : Fault}
      (hParents : before.makeParents path = (after, .error fault)) :
      CreateRun before path force after (.error (.io fault))
  | kept {ready : Disk} (hParents : before.makeParents path = (ready, .ok ()))
      (hPresent : ready.isPresent path = true) :
      CreateRun before path force ready (.ok { path, written := false })
  | wrote {ready after : Disk} (hParents : before.makeParents path = (ready, .ok ()))
      (hMissing : force = false → ready.isPresent path = false)
      (hWritten : ready.writeFile path (.ofText template) = .ok after) :
      CreateRun before path force after (.ok { path, written := true })
  | refused {ready : Disk} {fault : Fault} (hParents : before.makeParents path = (ready, .ok ()))
      (hFault : ready.writeFile path (.ofText template) = .error fault) :
      CreateRun before path force ready (.error (.io fault))

section Create

variable {before after : Disk} {path name : String} {force : Bool}
variable {outcome : Except Error Created} {above : List (List Char)}

theorem createRun (hRun : create before path force = (after, outcome)) :
    CreateRun before path force after outcome := by
  rw [create] at hRun
  split at hRun
  · rename_i hParents
    cases hRun
    exact .blocked hParents
  · rename_i ready hParents
    split at hRun
    · rename_i hWrite
      split at hRun
      · rename_i hWritten
        cases hRun
        exact .wrote hParents (fun hForce => by simpa [hForce] using hWrite) hWritten
      · rename_i hFault
        cases hRun
        exact .refused hParents hFault
    · rename_i hKeep
      cases hRun
      obtain ⟨_, hPresent⟩ : force = false ∧ after.isPresent path = true := by simpa using hKeep
      exact .kept hParents hPresent

/-- Unless the file is written, the disk is as it is once the directories above
the file are made. -/
theorem makeParents_of_create (hRun : create before path force = (after, outcome))
    (hNot : outcome ≠ .ok { path, written := true }) :
    ∃ made, before.makeParents path = (after, made) := by
  cases createRun hRun with
  | blocked hParents => exact ⟨_, hParents⟩
  | kept hParents hPresent => exact ⟨_, hParents⟩
  | wrote hParents hMissing hWritten => exact absurd rfl hNot
  | refused hParents hFault => exact ⟨_, hParents⟩

-- the path ends in a name, with `above` before it
variable (hPath : segments path.toList = above ++ [name.toList]) (hName : IsEntryName name)
include hPath hName

/-- A file that is there is kept, and nothing is different. -/
theorem create_of_isPresent (hPresent : before.isPresent path = true) :
    create before path false = (before, .ok { path, written := false }) := by
  rw [create, Disk.makeParents_of_isPresent hPath hName hPresent]
  simp [hPresent]

/-- A file can be written in a new directory. -/
theorem exists_writeFile_of_empty (hNul : ∀ c ∈ name.toList, c.toNat ≠ 0)
    (hLimits : Disk.IsWithinLimits path) (hEmpty : before.LeadsToEmpty above.reverse)
    (doc : Document) : ∃ written, before.writeFile path doc = .ok written := by
  have hEq := ofReversed_eq hPath
  have hFault : Disk.pathFault? path.toList = none := by
    refine (Disk.pathFault?_eq_none_iff _).mpr ⟨?_, hLimits.1⟩
    rw [← hEq]
    exact Disk.LeadsToEmpty.not_nul_cons hEmpty.ne_nil hEmpty.1 hNul
  have hShort : octetLength name.toList ≤ Disk.nameLimit := hLimits.2 _ (by simp [hPath])
  obtain ⟨place, hLeads, hNone⟩ :=
    hEmpty.exists_missing hName hShort (by rw [hEq]; exact hFault) .newFile
  rw [hEq, Disk.LeadsTo, Disk.shape?_eq_none_iff.mp hNone] at hLeads
  exact ⟨_, by rw [Disk.writeFile, hLeads]⟩

/-- A failure on a path that goes down, and is not too long, leaves nothing
behind. -/
theorem eq_of_create_error (hNul : ∀ c ∈ name.toList, c.toNat ≠ 0)
    (hDown : IsDownward path) (hLimits : Disk.IsWithinLimits path) {error : Error}
    (hRun : create before path force = (after, .error error)) : after = before := by
  have hUp : ['.', '.'] ∉ above := fun h => hDown (by simp [hPath, h])
  have hShort : ∀ seg ∈ above.reverse, octetLength seg ≤ Disk.nameLimit :=
    fun seg hSeg => hLimits.2 seg (by simp [hPath, List.mem_reverse.mp hSeg])
  cases createRun hRun with
  | blocked hParents =>
      rcases Disk.allOrNone_makeParents hPath hName hUp hParents with hSame | ⟨_, hDone⟩
      · exact hSame
      · cases hDone hShort
  | refused hParents hFault =>
      rcases Disk.allOrNone_makeParents hPath hName hUp hParents with hSame | ⟨hEmpty, _⟩
      · exact hSame
      · obtain ⟨written, hWritten⟩ :=
          exists_writeFile_of_empty hPath hName hNul hLimits (hEmpty rfl) (.ofText template)
        rw [hWritten] at hFault
        cases hFault

/-- What is kept on a path that goes down was there before. -/
theorem isPresent_of_create_kept (hDown : IsDownward path)
    (hRun : create before path force = (after, .ok { path, written := false })) :
    before.isPresent path = true := by
  have hUp : ['.', '.'] ∉ above := fun h => hDown (by simp [hPath, h])
  cases createRun hRun with
  | kept hParents hPresent =>
      rcases Disk.allOrNone_makeParents hPath hName hUp hParents with rfl | ⟨hEmpty, _⟩
      · exact hPresent
      · rw [← ofReversed_eq hPath] at hPresent
        exact absurd hPresent ((hEmpty rfl).not_isPresent hName)

/-- Unless the file is written, only directories above it are made. -/
theorem gainsDirs_of_create (hRun : create before path force = (after, outcome))
    (hNot : outcome ≠ .ok { path, written := true }) :
    before.GainsDirs after (parents path) := by
  obtain ⟨made, hParents⟩ := makeParents_of_create hRun hNot
  exact Disk.gainsDirs_makeParents hPath hName hParents

/-- Where the path led to something, nothing is different unless the file is
written. -/
theorem eq_of_isPresent (hRun : create before path force = (after, outcome))
    (hNot : outcome ≠ .ok { path, written := true }) (hPresent : before.isPresent path = true) :
    after = before := by
  obtain ⟨made, hParents⟩ := makeParents_of_create hRun hNot
  rw [Disk.makeParents_of_isPresent hPath hName hPresent] at hParents
  cases hParents
  rfl

/-- Where the file is written, nothing else is different but the directories
above it that were missing. -/
theorem file?_of_create_written
    (hRun : create before path force = (after, .ok { path, written := true })) :
    after.file? path = some (.ofText template) ∧ after.cwd = before.cwd ∧
    (∀ place, after.LeadsTo .target path place ∨ after.shape? place = before.shape? place ∨
      before.IsNewDir after (parents path) place) ∧
    (force = false → before.isPresent path = false) := by
  cases createRun hRun with
  | @wrote ready after hParents hMissing hWritten =>
      have hGains := Disk.gainsDirs_makeParents hPath hName hParents
      obtain ⟨place, hGrows, hChanged, hLeads⟩ := Disk.exists_of_writeFile hWritten
      refine ⟨Disk.file?_eq_some_iff.mpr ⟨place, hLeads, hChanged.self⟩,
        hGrows.cwd_eq.trans hGains.cwd_eq, fun other => ?_, ?_⟩
      · by_cases hOther : other = place
        · exact Or.inl (hOther ▸ hLeads)
        · have hSame : after.shape? other = ready.shape? other := by
            rw [hChanged.shape?_eq, if_neg hOther]
          rcases hGains.places other with hOld | ⟨hNone, hDir, dir, hMem, hDirLeads⟩
          · exact Or.inr (Or.inl (hSame.trans hOld))
          · exact Or.inr (Or.inr ⟨hNone, hSame.trans hDir, dir, hMem, hDirLeads.grow hGrows⟩)
      · -- what was there before is there when the file is looked for
        intro hForce
        by_contra hPresent
        have hReady := hGains.grows.isPresent (Bool.not_eq_false _ ▸ hPresent)
        rw [hMissing hForce] at hReady
        cases hReady

/-- There is a file where making one has not failed. -/
theorem isPresent_of_create {created : Created}
    (hRun : create before path force = (after, .ok created)) :
    created.path = path ∧ after.isPresent path = true := by
  cases createRun hRun with
  | kept hParents hPresent => exact ⟨rfl, hPresent⟩
  | wrote hParents hMissing hWritten =>
      obtain ⟨place, hLeads, hFile⟩ :=
        Disk.file?_eq_some_iff.mp (file?_of_create_written hPath hName hRun).1
      exact ⟨rfl, Disk.isPresent_iff.mpr ⟨place, hLeads, by simp [hFile]⟩⟩

/-- What making a settings file leaves behind, whatever comes of it. -/
theorem leaves_create (hNul : ∀ c ∈ name.toList, c.toNat ≠ 0)
    (hRun : create before path force = (after, outcome)) :
    Leaves before after path force outcome where
  failed := by
    rintro error rfl
    exact ⟨gainsDirs_of_create hPath hName hRun (by simp),
      eq_of_isPresent hPath hName hRun (by simp),
      fun hDown hLimits => eq_of_create_error hPath hName hNul hDown hLimits hRun⟩
  path_eq := by
    rintro created rfl
    exact (isPresent_of_create hPath hName hRun).1
  kept := by
    rintro rfl
    exact ⟨(isPresent_of_create hPath hName hRun).2,
      gainsDirs_of_create hPath hName hRun (by simp),
      eq_of_isPresent hPath hName hRun (by simp),
      fun hDown => isPresent_of_create_kept hPath hName hDown hRun⟩
  written := by
    rintro rfl
    obtain ⟨hFile, hCwd, hOnly, hNew⟩ := file?_of_create_written hPath hName hRun
    exact ⟨hFile, fun dir hDir => Disk.isDir_of_mem_parents hPath hName
      (isPresent_of_create hPath hName hRun).2 hDir, hCwd, hOnly, hNew⟩

end Create

section CreateFor

variable {before after : Disk} {vars : Environment.Variables} {root : String}
variable {everywhere force : Bool} {outcome : Except Error Created}

theorem createFor_eq (disk : Disk) (vars : Environment.Variables) (root : String)
    (everywhere force : Bool) :
    createFor disk vars root everywhere force =
      match fileFor? vars root everywhere with
      | some path => create disk path force
      | none => (disk, .error (.settings .noGlobalDirectory)) := by
  cases everywhere with
  | false => simp only [createFor, fileFor?, createProject, Bool.false_eq_true, if_false]
  | true =>
      cases hFile : globalFile? vars with
      | none => simp only [createFor, fileFor?, createGlobal, hFile, if_true]
      | some path => simp only [createFor, fileFor?, createGlobal, hFile, if_true]

theorem isEntryName_fileName : IsEntryName fileName := by decide

theorem not_nul_fileName : ∀ c ∈ fileName.toList, c.toNat ≠ 0 := by
  simp [fileName]

/-- Settings files are all called by one name. -/
theorem exists_segments_fileFor? {path : String}
    (hFile : fileFor? vars root everywhere = some path) :
    ∃ above, segments path.toList = above ++ [fileName.toList] := by
  cases everywhere with
  | false =>
      cases hFile
      exact exists_segments_child _ isEntryName_fileName
  | true =>
      obtain ⟨dir, _, rfl⟩ := Option.map_eq_some_iff.mp hFile
      exact exists_segments_child dir isEntryName_fileName

/-- Making a settings file leaves behind what its outcome says, and where it has
not failed, making it once more keeps it and changes nothing. -/
theorem createFor_leaves (hRun : createFor before vars root everywhere force = (after, outcome)) :
    match fileFor? vars root everywhere with
    | none => outcome = .error (.settings .noGlobalDirectory) ∧ after = before
    | some path => Leaves before after path force outcome ∧
      ∀ created, outcome = .ok created → createFor after vars root everywhere false =
        (after, .ok { path, written := false }) := by
  simp only [createFor_eq] at hRun ⊢
  cases hFile : fileFor? vars root everywhere with
  | none =>
      rw [hFile] at hRun
      cases hRun
      exact ⟨rfl, rfl⟩
  | some path =>
      rw [hFile] at hRun
      obtain ⟨above, hPath⟩ := exists_segments_fileFor? hFile
      refine ⟨leaves_create hPath isEntryName_fileName not_nul_fileName hRun, ?_⟩
      rintro created rfl
      exact create_of_isPresent hPath isEntryName_fileName
        (isPresent_of_create hPath isEntryName_fileName hRun).2

end CreateFor

section Settled

/-- A disk with settings, and more behind them. -/
def settledWith (more : Listing) : Disk :=
  { root := .dir ".codemap" (.file "config.toml" (.ofText "") .nil) more }

/-- A disk with settings and a file. -/
def settled : Disk := settledWith (.file "f" (.ofText "x") .nil)

/-- The same and an empty directory. -/
def withNew : Disk := settledWith (.file "f" (.ofText "x") (.dir "new" .nil .nil))

/-- The same and a directory with something in it. -/
def withDeep (below : Listing) : Disk :=
  settledWith (.dir "deep" below (.file "f" (.ofText "x") .nil))

/-- The contents of a directory whose settings were just written. -/
def freshSettings : Listing :=
  .dir ".codemap" (.file "config.toml" (.ofText template) .nil) .nil

/-- A disk for a process that works in the directory of the settings. -/
def withinSettings (disk : Disk) : Disk := { disk with cwd := [".codemap"] }

/-- Settings are written where two directories above them are missing, and then
kept. They lie outside the working directory. -/
theorem createFor_leaves_withDeep :
    createFor (withinSettings settled) [] "/deep" false false =
      (withinSettings (withDeep freshSettings),
        .ok { path := projectFile "/deep", written := true }) ∧
    Leaves (withinSettings settled) (withinSettings (withDeep freshSettings))
      (projectFile "/deep") false (.ok { path := projectFile "/deep", written := true }) ∧
    createFor (withinSettings (withDeep freshSettings)) [] "/deep" false false =
      (withinSettings (withDeep freshSettings),
        .ok { path := projectFile "/deep", written := false }) := by
  have hRun : createFor (withinSettings settled) [] "/deep" false false =
      (withinSettings (withDeep freshSettings),
        .ok { path := projectFile "/deep", written := true }) := by
    have hPath : projectFile "/deep" = "/deep/.codemap/config.toml" := by decide +kernel
    have hParents : parents "/deep/.codemap/config.toml" = ["/deep/.codemap", "/deep"] := by
      decide +kernel
    have hInner : (withinSettings settled).makeDir "/deep/.codemap" = .error .notFound := by cbv
    have hOuter : (withinSettings settled).makeDir "/deep" =
        .ok (withinSettings (withDeep .nil)) := by cbv
    have hReady : (withinSettings (withDeep .nil)).makeDir "/deep/.codemap" =
        .ok (withinSettings (withDeep (.dir ".codemap" .nil .nil))) := by cbv
    have hMissing : (withinSettings (withDeep (.dir ".codemap" .nil .nil))).isPresent
        "/deep/.codemap/config.toml" = false := by cbv
    have hWritten : (withinSettings (withDeep (.dir ".codemap" .nil .nil))).writeFile
        "/deep/.codemap/config.toml" (.ofText template) =
          .ok (withinSettings (withDeep freshSettings)) := by
      rw [freshSettings]
      generalize Document.ofText template = doc
      cbv
    rw [createFor, if_neg (by simp), createProject, create, Disk.makeParents, hPath, hParents]
    simp only [Disk.makeNested, hInner, hOuter, hReady, hMissing, hWritten, Bool.not_false,
      Bool.or_true, if_true]
  obtain ⟨hLeaves, hAgain⟩ := createFor_leaves hRun
  exact ⟨hRun, hLeaves, hAgain _ rfl⟩

/-- The way up from a missing directory makes it. -/
theorem makeNested_new : settled.makeNested ["new/..", "new"] = (withNew, .ok ()) := by
  have hMissing : settled.makeDir "new/.." = .error .notFound := by cbv
  have hNew : settled.makeDir "new" = .ok withNew := by cbv
  have hThere : withNew.makeDir "new/.." = .error .fileExists := by cbv
  have hDir : withNew.isDir "new/.." = true := by cbv
  simp only [Disk.makeNested, hMissing, hNew, hThere, hDir, if_true]

theorem not_link_settled (place : List String) (target : String) :
    settled.shape? place ≠ some (.link target) := by
  intro hLink
  match place with
  | [] => cases hLink
  | [first] =>
      simp only [Disk.shape?, settled, settledWith, Listing.at?_singleton, Listing.get?] at hLink
      grind [Item.shape]
  | first :: second :: rest =>
      simp only [Disk.shape?, settled, settledWith, Listing.at?_dir, Listing.at?_file] at hLink
      cases rest <;> grind [Item.shape, Listing.at?, Listing.get?]

/-- Where there are no links at all, a directory is left behind by a failure,
since the path leads down into it, up again and through a file. It is so too
where a file is kept, to which the path did not lead before. -/
theorem createFor_leaves_directory_behind :
    (∀ place target, settled.shape? place ≠ some (.link target)) ∧
    createFor settled [] "new/../f" false false = (withNew, .error (.io .fileExists)) ∧
    createFor settled [] "new/.." false false =
      (withNew, .ok { path := projectFile "new/..", written := false }) ∧
    settled.isPresent (projectFile "new/..") = false ∧ withNew ≠ settled := by
  have hPath : projectFile "new/.." = "new/../.codemap/config.toml" := by decide +kernel
  refine ⟨not_link_settled, ?_, ?_, ?_, ?_⟩
  · have hParents : parents (projectFile "new/../f") =
        ["new/../f/.codemap", "new/../f", "new/..", "new"] := by decide +kernel
    have hInner : settled.makeDir "new/../f/.codemap" = .error .notFound := by cbv
    have hOuter : settled.makeDir "new/../f" = .error .notFound := by cbv
    have hFile : withNew.makeDir "new/../f" = .error .fileExists := by cbv
    have hDir : withNew.isDir "new/../f" = false := by cbv
    have hFails : settled.makeNested ["new/../f", "new/..", "new"] =
        (withNew, .error .fileExists) := by
      rw [Disk.makeNested, hOuter]
      simp only [makeNested_new, hFile, hDir, Bool.false_eq_true, if_false]
    rw [createFor, if_neg (by simp), createProject, create, Disk.makeParents, hParents,
      Disk.makeNested, hInner]
    simp only [hFails]
  · have hParents : parents "new/../.codemap/config.toml" =
        ["new/../.codemap", "new/..", "new"] := by decide +kernel
    have hInner : settled.makeDir "new/../.codemap" = .error .notFound := by cbv
    have hThere : withNew.makeDir "new/../.codemap" = .error .fileExists := by cbv
    have hDir : withNew.isDir "new/../.codemap" = true := by cbv
    have hFile : withNew.isPresent "new/../.codemap/config.toml" = true := by cbv
    rw [createFor, if_neg (by simp), createProject, create, Disk.makeParents, hPath, hParents,
      Disk.makeNested, hInner]
    simp only [makeNested_new, hThere, hDir, hFile, Bool.not_true, Bool.or_false,
      Bool.false_eq_true, if_true, if_false]
  · rw [hPath]
    cbv
  · intro hSame
    cases hSame

end Settled

end Settings

end SymbolMap
