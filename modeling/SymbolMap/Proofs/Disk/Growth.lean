import SymbolMap.Proofs.Disk.Following

/-! What making directories and writing files does to a disk. Nothing is taken
away, so paths lead where they led before; what is new can be told place by
place. -/
namespace SymbolMap.Disk

open SymbolMap.Path SymbolMap.Text

/-- What can become of a place when directories are made and files are
written. -/
inductive Becomes : Option Shape → Option Shape → Prop where
  | same (shape : Option Shape) : Becomes shape shape
  | made : Becomes none (some .dir)
  | written (doc : Document) : Becomes none (some (.file doc))
  | rewritten (old new : Document) : Becomes (some (.file old)) (some (.file new))

/-- Between two disks directories were made and files were written. -/
structure Grows (before after : Disk) : Prop where
  cwd_eq : after.cwd = before.cwd
  becomes : ∀ place, Becomes (before.shape? place) (after.shape? place)

namespace Becomes

variable {before after : Option Shape}

theorem dir (h : Becomes before after) (hDir : before = some .dir) : after = some .dir := by
  subst hDir
  cases h
  rfl

theorem link (h : Becomes before after) {target : String} (hLink : before = some (.link target)) :
    after = some (.link target) := by
  subst hLink
  cases h
  rfl

theorem other (h : Becomes before after) {shape : Shape} (hShape : before = some shape)
    (hOther : ∀ target, shape ≠ .link target) :
    ∃ later, after = some later ∧ ∀ target, later ≠ .link target := by
  subst hShape
  cases h with
  | same => exact ⟨shape, rfl, hOther⟩
  | rewritten old new => exact ⟨.file new, rfl, by simp⟩

theorem new (h : Becomes before after) (hNone : before = none) :
    after = none ∨ ∃ later, after = some later ∧ ∀ target, later ≠ .link target := by
  subst hNone
  cases h with
  | same => exact Or.inl rfl
  | made => exact Or.inr ⟨.dir, rfl, by simp⟩
  | written doc => exact Or.inr ⟨.file doc, rfl, by simp⟩

end Becomes

section Grows

variable {before after : Disk} {ending : Ending} {links : Nat} {here todo place : List String}
variable {path : String}

/-- Segments that lead to a place go on leading there. -/
theorem Leads.grow (hGrows : Grows before after)
    (hLeads : before.Leads ending links here todo place) :
    after.Leads ending links here todo place := by
  induction hLeads with
  | arrive => exact .arrive
  | stay hDir hDots onward ih => exact .stay ((hGrows.becomes _).dir hDir) hDots ih
  | up hDir onward ih => exact .up ((hGrows.becomes _).dir hDir) ih
  | missing hDir hName hNone =>
      rcases (hGrows.becomes _).new hNone with hStill | ⟨later, hLater, hOther⟩
      · exact .missing ((hGrows.becomes _).dir hDir) hName hStill
      · exact .enter ((hGrows.becomes _).dir hDir) hName hLater hOther .arrive
  | enter hDir hName hShape hOther onward ih =>
      obtain ⟨later, hLater, hOther⟩ := (hGrows.becomes _).other hShape hOther
      exact .enter ((hGrows.becomes _).dir hDir) hName hLater hOther ih
  | halt hDir hName hLink hEntry =>
      exact .halt ((hGrows.becomes _).dir hDir) hName ((hGrows.becomes _).link hLink) hEntry
  | follow hDir hName hLink hOn hRoute onward ih =>
      exact .follow ((hGrows.becomes _).dir hDir) hName ((hGrows.becomes _).link hLink) hOn hRoute ih

theorem LeadsTo.grow (hGrows : Grows before after) (hLeads : before.LeadsTo ending path place) :
    after.LeadsTo ending path place := by
  obtain ⟨hFault, route, hRoute, hOnward⟩ := leadsTo_iff.mp hLeads
  rw [← hGrows.cwd_eq] at hOnward
  exact leadsTo_iff.mpr ⟨hFault, route, hRoute, hOnward.grow hGrows⟩

/-- What a path leads to stays there. -/
theorem Grows.isPresent (hGrows : Grows before after) (hPresent : before.isPresent path = true) :
    after.isPresent path = true := by
  obtain ⟨place, hLeads, hSome⟩ := isPresent_iff.mp hPresent
  refine isPresent_iff.mpr ⟨place, hLeads.grow hGrows, ?_⟩
  intro hNone
  have hPlace := hGrows.becomes place
  rw [hNone] at hPlace
  generalize before.shape? place = shape at hPlace hSome
  cases hPlace
  exact hSome rfl

end Grows

section Changes

variable {disk made : Disk} {path : String} {place : List String}

/-- Something with nothing in it takes the place of something that is no
directory. -/
theorem shape?_putAt {item : Item} {dir : List String} {name : String}
    (hDir : disk.shape? dir = some .dir) (hItem : item.IsBare)
    (hOld : disk.shape? (dir ++ [name]) ≠ some .dir) (place : List String) :
    shape? { disk with root := disk.root.putAt item (dir ++ [name]) } place =
      if place = dir ++ [name] then some item.shape else disk.shape? place := by
  obtain ⟨listing, hListing⟩ := shape?_eq_dir_iff.mp hDir
  refine Listing.shape_at?_putAt hListing hItem ?_ place
  rintro old hGet
  cases old with
  | dir below =>
      rw [shape?_concat hListing, hGet] at hOld
      exact absurd rfl hOld
  | file doc => trivial
  | link target => trivial

/-- A disk on which a place has changed. -/
structure ChangedAt (disk made : Disk) (place : List String) (shape : Shape) : Prop where
  cwd_eq : made.cwd = disk.cwd
  shape?_eq : ∀ other, made.shape? other = if other = place then some shape else disk.shape? other

theorem ChangedAt.self {shape : Shape} (hMade : ChangedAt disk made place shape) :
    made.shape? place = some shape := by
  rw [hMade.shape?_eq, if_pos rfl]

theorem ChangedAt.grows {shape : Shape} (hMade : ChangedAt disk made place shape)
    (hPlace : Becomes (disk.shape? place) (some shape)) : Grows disk made := by
  refine ⟨hMade.cwd_eq, fun other => ?_⟩
  rw [hMade.shape?_eq]
  split
  · rename_i hOther
    rw [hOther]
    exact hPlace
  · exact .same _

theorem locateEntry_eq (hPath : withoutSlashes path.toList = path.toList) :
    disk.locateEntry path = disk.locate .entry path := by
  rw [locateEntry, hPath]
  split
  · rename_i fault hFault
    rw [locate, hFault]
  · split
    · rfl
    · rw [String.ofList_toList]

theorem LeadsTo.target {ending : Ending} (hLeads : disk.LeadsTo ending path place)
    (hEnd : ending = .entry → ∀ target, disk.shape? place ≠ some (.link target)) :
    disk.LeadsTo .target path place := by
  obtain ⟨hFault, route, hRoute, hOnward⟩ := leadsTo_iff.mp hLeads
  exact leadsTo_iff.mpr ⟨hFault, route, hRoute, hOnward.target hEnd⟩

/-- What is no directory where a path leads is, or can be, the entry of one. -/
theorem LeadsTo.exists_dir {ending : Ending} (hLeads : disk.LeadsTo ending path place)
    (hPlace : disk.shape? place ≠ some .dir) :
    ∃ dir name, place = dir ++ [name] ∧ disk.shape? dir = some .dir := by
  obtain ⟨_, route, _, hOnward⟩ := leadsTo_iff.mp hLeads
  by_cases hNone : disk.shape? place = none
  · exact hOnward.exists_dir (by simp [hLeads.shape?_start]) hNone
  · rcases List.eq_nil_or_concat' place with rfl | ⟨dir, name, rfl⟩
    · exact absurd rfl hPlace
    · exact ⟨dir, name, rfl, shape?_dir_of_concat hNone⟩

/-- Only the place where a path leads changes when something is put there. -/
theorem LeadsTo.changedAt {ending : Ending} (hLeads : disk.LeadsTo ending path place)
    (hPlace : disk.shape? place ≠ some .dir) (item : Item) (hItem : item.IsBare) :
    ChangedAt disk { disk with root := disk.root.putAt item place } place item.shape := by
  obtain ⟨dir, name, rfl, hDir⟩ := hLeads.exists_dir hPlace
  exact ⟨rfl, shape?_putAt hDir hItem hPlace⟩

/-- A directory that is made was missing, and its path leads to it then. -/
theorem exists_of_makeDir (hPath : withoutSlashes path.toList = path.toList)
    (hMade : disk.makeDir path = .ok made) :
    ∃ place, disk.shape? place = none ∧ ChangedAt disk made place .dir ∧
      made.LeadsTo .target path place := by
  rw [makeDir, locateEntry_eq hPath] at hMade
  split at hMade
  · cases hMade
  · cases hMade
  · rename_i place hLocate
    cases hMade
    obtain ⟨hLeads, hItem⟩ := leadsTo_of_locate hLocate
    have hNone : disk.shape? place = none := shape?_eq_none_iff.mpr hItem.symm
    have hChanged := hLeads.changedAt (by simp [hNone]) (.dir .nil) rfl
    have hGrows : Grows disk _ := hChanged.grows (hNone ▸ .made)
    refine ⟨place, hNone, hChanged, (hLeads.grow hGrows).target fun _ target => ?_⟩
    rw [hChanged.self]
    simp [Item.shape]

/-- A file that is written takes no place but that of another file, and its
path leads to it then. -/
theorem exists_of_writeFile {doc : Document} (hMade : disk.writeFile path doc = .ok made) :
    ∃ place, Grows disk made ∧ ChangedAt disk made place (.file doc) ∧
      made.LeadsTo .target path place := by
  rw [writeFile] at hMade
  split at hMade
  · cases hMade
  · cases hMade
  · rename_i place found hOther hLocate
    cases hMade
    obtain ⟨hLeads, hItem⟩ := leadsTo_of_locate hLocate
    have hDir : disk.shape? place ≠ some .dir := by
      intro hDir
      obtain ⟨listing, hListing⟩ := shape?_eq_dir_iff.mp hDir
      exact hOther listing (hItem.trans hListing)
    have hLink : ∀ target, disk.shape? place ≠ some (.link target) := by
      obtain ⟨_, route, _, hOnward⟩ := leadsTo_iff.mp hLeads
      exact hOnward.not_link (by simp) (by simp [hLeads.shape?_start])
    have hChanged := hLeads.changedAt hDir (.file doc) trivial
    have hGrows : Grows disk _ := hChanged.grows (by
      cases hShape : disk.shape? place with
      | none => exact .written doc
      | some shape =>
          cases shape with
          | dir => exact absurd hShape hDir
          | link target => exact absurd hShape (hLink target)
          | file old => exact .rewritten old doc)
    exact ⟨place, hGrows, hChanged, (hLeads.grow hGrows).target (by simp)⟩

end Changes

/-- At a place is the directory of one of some paths, and nothing was there. -/
def IsNewDir (before after : Disk) (paths : List String) (place : List String) : Prop :=
  before.shape? place = none ∧ after.shape? place = some .dir ∧
    ∃ path ∈ paths, after.LeadsTo .target path place

/-- Nothing is different on the second disk but that there are directories of
some paths that were missing. -/
structure GainsDirs (before after : Disk) (paths : List String) : Prop where
  cwd_eq : after.cwd = before.cwd
  places : ∀ place,
    after.shape? place = before.shape? place ∨ IsNewDir before after paths place

namespace GainsDirs

variable {before ready after : Disk} {path : String} {paths outer : List String}

theorem refl (disk : Disk) (paths : List String) : GainsDirs disk disk paths :=
  ⟨rfl, fun _ => Or.inl rfl⟩

theorem grows (hGains : GainsDirs before after paths) : Grows before after := by
  refine ⟨hGains.cwd_eq, fun place => ?_⟩
  rcases hGains.places place with hSame | ⟨hNone, hDir, _⟩
  · rw [hSame]
    exact .same _
  · rw [hNone, hDir]
    exact .made

theorem cons (hGains : GainsDirs before after outer) (path : String) :
    GainsDirs before after (path :: outer) := by
  refine ⟨hGains.cwd_eq, fun place => ?_⟩
  rcases hGains.places place with hSame | ⟨hNone, hDir, other, hOther, hLeads⟩
  · exact Or.inl hSame
  · exact Or.inr ⟨hNone, hDir, other, List.mem_cons_of_mem path hOther, hLeads⟩

/-- One directory more. -/
theorem makeDir (hGains : GainsDirs before ready outer)
    (hPath : withoutSlashes path.toList = path.toList) (hMade : ready.makeDir path = .ok after) :
    GainsDirs before after (path :: outer) := by
  obtain ⟨made, hMissing, hChanged, hMadeLeads⟩ := exists_of_makeDir hPath hMade
  have hGrows : Grows ready after := hChanged.grows (hMissing ▸ .made)
  refine ⟨hGrows.cwd_eq.trans hGains.cwd_eq, fun place => ?_⟩
  by_cases hPlace : place = made
  · subst hPlace
    -- what is missing now was missing all along
    have hBefore : before.shape? place = none := by
      rcases hGains.places place with hSame | ⟨hNone, _⟩
      · rw [← hSame, hMissing]
      · exact hNone
    exact Or.inr ⟨hBefore, hChanged.self, path, List.mem_cons_self, hMadeLeads⟩
  · have hSame : after.shape? place = ready.shape? place := by
      rw [hChanged.shape?_eq, if_neg hPlace]
    rcases hGains.places place with hOld | ⟨hNone, hDir, other, hOther, hLeads⟩
    · exact Or.inl (hSame.trans hOld)
    · exact Or.inr ⟨hNone, hSame.trans hDir, other, List.mem_cons_of_mem path hOther,
        hLeads.grow hGrows⟩

end GainsDirs

/-- Everything that making nested directories can do: the first is made at
once, or nothing is done, or those around it are made before it is tried
again. -/
inductive NestedRun (disk : Disk) (path : String) (outer : List String) :
    Disk → Except Fault Unit → Prop where
  | atOnce {after : Disk} (hMade : disk.makeDir path = .ok after) :
      NestedRun disk path outer after (.ok ())
  | idle {outcome : Except Fault Unit} : NestedRun disk path outer disk outcome
  | outerFails {ready : Disk} {fault : Fault}
      (hAround : disk.makeNested outer = (ready, .error fault)) :
      NestedRun disk path outer ready (.error fault)
  | inside {ready after : Disk} (hMissing : disk.makeDir path = .error .notFound)
      (hAround : disk.makeNested outer = (ready, .ok ())) (hMade : ready.makeDir path = .ok after) :
      NestedRun disk path outer after (.ok ())
  | innerFails {ready : Disk} {outcome : Except Fault Unit}
      (hMissing : disk.makeDir path = .error .notFound)
      (hAround : disk.makeNested outer = (ready, .ok ()))
      (hNone : ∀ made, ready.makeDir path ≠ .ok made)
      (hDir : outcome = .ok () → ready.isDir path = true) :
      NestedRun disk path outer ready outcome

section Nested

variable {disk after : Disk} {path : String} {paths outer : List String}
variable {outcome : Except Fault Unit}

theorem nestedRun (hRun : disk.makeNested (path :: outer) = (after, outcome)) :
    NestedRun disk path outer after outcome := by
  rw [makeNested] at hRun
  split at hRun
  · rename_i hMade
    cases hRun
    exact .atOnce hMade
  · rename_i hMissing
    split at hRun
    · rename_i hAround
      cases hRun
      exact .outerFails hAround
    · rename_i ready hAround
      split at hRun
      · rename_i hMade
        cases hRun
        exact .inside hMissing hAround hMade
      · rename_i hFault
        have hNone : ∀ made, ready.makeDir path ≠ .ok made := by simp [hFault]
        split at hRun
        · rename_i hDir
          cases hRun
          exact .innerFails hMissing hAround hNone fun _ => hDir
        · cases hRun
          exact .innerFails hMissing hAround hNone fun hOk => by cases hOk
  · split at hRun
    · cases hRun
      exact .idle
    · cases hRun
      exact .idle

/-- Making nested directories does nothing but make those that are missing. -/
theorem gainsDirs_makeNested (hPaths : ∀ path ∈ paths, withoutSlashes path.toList = path.toList)
    (hRun : disk.makeNested paths = (after, outcome)) : GainsDirs disk after paths := by
  induction paths generalizing after outcome with
  | nil =>
      cases hRun
      exact .refl disk []
  | cons path outer ih =>
      obtain ⟨hPath, hOuter⟩ := List.forall_mem_cons.mp hPaths
      cases nestedRun hRun with
      | atOnce hMade => exact (GainsDirs.refl disk outer).makeDir hPath hMade
      | idle => exact .refl disk _
      | outerFails hAround => exact (ih hOuter hAround).cons path
      | inside hMissing hAround hMade => exact (ih hOuter hAround).makeDir hPath hMade
      | innerFails hMissing hAround hNone hDir => exact (ih hOuter hAround).cons path

/-- Where a directory is there, nothing is made. -/
theorem makeNested_of_isDir (hPath : withoutSlashes path.toList = path.toList)
    (hDir : disk.isDir path = true) (outer : List String) :
    disk.makeNested (path :: outer) = (disk, .ok ()) := by
  obtain ⟨place, hLeads, hPlace⟩ := isDir_iff.mp hDir
  obtain ⟨hFault, route, hRoute, hOnward⟩ := leadsTo_iff.mp hLeads
  -- the entry can be a link to the directory, which is in the way all the same
  obtain ⟨entry, hEntry, hSome⟩ := hOnward.exists_entry (by simp [hPlace])
  obtain ⟨item, hItem⟩ := Option.ne_none_iff_exists'.mp (mt shape?_eq_none_iff.mpr hSome)
  have hLocate : disk.locateEntry path = .ok (entry, some item) := by
    rw [locateEntry_eq hPath, ← hItem]
    exact leadsTo_iff.mpr ⟨hFault, route, hRoute, hEntry⟩
  have hExists : disk.makeDir path = .error .fileExists := by rw [makeDir, hLocate]
  rw [makeNested, hExists]
  simp [hDir]

end Nested

end SymbolMap.Disk
