import SymbolMap.Proofs.Disk.Growth
import SymbolMap.Proofs.Text.Offsets

/-! The directories that a path runs through. Where a path leads to something
they are all there, and none is made. On a path that never leads upwards the
first one that is made is new and empty, so all others can be made in it. -/
namespace SymbolMap

open SymbolMap.Path SymbolMap.Text

namespace Path

/-- The path of segments, the last one first. -/
def ofReversed (segs : List (List Char)) : String := String.ofList (ofSegments segs.reverse)

/-- The beginnings of a path that end in a step, the longest first. The
segments of each come with the last one first. -/
def stepTails (segs : List (List Char)) : List (List (List Char)) :=
  (tails segs).filter endsInStep

theorem stepTails_cons (seg : List Char) (outer : List (List Char)) :
    stepTails (seg :: outer) =
      if endsInStep (seg :: outer) then (seg :: outer) :: stepTails outer else stepTails outer := by
  rw [stepTails, tails, List.filter_cons]
  rfl

theorem exists_of_mem_stepTails {segs all : List (List Char)} (hSegs : segs ∈ stepTails all) :
    ∃ front seg outer, all = front ++ segs ∧ segs = seg :: outer ∧ seg ≠ [] := by
  induction all with
  | nil => cases hSegs
  | cons first rest ih =>
      rw [stepTails_cons] at hSegs
      split at hSegs
      · rename_i hStep
        rcases List.mem_cons.mp hSegs with rfl | hRest
        · refine ⟨[], first, rest, rfl, rfl, ?_⟩
          rintro rfl
          simp [endsInStep] at hStep
        · obtain ⟨front, seg, outer, hAll, h⟩ := ih hRest
          exact ⟨first :: front, seg, outer, by rw [hAll]; rfl, h⟩
      · obtain ⟨front, seg, outer, hAll, h⟩ := ih hSegs
        exact ⟨first :: front, seg, outer, by rw [hAll]; rfl, h⟩

theorem toList_ofReversed_cons {outer : List (List Char)} (hOuter : outer ≠ []) (seg : List Char) :
    (ofReversed (seg :: outer)).toList = (ofReversed outer).toList ++ '/' :: seg := by
  have hReverse : outer.reverse ≠ [] := by simpa using hOuter
  have hJoin := joinWith_append '/' hReverse (List.cons_ne_nil seg [])
  simpa [ofReversed, ofSegments, joinWith] using hJoin

theorem getLast?_ofReversed {seg : List Char} (hSeg : seg ≠ []) (outer : List (List Char)) :
    (ofReversed (seg :: outer)).toList.getLast? = seg.getLast? := by
  rw [ofReversed, String.toList_ofList, ofSegments, getLast?_joinWith (by simp) hSeg]

theorem ofReversed_ne_empty {seg : List Char} (hSeg : seg ≠ []) (outer : List (List Char)) :
    ofReversed (seg :: outer) ≠ "" := by
  intro hEmpty
  have hLast := getLast?_ofReversed hSeg outer
  rw [hEmpty] at hLast
  exact hSeg (List.getLast?_eq_none_iff.mp hLast.symm)

/-- A path that ends in a segment has no slash at its end. -/
theorem withoutSlashes_ofReversed {seg : List Char} (hSeg : seg ≠ []) (hSlash : '/' ∉ seg)
    (outer : List (List Char)) :
    withoutSlashes (ofReversed (seg :: outer)).toList = (ofReversed (seg :: outer)).toList := by
  obtain ⟨c, hLast⟩ := Option.ne_none_iff_exists'.mp (mt List.getLast?_eq_none_iff.mp hSeg)
  refine dropEndWhile_of_getLast? ((getLast?_ofReversed hSeg outer).trans hLast) ?_
  have hNe : c ≠ '/' := fun h => hSlash (h ▸ List.mem_of_getLast? hLast)
  simpa using hNe

section Parents

variable {path dir name : String} {above : List (List Char)}

/-- The last segment of the path of something in a directory is its name. -/
theorem exists_segments_child (dir : String) (hName : IsEntryName name) :
    ∃ above, segments (child dir name).toList = above ++ [name.toList] := by
  have hOne : segments name.toList = [name.toList] := splitAt_of_not_mem hName.2.1
  by_cases hDir : dir = ""
  · exact ⟨[], by simp [hDir, child, hOne]⟩
  · obtain ⟨lead, hChild, _⟩ := exists_child_eq hDir name
    exact ⟨segments lead, by rw [hChild, segments_append, hOne]⟩

-- a path that ends in a name, and what stands before the name
variable (hPath : segments path.toList = above ++ [name.toList])
include hPath

theorem slash_not_mem_above : ∀ seg ∈ above, '/' ∉ seg := by
  intro seg hSeg
  have hMem : seg ∈ segments path.toList := by simp [hPath, hSeg]
  exact slash_not_mem_of_mem_segments hMem

theorem ofReversed_eq : ofReversed (name.toList :: above.reverse) = path := by
  rw [ofReversed, List.reverse_cons, List.reverse_reverse, ← hPath, ofSegments_segments,
    String.ofList_toList]

variable (hName : IsEntryName name)
include hName

/-- The directories that a path runs through are the beginnings, up to a step,
of what stands before its name. -/
theorem parents_eq : parents path = (stepTails above.reverse).map ofReversed := by
  have hStep : endsInStep (name.toList :: above.reverse) = true := by
    have hDot : name.toList ≠ ['.'] := fun h => hName.2.2.1 (String.toList_inj.mp h)
    simp [endsInStep, hName.1, hDot]
  rw [parents, hPath, List.reverse_append, List.reverse_singleton, List.singleton_append, tails,
    List.filter_cons, if_pos hStep]
  rfl

/-- A directory that a path runs through is written in it up to a slash. -/
theorem exists_more_of_mem_parents (hDir : dir ∈ parents path) :
    dir ≠ "" ∧ withoutSlashes dir.toList = dir.toList ∧
      ∃ more, path.toList = dir.toList ++ '/' :: more := by
  rw [parents_eq hPath hName] at hDir
  obtain ⟨segs, hSegs, rfl⟩ := List.mem_map.mp hDir
  obtain ⟨front, seg, outer, hAbove, rfl, hSeg⟩ := exists_of_mem_stepTails hSegs
  have hMem : seg ∈ above := by
    rw [← List.mem_reverse, hAbove]
    simp
  refine ⟨ofReversed_ne_empty hSeg outer,
    withoutSlashes_ofReversed hSeg (slash_not_mem_above hPath seg hMem) outer,
    ofSegments (front.reverse ++ [name.toList]), ?_⟩
  have hAll : segments path.toList =
      (seg :: outer).reverse ++ (front.reverse ++ [name.toList]) := by
    rw [hPath, ← List.append_assoc, ← List.reverse_append, ← hAbove, List.reverse_reverse]
  have hJoin : ofSegments ((seg :: outer).reverse ++ (front.reverse ++ [name.toList])) =
      ofSegments (seg :: outer).reverse ++ '/' :: ofSegments (front.reverse ++ [name.toList]) :=
    joinWith_append '/' (by simp) (by simp)
  rw [← ofSegments_segments path.toList, hAll, hJoin, ofReversed, String.toList_ofList]

end Parents

end Path

namespace Disk

theorem pathFault?_eq_none_iff (path : List Char) :
    pathFault? path = none ↔ (∀ c ∈ path, c.toNat ≠ 0) ∧ octetLength path ≤ pathLimit := by
  rw [pathFault?]
  split
  · rename_i hNul
    simp only [List.any_eq_true, beq_iff_eq] at hNul
    simp only [reduceCtorEq, false_iff, not_and_or]
    exact Or.inl (by simpa using hNul)
  · rename_i hNul
    simp only [List.any_eq_true, beq_iff_eq] at hNul
    split <;> rename_i hLong <;> grind

/-- The route along a path goes along its beginning, and begins where that
does. -/
theorem route?_append {path dir : String} {more : List Char} (hDir : dir ≠ "")
    (hPath : path.toList = dir.toList ++ '/' :: more) :
    route? path = some ((segments dir.toList ++ segments more).map String.ofList) ∧
      ∀ here, startOf here path = startOf here dir := by
  have hNe : path ≠ "" := by
    rintro rfl
    simp at hPath
  have hHead : path.toList.head? = dir.toList.head? := by
    rw [hPath, List.head?_append_of_ne_nil _ (by simpa using hDir)]
  refine ⟨?_, fun here => ?_⟩
  · rw [route?_eq_some_iff, hPath, segments_append]
    exact ⟨hNe, rfl⟩
  · rw [startOf, startOf, isAbsolute, isAbsolute, hHead]

section Parents

variable {disk after : Disk} {path dir name : String} {above : List (List Char)}
variable {outcome : Except Fault Unit}
variable (hPath : segments path.toList = above ++ [name.toList]) (hName : IsEntryName name)
include hPath hName

/-- Where a path leads to something, the directories that it runs through are
there. -/
theorem isDir_of_mem_parents (hPresent : disk.isPresent path = true) (hDir : dir ∈ parents path) :
    disk.isDir dir = true := by
  obtain ⟨hNe, _, more, hMore⟩ := exists_more_of_mem_parents hPath hName hDir
  obtain ⟨place, hLeads, _⟩ := isPresent_iff.mp hPresent
  obtain ⟨hFault, route, hRoute, hOnward⟩ := leadsTo_iff.mp hLeads
  obtain ⟨hWhole, hStart⟩ := route?_append hNe hMore
  rw [hWhole, List.map_append] at hRoute
  cases hRoute
  rw [hStart] at hOnward
  obtain ⟨between, hBetween, hShape⟩ :=
    hOnward.exists_dir_between (by simpa using segments_ne_nil more)
  have hFirst := (route?_eq_some_iff dir _).mpr ⟨hNe, rfl⟩
  have hFaultDir : pathFault? dir.toList = none := by
    rw [pathFault?_eq_none_iff, hMore, octetLength_append] at hFault
    exact (pathFault?_eq_none_iff _).mpr
      ⟨fun c hc => hFault.1 c (List.mem_append_left _ hc), by omega⟩
  exact isDir_iff.mpr ⟨between, leadsTo_iff.mpr ⟨hFaultDir, _, hFirst, hBetween⟩, hShape⟩

/-- Where a path leads to something, no directory is made. -/
theorem makeParents_of_isPresent (hPresent : disk.isPresent path = true) :
    disk.makeParents path = (disk, .ok ()) := by
  rw [makeParents]
  cases hParents : parents path with
  | nil => rfl
  | cons dir outer =>
      have hDir : dir ∈ parents path := by simp [hParents]
      exact makeNested_of_isDir (exists_more_of_mem_parents hPath hName hDir).2.1
        (isDir_of_mem_parents hPath hName hPresent hDir) outer

/-- Making the directories that a path runs through does nothing else. -/
theorem gainsDirs_makeParents (hRun : disk.makeParents path = (after, outcome)) :
    GainsDirs disk after (parents path) :=
  gainsDirs_makeNested (fun _ hDir => (exists_more_of_mem_parents hPath hName hDir).2.1) hRun

end Parents

/-- A path, as segments with the last one first, leads to an empty
directory. -/
def LeadsToEmpty (disk : Disk) (segs : List (List Char)) : Prop :=
  (∀ c ∈ (ofReversed segs).toList, c.toNat ≠ 0) ∧
    ∃ route place, route? (ofReversed segs) = some route ∧
      disk.Leads .target linkLimit (startOf disk.cwd (ofReversed segs)) route place ∧
      disk.shape? place = some .dir ∧ ∀ name, disk.shape? (place ++ [name]) = none

namespace LeadsToEmpty

variable {disk made : Disk} {segs outer : List (List Char)} {seg : List Char} {name : String}

/-- A directory that was just made is empty. -/
theorem of_makeDir (hPath : withoutSlashes (ofReversed segs).toList = (ofReversed segs).toList)
    (hMade : disk.makeDir (ofReversed segs) = .ok made) : made.LeadsToEmpty segs := by
  obtain ⟨place, hMissing, hChanged, hLeads⟩ := exists_of_makeDir hPath hMade
  obtain ⟨hFault, route, hRoute, hOnward⟩ := leadsTo_iff.mp hLeads
  refine ⟨((pathFault?_eq_none_iff _).mp hFault).1, route, place, hRoute, hOnward, hChanged.self,
    fun name => ?_⟩
  rw [hChanged.shape?_eq, if_neg (by simp)]
  by_contra hSome
  rw [shape?_dir_of_concat hSome] at hMissing
  cases hMissing

theorem ne_nil (hEmpty : disk.LeadsToEmpty outer) : outer ≠ [] := by
  rintro rfl
  obtain ⟨_, route, _, hRoute, _⟩ := hEmpty
  cases hRoute

/-- With one segment more a route goes one name further. -/
theorem route?_cons (hOuter : outer ≠ []) (hSlash : '/' ∉ seg) {route : List String}
    (hRoute : route? (ofReversed outer) = some route) :
    route? (ofReversed (seg :: outer)) = some (route ++ [String.ofList seg]) ∧
      ∀ here, startOf here (ofReversed (seg :: outer)) = startOf here (ofReversed outer) := by
  have hOne : segments seg = [seg] := splitAt_of_not_mem hSlash
  obtain ⟨hNe, rfl⟩ := (route?_eq_some_iff _ _).mp hRoute
  obtain ⟨hWhole, hStart⟩ := route?_append hNe (toList_ofReversed_cons hOuter seg)
  refine ⟨?_, hStart⟩
  rw [hWhole, hOne, List.map_append, List.map_singleton]

theorem not_nul_cons (hOuter : outer ≠ []) (hNul : ∀ c ∈ (ofReversed outer).toList, c.toNat ≠ 0)
    (hSeg : ∀ c ∈ seg, c.toNat ≠ 0) : ∀ c ∈ (ofReversed (seg :: outer)).toList, c.toNat ≠ 0 := by
  intro c hc
  rw [toList_ofReversed_cons hOuter, List.mem_append, List.mem_cons] at hc
  rcases hc with hc | rfl | hc
  · exact hNul c hc
  · decide
  · exact hSeg c hc

/-- Segments that stay in place lead no further. -/
theorem stay (hEmpty : disk.LeadsToEmpty outer)
    (hSeg : seg = [] ∨ seg = ['.']) : disk.LeadsToEmpty (seg :: outer) := by
  have hOuter := hEmpty.ne_nil
  obtain ⟨hNul, route, place, hRoute, hOnward, hDir, hNone⟩ := hEmpty
  have hSlash : '/' ∉ seg := by rcases hSeg with rfl | rfl <;> simp
  have hStay : String.ofList seg = "" ∨ String.ofList seg = "." := by
    rcases hSeg with rfl | rfl <;> simp
  have hNulSeg : ∀ c ∈ seg, c.toNat ≠ 0 := by rcases hSeg with rfl | rfl <;> simp
  obtain ⟨hWhole, hStart⟩ := route?_cons hOuter hSlash hRoute
  refine ⟨not_nul_cons hOuter hNul hNulSeg, _, place, hWhole, ?_, hDir, hNone⟩
  rw [hStart]
  exact hOnward.append (by simp [hDir]) (by simp) fun _ => .stay hDir hStay .arrive

/-- In an empty directory a name leads to nothing that is there. -/
theorem not_isPresent (hEmpty : disk.LeadsToEmpty outer) (hName : IsEntryName name) :
    disk.isPresent (ofReversed (name.toList :: outer)) ≠ true := by
  have hOuter := hEmpty.ne_nil
  obtain ⟨hNul, route, place, hRoute, hOnward, hDir, hNone⟩ := hEmpty
  intro hPresent
  obtain ⟨finish, hLeads, hSome⟩ := isPresent_iff.mp hPresent
  obtain ⟨_, whole, hWhole, hFinish⟩ := leadsTo_iff.mp hLeads
  obtain ⟨hCons, hStart⟩ := route?_cons hOuter hName.2.1 hRoute
  rw [hCons, String.ofList_toList] at hWhole
  cases hWhole
  rw [hStart] at hFinish
  obtain ⟨listing, hListing⟩ := shape?_eq_dir_iff.mp hDir
  have hFound := hOnward.resolve_eq
  rw [hListing] at hFound
  obtain ⟨_, links, hRest⟩ := resolve_onward hFound
  -- only the name is left to follow, in a directory without entries
  have hLast := (leads_of_resolve ((hRest [name]).symm.trans hFinish.resolve_eq)).1
  cases hLast with
  | stay _ hStay _ =>
      rcases hStay with hStay | hStay
      · exact hName.1 hStay
      · exact hName.2.2.1 hStay
  | up => exact hName.2.2.2 rfl
  | missing _ _ hMissing => exact hSome hMissing
  | enter _ _ hShape => simp [hNone] at hShape
  | halt _ _ hLink => simp [hNone] at hLink
  | follow _ _ hLink => simp [hNone] at hLink

/-- In an empty directory a name leads to where something can be made. -/
theorem exists_missing (hEmpty : disk.LeadsToEmpty outer) (hName : IsEntryName name)
    (hShort : octetLength name.toList ≤ nameLimit)
    (hFault : pathFault? (ofReversed (name.toList :: outer)).toList = none) (ending : Ending) :
    ∃ place, disk.LeadsTo ending (ofReversed (name.toList :: outer)) place ∧
      disk.shape? place = none := by
  have hOuter := hEmpty.ne_nil
  obtain ⟨hNul, route, place, hRoute, hOnward, hDir, hNone⟩ := hEmpty
  obtain ⟨hWhole, hStart⟩ := route?_cons hOuter hName.2.1 hRoute
  rw [String.ofList_toList] at hWhole
  have hLooked : IsLookedUp ending name [] :=
    ⟨hName.1, hName.2.2.1, hName.2.2.2, hShort, fun _ hNe => absurd rfl hNe⟩
  have hLeads := hOnward.append (by simp [hDir]) (fun _ => ⟨name, by simp, hName.1⟩)
    fun _ => .missing hDir hLooked (hNone name)
  rw [← hStart] at hLeads
  exact ⟨_, leadsTo_iff.mpr ⟨hFault, _, hWhole, hLeads⟩, hNone name⟩

end LeadsToEmpty

section Fresh

variable {disk after : Disk} {segs outer : List (List Char)} {seg : List Char} {name : String}
variable {outcome : Except Fault Unit}

theorem pathFault?_of_makeDir {path : String} (hMissing : disk.makeDir path = .error .notFound) :
    pathFault? path.toList = none := by
  cases hFault : pathFault? path.toList with
  | none => rfl
  | some fault =>
      have hLocate : disk.locateEntry path = .error fault := by rw [locateEntry, hFault]
      rw [makeDir, hLocate] at hMissing
      cases hMissing
      rw [pathFault?] at hFault
      split at hFault
      · cases hFault
      · split at hFault <;> cases hFault

theorem isPresent_of_isDir {path : String} (hDir : disk.isDir path = true) :
    disk.isPresent path = true := by
  obtain ⟨place, hLeads, hPlace⟩ := isDir_iff.mp hDir
  exact isPresent_iff.mpr ⟨place, hLeads, by simp [hPlace]⟩

/-- A directory can be made under a short name in an empty one. -/
theorem LeadsToEmpty.exists_makeDir (hEmpty : disk.LeadsToEmpty outer) (hName : IsEntryName name)
    (hShort : octetLength name.toList ≤ nameLimit)
    (hFault : pathFault? (ofReversed (name.toList :: outer)).toList = none) :
    ∃ made, disk.makeDir (ofReversed (name.toList :: outer)) = .ok made := by
  obtain ⟨place, hLeads, hNone⟩ := hEmpty.exists_missing hName hShort hFault .entry
  have hFilled : name.toList ≠ [] := by simpa using hName.1
  have hLocate : disk.locateEntry (ofReversed (name.toList :: outer)) = .ok (place, none) := by
    rw [locateEntry_eq (withoutSlashes_ofReversed hFilled hName.2.1 outer),
      ← shape?_eq_none_iff.mp hNone]
    exact hLeads
  exact ⟨_, by rw [makeDir, hLocate]⟩

/-- Where no directory can be made in an empty one, there is none, and its name
is too long. -/
theorem LeadsToEmpty.long_of_not_makeDir (hEmpty : disk.LeadsToEmpty outer)
    (hName : IsEntryName name)
    (hFault : pathFault? (ofReversed (name.toList :: outer)).toList = none)
    (hNot : ∀ made, disk.makeDir (ofReversed (name.toList :: outer)) ≠ .ok made) :
    disk.isDir (ofReversed (name.toList :: outer)) ≠ true ∧
      nameLimit < octetLength name.toList := by
  constructor
  · intro hDir
    exact hEmpty.not_isPresent hName (isPresent_of_isDir hDir)
  · by_contra hShort
    obtain ⟨made, hMade⟩ := hEmpty.exists_makeDir hName (Nat.not_lt.mp hShort) hFault
    exact hNot made hMade

/-- Directories were made down to the innermost one, which is empty then, or
none was made. Only a name that is too long can come between. -/
def AllOrNone (disk after : Disk) (segs : List (List Char)) (outcome : Except Fault Unit) : Prop :=
  after = disk ∨ (outcome = .ok () → after.LeadsToEmpty segs) ∧
    ((∀ seg ∈ segs, octetLength seg ≤ nameLimit) → outcome = .ok ())

/-- A segment that stays in place asks for no directory of its own. -/
theorem AllOrNone.stay (hOuter : AllOrNone disk after outer outcome)
    (hStay : ¬endsInStep (seg :: outer) = true) : AllOrNone disk after (seg :: outer) outcome := by
  rcases hOuter with hSame | ⟨hEmpty, hShort⟩
  · exact Or.inl hSame
  · refine Or.inr ⟨fun hOk => (hEmpty hOk).stay ?_, fun hAll =>
      hShort fun s hs => hAll s (List.mem_cons_of_mem _ hs)⟩
    exact or_iff_not_imp_left.mpr (by simpa [endsInStep, (hEmpty hOk).ne_nil] using hStay)

/-- What holds of the directories around one holds with it, unless it leads
upwards. -/
theorem allOrNone_cons (hStep : endsInStep (seg :: outer) = true) (hUp : seg ≠ ['.', '.'])
    (hSlash : '/' ∉ seg) {paths : List String}
    (hOuter : ∀ {ready around}, disk.makeNested paths = (ready, around) →
      AllOrNone disk ready outer around)
    (hRun : disk.makeNested (ofReversed (seg :: outer) :: paths) = (after, outcome)) :
    AllOrNone disk after (seg :: outer) outcome := by
  obtain ⟨hFilled, hDot⟩ : seg ≠ [] ∧ (seg ≠ ['.'] ∨ outer = []) := by
    simpa [endsInStep] using hStep
  have hEnd := withoutSlashes_ofReversed hFilled hSlash outer
  cases nestedRun hRun with
  | atOnce hMade => exact Or.inr ⟨fun _ => .of_makeDir hEnd hMade, fun _ => rfl⟩
  | idle => exact Or.inl rfl
  | outerFails hAround =>
      rcases hOuter hAround with hSame | ⟨_, hShort⟩
      · exact Or.inl hSame
      · exact Or.inr ⟨(fun hOk => by cases hOk), fun hAll =>
          hShort fun s hs => hAll s (List.mem_cons_of_mem _ hs)⟩
  | inside hMissing hAround hMade => exact Or.inr ⟨fun _ => .of_makeDir hEnd hMade, fun _ => rfl⟩
  | innerFails hMissing hAround hNone hDir =>
      rcases hOuter hAround with hSame | ⟨hReady, _⟩
      · exact Or.inl hSame
      · -- the directory around is new, so a failure here is one of the name
        have hEmpty := hReady rfl
        obtain ⟨name, rfl⟩ : ∃ name : String, seg = name.toList :=
          ⟨String.ofList seg, (String.toList_ofList).symm⟩
        have hName : IsEntryName name :=
          ⟨by simpa using hFilled, hSlash,
            fun h => hDot.resolve_right hEmpty.ne_nil (by rw [h]; rfl),
            fun h => hUp (by rw [h]; rfl)⟩
        obtain ⟨hNoDir, hLong⟩ :=
          hEmpty.long_of_not_makeDir hName (pathFault?_of_makeDir hMissing) hNone
        exact Or.inr ⟨fun hDone => absurd (hDir hDone) hNoDir, fun hAll =>
          absurd (hAll _ List.mem_cons_self) (Nat.not_le.mpr hLong)⟩

/-- On a path that never leads upwards either all missing directories are made
or none, unless a name is too long. -/
theorem allOrNone_makeNested (hUp : ['.', '.'] ∉ segs) (hSlash : ∀ seg ∈ segs, '/' ∉ seg)
    (hRun : disk.makeNested ((stepTails segs).map ofReversed) = (after, outcome)) :
    AllOrNone disk after segs outcome := by
  induction segs generalizing after outcome with
  | nil =>
      cases hRun
      exact Or.inl rfl
  | cons seg outer ih =>
      obtain ⟨hHere, hAbove⟩ : seg ≠ ['.', '.'] ∧ ['.', '.'] ∉ outer := by
        simpa [eq_comm] using hUp
      obtain ⟨hSegSlash, hOuterSlash⟩ := List.forall_mem_cons.mp hSlash
      rw [stepTails_cons] at hRun
      split at hRun
      · rename_i hStep
        exact allOrNone_cons hStep hHere hSegSlash (ih hAbove hOuterSlash) hRun
      · rename_i hStay
        exact (ih hAbove hOuterSlash hRun).stay hStay

/-- So it is for the directories that a path runs through. -/
theorem allOrNone_makeParents {path name : String} {above : List (List Char)}
    (hPath : segments path.toList = above ++ [name.toList]) (hName : IsEntryName name)
    (hUp : ['.', '.'] ∉ above) (hRun : disk.makeParents path = (after, outcome)) :
    AllOrNone disk after above.reverse outcome := by
  rw [makeParents, parents_eq hPath hName] at hRun
  exact allOrNone_makeNested (by simpa using hUp)
    (fun seg hSeg => slash_not_mem_above hPath seg (List.mem_reverse.mp hSeg)) hRun

end Fresh

end Disk

end SymbolMap
