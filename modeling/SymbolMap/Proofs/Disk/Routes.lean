import SymbolMap.Disk.Basic
import SymbolMap.Proofs.Disk.Places
import SymbolMap.Proofs.Path.Names
import SymbolMap.Scan

/-! Following a path in two parts. What a path and further names lead to is
what the names lead to from the place of the path. So a file below a directory
is found under the path of the directory and the names together. -/
namespace SymbolMap

open SymbolMap.Path SymbolMap.Text

namespace Path

/-- The path of something in a directory is made of the path of the directory,
up to a slash at its end, a slash, and the rest. -/
theorem exists_child_eq {dir : String} (hDir : dir ≠ "") (name : String) :
    ∃ lead, (child dir name).toList = lead ++ '/' :: name.toList ∧
      (dir.toList = lead ∨ dir.toList = lead ++ ['/']) := by
  have hSome : dir.isEmpty = false := by simpa using hDir
  by_cases hSlash : dir.toList.getLast? = some '/'
  · obtain ⟨lead, hLead⟩ := List.getLast?_eq_some_iff.mp hSlash
    exact ⟨lead, by simp [child, hLead], Or.inr hLead⟩
  · exact ⟨dir.toList, by simp [child, hSome, hSlash], Or.inl rfl⟩

/-- Something in a directory is reached from the top of the file system just as
the directory is. -/
theorem isAbsolute_child {dir : String} (hDir : dir ≠ "") (name : String) :
    isAbsolute (child dir name) = isAbsolute dir := by
  obtain ⟨lead, hChild, hLead⟩ := exists_child_eq hDir name
  rw [isAbsolute, isAbsolute, hChild]
  rcases hLead with hLead | hLead
  · have hNe : lead ≠ [] := by simpa [← hLead] using hDir
    rw [hLead, List.head?_append_of_ne_nil _ hNe]
  · rw [hLead]
    cases lead <;> simp

end Path

/-- The path of a directory in front changes nothing about the language of a
file. -/
theorem Language.ofPath_child (dir : String) {names : List String} (hNe : names ≠ [])
    (hNames : ∀ name ∈ names, IsStep name) :
    Language.ofPath (child dir (ofNames names)) = Language.ofPath (ofNames names) := by
  have hLast : (components (child dir (ofNames names)).toList).getLast? =
      (components (ofNames names).toList).getLast? := by
    by_cases hDir : dir = ""
    · simp [hDir, child]
    · obtain ⟨lead, hChild, _⟩ := exists_child_eq hDir (ofNames names)
      rw [hChild, components_append, components_ofNames hNames,
        List.getLast?_append_of_ne_nil _ hNe]
  rw [Language.ofPath, Language.ofPath, extension?, extension?, fileName?, fileName?, hLast]

theorem Listing.at?_append {listing below : Listing} {first : List String}
    (hFirst : listing.at? first = some (.dir below)) (second : List String) :
    listing.at? (first ++ second) = below.at? second := by
  induction first generalizing listing with
  | nil =>
      cases hFirst
      rfl
  | cons name first ih =>
      rw [at?] at hFirst
      rw [List.cons_append, at?]
      split at hFirst
      · exact ih hFirst
      · rename_i item hOther _
        split at hFirst
        · cases hFirst
          exact absurd rfl (hOther below)
        · cases hFirst
      · cases hFirst

namespace Disk

section Resolve

variable {disk : Disk} {links : Nat} {here route place names rest : List String} {name : String}
variable {listing : Listing}

/-- The name of a file or a directory leads to it. -/
theorem resolve_enter (hHere : disk.root.at? here = some (.dir listing))
    (hSteps : ¬(name = "" ∨ name = "." ∨ name = ".."))
    (hShort : octetLength name.toList ≤ nameLimit) {item : Item}
    (hItem : listing.get? name = some item) (hLink : ∀ target, item ≠ .link target) :
    disk.resolve .target links here (name :: rest) =
      disk.resolve .target links (here ++ [name]) rest := by
  obtain ⟨hEmpty, hDot, hUp⟩ : name ≠ "" ∧ name ≠ "." ∧ name ≠ ".." := by
    simpa only [not_or] using hSteps
  rw [resolve]
  simp only [hHere, hItem]
  cases item with
  | link target => exact absurd rfl (hLink target)
  | file doc => simp [hEmpty, hDot, hUp, hShort]
  | dir below => simp [hEmpty, hDot, hUp, hShort]

/-- Nothing is found under a name but in a directory. -/
theorem resolve_cons_outside (hHere : ∀ listing, disk.root.at? here ≠ some (.dir listing))
    (item : Item) : disk.resolve .target links here (name :: rest) ≠ .ok (place, some item) := by
  rw [resolve]
  split
  · rename_i listing hDir
    exact absurd hDir (hHere listing)
  · simp
  · simp

/-- A link is followed by its own route, from where that begins, unless there
were too many already or it leads nowhere. -/
theorem resolve_link (hHere : disk.root.at? here = some (.dir listing))
    (hSteps : ¬(name = "" ∨ name = "." ∨ name = ".."))
    (hShort : octetLength name.toList ≤ nameLimit) {target : String}
    (hItem : listing.get? name = some (.link target)) :
    (∃ links' here' onward, links' < links ∧ ∀ rest,
      disk.resolve .target links here (name :: rest) =
        disk.resolve .target links' here' (onward ++ rest)) ∨
    ∀ rest place item, disk.resolve .target links here (name :: rest) ≠ .ok (place, some item) := by
  obtain ⟨hEmpty, hDot, hUp⟩ : name ≠ "" ∧ name ≠ "." ∧ name ≠ ".." := by
    simpa only [not_or] using hSteps
  have hLong : ¬nameLimit < octetLength name.toList := Nat.not_lt.mpr hShort
  cases links with
  | zero =>
      apply Or.inr
      intro rest place item
      simp [resolve, hHere, hEmpty, hDot, hUp, hLong, hItem]
  | succ links =>
      cases hRoute : route? target with
      | none =>
          apply Or.inr
          intro rest place item
          simp [resolve, hHere, hEmpty, hDot, hUp, hLong, hItem, hRoute]
      | some onward =>
          apply Or.inl
          refine ⟨links, startOf here target, onward, Nat.lt_succ_self links, fun rest => ?_⟩
          simp [resolve, hHere, hEmpty, hDot, hUp, hLong, hItem, hRoute]

/-- Following a name goes on elsewhere, through a link with its own route in
front, or nothing is found. Neither depends on what comes after the name. -/
theorem resolve_cons (disk : Disk) (links : Nat) (here : List String) (name : String) :
    (∃ links' here' onward, (links' < links ∨ links' = links ∧ onward = []) ∧ ∀ rest,
      disk.resolve .target links here (name :: rest) =
        disk.resolve .target links' here' (onward ++ rest)) ∨
    ∀ rest place item, disk.resolve .target links here (name :: rest) ≠ .ok (place, some item) := by
  by_cases hDir : ∃ listing, disk.root.at? here = some (.dir listing)
  · obtain ⟨listing, hHere⟩ := hDir
    by_cases hStay : name = "" ∨ name = "."
    · refine Or.inl ⟨links, here, [], Or.inr ⟨rfl, rfl⟩, fun rest => ?_⟩
      simp [resolve, hHere, hStay]
    by_cases hUp : name = ".."
    · refine Or.inl ⟨links, here.dropLast, [], Or.inr ⟨rfl, rfl⟩, fun rest => ?_⟩
      simp [resolve, hHere, hUp]
    by_cases hLong : nameLimit < octetLength name.toList
    · apply Or.inr
      intro rest place item
      simp [resolve, hHere, hStay, hUp, hLong]
    -- the name of an entry
    have hSteps : ¬(name = "" ∨ name = "." ∨ name = "..") := by
      rw [← or_assoc]
      exact not_or.mpr ⟨hStay, hUp⟩
    have hShort : octetLength name.toList ≤ nameLimit := Nat.not_lt.mp hLong
    cases hItem : listing.get? name with
    | none =>
        apply Or.inr
        intro rest place item
        by_cases hLast : rest = [] <;>
          simp [resolve, hHere, hStay, hUp, hLong, hItem, hLast]
    | some item =>
        by_cases hLink : ∃ target, item = .link target
        · obtain ⟨target, rfl⟩ := hLink
          rcases resolve_link hHere hSteps hShort hItem with
            ⟨links', here', onward, hLess, hOnward⟩ | hNot
          · exact Or.inl ⟨links', here', onward, Or.inl hLess, hOnward⟩
          · exact Or.inr hNot
        · exact Or.inl ⟨links, here ++ [name], [], Or.inr ⟨rfl, rfl⟩, fun rest =>
            resolve_enter hHere hSteps hShort hItem (not_exists.mp hLink)⟩
  · apply Or.inr
    intro rest place item
    exact resolve_cons_outside (not_exists.mp hDir) item

/-- Following a route either comes to a place, and then goes on from there
whatever comes next, or nothing is found, whatever comes next. -/
theorem resolve_append (disk : Disk) (links : Nat) (here todo : List String) :
    (∃ links' place, ∀ more,
      disk.resolve .target links here (todo ++ more) = disk.resolve .target links' place more) ∨
    ∀ more place item,
      disk.resolve .target links here (todo ++ more) ≠ .ok (place, some item) := by
  match todo with
  | [] => exact Or.inl ⟨links, here, fun more => rfl⟩
  | name :: rest =>
      rcases resolve_cons disk links here name with ⟨links', here', onward, hLess, hStep⟩ | hNothing
      · simp only [List.cons_append, hStep, ← List.append_assoc]
        exact resolve_append disk links' here' (onward ++ rest)
      · exact Or.inr fun more => hNothing (rest ++ more)
termination_by (links, todo.length)
decreasing_by
  rw [Prod.lex_def]
  rcases hLess with hLess | ⟨rfl, rfl⟩
  · exact Or.inl hLess
  · exact Or.inr ⟨rfl, by simp⟩

/-- What is found at the end of a route is at the place that is reached, and
anything further is followed from there. -/
theorem resolve_onward {item : Item}
    (hFound : disk.resolve .target links here route = .ok (place, some item)) :
    disk.root.at? place = some item ∧ ∃ links', ∀ more,
      disk.resolve .target links here (route ++ more) = disk.resolve .target links' place more := by
  rcases resolve_append disk links here route with ⟨links', reached, hOnward⟩ | hNothing
  · have hReached := hOnward []
    rw [List.append_nil, hFound, resolve, Except.ok.injEq, Prod.mk.injEq] at hReached
    obtain ⟨rfl, hItem⟩ := hReached
    exact ⟨hItem.symm, links', hOnward⟩
  · have hNot := hNothing [] place item
    rw [List.append_nil] at hNot
    exact absurd hFound hNot

/-- A slash at the end of a route asks for a directory and leads no further. -/
theorem resolve_without_slash
    (hFound : disk.resolve .target links here (route ++ [""]) = .ok (place, some (.dir listing))) :
    disk.resolve .target links here route = .ok (place, some (.dir listing)) := by
  rcases resolve_append disk links here route with ⟨links', reached, hOnward⟩ | hNothing
  · have hReached := hOnward []
    rw [List.append_nil] at hReached
    rw [hReached]
    rw [hOnward, resolve] at hFound
    split at hFound
    · simpa using hFound
    · cases hFound
    · cases hFound
  · exact absurd hFound (hNothing _ _ _)

/-- Names lead from a directory to the file that they stand for in it. -/
theorem resolve_names {doc : Document} (hPlace : disk.root.at? place = some (.dir listing))
    (hFile : listing.at? names = some (.file doc)) (hNames : ∀ name ∈ names, IsEntryName name)
    (hShort : ∀ name ∈ names, octetLength name.toList ≤ nameLimit) (links : Nat) :
    disk.resolve .target links place names = .ok (place ++ names, some (.file doc)) := by
  induction names generalizing place listing with
  | nil => cases hFile
  | cons name names ih =>
      obtain ⟨hName, hOthers⟩ := List.forall_mem_cons.mp hNames
      obtain ⟨hLength, hLengths⟩ := List.forall_mem_cons.mp hShort
      have hSteps : ¬(name = "" ∨ name = "." ∨ name = "..") := by
        simpa only [not_or] using ⟨hName.1, hName.2.2⟩
      have hBelow := Listing.at?_append hPlace
      rw [Listing.at?] at hFile
      split at hFile
      · rename_i below hItem
        have hNext : disk.root.at? (place ++ [name]) = some (.dir below) := by
          simp [hBelow, Listing.at?, hItem]
        rw [resolve_enter hPlace hSteps hLength hItem (by simp), ih hNext hFile hOthers hLengths,
          List.append_assoc, List.singleton_append]
      · rename_i item hDir hItem
        split at hFile
        · rename_i hLast
          cases hFile
          have hNil := List.isEmpty_iff.mp hLast
          subst hNil
          rw [resolve_enter hPlace hSteps hLength hItem (by simp), resolve, hBelow]
          simp [Listing.at?, hItem]
        · cases hFile
      · cases hFile

end Resolve

section Below

variable {disk : Disk} {root : String} {listing : Listing} {names route : List String}

theorem route?_eq_some_iff (path : String) (route : List String) :
    route? path = some route ↔
      path ≠ "" ∧ route = (segments path.toList).map String.ofList := by
  rw [route?, eq_comm (a := route)]
  split
  · rename_i hNil
    simp [String.toList_eq_nil_iff.mp hNil]
  · rename_i hFilled
    have hNe : path ≠ "" := fun h => hFilled (by simp [h])
    simp [hNe]

theorem route?_ne_nil {path : String} (hRoute : route? path = some route) : route ≠ [] := by
  rw [((route?_eq_some_iff path route).mp hRoute).2]
  simpa using segments_ne_nil path.toList

theorem startOf_child (hRoot : root ≠ "") (here : List String) (name : String) :
    startOf here (child root name) = startOf here root := by
  rw [startOf, startOf, isAbsolute_child hRoot]

/-- The route to something below a directory is the one to the directory,
without a slash at its end, and then goes along the names. -/
theorem route?_child (hRoute : route? root = some route) (hNe : names ≠ [])
    (hNames : ∀ name ∈ names, IsStep name) :
    ∃ lead, route? (child root (ofNames names)) = some (lead ++ names) ∧
      (route = lead ∨ route = lead ++ [""]) := by
  obtain ⟨hFilled, rfl⟩ := (route?_eq_some_iff root route).mp hRoute
  obtain ⟨lead, hChild, hLead⟩ := exists_child_eq hFilled (ofNames names)
  refine ⟨(segments lead).map String.ofList, ?_, ?_⟩
  · rw [route?_eq_some_iff, hChild, segments_append, segments_ofNames hNe hNames]
    refine ⟨?_, ?_⟩
    · intro hEmpty
      simp [hEmpty] at hChild
    · simp [Function.comp_def]
  · rcases hLead with hLead | hLead
    · exact Or.inl (by rw [hLead])
    · refine Or.inr ?_
      rw [hLead, segments_append, List.map_append]
      rfl

/-- A directory that can be read is at the place to which its route leads. -/
theorem exists_route_of_readDir (hRoot : disk.readDir root = .ok listing) :
    ∃ route place, route? root = some route ∧
      disk.resolve .target linkLimit (startOf disk.cwd root) route =
        .ok (place, some (.dir listing)) := by
  have hLookup : disk.lookup root = .ok (.dir listing) := by
    rw [readDir] at hRoot
    split at hRoot <;> cases hRoot
    assumption
  obtain ⟨place, hLocate⟩ :
      ∃ place, disk.locate .target root = .ok (place, some (.dir listing)) := by
    rw [lookup] at hLookup
    split at hLookup <;> cases hLookup
    rename_i place hLocate
    exact ⟨place, hLocate⟩
  rw [locate] at hLocate
  split at hLocate
  · cases hLocate
  · cases hLocate
  · rename_i route _ hRoute
    exact ⟨route, place, hRoute, hLocate⟩

/-- The file to which names lead in a directory is found under the path of the
directory and the names, unless these together are no path. -/
theorem file?_child (hRoot : disk.readDir root = .ok listing) {doc : Document}
    (hFile : listing.at? names = some (.file doc)) (hNames : ∀ name ∈ names, IsEntryName name)
    (hShort : ∀ name ∈ names, octetLength name.toList ≤ nameLimit) :
    disk.file? (child root (ofNames names)) =
      if Scan.isOpenable root (ofNames names) then some doc else none := by
  have hNe : names ≠ [] := by
    rintro rfl
    cases hFile
  obtain ⟨route, place, hRoute, hFound⟩ := exists_route_of_readDir hRoot
  obtain ⟨lead, hChild, hLead⟩ :=
    route?_child hRoute hNe fun name hName => (hNames name hName).isStep
  have hDir : disk.resolve .target linkLimit (startOf disk.cwd root) lead =
      .ok (place, some (.dir listing)) := by
    rcases hLead with rfl | rfl
    · exact hFound
    · exact resolve_without_slash hFound
  obtain ⟨hPlace, links, hOnward⟩ := resolve_onward hDir
  have hResolve := hOnward names
  rw [resolve_names hPlace hFile hNames hShort] at hResolve
  have hFilled := ((route?_eq_some_iff root route).mp hRoute).1
  rw [file?, lookup, locate, hChild, startOf_child hFilled, Scan.isOpenable]
  cases pathFault? (child root (ofNames names)).toList with
  | some fault => rfl
  | none => simp [hResolve]

end Below

end Disk

end SymbolMap
