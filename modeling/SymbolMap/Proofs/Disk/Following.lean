import SymbolMap.Disk.Basic
import SymbolMap.Proofs.Disk.Routes

/-! Where paths lead, as a relation beside the function that follows them. The
relation sees a disk only through the kind of entry at each place, so what a
change does to where paths lead can be read off what it does to the places. -/
namespace SymbolMap

open SymbolMap.Path SymbolMap.Text

/-- The kind of an entry: an item without what lies in it. -/
inductive Shape where
  | file (doc : Document)
  | dir
  | link (target : String)

namespace Item

/-- The kind of an item. -/
def shape : Item → Shape
  | .file doc => .file doc
  | .dir _ => .dir
  | .link target => .link target

/-- Nothing lies in an item. -/
def IsBare : Item → Prop
  | .dir listing => listing = .nil
  | _ => True

theorem exists_dir_of_shape {item : Item} (hShape : item.shape = .dir) :
    ∃ listing, item = .dir listing := by
  cases item with
  | dir listing => exact ⟨listing, rfl⟩
  | file doc => cases hShape
  | link target => cases hShape

theorem eq_link_of_shape {item : Item} {target : String} (hShape : item.shape = .link target) :
    item = .link target := by
  cases item with
  | link other =>
      cases hShape
      rfl
  | file doc => cases hShape
  | dir listing => cases hShape

end Item

namespace Listing

theorem get?_cons (name : String) (item : Item) (rest : Listing) (other : String) :
    (cons name item rest).get? other = if name = other then some item else rest.get? other := by
  cases item <;> rfl

/-- An entry that is put stands under its name, and the others stay. -/
theorem get?_put (name : String) (item : Item) (listing : Listing) (other : String) :
    (listing.put name item).get? other =
      if name = other then some item else listing.get? other := by
  induction listing with
  | nil => exact get?_cons name item nil other
  | file n doc rest ih | dir n below rest _ ih | link n target rest ih =>
      rw [put]
      split
      · rename_i hName
        rw [get?_cons, hName, get?]
        split <;> rfl
      · rename_i hName
        split
        · exact get?_cons name item _ other
        · rw [get?, ih, get?]
          split
          · rename_i hOther
            rw [if_neg (hOther ▸ Ne.symm hName)]
          · rfl

theorem at?_singleton (listing : Listing) (name : String) :
    listing.at? [name] = listing.get? name := by
  rw [at?]
  split
  · rename_i below hItem
    rw [hItem]
    rfl
  · rename_i item _ hItem
    rw [hItem]
    rfl
  · rename_i hItem
    rw [hItem]

theorem at?_cons_of_bare {listing : Listing} {name : String} {rest : List String}
    (hBare : ∀ item, listing.get? name = some item → item.IsBare) (hRest : rest ≠ []) :
    listing.at? (name :: rest) = none := by
  obtain ⟨next, more, rfl⟩ := List.exists_cons_of_ne_nil hRest
  rw [at?]
  split
  · rename_i below hItem
    have hNil : below = nil := hBare _ hItem
    rw [hNil]
    rfl
  · rfl
  · rfl

/-- The way to a directory begins in a directory. -/
theorem exists_inner_of_at?_cons {listing below : Listing} {name : String} {names : List String}
    (hDir : listing.at? (name :: names) = some (.dir below)) :
    ∃ inner, listing.get? name = some (.dir inner) ∧ inner.at? names = some (.dir below) := by
  rw [at?] at hDir
  split at hDir
  · rename_i inner hInner
    exact ⟨inner, hInner, hDir⟩
  · rename_i item hOther _
    split at hDir
    · cases hDir
      exact absurd rfl (hOther below)
    · cases hDir
  · cases hDir

theorem at?_put_of_ne {name next : String} (hName : name ≠ next) (item : Item) (listing : Listing)
    (rest : List String) :
    (listing.put name item).at? (next :: rest) = listing.at? (next :: rest) := by
  rw [at?, get?_put, if_neg hName, ← at?]

/-- A bare item that is put into a directory, in place of a bare one, is there
afterwards, and elsewhere there are the same kinds of entries as before. -/
theorem shape_at?_put {listing : Listing} {name : String} {item : Item} (hItem : item.IsBare)
    (hOld : ∀ old, listing.get? name = some old → old.IsBare) (place : List String) :
    ((listing.put name item).at? place).map Item.shape =
      if place = [name] then some item.shape else (listing.at? place).map Item.shape := by
  match place with
  | [] => rfl
  | next :: rest =>
      by_cases hName : name = next
      · subst hName
        by_cases hRest : rest = []
        · subst hRest
          simp [at?_singleton, get?_put]
        · have hNew : ∀ new, (listing.put name item).get? name = some new → new.IsBare := by
            intro new hNew
            rw [get?_put, if_pos rfl] at hNew
            cases hNew
            exact hItem
          rw [at?_cons_of_bare hNew hRest, at?_cons_of_bare hOld hRest, if_neg]
          simpa using hRest
      · rw [at?_put_of_ne hName, if_neg]
        intro hPlace
        exact hName (List.cons.inj hPlace).1.symm

/-- The same holds where names lead to the directory. -/
theorem shape_at?_putAt {listing below : Listing} {dir : List String} {name : String} {item : Item}
    (hDir : listing.at? dir = some (.dir below)) (hItem : item.IsBare)
    (hOld : ∀ old, below.get? name = some old → old.IsBare) (place : List String) :
    ((listing.putAt item (dir ++ [name])).at? place).map Item.shape =
      if place = dir ++ [name] then some item.shape
      else (listing.at? place).map Item.shape := by
  induction dir generalizing listing place with
  | nil =>
      cases hDir
      exact shape_at?_put hItem hOld place
  | cons first dir ih =>
      obtain ⟨inner, hInner, hBelow⟩ := exists_inner_of_at?_cons hDir
      have hPut : listing.putAt item (first :: dir ++ [name]) =
          listing.put first (.dir (inner.putAt item (dir ++ [name]))) := by
        cases dir <;> simp [putAt, hInner]
      rw [hPut]
      match place with
      | [] => rfl
      | next :: rest =>
          by_cases hFirst : first = next
          · subst hFirst
            simpa [at?, get?_put, hInner] using ih hBelow rest
          · rw [at?_put_of_ne hFirst, if_neg]
            intro hPlace
            exact hFirst (List.cons.inj hPlace).1.symm

end Listing

namespace Disk

/-- The kind of entry at a place, reached by names alone. -/
def shape? (disk : Disk) (place : List String) : Option Shape :=
  (disk.root.at? place).map Item.shape

section Shape

variable {disk : Disk} {place : List String} {name : String}

@[simp] theorem shape?_nil (disk : Disk) : disk.shape? [] = some .dir := rfl

theorem shape?_eq_dir_iff :
    disk.shape? place = some .dir ↔ ∃ listing, disk.root.at? place = some (.dir listing) := by
  rw [shape?, Option.map_eq_some_iff]
  constructor
  · rintro ⟨item, hItem, hShape⟩
    obtain ⟨listing, rfl⟩ := Item.exists_dir_of_shape hShape
    exact ⟨listing, hItem⟩
  · rintro ⟨listing, hItem⟩
    exact ⟨_, hItem, rfl⟩

theorem shape?_eq_none_iff : disk.shape? place = none ↔ disk.root.at? place = none := by
  rw [shape?, Option.map_eq_none_iff]

theorem shape?_eq_file_iff {doc : Document} :
    disk.shape? place = some (.file doc) ↔ disk.root.at? place = some (.file doc) := by
  rw [shape?, Option.map_eq_some_iff]
  constructor
  · rintro ⟨item, hItem, hShape⟩
    cases item <;> cases hShape
    exact hItem
  · intro hItem
    exact ⟨_, hItem, rfl⟩

theorem at?_concat {listing : Listing} (hDir : disk.root.at? place = some (.dir listing))
    (name : String) : disk.root.at? (place ++ [name]) = listing.get? name := by
  rw [Listing.at?_append hDir, Listing.at?_singleton]

theorem shape?_concat {listing : Listing} (hDir : disk.root.at? place = some (.dir listing))
    (name : String) :
    disk.shape? (place ++ [name]) = (listing.get? name).map Item.shape := by
  rw [shape?, at?_concat hDir]

theorem get?_of_shape?_link {listing : Listing} {target : String}
    (hDir : disk.root.at? place = some (.dir listing))
    (hLink : disk.shape? (place ++ [name]) = some (.link target)) :
    listing.get? name = some (.link target) := by
  rw [shape?_concat hDir] at hLink
  obtain ⟨item, hGet, hShape⟩ := Option.map_eq_some_iff.mp hLink
  rw [hGet, Item.eq_link_of_shape hShape]

/-- What is at a place lies in a directory. -/
theorem shape?_dir_of_concat (hSome : disk.shape? (place ++ [name]) ≠ none) :
    disk.shape? place = some .dir := by
  obtain ⟨item, hItem⟩ := Option.ne_none_iff_exists'.mp (mt shape?_eq_none_iff.mpr hSome)
  exact shape?_eq_dir_iff.mpr (Listing.exists_dir_of_at? (by simp) hItem)

theorem shape?_dropLast (hDir : disk.shape? place = some .dir) :
    disk.shape? place.dropLast = some .dir := by
  rcases List.eq_nil_or_concat' place with rfl | ⟨above, name, rfl⟩
  · rfl
  · rw [List.dropLast_concat]
    have hSome : disk.shape? (above ++ [name]) ≠ none := by simp [hDir]
    exact shape?_dir_of_concat hSome

/-- A path that is met in a directory is followed from a directory. -/
theorem shape?_startOf (hDir : disk.shape? place = some .dir) (path : String) :
    disk.shape? (startOf place path) = some .dir := by
  rw [startOf]
  split
  · rfl
  · exact hDir

end Shape

/-- Whether a name is one to be looked up: it is no dots, not too long, and,
where a file may have to be made, not followed by slashes alone. -/
def IsLookedUp (ending : Ending) (name : String) (rest : List String) : Prop :=
  name ≠ "" ∧ name ≠ "." ∧ name ≠ ".." ∧ octetLength name.toList ≤ nameLimit ∧
    (ending = .newFile → rest ≠ [] → ∃ later ∈ rest, later ≠ "")

/-- Where segments lead from a directory, with at most so many links on the
way. -/
inductive Leads (disk : Disk) (ending : Ending) :
    Nat → List String → List String → List String → Prop where
  | arrive {links : Nat} {here : List String} : Leads disk ending links here [] here
  | stay {links : Nat} {here rest place : List String} {name : String}
      (hDir : disk.shape? here = some .dir) (hName : name = "" ∨ name = ".")
      (onward : Leads disk ending links here rest place) :
      Leads disk ending links here (name :: rest) place
  | up {links : Nat} {here rest place : List String} (hDir : disk.shape? here = some .dir)
      (onward : Leads disk ending links here.dropLast rest place) :
      Leads disk ending links here (".." :: rest) place
  | missing {links : Nat} {here : List String} {name : String}
      (hDir : disk.shape? here = some .dir) (hName : IsLookedUp ending name [])
      (hNone : disk.shape? (here ++ [name]) = none) :
      Leads disk ending links here [name] (here ++ [name])
  | enter {links : Nat} {here rest place : List String} {name : String} {shape : Shape}
      (hDir : disk.shape? here = some .dir) (hName : IsLookedUp ending name rest)
      (hShape : disk.shape? (here ++ [name]) = some shape) (hLink : ∀ target, shape ≠ .link target)
      (onward : Leads disk ending links (here ++ [name]) rest place) :
      Leads disk ending links here (name :: rest) place
  | halt {links : Nat} {here : List String} {name target : String}
      (hDir : disk.shape? here = some .dir) (hName : IsLookedUp ending name [])
      (hLink : disk.shape? (here ++ [name]) = some (.link target)) (hEntry : ending = .entry) :
      Leads disk ending links here [name] (here ++ [name])
  | follow {links : Nat} {here rest route place : List String} {name target : String}
      (hDir : disk.shape? here = some .dir) (hName : IsLookedUp ending name rest)
      (hLink : disk.shape? (here ++ [name]) = some (.link target))
      (hOn : rest = [] → ending ≠ .entry) (hRoute : route? target = some route)
      (onward : Leads disk ending links (startOf here target) (route ++ rest) place) :
      Leads disk ending (links + 1) here (name :: rest) place

/-- A name is looked up if following a path passes all its checks. -/
theorem isLookedUp_iff {ending : Ending} {name : String} {rest : List String} :
    IsLookedUp ending name rest ↔
      ¬(name = "" || name = ".") = true ∧ name ≠ ".." ∧
        ¬(ending = .newFile && !rest.isEmpty && rest.all String.isEmpty) = true ∧
        ¬nameLimit < octetLength name.toList := by
  simp only [IsLookedUp, Bool.or_eq_true, Bool.and_eq_true, decide_eq_true_eq, not_or, not_and,
    Nat.not_lt, List.all_eq_true, Bool.not_eq_true', String.isEmpty_iff, List.isEmpty_eq_false_iff,
    not_forall, ne_eq, exists_prop]
  tauto

section Leads

variable {disk : Disk} {ending : Ending} {links : Nat} {here todo rest place : List String}

/-- Segments lead where following them comes to. -/
theorem leads_of_resolve {found : Option Item}
    (hFound : disk.resolve ending links here todo = .ok (place, found)) :
    disk.Leads ending links here todo place ∧ found = disk.root.at? place := by
  -- one case for each way to arrive; those that end in a fault come last
  fun_induction resolve disk ending links here todo with
  | case1 =>
      cases hFound
      exact ⟨.arrive, rfl⟩
  | case2 links here name rest listing hHere hName ih =>
      obtain ⟨onward, hItem⟩ := ih hFound
      exact ⟨.stay (shape?_eq_dir_iff.mpr ⟨_, hHere⟩) (by simpa using hName) onward, hItem⟩
  | case3 links here rest listing hHere _ ih =>
      obtain ⟨onward, hItem⟩ := ih hFound
      exact ⟨.up (shape?_eq_dir_iff.mpr ⟨_, hHere⟩) onward, hItem⟩
  | case6 links here name rest listing hHere hStay hUp hFile hLong hNone hLast =>
      cases hFound
      cases List.isEmpty_iff.mp hLast
      have hMissing : disk.shape? (here ++ [name]) = none := by
        rw [shape?_concat hHere, hNone]
        rfl
      exact ⟨.missing (shape?_eq_dir_iff.mpr ⟨_, hHere⟩)
        (isLookedUp_iff.mpr ⟨hStay, hUp, hFile, hLong⟩) hMissing,
        (shape?_eq_none_iff.mp hMissing).symm⟩
  | case8 links here name rest listing hHere hStay hUp hFile hLong target hGet hHalt =>
      cases hFound
      obtain ⟨hLast, hEntry⟩ : rest = [] ∧ ending = .entry := by simpa using hHalt
      cases hLast
      have hLink : disk.shape? (here ++ [name]) = some (.link target) := by
        rw [shape?_concat hHere, hGet]
        rfl
      exact ⟨.halt (shape?_eq_dir_iff.mpr ⟨_, hHere⟩)
        (isLookedUp_iff.mpr ⟨hStay, hUp, hFile, hLong⟩) hLink hEntry,
        by rw [at?_concat hHere, hGet]⟩
  | case11 here name rest listing hHere hStay hUp hFile hLong target hGet hOn links route
      hRoute ih =>
      obtain ⟨onward, hItem⟩ := ih hFound
      have hLink : disk.shape? (here ++ [name]) = some (.link target) := by
        rw [shape?_concat hHere, hGet]
        rfl
      exact ⟨.follow (shape?_eq_dir_iff.mpr ⟨_, hHere⟩)
        (isLookedUp_iff.mpr ⟨hStay, hUp, hFile, hLong⟩) hLink (by simpa using hOn) hRoute onward,
        hItem⟩
  | case12 links here name rest listing hHere hStay hUp hFile hLong item hOther hGet ih =>
      obtain ⟨onward, hItem⟩ := ih hFound
      have hShape : disk.shape? (here ++ [name]) = some item.shape := by
        rw [shape?_concat hHere, hGet]
        rfl
      refine ⟨.enter (shape?_eq_dir_iff.mpr ⟨_, hHere⟩)
        (isLookedUp_iff.mpr ⟨hStay, hUp, hFile, hLong⟩) hShape ?_ onward, hItem⟩
      rintro target hTarget
      exact hOther target (Item.eq_link_of_shape hTarget)
  | case4 | case5 | case7 | case9 | case10 | case13 | case14 => cases hFound

/-- Following segments comes to where they lead. -/
theorem Leads.resolve_eq (hLeads : disk.Leads ending links here todo place) :
    disk.resolve ending links here todo = .ok (place, disk.root.at? place) := by
  induction hLeads with
  | arrive => rw [resolve]
  | stay hDir hName onward ih =>
      obtain ⟨listing, hHere⟩ := shape?_eq_dir_iff.mp hDir
      simpa [resolve, hHere, hName] using ih
  | up hDir onward ih =>
      obtain ⟨listing, hHere⟩ := shape?_eq_dir_iff.mp hDir
      simpa [resolve, hHere] using ih
  | missing hDir hName hNone =>
      obtain ⟨listing, hHere⟩ := shape?_eq_dir_iff.mp hDir
      obtain ⟨hStay, hUp, hFile, hLong⟩ := isLookedUp_iff.mp hName
      rw [shape?_eq_none_iff, at?_concat hHere] at hNone
      rw [resolve, at?_concat hHere, hNone]
      simp [hHere, hStay, hUp, hLong, hNone]
  | @enter links here rest place name shape hDir hName hShape hOther onward ih =>
      obtain ⟨listing, hHere⟩ := shape?_eq_dir_iff.mp hDir
      obtain ⟨hStay, hUp, hFile, hLong⟩ := isLookedUp_iff.mp hName
      obtain ⟨item, hGet, rfl⟩ :=
        Option.map_eq_some_iff.mp ((shape?_concat hHere name).symm.trans hShape)
      rw [resolve]
      cases item with
      | link target => exact absurd rfl (hOther target)
      | file doc => simpa only [hHere, if_neg hStay, if_neg hUp, if_neg hFile, if_neg hLong, hGet]
      | dir below => simpa only [hHere, if_neg hStay, if_neg hUp, if_neg hFile, if_neg hLong, hGet]
  | @halt links here name target hDir hName hLink hEntry =>
      obtain ⟨listing, hHere⟩ := shape?_eq_dir_iff.mp hDir
      obtain ⟨hStay, hUp, hFile, hLong⟩ := isLookedUp_iff.mp hName
      have hGet := get?_of_shape?_link hHere hLink
      rw [resolve, at?_concat hHere, hGet]
      simp [hHere, hStay, hUp, hLong, hGet, hEntry]
  | @follow links here rest route place name target hDir hName hLink hOn hRoute onward ih =>
      obtain ⟨listing, hHere⟩ := shape?_eq_dir_iff.mp hDir
      obtain ⟨hStay, hUp, hFile, hLong⟩ := isLookedUp_iff.mp hName
      have hGet := get?_of_shape?_link hHere hLink
      have hNot : ¬(rest.isEmpty && ending = .entry) = true := by simpa using hOn
      rw [resolve]
      simpa only [hHere, if_neg hStay, if_neg hUp, if_neg hFile, if_neg hLong, hGet, if_neg hNot,
        hRoute]

/-- What is missing where segments lead is missing in a directory. -/
theorem Leads.exists_dir (hLeads : disk.Leads ending links here todo place)
    (hHere : disk.shape? here ≠ none) (hNone : disk.shape? place = none) :
    ∃ dir name, place = dir ++ [name] ∧ disk.shape? dir = some .dir := by
  induction hLeads with
  | arrive => exact absurd hNone hHere
  | stay hDir hName onward ih => exact ih hHere hNone
  | @up links here rest place hDir onward ih =>
      apply ih _ hNone
      rw [shape?_dropLast hDir]
      simp
  | missing hDir hName hNone => exact ⟨_, _, rfl, hDir⟩
  | enter hDir hName hShape hLink onward ih => exact ih (by simp [hShape]) hNone
  | halt hDir hName hLink hEntry => simp [hLink] at hNone
  | follow hDir hName hLink hOn hRoute onward ih =>
      apply ih _ hNone
      rw [shape?_startOf hDir]
      simp

/-- Segments lead somewhere only from a directory. -/
theorem Leads.shape?_here (hLeads : disk.Leads ending links here todo place) (hTodo : todo ≠ []) :
    disk.shape? here = some .dir := by
  cases hLeads with
  | arrive => exact absurd rfl hTodo
  | stay hDir | up hDir | missing hDir | enter hDir | halt hDir | follow hDir => exact hDir

/-- A name that is looked up is so for another end and before other segments,
as far as these matter. -/
theorem IsLookedUp.change {name : String} (hName : IsLookedUp ending name rest)
    {other : Ending} {others : List String}
    (hOthers : other = .newFile → others ≠ [] → ∃ later ∈ others, later ≠ "") :
    IsLookedUp other name others :=
  ⟨hName.1, hName.2.1, hName.2.2.1, hName.2.2.2.1, hOthers⟩

/-- What is wanted at the end makes no difference, unless a link is there. -/
theorem Leads.target (hLeads : disk.Leads ending links here todo place)
    (hEnd : ending = .entry → ∀ target, disk.shape? place ≠ some (.link target)) :
    disk.Leads .target links here todo place := by
  have hTarget : ∀ {name : String} {rest : List String}, IsLookedUp ending name rest →
      IsLookedUp .target name rest := fun hName => hName.change (by simp)
  induction hLeads with
  | arrive => exact .arrive
  | stay hDir hDots onward ih => exact .stay hDir hDots (ih hEnd)
  | up hDir onward ih => exact .up hDir (ih hEnd)
  | missing hDir hName hNone => exact .missing hDir (hTarget hName) hNone
  | enter hDir hName hShape hOther onward ih =>
      exact .enter hDir (hTarget hName) hShape hOther (ih hEnd)
  | halt hDir hName hLink hEntry => exact absurd hLink (hEnd hEntry _)
  | follow hDir hName hLink hOn hRoute onward ih =>
      exact .follow hDir (hTarget hName) hLink (by simp) hRoute (ih hEnd)

/-- Segments that lead to something lead to an entry, which may be a link. -/
theorem Leads.exists_entry (hLeads : disk.Leads .target links here todo place)
    (hSome : disk.shape? place ≠ none) :
    ∃ entry, disk.Leads .entry links here todo entry ∧ disk.shape? entry ≠ none := by
  have hEntry : ∀ {name : String} {rest : List String}, IsLookedUp .target name rest →
      IsLookedUp .entry name rest := fun hName => hName.change (by simp)
  induction hLeads with
  | arrive => exact ⟨_, .arrive, hSome⟩
  | stay hDir hDots onward ih =>
      obtain ⟨entry, hOnward, hEnd⟩ := ih hSome
      exact ⟨entry, .stay hDir hDots hOnward, hEnd⟩
  | up hDir onward ih =>
      obtain ⟨entry, hOnward, hEnd⟩ := ih hSome
      exact ⟨entry, .up hDir hOnward, hEnd⟩
  | missing hDir hName hNone => exact absurd hNone hSome
  | enter hDir hName hShape hOther onward ih =>
      obtain ⟨entry, hOnward, hEnd⟩ := ih hSome
      exact ⟨entry, .enter hDir (hEntry hName) hShape hOther hOnward, hEnd⟩
  | halt hDir hName hLink hEnding => cases hEnding
  | @follow links here rest route place name target hDir hName hLink hOn hRoute onward ih =>
      by_cases hLast : rest = []
      · subst hLast
        exact ⟨_, .halt hDir (hEntry hName) hLink rfl, by simp [hLink]⟩
      · obtain ⟨entry, hOnward, hEnd⟩ := ih hSome
        exact ⟨entry, .follow hDir (hEntry hName) hLink (absurd · hLast) hRoute hOnward, hEnd⟩

/-- Further segments lead on from where something was reached. -/
theorem Leads.append {more finish : List String}
    (hLeads : disk.Leads .target links here todo place) (hSome : disk.shape? place ≠ none)
    (hMore : ending ≠ .target → ∃ later ∈ more, later ≠ "")
    (hOnward : ∀ links, disk.Leads ending links place more finish) :
    disk.Leads ending links here (todo ++ more) finish := by
  have hRest : ∀ rest, ending ≠ .target → ∃ later ∈ rest ++ more, later ≠ "" :=
    fun rest hEnding => by
      obtain ⟨later, hLater, hNe⟩ := hMore hEnding
      exact ⟨later, List.mem_append_right rest hLater, hNe⟩
  have hName : ∀ {name : String} {rest : List String}, IsLookedUp .target name rest →
      IsLookedUp ending name (rest ++ more) := fun hName =>
    hName.change fun hEnding _ => hRest _ (by simp [hEnding])
  induction hLeads with
  | arrive => exact hOnward _
  | stay hDir hDots onward ih => exact .stay hDir hDots (ih hSome hOnward)
  | up hDir onward ih => exact .up hDir (ih hSome hOnward)
  | missing hDir hLooked hNone => exact absurd hNone hSome
  | enter hDir hLooked hShape hOther onward ih =>
      exact .enter hDir (hName hLooked) hShape hOther (ih hSome hOnward)
  | halt hDir hLooked hLink hEnding => cases hEnding
  | @follow links here rest route place name target hDir hLooked hLink hOn hRoute onward ih =>
      rw [List.cons_append]
      refine .follow hDir (hName hLooked) hLink ?_ hRoute ?_
      · intro hNil hEntry
        obtain ⟨later, hLater, _⟩ := hRest rest (by simp [hEntry])
        rw [hNil] at hLater
        cases hLater
      · rw [← List.append_assoc]
        exact ih hSome hOnward

/-- On the way along segments a first part of them leads to a directory. -/
theorem Leads.exists_dir_between {first second : List String}
    (hLeads : disk.Leads .target links here (first ++ second) place) (hSecond : second ≠ []) :
    ∃ between, disk.Leads .target links here first between ∧
      disk.shape? between = some .dir := by
  have hTarget : ∀ {name : String} {rest others : List String}, IsLookedUp .target name rest →
      IsLookedUp .target name others := fun hName => hName.change (by simp)
  -- a link on the way is followed with both parts still ahead, so the induction is on the whole
  generalize hTodo : first ++ second = todo at hLeads
  induction hLeads generalizing first with
  | arrive => exact absurd (List.append_eq_nil_iff.mp hTodo).2 hSecond
  | stay hDir hDots onward ih =>
      match first with
      | [] => exact ⟨_, .arrive, hDir⟩
      | _ :: first =>
          cases hTodo
          obtain ⟨between, hBetween, hEnd⟩ := ih rfl
          exact ⟨between, .stay hDir hDots hBetween, hEnd⟩
  | up hDir onward ih =>
      match first with
      | [] => exact ⟨_, .arrive, hDir⟩
      | _ :: first =>
          cases hTodo
          obtain ⟨between, hBetween, hEnd⟩ := ih rfl
          exact ⟨between, .up hDir hBetween, hEnd⟩
  | missing hDir hName hNone =>
      match first with
      | [] => exact ⟨_, .arrive, hDir⟩
      | _ :: first =>
          obtain ⟨_, hTail⟩ := List.cons.inj hTodo
          exact absurd (List.append_eq_nil_iff.mp hTail).2 hSecond
  | enter hDir hName hShape hOther onward ih =>
      match first with
      | [] => exact ⟨_, .arrive, hDir⟩
      | _ :: first =>
          cases hTodo
          obtain ⟨between, hBetween, hEnd⟩ := ih rfl
          exact ⟨between, .enter hDir (hTarget hName) hShape hOther hBetween, hEnd⟩
  | halt hDir hName hLink hEnding => cases hEnding
  | @follow links here rest route place name target hDir hName hLink hOn hRoute onward ih =>
      match first with
      | [] => exact ⟨_, .arrive, hDir⟩
      | _ :: first =>
          cases hTodo
          obtain ⟨between, hBetween, hEnd⟩ := ih (List.append_assoc route first second)
          exact ⟨between, .follow hDir (hTarget hName) hLink (by simp) hRoute hBetween, hEnd⟩

/-- No link is reached but where one is wanted. -/
theorem Leads.not_link (hLeads : disk.Leads ending links here todo place)
    (hEnding : ending ≠ .entry) (hHere : ∀ target, disk.shape? here ≠ some (.link target))
    (target : String) :
    disk.shape? place ≠ some (.link target) := by
  induction hLeads with
  | arrive => exact hHere target
  | stay hDir hDots onward ih => exact ih hHere
  | @up links here rest place hDir onward ih =>
      apply ih
      intro other
      rw [shape?_dropLast hDir]
      simp
  | missing hDir hName hNone => simp [hNone]
  | enter hDir hName hShape hOther onward ih =>
      exact ih fun other => by simpa [hShape] using hOther other
  | halt hDir hName hLink hEntry => exact absurd hEntry hEnding
  | follow hDir hName hLink hOn hRoute onward ih =>
      apply ih
      intro other
      rw [shape?_startOf hDir]
      simp

end Leads

/-- A path leads to a place. -/
def LeadsTo (disk : Disk) (ending : Ending) (path : String) (place : List String) : Prop :=
  disk.locate ending path = .ok (place, disk.root.at? place)

section LeadsTo

variable {disk : Disk} {ending : Ending} {path : String} {place : List String}

theorem leadsTo_iff :
    disk.LeadsTo ending path place ↔ pathFault? path.toList = none ∧
      ∃ route, route? path = some route ∧
        disk.Leads ending linkLimit (startOf disk.cwd path) route place := by
  rw [LeadsTo, locate]
  constructor
  · intro hLocate
    split at hLocate
    · cases hLocate
    · cases hLocate
    · rename_i route hFault hRoute
      exact ⟨hFault, route, hRoute, (leads_of_resolve hLocate).1⟩
  · rintro ⟨hFault, route, hRoute, hLeads⟩
    rw [hFault, hRoute]
    exact hLeads.resolve_eq

/-- A path leads somewhere only from a directory. -/
theorem LeadsTo.shape?_start (hLeads : disk.LeadsTo ending path place) :
    disk.shape? (startOf disk.cwd path) = some .dir := by
  obtain ⟨_, route, hRoute, hOnward⟩ := leadsTo_iff.mp hLeads
  exact hOnward.shape?_here (route?_ne_nil hRoute)

theorem leadsTo_of_locate {found : Option Item}
    (hLocate : disk.locate ending path = .ok (place, found)) :
    disk.LeadsTo ending path place ∧ found = disk.root.at? place := by
  have hFound : found = disk.root.at? place := by
    rw [locate] at hLocate
    split at hLocate
    · cases hLocate
    · cases hLocate
    · exact (leads_of_resolve hLocate).2
  rw [LeadsTo, hLocate, hFound]
  exact ⟨rfl, rfl⟩

theorem lookup_eq_ok_iff {item : Item} :
    disk.lookup path = .ok item ↔
      ∃ place, disk.LeadsTo .target path place ∧ disk.root.at? place = some item := by
  rw [lookup]
  constructor
  · intro hLookup
    split at hLookup
    · rename_i place found hLocate
      cases hLookup
      obtain ⟨hLeads, hItem⟩ := leadsTo_of_locate hLocate
      exact ⟨place, hLeads, hItem.symm⟩
    · cases hLookup
    · cases hLookup
  · rintro ⟨place, hLeads, hItem⟩
    rw [show disk.locate .target path = _ from hLeads, hItem]

theorem isPresent_iff :
    disk.isPresent path = true ↔
      ∃ place, disk.LeadsTo .target path place ∧ disk.shape? place ≠ none := by
  have hPresent : disk.isPresent path = true ↔ ∃ item, disk.lookup path = .ok item := by
    rw [isPresent]
    cases disk.lookup path <;> simp
  simp only [hPresent, lookup_eq_ok_iff]
  constructor
  · rintro ⟨item, place, hLeads, hItem⟩
    exact ⟨place, hLeads, by simp [shape?, hItem]⟩
  · rintro ⟨place, hLeads, hSome⟩
    obtain ⟨item, hItem⟩ := Option.ne_none_iff_exists'.mp (mt shape?_eq_none_iff.mpr hSome)
    exact ⟨item, place, hLeads, hItem⟩

theorem isDir_iff :
    disk.isDir path = true ↔
      ∃ place, disk.LeadsTo .target path place ∧ disk.shape? place = some .dir := by
  have hDir : disk.isDir path = true ↔ ∃ listing, disk.lookup path = .ok (.dir listing) := by
    rw [isDir]
    split
    · rename_i listing hLookup
      simp [hLookup]
    · rename_i hOther
      simpa using hOther
  simp only [hDir, lookup_eq_ok_iff, shape?_eq_dir_iff]
  constructor
  · rintro ⟨listing, place, hLeads, hItem⟩
    exact ⟨place, hLeads, listing, hItem⟩
  · rintro ⟨place, hLeads, listing, hItem⟩
    exact ⟨listing, place, hLeads, hItem⟩

theorem file?_eq_some_iff {doc : Document} :
    disk.file? path = some doc ↔
      ∃ place, disk.LeadsTo .target path place ∧ disk.shape? place = some (.file doc) := by
  have hFile : disk.file? path = some doc ↔ disk.lookup path = .ok (.file doc) := by
    rw [file?]
    split
    · rename_i found hLookup
      simp [hLookup]
    · rename_i hOther
      simpa using hOther doc
  simp only [hFile, lookup_eq_ok_iff, shape?_eq_file_iff]

end LeadsTo

end Disk

end SymbolMap
