import SymbolMap.Proofs.Disk.Places
import SymbolMap.Proofs.Path.Normalize

/-! Walks that enter only some of the directories. What a walk reads is what
it would read in all files, as far as it gets to them; so two trees that
differ only below a directory give it the same files elsewhere. -/
namespace SymbolMap.Listing

open SymbolMap.Path

variable {β : Type} {listing listing' : Listing} {above names : List String}

section Collect

/-- What a walk reads in the files of a directory, to which the names `above`
lead, and in those of the directories in it that it enters. -/
def collect (enters : List String → Bool) (read : List String × Document → List β)
    (above : List String) : Listing → List β
  | nil => []
  | file name doc rest => read (above ++ [name], doc) ++ rest.collect enters read above
  | dir name below rest =>
    (if enters (above ++ [name]) then below.collect enters read (above ++ [name]) else []) ++
      rest.collect enters read above
  | link _ _ rest => rest.collect enters read above

variable {enters : List String → Bool} {read : List String × Document → List β}

/-- A walk gets to no file below a directory that it does not enter. -/
theorem filter_places_eq_nil (hNe : above ≠ []) (hNot : enters above = false) :
    ((listing.places above).filter fun place => (properInits place.1).all enters) = [] := by
  rw [List.filter_eq_nil_iff]
  intro place hPlace hAll
  obtain ⟨name, _, rest, hNames⟩ := exists_head_of_mem_places hPlace
  have hInit : above ∈ properInits place.1 := by
    rw [mem_properInits_iff, hNames]
    exact ⟨hNe, List.prefix_append _ _, by simp⟩
  rw [List.all_eq_true] at hAll
  exact absurd (hAll above hInit) (by simp [hNot])

theorem all_properInits_concat (hAbove : ∀ dir, dir ≠ [] → dir <+: above → enters dir = true)
    (name : String) : (properInits (above ++ [name])).all enters = true := by
  rw [List.all_eq_true]
  intro dir hDir
  obtain ⟨hNe, hPrefix, hNot⟩ := (mem_properInits_iff _ _).mp hDir
  exact hAbove dir hNe ((List.prefix_concat_iff.mp hPrefix).resolve_left hNot)

/-- Deciding about whole directories on the way is deciding about each file by
the directories above it. -/
theorem collect_eq_flatMap (hAbove : ∀ dir, dir ≠ [] → dir <+: above → enters dir = true) :
    listing.collect enters read above =
      ((listing.places above).filter fun place => (properInits place.1).all enters).flatMap
        read := by
  induction listing generalizing above with
  | nil => rfl
  | file name doc rest ih =>
      rw [collect, places, List.filter_cons, if_pos (all_properInits_concat hAbove name),
        List.flatMap_cons, ih hAbove]
  | dir name below rest ihBelow ihRest =>
      rw [collect, places, List.filter_append, List.flatMap_append, ihRest hAbove]
      congr 1
      cases hEnters : enters (above ++ [name]) with
      | false => simp [filter_places_eq_nil (by simp) hEnters]
      | true =>
          apply ihBelow
          intro dir hNe hPrefix
          rcases List.prefix_concat_iff.mp hPrefix with rfl | hPrefix
          · exact hEnters
          · exact hAbove dir hNe hPrefix
  | link name target rest ih =>
      rw [collect, places, ih hAbove]

end Collect

section Names

/-- Every name in a tree, of files, directories and links, has a property. -/
def EveryName (p : String → Prop) : Listing → Prop
  | nil => True
  | file name _ rest => p name ∧ rest.EveryName p
  | dir name below rest => p name ∧ below.EveryName p ∧ rest.EveryName p
  | link name _ rest => p name ∧ rest.EveryName p

variable {p : String → Prop}

theorem Ordered.everyName (hOrdered : listing.Ordered) : listing.EveryName IsEntryName := by
  induction listing with
  | nil => trivial
  | file name doc rest ih => exact ⟨hOrdered.1, ih hOrdered.2.2⟩
  | dir name below rest ihBelow ihRest =>
      exact ⟨hOrdered.1, ihBelow hOrdered.2.2.1, ihRest hOrdered.2.2.2⟩
  | link name target rest ih => exact ⟨hOrdered.1, ih hOrdered.2.2⟩

theorem EveryName.of_mem_places (hEvery : listing.EveryName p) (hAbove : ∀ name ∈ above, p name)
    {place : List String × Document} (hPlace : place ∈ listing.places above) :
    ∀ name ∈ place.1, p name := by
  have hConcat : ∀ {above : List String} {name : String}, (∀ n ∈ above, p n) → p name →
      ∀ n ∈ above ++ [name], p n := by
    intro above name hAbove hName
    simpa [or_imp, forall_and] using ⟨hAbove, hName⟩
  induction listing generalizing above with
  | nil => simp [places] at hPlace
  | file name doc rest ih =>
      rcases List.mem_cons.mp hPlace with rfl | hPlace
      · exact hConcat hAbove hEvery.1
      · exact ih hEvery.2 hAbove hPlace
  | dir name below rest ihBelow ihRest =>
      rcases List.mem_append.mp hPlace with hPlace | hPlace
      · exact ihBelow hEvery.2.1 (hConcat hAbove hEvery.1) hPlace
      · exact ihRest hEvery.2.2 hAbove hPlace
  | link name target rest ih => exact ih hEvery.2 hAbove hPlace

end Names

section Elsewhere

/-- Two trees differ only in what lies below the directory that some names
lead to. -/
inductive SameOutside : List String → Listing → Listing → Prop where
  | inside (listing listing' : Listing) : SameOutside [] listing listing'
  | enter {names : List String} {inner inner' : Listing} (name : String) (rest : Listing)
      (hInner : SameOutside names inner inner') :
      SameOutside (name :: names) (.dir name inner rest) (.dir name inner' rest)
  | file {names : List String} {rest rest' : Listing} (name : String) (doc : Document)
      (hRest : SameOutside names rest rest') :
      SameOutside names (.file name doc rest) (.file name doc rest')
  | dir {names : List String} {rest rest' : Listing} (name : String) (inner : Listing)
      (hRest : SameOutside names rest rest') :
      SameOutside names (.dir name inner rest) (.dir name inner rest')
  | link {names : List String} {rest rest' : Listing} (name target : String)
      (hRest : SameOutside names rest rest') :
      SameOutside names (.link name target rest) (.link name target rest')

theorem SameOutside.everyName {p : String → Prop} (hSame : SameOutside names listing listing')
    (hEvery : listing.EveryName p) : ∀ name ∈ names, p name := by
  induction hSame with
  | inside => simp
  | enter name rest _ ih => exact List.forall_mem_cons.mpr ⟨hEvery.1, ih hEvery.2.1⟩
  | file name doc _ ih => exact ih hEvery.2
  | dir name inner _ ih => exact ih hEvery.2.2
  | link name target _ ih => exact ih hEvery.2

/-- Trees that differ only below a directory differ only below those above
it. -/
theorem SameOutside.outward {more : List String} (hSame : SameOutside (names ++ more) listing listing') :
    SameOutside names listing listing' := by
  generalize hWay : names ++ more = way at hSame
  induction hSame generalizing names with
  | inside listing listing' =>
      rw [(List.append_eq_nil_iff.mp hWay).1]
      exact .inside listing listing'
  | enter name rest hInner ih =>
      cases names with
      | nil => exact .inside _ _
      | cons first names =>
          cases hWay
          exact .enter name rest (ih rfl)
  | file name doc _ ih => exact .file name doc (ih hWay)
  | dir name inner _ ih => exact .dir name inner (ih hWay)
  | link name target _ ih => exact .link name target (ih hWay)

/-- The files that do not lie below the directory are the same. -/
theorem SameOutside.filter_places (hSame : SameOutside names listing listing')
    (above : List String) (hNe : above ++ names ≠ []) :
    ((listing.places above).filter fun place => above ++ names ∉ properInits place.1) =
      (listing'.places above).filter fun place => above ++ names ∉ properInits place.1 := by
  induction hSame generalizing above with
  | inside listing listing' =>
      have hNone : ∀ listing : Listing,
          ((listing.places above).filter fun place => above ++ [] ∉ properInits place.1) = [] := by
        intro listing
        rw [List.filter_eq_nil_iff]
        intro place hPlace
        obtain ⟨name, _, rest, hNames⟩ := exists_head_of_mem_places hPlace
        rw [decide_eq_true_eq, not_not, mem_properInits_iff, hNames]
        exact ⟨hNe, by simp, by simp⟩
      rw [hNone, hNone]
  | enter name rest _ ih =>
      have hInner := ih (above ++ [name]) (by simp)
      rw [List.append_assoc, List.singleton_append] at hInner
      rw [places, places, List.filter_append, List.filter_append, hInner]
  | file name doc _ ih =>
      rw [places, places, List.filter_cons, List.filter_cons, ih above hNe]
  | dir name inner _ ih =>
      rw [places, places, List.filter_append, List.filter_append, ih above hNe]
  | link name target _ ih =>
      rw [places, places, ih above hNe]

end Elsewhere

end SymbolMap.Listing
