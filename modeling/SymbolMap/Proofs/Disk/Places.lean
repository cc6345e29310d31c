import Mathlib.Data.List.Lex
import Mathlib.Data.String.Basic
import SymbolMap.Disk.Listing
import SymbolMap.Proofs.Path.Segments

/-! The files of a directory and of all directories in it, in the order in
which they are walked. -/
namespace SymbolMap

/-- A name that an entry of a directory can have. -/
def IsEntryName (name : String) : Prop :=
  name ≠ "" ∧ '/' ∉ name.toList ∧ name ≠ "." ∧ name ≠ ".."

instance (name : String) : Decidable (IsEntryName name) :=
  inferInstanceAs (Decidable (_ ∧ _ ∧ _ ∧ _))

theorem IsEntryName.isStep {name : String} (h : IsEntryName name) : Path.IsStep name :=
  ⟨h.1, h.2.2.1, h.2.1⟩

namespace Listing

/-- The names of the entries of a directory. -/
def heads : Listing → List String
  | nil => []
  | file name _ rest => name :: rest.heads
  | dir name _ rest => name :: rest.heads
  | link name _ rest => name :: rest.heads

/-- The entries of every directory have proper names and come in the order of
these, no two under one name. -/
def Ordered : Listing → Prop
  | nil => True
  | file name _ rest => IsEntryName name ∧ (∀ next ∈ rest.heads, name < next) ∧ rest.Ordered
  | dir name below rest =>
    IsEntryName name ∧ (∀ next ∈ rest.heads, name < next) ∧ below.Ordered ∧ rest.Ordered
  | link name _ rest => IsEntryName name ∧ (∀ next ∈ rest.heads, name < next) ∧ rest.Ordered

instance decidableOrdered : (listing : Listing) → Decidable listing.Ordered
  | nil => inferInstanceAs (Decidable True)
  | file name _ rest =>
    have := decidableOrdered rest
    inferInstanceAs (Decidable
      (IsEntryName name ∧ (∀ next ∈ rest.heads, name < next) ∧ rest.Ordered))
  | dir name below rest =>
    have := decidableOrdered below
    have := decidableOrdered rest
    inferInstanceAs (Decidable
      (IsEntryName name ∧ (∀ next ∈ rest.heads, name < next) ∧ below.Ordered ∧ rest.Ordered))
  | link name _ rest =>
    have := decidableOrdered rest
    inferInstanceAs (Decidable
      (IsEntryName name ∧ (∀ next ∈ rest.heads, name < next) ∧ rest.Ordered))

/-- The files of a directory that the names `above` lead to and of all
directories in it, each with the names that lead to it, in the order in which
they are walked. -/
def places (above : List String) : Listing → List (List String × Document)
  | nil => []
  | file name doc rest => (above ++ [name], doc) :: rest.places above
  | dir name below rest => below.places (above ++ [name]) ++ rest.places above
  | link _ _ rest => rest.places above

variable {listing : Listing} {above names : List String} {doc : Document}

/-- The way to a file below a directory goes through an entry of the
directory. -/
theorem exists_head_of_mem_places {place : List String × Document}
    (hPlace : place ∈ listing.places above) :
    ∃ name ∈ listing.heads, ∃ rest, place.1 = above ++ name :: rest := by
  induction listing generalizing above with
  | nil => simp [places] at hPlace
  | file name doc rest ih =>
      rcases List.mem_cons.mp hPlace with rfl | hPlace
      · exact ⟨name, List.mem_cons_self, [], rfl⟩
      · obtain ⟨next, hNext, h⟩ := ih hPlace
        exact ⟨next, List.mem_cons_of_mem _ hNext, h⟩
  | dir name below rest ihBelow ihRest =>
      rcases List.mem_append.mp hPlace with hPlace | hPlace
      · obtain ⟨next, _, more, h⟩ := ihBelow hPlace
        exact ⟨name, List.mem_cons_self, next :: more, by simp [h]⟩
      · obtain ⟨next, hNext, h⟩ := ihRest hPlace
        exact ⟨next, List.mem_cons_of_mem _ hNext, h⟩
  | link name target rest ih =>
      obtain ⟨next, hNext, h⟩ := ih hPlace
      exact ⟨next, List.mem_cons_of_mem _ hNext, h⟩

/-- Files come in the order of the names that lead to them. -/
theorem pairwise_places (hOrdered : listing.Ordered) (above : List String) :
    (listing.places above).Pairwise fun a b => a.1 < b.1 := by
  -- what comes later has a greater name at this level
  have hLater : ∀ {name : String} {rest : Listing}, (∀ next ∈ rest.heads, name < next) →
      ∀ above, ∀ place ∈ rest.places above, ∀ others, above ++ name :: others < place.1 := by
    intro name rest hHeads above place hPlace others
    obtain ⟨next, hNext, more, hNames⟩ := exists_head_of_mem_places hPlace
    rw [hNames]
    exact List.Lex.append_left _ (List.Lex.rel (hHeads next hNext)) above
  induction listing generalizing above with
  | nil => exact List.Pairwise.nil
  | file name doc rest ih =>
      obtain ⟨_, hHeads, hRest⟩ := hOrdered
      exact List.pairwise_cons.mpr
        ⟨fun place hPlace => hLater hHeads above place hPlace [], ih hRest above⟩
  | dir name below rest ihBelow ihRest =>
      obtain ⟨_, hHeads, hBelow, hRest⟩ := hOrdered
      refine List.pairwise_append.mpr ⟨ihBelow hBelow _, ihRest hRest above, ?_⟩
      intro place hPlace later hSecond
      obtain ⟨next, _, more, hNames⟩ := exists_head_of_mem_places hPlace
      rw [hNames, List.append_assoc]
      exact hLater hHeads above later hSecond _
  | link name target rest ih => exact ih hOrdered.2.2 above

theorem isEntryName_concat {name : String} (hAbove : ∀ n ∈ above, IsEntryName n)
    (hName : IsEntryName name) : ∀ n ∈ above ++ [name], IsEntryName n := by
  intro n hn
  rcases List.mem_append.mp hn with hn | hn
  · exact hAbove n hn
  · exact List.mem_singleton.mp hn ▸ hName

/-- The names that lead to a file are proper ones. -/
theorem isEntryName_of_mem_places (hOrdered : listing.Ordered)
    (hAbove : ∀ name ∈ above, IsEntryName name) {place : List String × Document}
    (hPlace : place ∈ listing.places above) : ∀ name ∈ place.1, IsEntryName name := by
  induction listing generalizing above with
  | nil => simp [places] at hPlace
  | file name doc rest ih =>
      obtain ⟨hName, _, hRest⟩ := hOrdered
      rcases List.mem_cons.mp hPlace with rfl | hPlace
      · exact isEntryName_concat hAbove hName
      · exact ih hRest hAbove hPlace
  | dir name below rest ihBelow ihRest =>
      obtain ⟨hName, _, hBelow, hRest⟩ := hOrdered
      rcases List.mem_append.mp hPlace with hPlace | hPlace
      · exact ihBelow hBelow (isEntryName_concat hAbove hName) hPlace
      · exact ihRest hRest hAbove hPlace
  | link name target rest ih => exact ih hOrdered.2.2 hAbove hPlace

theorem head_mem_of_at? {name : String} {item : Item}
    (hItem : listing.at? (name :: names) = some item) : name ∈ listing.heads := by
  rw [at?] at hItem
  have hFound : listing.get? name ≠ none := by
    intro hNone
    simp [hNone] at hItem
  clear hItem
  induction listing with
  | nil => simp [get?] at hFound
  | file n doc rest ih =>
      by_cases hName : n = name
      · simp [heads, hName]
      · rw [get?, if_neg hName] at hFound
        exact List.mem_cons_of_mem _ (ih hFound)
  | dir n below rest _ ih =>
      by_cases hName : n = name
      · simp [heads, hName]
      · rw [get?, if_neg hName] at hFound
        exact List.mem_cons_of_mem _ (ih hFound)
  | link n target rest ih =>
      by_cases hName : n = name
      · simp [heads, hName]
      · rw [get?, if_neg hName] at hFound
        exact List.mem_cons_of_mem _ (ih hFound)

theorem at?_file (n : String) (doc : Document) (rest : Listing) (name : String)
    (names : List String) :
    (file n doc rest).at? (name :: names) =
      if n = name then (if names.isEmpty then some (.file doc) else none)
      else rest.at? (name :: names) := by
  by_cases hName : n = name <;> simp [at?, get?, hName]

theorem at?_dir (n : String) (below rest : Listing) (name : String) (names : List String) :
    (dir n below rest).at? (name :: names) =
      if n = name then below.at? names else rest.at? (name :: names) := by
  by_cases hName : n = name <;> simp [at?, get?, hName]

theorem at?_link (n target : String) (rest : Listing) (name : String) (names : List String) :
    (link n target rest).at? (name :: names) =
      if n = name then (if names.isEmpty then some (.link target) else none)
      else rest.at? (name :: names) := by
  by_cases hName : n = name <;> simp [at?, get?, hName]

/-- An entry in front hides nothing behind it. -/
theorem ne_of_at? {name next : String} (hHeads : ∀ next ∈ listing.heads, name < next) {item : Item}
    (hItem : listing.at? (next :: names) = some item) : name ≠ next :=
  ne_of_lt (hHeads _ (head_mem_of_at? hItem))

/-- The directory with some names is one of those above what further names
lead to. -/
theorem exists_dir_of_at? {dir rest : List String} (hRest : rest ≠ []) {item : Item}
    (hItem : listing.at? (dir ++ rest) = some item) :
    ∃ below, listing.at? dir = some (.dir below) := by
  induction dir generalizing listing with
  | nil => exact ⟨listing, rfl⟩
  | cons name dir ih =>
      rw [List.cons_append, at?] at hItem
      rw [at?]
      split at hItem
      · exact ih hItem
      · simp [hRest] at hItem
      · cases hItem

/-- The places are those of the files that names lead to. -/
theorem mem_places_iff (hOrdered : listing.Ordered) (above names : List String)
    (doc : Document) :
    (names, doc) ∈ listing.places above ↔
      ∃ inner, names = above ++ inner ∧ listing.at? inner = some (.file doc) := by
  induction listing generalizing above with
  | nil =>
      simp only [places, List.not_mem_nil, false_iff]
      rintro ⟨inner, _, hItem⟩
      cases inner <;> simp [at?, get?] at hItem
  | file name d rest ih =>
      obtain ⟨_, hHeads, hRest⟩ := hOrdered
      rw [places, List.mem_cons, ih hRest above]
      constructor
      · rintro (hSame | ⟨inner, rfl, hItem⟩)
        · cases hSame
          exact ⟨[name], rfl, by simp [at?_file]⟩
        · refine ⟨inner, rfl, ?_⟩
          cases inner with
          | nil => simp [at?] at hItem
          | cons next more => rw [at?_file, if_neg (ne_of_at? hHeads hItem), hItem]
      · rintro ⟨inner, rfl, hItem⟩
        cases inner with
        | nil => simp [at?] at hItem
        | cons next more =>
            rw [at?_file] at hItem
            split at hItem
            · rename_i hName
              split at hItem
              · rename_i hLast
                cases hItem
                rw [List.isEmpty_iff.mp hLast, hName]
                exact Or.inl rfl
              · cases hItem
            · exact Or.inr ⟨_, rfl, hItem⟩
  | dir name below rest ihBelow ihRest =>
      obtain ⟨_, hHeads, hBelow, hRest⟩ := hOrdered
      rw [places, List.mem_append, ihBelow hBelow, ihRest hRest]
      constructor
      · rintro (⟨inner, rfl, hItem⟩ | ⟨inner, rfl, hItem⟩)
        · exact ⟨name :: inner, by simp, by simpa [at?_dir] using hItem⟩
        · refine ⟨inner, rfl, ?_⟩
          cases inner with
          | nil => simp [at?] at hItem
          | cons next more => rw [at?_dir, if_neg (ne_of_at? hHeads hItem), hItem]
      · rintro ⟨inner, rfl, hItem⟩
        cases inner with
        | nil => simp [at?] at hItem
        | cons next more =>
            rw [at?_dir] at hItem
            split at hItem
            · rename_i hName
              exact Or.inl ⟨more, by simp [hName], hItem⟩
            · exact Or.inr ⟨_, rfl, hItem⟩
  | link name target rest ih =>
      obtain ⟨_, hHeads, hRest⟩ := hOrdered
      rw [places, ih hRest above]
      constructor
      · rintro ⟨inner, rfl, hItem⟩
        refine ⟨inner, rfl, ?_⟩
        cases inner with
        | nil => simp [at?] at hItem
        | cons next more => rw [at?_link, if_neg (ne_of_at? hHeads hItem), hItem]
      · rintro ⟨inner, rfl, hItem⟩
        cases inner with
        | nil => simp [at?] at hItem
        | cons next more =>
            rw [at?_link] at hItem
            split at hItem
            · split at hItem <;> cases hItem
            · exact ⟨_, rfl, hItem⟩

end Listing

end SymbolMap
