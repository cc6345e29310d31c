import SymbolMap.Proofs.Path.Normalize

/-! Paths that are made of names. Such a path has one spelling already, and
the directories above it are those of fewer names. -/
namespace SymbolMap.Path

open SymbolMap.Text

variable {names : List String}

theorem segments_ofNames (hNe : names ≠ []) (hNames : ∀ name ∈ names, IsStep name) :
    segments (ofNames names).toList = names.map String.toList := by
  rw [ofNames, String.toList_ofList, segments_ofSegments (by simpa using hNe)]
  intro seg hSeg
  obtain ⟨name, hName, rfl⟩ := List.mem_map.mp hSeg
  exact (hNames name hName).2.2

theorem exists_ofNames_cons (first : String) (rest : List String) :
    ∃ more, (ofNames (first :: rest)).toList = first.toList ++ more := by
  rw [ofNames, String.toList_ofList, List.map_cons]
  cases rest with
  | nil => exact ⟨[], by simp [ofSegments, joinWith]⟩
  | cons next rest => exact ⟨_, rfl⟩

theorem ne_nil_of_mem_segments_ofNames (hNe : names ≠ []) (hNames : ∀ name ∈ names, IsStep name) :
    ∀ seg ∈ segments (ofNames names).toList, seg ≠ [] := by
  rw [segments_ofNames hNe hNames, List.forall_mem_map]
  exact fun name hName => by simpa using (hNames name hName).1

theorem stripWhere_slash_ofNames (hNames : ∀ name ∈ names, IsStep name) :
    stripWhere (· == '/') (ofNames names).toList = (ofNames names).toList := by
  cases names with
  | nil => rfl
  | cons first rest =>
      exact stripWhere_slash_of_segments
        (ne_nil_of_mem_segments_ofNames (List.cons_ne_nil first rest) hNames)

/-- A path of names without backslashes is its own spelling. -/
theorem normalize_ofNames (hNames : ∀ name ∈ names, IsStep name)
    (hPlain : ∀ name ∈ names, '\\' ∉ name.toList) :
    normalize (ofNames names).toList = (ofNames names).toList := by
  cases names with
  | nil => rfl
  | cons first rest =>
      refine normalize_eq_self ?_ ?_
        (ne_nil_of_mem_segments_ofNames (List.cons_ne_nil first rest) hNames)
      · intro hChar
        rw [ofNames, String.toList_ofList] at hChar
        rcases mem_joinWith hChar with hSep | ⟨piece, hPiece, hMem⟩
        · exact absurd hSep (by decide)
        · obtain ⟨name, hName, rfl⟩ := List.mem_map.mp hPiece
          exact hPlain name hName hMem
      · rw [segments_ofNames (List.cons_ne_nil first rest) hNames, List.map_cons, List.head?_cons]
        intro hDot
        exact (hNames first (by simp)).2.1 (String.toList_inj.mp (Option.some.inj hDot))

theorem properInits_map {α β : Type} (f : α → β) (items : List α) :
    properInits (items.map f) = (properInits items).map (List.map f) := by
  induction items with
  | nil => rfl
  | cons item items ih =>
      cases items with
      | nil => rfl
      | cons next items =>
          rw [List.map_cons] at ih
          simp [properInits, ih]

theorem ancestors_ofNames (hNames : ∀ name ∈ names, IsStep name) :
    ancestors (ofNames names).toList = (properInits names).map fun init => (ofNames init).toList := by
  cases names with
  | nil => rfl
  | cons first rest =>
      rw [ancestors, segments_ofNames (by simp) hNames, properInits_map, List.map_map]
      simp [ofNames, Function.comp_def]

theorem components_append (first second : List Char) :
    components (first ++ '/' :: second) = components first ++ components second := by
  rw [components, segments_append, List.filter_append, List.map_append]
  rfl

/-- What lies below a directory by its text lies below it by its names. -/
theorem mem_properInits_of_below? {dir : List String} (hNe : dir ≠ [])
    (hDir : ∀ name ∈ dir, IsStep name) (hNames : ∀ name ∈ names, IsStep name) {rest : List Char}
    (hBelow : below? (ofNames dir).toList (ofNames names).toList = some rest) :
    dir ∈ properInits names := by
  have hText := (below?_eq_some_iff _ _ _).mp hBelow
  have hSplit := congrArg components hText
  rw [components_append, components_ofNames hNames, components_ofNames hDir] at hSplit
  rw [mem_properInits_iff]
  refine ⟨hNe, ⟨_, hSplit.symm⟩, ?_⟩
  rintro rfl
  have hLength := congrArg List.length hText
  simp at hLength

end SymbolMap.Path
