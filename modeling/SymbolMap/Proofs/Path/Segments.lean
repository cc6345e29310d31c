import SymbolMap.Path

/-! Cutting a path into segments and joining segments again undo each other.
The pieces of a cut hold no separator and only characters of the text. -/
namespace SymbolMap

open SymbolMap.Text

namespace Text

/-- A piece of a cut holds only characters of the text, and none of them is a
separator. -/
theorem mem_piece_of_mem_splitWhere {p : Char → Bool} {s piece : List Char}
    (hPiece : piece ∈ splitWhere p s) {c : Char} (hChar : c ∈ piece) :
    c ∈ s ∧ p c = false := by
  induction s generalizing piece with
  | nil =>
      simp only [splitWhere, List.mem_singleton] at hPiece
      subst hPiece
      simp at hChar
  | cons d s ih =>
      obtain ⟨first, others, hPieces⟩ := List.exists_cons_of_ne_nil (splitWhere_ne_nil p s)
      rw [hPieces] at ih
      simp only [splitWhere, hPieces] at hPiece
      by_cases hSep : p d = true
      · simp only [hSep, if_true, List.mem_cons] at hPiece
        rcases hPiece with rfl | hPiece
        · simp at hChar
        · have h := ih (List.mem_cons.mpr hPiece) hChar
          exact ⟨List.mem_cons_of_mem _ h.1, h.2⟩
      · rw [if_neg hSep, List.mem_cons] at hPiece
        rcases hPiece with rfl | hPiece
        · rcases List.mem_cons.mp hChar with rfl | hChar
          · exact ⟨List.mem_cons_self, by simpa using hSep⟩
          · have h := ih List.mem_cons_self hChar
            exact ⟨List.mem_cons_of_mem _ h.1, h.2⟩
        · have h := ih (List.mem_cons_of_mem _ hPiece) hChar
          exact ⟨List.mem_cons_of_mem _ h.1, h.2⟩

/-- A text up to its first separator is the first piece of its cut. -/
theorem splitAt_append_cons {sep : Char} {piece : List Char} (hPiece : sep ∉ piece)
    (s : List Char) : splitAt sep (piece ++ sep :: s) = piece :: splitAt sep s := by
  induction piece with
  | nil => simp [splitAt, splitWhere]
  | cons c piece ih =>
      have hNe : c ≠ sep := fun h => hPiece (h ▸ List.mem_cons_self)
      have hRest := ih fun h => hPiece (List.mem_cons_of_mem _ h)
      simp only [splitAt] at hRest
      simp [splitAt, splitWhere, hNe, hRest]

/-- A text without separators is its only piece. -/
theorem splitAt_of_not_mem {sep : Char} {piece : List Char} (hPiece : sep ∉ piece) :
    splitAt sep piece = [piece] := by
  induction piece with
  | nil => rfl
  | cons c piece ih =>
      have hNe : c ≠ sep := fun h => hPiece (h ▸ List.mem_cons_self)
      have hRest := ih fun h => hPiece (List.mem_cons_of_mem _ h)
      simp only [splitAt] at hRest
      simp [splitAt, splitWhere, hNe, hRest]

/-- Cutting joined pieces gives the pieces back, when none of them holds the
separator. -/
theorem splitAt_joinWith {sep : Char} {pieces : List (List Char)} (hNe : pieces ≠ [])
    (hPieces : ∀ piece ∈ pieces, sep ∉ piece) :
    splitAt sep (joinWith sep pieces) = pieces := by
  induction pieces with
  | nil => exact absurd rfl hNe
  | cons piece pieces ih =>
      cases pieces with
      | nil => exact splitAt_of_not_mem (hPieces piece List.mem_cons_self)
      | cons next pieces =>
          rw [joinWith, splitAt_append_cons (hPieces piece List.mem_cons_self)]
          rw [ih (List.cons_ne_nil _ _) fun p hp => hPieces p (List.mem_cons_of_mem _ hp)]

/-- Joining two lists of pieces puts one separator between them. -/
theorem joinWith_append (sep : Char) {first second : List (List Char)}
    (hFirst : first ≠ []) (hSecond : second ≠ []) :
    joinWith sep (first ++ second) = joinWith sep first ++ sep :: joinWith sep second := by
  induction first with
  | nil => exact absurd rfl hFirst
  | cons piece first ih =>
      cases first with
      | nil =>
          obtain ⟨next, second, rfl⟩ := List.exists_cons_of_ne_nil hSecond
          rfl
      | cons next first =>
          have hTail := ih (List.cons_ne_nil _ _)
          simp only [List.cons_append] at hTail ⊢
          rw [joinWith, hTail, joinWith, List.append_assoc, List.cons_append]

theorem mem_joinWith_of_mem {sep c : Char} {pieces : List (List Char)} {piece : List Char}
    (hPiece : piece ∈ pieces) (hChar : c ∈ piece) : c ∈ joinWith sep pieces := by
  induction pieces with
  | nil => simp at hPiece
  | cons first pieces ih =>
      cases pieces with
      | nil =>
          rw [List.mem_singleton] at hPiece
          simpa [joinWith, ← hPiece] using hChar
      | cons next pieces =>
          rw [joinWith, List.mem_append, List.mem_cons]
          rcases List.mem_cons.mp hPiece with rfl | hPiece
          · exact Or.inl hChar
          · exact Or.inr (Or.inr (ih hPiece))

/-- Joined pieces hold only the separator and characters of the pieces. -/
theorem mem_joinWith {sep c : Char} {pieces : List (List Char)}
    (hChar : c ∈ joinWith sep pieces) : c = sep ∨ ∃ piece ∈ pieces, c ∈ piece := by
  induction pieces with
  | nil => simp [joinWith] at hChar
  | cons piece pieces ih =>
      cases pieces with
      | nil => exact Or.inr ⟨piece, List.mem_cons_self, hChar⟩
      | cons next pieces =>
          rw [joinWith, List.mem_append, List.mem_cons] at hChar
          rcases hChar with hChar | hChar | hChar
          · exact Or.inr ⟨piece, List.mem_cons_self, hChar⟩
          · exact Or.inl hChar
          · rcases ih hChar with hSep | ⟨other, hOther, hMem⟩
            · exact Or.inl hSep
            · exact Or.inr ⟨other, List.mem_cons_of_mem _ hOther, hMem⟩

end Text

namespace Path

theorem segments_ne_nil (path : List Char) : segments path ≠ [] :=
  splitWhere_ne_nil _ path

@[simp] theorem ofSegments_segments (path : List Char) : ofSegments (segments path) = path :=
  joinWith_splitAt '/' path

/-- No segment of a path holds a slash. -/
theorem slash_not_mem_of_mem_segments {path seg : List Char} (hSeg : seg ∈ segments path) :
    '/' ∉ seg := by
  intro hSlash
  have h := (mem_piece_of_mem_splitWhere hSeg hSlash).2
  simp at h

/-- Segments hold only characters of the path. -/
theorem mem_of_mem_segments {path seg : List Char} (hSeg : seg ∈ segments path) {c : Char}
    (hChar : c ∈ seg) : c ∈ path :=
  (mem_piece_of_mem_splitWhere hSeg hChar).1

theorem segments_ofSegments {segs : List (List Char)} (hNe : segs ≠ [])
    (hSegs : ∀ seg ∈ segs, '/' ∉ seg) : segments (ofSegments segs) = segs :=
  splitAt_joinWith hNe hSegs

/-- The text before the first slash and the text behind it are determined. -/
theorem append_slash_inj {first first' rest rest' : List Char} (hFirst : '/' ∉ first)
    (hFirst' : '/' ∉ first') (h : first ++ '/' :: rest = first' ++ '/' :: rest') :
    first = first' ∧ rest = rest' := by
  have hSegs := congrArg segments h
  rw [segments, splitAt_append_cons hFirst, segments, splitAt_append_cons hFirst',
    List.cons.injEq] at hSegs
  refine ⟨hSegs.1, ?_⟩
  have hRest := congrArg ofSegments hSegs.2
  rwa [← segments, ← segments, ofSegments_segments, ofSegments_segments] at hRest

/-- A name that leads somewhere: not empty, not the current directory, and
one segment only. -/
def IsStep (name : String) : Prop :=
  name ≠ "" ∧ name ≠ "." ∧ '/' ∉ name.toList

/-- The components of a path lead somewhere, and hold only characters of it. -/
theorem isStep_of_mem_components {path : List Char} {name : String}
    (hName : name ∈ components path) :
    IsStep name ∧ ∀ c ∈ name.toList, c ∈ path := by
  simp only [components, List.mem_map, List.mem_filter] at hName
  obtain ⟨seg, ⟨hSeg, hKept⟩, rfl⟩ := hName
  simp only [Bool.and_eq_true, Bool.not_eq_true', bne_iff_ne, ne_eq,
    List.isEmpty_eq_false_iff] at hKept
  have hText : (String.ofList seg).toList = seg := String.toList_ofList
  refine ⟨⟨?_, ?_, ?_⟩, ?_⟩
  · intro hEmpty
    exact hKept.1 (by simpa using congrArg String.toList hEmpty)
  · intro hDot
    exact hKept.2 (by simpa using congrArg String.toList hDot)
  · rw [hText]
    exact slash_not_mem_of_mem_segments hSeg
  · intro c hChar
    rw [hText] at hChar
    exact mem_of_mem_segments hSeg hChar

/-- The directories on the way to a file lead somewhere, and their names hold
only characters of its path. -/
theorem isStep_of_mem_directory {path name : String} (hName : name ∈ directory path) :
    IsStep name ∧ ∀ c ∈ name.toList, c ∈ path.toList := by
  obtain ⟨hStep, hChars⟩ := isStep_of_mem_components hName
  refine ⟨hStep, fun c hChar => ?_⟩
  rcases mem_joinWith (hChars c hChar) with rfl | ⟨seg, hSeg, hMem⟩
  · exact absurd hChar hStep.2.2
  · exact mem_of_mem_segments (List.dropLast_subset _ hSeg) hMem

/-- The path of the directory that a list of names leads to. -/
def ofNames (names : List String) : String :=
  String.ofList (ofSegments (names.map String.toList))

@[simp] theorem ofNames_nil : ofNames [] = "" := rfl

theorem ofNames_append {first second : List String} (hFirst : first ≠ []) (hSecond : second ≠ []) :
    (ofNames (first ++ second)).toList =
      (ofNames first).toList ++ '/' :: (ofNames second).toList := by
  simp only [ofNames, String.toList_ofList, List.map_append]
  exact joinWith_append '/' (by simpa using hFirst) (by simpa using hSecond)

/-- The names of a path that is made of steps are these steps. -/
theorem components_ofNames {names : List String} (hNames : ∀ name ∈ names, IsStep name) :
    components (ofNames names).toList = names := by
  cases names with
  | nil => rfl
  | cons first rest =>
      have hSlash : ∀ seg ∈ (first :: rest).map String.toList, '/' ∉ seg := by
        intro seg hSeg
        obtain ⟨name, hName, rfl⟩ := List.mem_map.mp hSeg
        exact (hNames name hName).2.2
      rw [ofNames, String.toList_ofList, components,
        segments_ofSegments (by simp) hSlash, List.filter_eq_self.mpr, List.map_map]
      · simp [Function.comp_def]
      · intro seg hSeg
        obtain ⟨name, hName, rfl⟩ := List.mem_map.mp hSeg
        obtain ⟨hEmpty, hDot, _⟩ := hNames name hName
        have hDotText : name.toList ≠ ['.'] := fun h => hDot (String.toList_inj.mp h)
        simp [hEmpty, hDotText]

/-- Different lists of steps have different paths. -/
theorem components_of_isStep {name : String} (hName : IsStep name) :
    components name.toList = [name] := by
  have hOne := @components_ofNames [name] fun step hStep => List.mem_singleton.mp hStep ▸ hName
  simpa [ofNames, ofSegments, joinWith] using hOne

theorem ofNames_inj {first second : List String} (hFirst : ∀ name ∈ first, IsStep name)
    (hSecond : ∀ name ∈ second, IsStep name) (h : ofNames first = ofNames second) :
    first = second := by
  rw [← components_ofNames hFirst, h, components_ofNames hSecond]

/-- Going one step further. -/
theorem join_ofNames {names : List String} (hNames : ∀ name ∈ names, IsStep name)
    (name : String) : join (ofNames names) name = ofNames (names ++ [name]) := by
  cases names with
  | nil => simp [join, ofNames, ofSegments, joinWith]
  | cons first rest =>
      have hText : (ofNames (first :: rest)).isEmpty = false := by
        rw [Bool.eq_false_iff]
        intro hEmpty
        have hPath : ofNames (first :: rest) = ofNames [] := by simpa using hEmpty
        exact absurd (ofNames_inj hNames (by simp) hPath) (by simp)
      have hJoin : joinWith '/' ((first :: rest).map String.toList ++ [name.toList]) = _ :=
        joinWith_append '/' (by simp) (by simp)
      apply String.toList_inj.mp
      rw [join, if_neg (by simp [hText])]
      simp only [ofNames, ofSegments, String.toList_append, String.toList_ofList,
        List.map_append, List.map_cons, List.map_nil] at hJoin ⊢
      rw [hJoin, joinWith]
      simp

end Path

end SymbolMap
