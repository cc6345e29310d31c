import Mathlib.Data.List.Basic
import Mathlib.Data.List.TakeWhile
import SymbolMap.Proofs.Path.Segments

/-! The one spelling of a path and the directories above it. A path below a
directory is spelled below the spelling of that directory, so the directories
above the one are also above the other. -/
namespace SymbolMap.Text

theorem afterLead_eq_some_iff (lead s rest : List Char) :
    afterLead lead s = some rest ↔ s = lead ++ rest := by
  induction lead generalizing s with
  | nil => simp [afterLead]
  | cons l lead ih =>
      cases s with
      | nil => simp [afterLead]
      | cons c s =>
          rw [afterLead]
          by_cases hSame : l = c
          · simp [hSame, ih]
          · simp [hSame, Ne.symm hSame]

theorem afterLead_eq_none_iff (lead s : List Char) : afterLead lead s = none ↔ ¬lead <+: s := by
  rw [Option.eq_none_iff_forall_not_mem]
  constructor
  · rintro hNone ⟨rest, rfl⟩
    exact hNone rest ((afterLead_eq_some_iff ..).mpr rfl)
  · intro hNot rest hSome
    exact hNot ⟨rest, ((afterLead_eq_some_iff ..).mp hSome).symm⟩

/-- What is dropped at the end of a text are characters to drop. -/
theorem exists_append_dropEndWhile (p : Char → Bool) (s : List Char) :
    ∃ dropped, s = dropEndWhile p s ++ dropped ∧ ∀ c ∈ dropped, p c = true := by
  refine ⟨(s.reverse.takeWhile p).reverse, ?_, ?_⟩
  · rw [dropEndWhile, ← List.reverse_append, List.takeWhile_append_dropWhile, List.reverse_reverse]
  · intro c hChar
    exact List.mem_takeWhile_imp (List.mem_reverse.mp hChar)

theorem dropEndWhile_of_getLast? {p : Char → Bool} {s : List Char} {c : Char}
    (hLast : s.getLast? = some c) (hKeep : p c = false) : dropEndWhile p s = s := by
  obtain ⟨front, rfl⟩ := List.getLast?_eq_some_iff.mp hLast
  simp [dropEndWhile, hKeep]

theorem getLast?_joinWith {sep : Char} {pieces : List (List Char)} {last : List Char}
    (hLast : pieces.getLast? = some last) (hNe : last ≠ []) :
    (joinWith sep pieces).getLast? = last.getLast? := by
  obtain ⟨front, rfl⟩ := List.getLast?_eq_some_iff.mp hLast
  by_cases hFront : front = []
  · simp [hFront, joinWith]
  · have hJoin := joinWith_append sep hFront (List.cons_ne_nil last [])
    rw [hJoin, joinWith, List.append_cons, List.getLast?_append_of_ne_nil _ hNe]

/-- A cut text is cut into the pieces of what stands before a separator and
those of what stands behind it. -/
theorem splitAt_append (sep : Char) (first second : List Char) :
    splitAt sep (first ++ sep :: second) = splitAt sep first ++ splitAt sep second := by
  have hPieces : ∀ piece ∈ splitAt sep first ++ splitAt sep second, sep ∉ piece := by
    intro piece hPiece hSep
    have hIn : piece ∈ splitAt sep first ∨ piece ∈ splitAt sep second := List.mem_append.mp hPiece
    rcases hIn with hIn | hIn
    · simpa using (mem_piece_of_mem_splitWhere hIn hSep).2
    · simpa using (mem_piece_of_mem_splitWhere hIn hSep).2
  have hFirst : splitAt sep first ≠ [] := splitWhere_ne_nil _ first
  have hSecond : splitAt sep second ≠ [] := splitWhere_ne_nil _ second
  rw [← splitAt_joinWith (List.append_ne_nil_of_left_ne_nil hFirst _) hPieces,
    joinWith_append sep hFirst hSecond, joinWith_splitAt, joinWith_splitAt]

end SymbolMap.Text

namespace SymbolMap.Path

open SymbolMap.Text

section Spelling

/-- A path with slashes for its backslashes. -/
def slashed (path : List Char) : List Char :=
  path.map fun c => if c = '\\' then '/' else c

theorem normalize_eq (path : List Char) :
    normalize path = withoutSlashes (withoutDot (slashed path)) :=
  rfl

theorem slashed_append (first second : List Char) :
    slashed (first ++ '/' :: second) = slashed first ++ '/' :: slashed second := by
  simp [slashed]

theorem getLast?_slashed {path : List Char} {c : Char} (hLast : path.getLast? = some c)
    (hEnd : c ≠ '\\') : (slashed path).getLast? = some c := by
  rw [slashed, List.getLast?_map, hLast, Option.map_some, if_neg hEnd]

theorem withoutDot_of_no_dot {path : List Char} (hDot : ¬['.', '/'] <+: path) :
    withoutDot path = path := by
  rw [withoutDot, (afterLead_eq_none_iff _ _).mpr hDot, Option.getD_none]

/-- A path below a directory is spelled below the spelling of the directory,
unless the text begins with a dot and a slash or ends with a slash. -/
theorem exists_normalize_below {dir rest : List Char} (hDot : ¬['.', '/'] <+: slashed dir ++ ['/'])
    {c : Char} (hLast : (slashed rest).getLast? = some c) (hEnd : c ≠ '/') :
    ∃ more, normalize (dir ++ '/' :: rest) = normalize dir ++ '/' :: more := by
  have hDirDot : ¬['.', '/'] <+: slashed dir :=
    fun h => hDot (h.trans (List.prefix_append _ _))
  have hAllDot : ¬['.', '/'] <+: slashed dir ++ '/' :: slashed rest := by
    intro hAll
    cases hDir : slashed dir with
    | nil => simp [hDir] at hAll
    | cons first others =>
        have hBoth : slashed dir ++ ['/'] <+: slashed dir ++ '/' :: slashed rest :=
          ⟨slashed rest, by simp⟩
        exact hDot (List.prefix_of_prefix_length_le hAll hBoth (by simp [hDir]))
  have hKeep : withoutSlashes (slashed dir ++ '/' :: slashed rest) =
      slashed dir ++ '/' :: slashed rest := by
    refine dropEndWhile_of_getLast? (c := c) ?_ (by simpa using hEnd)
    rw [List.getLast?_append, List.getLast?_cons, hLast]
    rfl
  obtain ⟨dropped, hDropped, hSlashes⟩ :=
    exists_append_dropEndWhile (· == '/') (slashed dir)
  rw [normalize_eq, normalize_eq, slashed_append, withoutDot_of_no_dot hAllDot, hKeep,
    withoutDot_of_no_dot hDirDot]
  rw [← withoutSlashes] at hDropped
  -- the slashes dropped from the directory separate the rest as well
  cases dropped with
  | nil =>
      rw [List.append_nil] at hDropped
      exact ⟨slashed rest, by rw [← hDropped]⟩
  | cons d dropped =>
      have hSlash : d = '/' := by simpa using hSlashes d List.mem_cons_self
      refine ⟨dropped ++ '/' :: slashed rest, ?_⟩
      calc slashed dir ++ '/' :: slashed rest
          = withoutSlashes (slashed dir) ++ d :: dropped ++ '/' :: slashed rest := by
            rw [← hDropped]
        _ = withoutSlashes (slashed dir) ++ '/' :: (dropped ++ '/' :: slashed rest) := by
            simp [hSlash]

end Spelling

section Ancestors

theorem segments_append (first second : List Char) :
    segments (first ++ '/' :: second) = segments first ++ segments second :=
  splitAt_append '/' first second

theorem mem_properInits_iff {α : Type} (init items : List α) :
    init ∈ properInits items ↔ init ≠ [] ∧ init <+: items ∧ init ≠ items := by
  induction items generalizing init with
  | nil => simp [properInits]
  | cons item items ih =>
      cases items with
      | nil =>
          simp only [properInits, List.not_mem_nil, false_iff]
          rintro ⟨hNe, hPrefix, hNot⟩
          rcases List.prefix_cons_iff.mp hPrefix with rfl | ⟨rest, rfl, hRest⟩
          · exact hNe rfl
          · exact hNot (by rw [List.prefix_nil.mp hRest])
      | cons next items =>
          rw [properInits, List.mem_cons, List.mem_map, List.prefix_cons_iff]
          constructor
          · rintro (rfl | ⟨rest, hRest, rfl⟩)
            · exact ⟨by simp, Or.inr ⟨[], rfl, List.nil_prefix⟩, by simp⟩
            · obtain ⟨_, hPrefix, hNot⟩ := (ih rest).mp hRest
              exact ⟨by simp, Or.inr ⟨rest, rfl, hPrefix⟩, by simpa using hNot⟩
          · rintro ⟨hNe, rfl | ⟨rest, rfl, hPrefix⟩, hNot⟩
            · exact absurd rfl hNe
            · cases rest with
              | nil => exact Or.inl rfl
              | cons first rest =>
                  exact Or.inr ⟨_, (ih _).mpr ⟨by simp, hPrefix, by simpa using hNot⟩, rfl⟩

theorem properInits_append {α : Type} {first second : List α} (hFirst : first ≠ [])
    (hSecond : second ≠ []) :
    properInits (first ++ second) =
      properInits first ++ first :: (properInits second).map (first ++ ·) := by
  induction first with
  | nil => exact absurd rfl hFirst
  | cons item first ih =>
      cases first with
      | nil =>
          obtain ⟨next, second, rfl⟩ := List.exists_cons_of_ne_nil hSecond
          rfl
      | cons next first =>
          have hRest := ih (List.cons_ne_nil _ _)
          simp only [List.cons_append] at hRest ⊢
          simp [properInits, hRest]

/-- Above a path below a directory are the directories above that directory,
the directory itself, and those between. -/
theorem ancestors_append (dir path : List Char) :
    ancestors (dir ++ '/' :: path) =
      ancestors dir ++ dir :: (ancestors path).map (dir ++ '/' :: ·) := by
  have hBetween : ∀ init ∈ properInits (segments path),
      ofSegments (segments dir ++ init) = dir ++ '/' :: ofSegments init := by
    intro init hInit
    have hNe := ((mem_properInits_iff _ _).mp hInit).1
    rw [ofSegments, joinWith_append '/' (segments_ne_nil dir) hNe]
    exact congrArg (· ++ _) (ofSegments_segments dir)
  rw [ancestors, segments_append,
    properInits_append (segments_ne_nil dir) (segments_ne_nil path), List.map_append,
    List.map_cons, ofSegments_segments]
  simp only [ancestors, List.map_map, Function.comp_def]
  rw [List.map_congr_left hBetween]

/-- The directories above a path end where a slash follows. -/
theorem mem_ancestors_iff (above path : List Char) :
    above ∈ ancestors path ↔ ∃ more, path = above ++ '/' :: more := by
  constructor
  · intro hAbove
    obtain ⟨init, hInit, rfl⟩ := List.mem_map.mp hAbove
    obtain ⟨hNe, ⟨rest, hRest⟩, hNot⟩ := (mem_properInits_iff _ _).mp hInit
    have hMore : rest ≠ [] := by
      rintro rfl
      exact hNot (by simpa using hRest)
    refine ⟨ofSegments rest, ?_⟩
    rw [← ofSegments_segments path, ← hRest]
    exact joinWith_append '/' hNe hMore
  · rintro ⟨more, rfl⟩
    simp [ancestors_append]

/-- A directory is above what lies below it. -/
theorem mem_ancestors_below (path more : List Char) : path ∈ ancestors (path ++ '/' :: more) :=
  (mem_ancestors_iff _ _).mpr ⟨more, rfl⟩

/-- What is above a directory is above everything below it. -/
theorem ancestors_subset_below (path more : List Char) :
    ancestors path ⊆ ancestors (path ++ '/' :: more) := by
  rw [ancestors_append]
  exact List.subset_append_left _ _

end Ancestors

section Normal

variable {path : List Char}

theorem slashed_of_no_backslash (hBackslash : '\\' ∉ path) : slashed path = path := by
  have hKept : ∀ c ∈ path, (if c = '\\' then '/' else c) = c := by
    intro c hChar
    have hOther : c ≠ '\\' := fun h => hBackslash (h ▸ hChar)
    rw [if_neg hOther]
  rw [slashed, List.map_congr_left hKept, List.map_id']

theorem head?_segments_of_dot (hDot : ['.', '/'] <+: path) :
    (segments path).head? = some ['.'] := by
  obtain ⟨more, rfl⟩ := hDot
  rw [List.cons_append, List.singleton_append, ← List.singleton_append, segments_append]
  rfl

/-- A path without empty segments ends in a character of its last segment. -/
theorem exists_getLast?_of_segments (hSegs : ∀ seg ∈ segments path, seg ≠ []) :
    ∃ c, path.getLast? = some c ∧ c ≠ '/' := by
  obtain ⟨last, hLast⟩ := Option.isSome_iff_exists.mp
    (List.getLast?_isSome.mpr (segments_ne_nil path))
  have hMem := List.mem_of_getLast? hLast
  obtain ⟨c, hChar⟩ := Option.isSome_iff_exists.mp (List.getLast?_isSome.mpr (hSegs last hMem))
  refine ⟨c, ?_, ?_⟩
  · rw [← ofSegments_segments path, ofSegments, getLast?_joinWith hLast (hSegs last hMem), hChar]
  · rintro rfl
    exact slash_not_mem_of_mem_segments hMem (List.mem_of_getLast? hChar)

/-- A path without backslashes is its own spelling, unless it begins at the
current directory or has an empty segment. -/
theorem normalize_eq_self (hBackslash : '\\' ∉ path)
    (hDot : (segments path).head? ≠ some ['.']) (hSegs : ∀ seg ∈ segments path, seg ≠ []) :
    normalize path = path := by
  obtain ⟨last, hLast, hEnd⟩ := exists_getLast?_of_segments hSegs
  rw [normalize_eq, slashed_of_no_backslash hBackslash,
    withoutDot_of_no_dot fun h => hDot (head?_segments_of_dot h), withoutSlashes,
    dropEndWhile_of_getLast? hLast (by simpa using hEnd)]

/-- A path without empty segments has no slash at either end. -/
theorem stripWhere_slash_of_segments (hSegs : ∀ seg ∈ segments path, seg ≠ []) :
    stripWhere (· == '/') path = path := by
  obtain ⟨last, hLast, hEnd⟩ := exists_getLast?_of_segments hSegs
  have hFront : path.dropWhile (· == '/') = path := by
    cases path with
    | nil => rfl
    | cons c path =>
        have hStart : c ≠ '/' := by
          rintro rfl
          exact hSegs [] (by simp [segments, splitAt, splitWhere]) rfl
        simp [hStart]
  rw [stripWhere, hFront, dropEndWhile_of_getLast? hLast (by simpa using hEnd)]

end Normal

theorem below?_eq_some_iff (dir path rest : List Char) :
    below? dir path = some rest ↔ path = dir ++ '/' :: rest := by
  rw [← afterLead_eq_some_iff, below?]
  constructor
  · intro hBelow
    split at hBelow
    · rename_i rest' hLead
      cases hBelow
      exact hLead
    · cases hBelow
  · intro hLead
    simp only [hLead]

end SymbolMap.Path
