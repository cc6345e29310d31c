import Mathlib.Data.List.Induction
import SymbolMap.Proofs.Glob.Globstar

/-! What a pattern covers that ends before its globstar. The segments in
front of the globstar may use up the whole path. Then nothing is left, but
what stands behind the globstar is still tried on the empty text, as if that
were a segment. Some patterns made of stars pass for it. So a directory can
be covered by a pattern that is meant for what lies inside it. -/
namespace SymbolMap.Glob

open SymbolMap.Text SymbolMap.Path

/-- A pattern of stars in which each single star is the last segment, or is
followed by a globstar that is not the last. -/
structure Hollow (pats : List (List Char)) : Prop where
  stars : ∀ pat ∈ pats, onlyStars pat = true
  spaced : ∀ front pat rest, pats = front ++ pat :: rest → isGlobstar pat = false →
    rest = [] ∨ ∃ next more, rest = next :: more ∧ isGlobstar next = true ∧ more ≠ []

section Hollow

theorem hollow_singleton_iff (pat : List Char) : Hollow [pat] ↔ onlyStars pat = true := by
  constructor
  · exact fun h => h.stars pat List.mem_cons_self
  · refine fun hStars => ⟨by simpa using hStars, fun front seg rest hSplit _ => Or.inl ?_⟩
    have hLength := congrArg List.length hSplit
    simp only [List.length_append, List.length_cons, List.length_nil] at hLength
    exact List.length_eq_zero_iff.mp (by omega)

/-- What stands behind a segment of a hollow pattern is hollow. -/
theorem Hollow.tail {pat : List Char} {pats : List (List Char)} (h : Hollow (pat :: pats)) :
    Hollow pats where
  stars seg hSeg := h.stars seg (List.mem_cons_of_mem _ hSeg)
  spaced front seg rest hSplit := h.spaced (pat :: front) seg rest (by rw [hSplit, List.cons_append])

theorem hollow_globstar_cons_iff {pat : List Char} (hPat : isGlobstar pat = true)
    (pats : List (List Char)) : Hollow (pat :: pats) ↔ Hollow pats := by
  refine ⟨Hollow.tail, fun h => ⟨?_, ?_⟩⟩
  · exact List.forall_mem_cons.mpr ⟨onlyStars_of_isGlobstar hPat, h.stars⟩
  · intro front seg rest hSplit hSeg
    cases front with
    | nil =>
        obtain ⟨rfl, _⟩ := List.cons.inj hSplit
        simp [hPat] at hSeg
    | cons first front => exact h.spaced front seg rest (List.cons.inj hSplit).2 hSeg

theorem hollow_star_cons_iff {pat : List Char} (hPat : isGlobstar pat = false)
    (next : List Char) (pats : List (List Char)) :
    Hollow (pat :: next :: pats) ↔
      onlyStars pat = true ∧ isGlobstar next = true ∧ pats ≠ [] ∧ Hollow pats := by
  constructor
  · intro h
    obtain ⟨_, more, hSplit, hNext, hMore⟩ :=
      (h.spaced [] pat (next :: pats) rfl hPat).resolve_left (List.cons_ne_nil _ _)
    obtain ⟨rfl, rfl⟩ := List.cons.inj hSplit
    exact ⟨h.stars pat List.mem_cons_self, hNext, hMore, h.tail.tail⟩
  · rintro ⟨hStars, hNext, hMore, h⟩
    have hRest := (hollow_globstar_cons_iff hNext pats).mpr h
    refine ⟨List.forall_mem_cons.mpr ⟨hStars, hRest.stars⟩, ?_⟩
    intro front seg rest hSplit hSeg
    cases front with
    | nil =>
        obtain ⟨_, rfl⟩ := List.cons.inj hSplit
        exact Or.inr ⟨next, pats, rfl, hNext, hMore⟩
    | cons first front => exact hRest.spaced front seg rest (List.cons.inj hSplit).2 hSeg

end Hollow

section UsedUp

variable {lead pats : List (List Char)} {star path : List Char}

/-- A path with no more segments than stand before a globstar is used up by
them, and the rest of the pattern is left to match nothing. -/
theorem matchSegments_used_up_iff (hNe : lead ≠ []) (hLead : ∀ pat ∈ lead, pat ≠ [] ∧ '/' ∉ pat)
    (hStar : isGlobstar star = true) (hPats : ∀ pat ∈ pats, pat ≠ [])
    (hPath : (segments path).length ≤ lead.length) :
    matchSegments lead (star :: pats) path = true ↔
      List.Forall₂ Covers lead (segments path) ∧ pats ≠ [] ∧ matchSegments [] pats [] = true := by
  have hRestIff := restAfter?_eq_some_iff (fun pat hPat => (hLead pat hPat).1)
    (fun pat hPat => (hLead pat hPat).2) path
  rw [List.take_of_length_le hPath, List.drop_eq_nil_of_le hPath] at hRestIff
  rw [matchSegments, if_pos hStar]
  cases hRest : restAfter? lead path with
  | none =>
      simp only [Bool.false_eq_true, false_iff]
      rintro ⟨hFront, _⟩
      have hSome := (hRestIff []).mpr ⟨Nat.le_of_eq hFront.length_eq, hFront, rfl⟩
      simp [hRest] at hSome
  | some rest =>
      obtain ⟨_, hFront, rfl⟩ := (hRestIff rest).mp hRest
      have hSuffixes : suffixes (ofSegments []) = [[]] := rfl
      simp only [hFront, true_and, hSuffixes, List.any_cons, List.any_nil, Bool.or_false,
        ofSegments_isEmpty hPats, ofSegments_isEmpty fun pat hPat => (hLead pat hPat).1]
      by_cases hNone : pats = []
      · simp [hNone, hNe, ofSegments, joinWith]
      · simp [hNone]

end UsedUp

section EmptyText

/-- Only one segment of stars passes for nothing. -/
theorem forall₂_covers_nil_iff (lead : List (List Char)) :
    List.Forall₂ Covers lead (segments []) ↔ ∃ pat, lead = [pat] ∧ onlyStars pat = true := by
  have hSegments : segments [] = [[]] := rfl
  rw [hSegments, List.forall₂_cons_right_iff]
  simp only [covers_nil_right_iff, List.forall₂_nil_right_iff, onlyStars]
  constructor
  · rintro ⟨pat, _, hStars, rfl, hLead⟩
    exact ⟨pat, hLead, hStars⟩
  · rintro ⟨pat, hLead, hStars⟩
    exact ⟨pat, [], hStars, rfl, hLead⟩

theorem matchPlain_nil_iff {lead : List (List Char)} (hNe : lead ≠ [])
    (hLead : ∀ pat ∈ lead, '/' ∉ pat) :
    matchPlain (ofSegments lead) [] = true ↔ ∃ pat, lead = [pat] ∧ onlyStars pat = true := by
  have hCovers := covers_ofSegments_iff hNe (segments_ne_nil []) hLead
    fun seg hSeg => slash_not_mem_of_mem_segments hSeg
  rw [matchPlain_eq_true_iff, ← forall₂_covers_nil_iff, ← hCovers, ofSegments_segments]

/-- Two segments before the first globstar do not pass for nothing. -/
theorem matchSegments_nil_of_two {first second : List Char} {others pats : List (List Char)}
    (hPats : ∀ pat ∈ first :: second :: others ++ pats, pat ≠ [] ∧ '/' ∉ pat) :
    matchSegments (first :: second :: others) pats [] = false := by
  have hMany : ∀ more : List (List Char),
      ¬∃ pat, first :: second :: more = [pat] ∧ onlyStars pat = true := by simp
  induction pats generalizing others with
  | nil =>
      rw [Bool.eq_false_iff, matchSegments, ne_eq, matchPlain_nil_iff (by simp)
        fun pat hPat => (hPats pat (List.mem_append_left _ hPat)).2]
      exact hMany others
  | cons pat pats ih =>
      by_cases hPat : isGlobstar pat = true
      · have hOne : (segments []).length ≤ (first :: second :: others).length :=
          Nat.succ_le_succ (Nat.zero_le _)
        rw [Bool.eq_false_iff, ne_eq, matchSegments_used_up_iff (by simp)
          (fun p hp => hPats p (List.mem_append_left _ hp)) hPat
          (fun p hp => (hPats p (by simp [hp])).1) hOne, forall₂_covers_nil_iff]
        exact fun h => hMany others h.1
      · rw [List.append_cons] at hPats
        rw [matchSegments, if_neg hPat]
        exact ih hPats

/-- Hollow patterns, and no others, match the empty text. -/
theorem matchSegments_nil_iff {pats : List (List Char)} (hNe : pats ≠ [])
    (hPats : ∀ pat ∈ pats, pat ≠ [] ∧ '/' ∉ pat) :
    matchSegments [] pats [] = true ↔ Hollow pats := by
  induction pats using List.twoStepInduction with
  | nil => exact absurd rfl hNe
  | singleton pat =>
      rw [hollow_singleton_iff, matchSegments]
      split
      · rename_i hPat
        simp [restAfter?, ofSegments, joinWith, onlyStars_of_isGlobstar hPat]
      · rw [List.nil_append, matchSegments, matchPlain_nil_iff (by simp)
          fun p hp => (hPats p hp).2]
        simp
  | cons_cons pat next pats ihPats ihNext =>
      obtain ⟨hFirst, hRest⟩ := List.forall_mem_cons.mp hPats
      by_cases hPat : isGlobstar pat = true
      · rw [hollow_globstar_cons_iff hPat, ← ihNext next (by simp) hRest, matchSegments,
          if_pos hPat]
        have hMore : (ofSegments (next :: pats)).isEmpty = false := by
          rw [ofSegments_isEmpty fun p hp => (hRest p hp).1]
          rfl
        have hNothing : restAfter? [] [] = some [] := rfl
        have hSuffixes : suffixes [] = [[]] := rfl
        simp only [hNothing, hMore, Bool.false_eq_true, if_false, hSuffixes, List.any_cons,
          List.any_nil, Bool.or_false]
      · rw [hollow_star_cons_iff (by simpa using hPat), matchSegments, if_neg hPat,
          List.nil_append]
        by_cases hNext : isGlobstar next = true
        · rw [@matchSegments_used_up_iff [pat] pats next [] (by simp) (by simpa using hFirst) hNext
            (fun p hp => (hRest p (List.mem_cons_of_mem _ hp)).1) (Nat.le_refl 1),
            forall₂_covers_nil_iff]
          by_cases hMore : pats = []
          · simp [hMore]
          · rw [ihPats hMore fun p hp => hRest p (List.mem_cons_of_mem _ hp)]
            simp [hMore, hNext]
        · rw [matchSegments, if_neg hNext]
          have hTwo := @matchSegments_nil_of_two pat next [] pats hPats
          simp [hTwo, hNext]

end EmptyText

/-- Segments that are no globstars are put in front one by one. -/
theorem matchSegments_append {lead : List (List Char)}
    (hLead : ∀ pat ∈ lead, isGlobstar pat = false) (before pats : List (List Char))
    (path : List Char) :
    matchSegments before (lead ++ pats) path = matchSegments (before ++ lead) pats path := by
  induction lead generalizing before with
  | nil => rw [List.nil_append, List.append_nil]
  | cons pat lead ih =>
      obtain ⟨hPat, hRest⟩ := List.forall_mem_cons.mp hLead
      rw [List.cons_append, matchSegments, if_neg (by simp [hPat]), ih hRest, ← List.append_cons]

/-- A pattern of some segments, a globstar and further segments covers a path
with no more segments than stand before the globstar exactly if these match
segment by segment and what stands behind the globstar is hollow. -/
theorem matchPath_up_to_globstar_iff {lead behind : List (List Char)} {path : List Char}
    (hLead : lead ≠ []) (hLeadSegs : ∀ pat ∈ lead, pat ≠ [] ∧ '/' ∉ pat)
    (hPlain : ∀ pat ∈ lead, isGlobstar pat = false) (hBehind : behind ≠ [])
    (hBehindSegs : ∀ pat ∈ behind, pat ≠ [] ∧ '/' ∉ pat)
    (hPath : (segments path).length ≤ lead.length) :
    matchPath (ofSegments lead ++ "/**/".toList ++ ofSegments behind) path = true ↔
      List.Forall₂ (fun pat seg => matchPlain pat seg = true) lead (segments path) ∧
        Hollow behind := by
  have hPattern : ofSegments lead ++ "/**/".toList ++ ofSegments behind =
      ofSegments (lead ++ "**".toList :: behind) := by
    have hMark : "/**/".toList = '/' :: "**".toList ++ ['/'] := rfl
    have hJoin := joinWith_append '/' hLead (List.cons_ne_nil "**".toList behind)
    have hMore := joinWith_append '/' (List.cons_ne_nil "**".toList []) hBehind
    rw [List.singleton_append, joinWith] at hMore
    rw [ofSegments, ofSegments, ofSegments, hJoin, hMore, hMark]
    simp
  have hSlash : ∀ seg ∈ lead ++ "**".toList :: behind, '/' ∉ seg := by
    intro seg hSeg
    rcases List.mem_append.mp hSeg with hSeg | hSeg
    · exact (hLeadSegs seg hSeg).2
    · rcases List.mem_cons.mp hSeg with rfl | hSeg
      · decide
      · exact (hBehindSegs seg hSeg).2
  rw [hPattern, matchPath, segments_ofSegments (by simp) hSlash, matchSegments_append hPlain,
    List.nil_append, matchSegments_used_up_iff hLead hLeadSegs (by decide)
      (fun pat hPat => (hBehindSegs pat hPat).1) hPath, matchSegments_nil_iff hBehind hBehindSegs]
  simp only [matchPlain_eq_true_iff, ne_eq, hBehind, not_false_eq_true, true_and]

theorem matchPath_up_to_globstar_hollow :
    matchPath ("lib/t*".toList ++ "/**/".toList ++ "*/**/**".toList) "lib/test".toList = true ∧
      Hollow (segments "*/**/**".toList) := by
  have hHollow : Hollow (segments "*/**/**".toList) :=
    (hollow_star_cons_iff (by decide) _ _).mpr
      ⟨by decide, by decide, by decide, (hollow_singleton_iff _).mpr (by decide)⟩
  have hFront : List.Forall₂ (fun pat seg => matchPlain pat seg = true)
      ["lib".toList, "t*".toList] ["lib".toList, "test".toList] :=
    .cons (by decide) (.cons (by cbv) .nil)
  have hMatch := (@matchPath_up_to_globstar_iff (segments "lib/t*".toList)
    (segments "*/**/**".toList) "lib/test".toList (by decide) (by decide) (by decide) (by decide)
    (by decide) (by decide)).mpr ⟨hFront, hHollow⟩
  exact ⟨hMatch, hHollow⟩

/-- A directory is covered by a pattern that is meant for what lies inside it,
though not by the one that ends in the globstar. -/
theorem matchPath_covers_directory :
    matchPath ("a".toList ++ "/**/".toList ++ "*".toList) "a".toList = true ∧
      matchPath "a/**".toList "a".toList = false := by
  decide

end SymbolMap.Glob
