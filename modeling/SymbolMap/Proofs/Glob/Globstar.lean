import SymbolMap.Proofs.Glob.Plain

/-! What patterns with globstars cover. A match shares the segments of the
path out over those of the pattern. The search works on whole texts: it cuts
off what stands before the first globstar and tries the rest of the pattern on
every tail that begins at a segment. -/
namespace SymbolMap.Glob

open SymbolMap.Text SymbolMap.Path

/-- A text that is not empty and has only non-empty segments. -/
def WellFormed (path : List Char) : Prop :=
  path ≠ [] ∧ ∀ seg ∈ segments path, seg ≠ []

/-- A segment made only of stars. -/
def onlyStars (seg : List Char) : Bool :=
  seg.all (· == '*')

/-- The segments of a path can be shared out, in order and without gaps, over
those of a pattern: one to each segment that is no globstar, at least one to a
globstar at the end, and any number to every other globstar. -/
inductive SharedOut : List (List Char) → List (List Char) → Prop
  | nil : SharedOut [] []
  | one {pat seg : List Char} {pats segs : List (List Char)} (hPat : isGlobstar pat = false)
      (hSeg : matchPlain pat seg = true) (hRest : SharedOut pats segs) :
      SharedOut (pat :: pats) (seg :: segs)
  | last {pat : List Char} {segs : List (List Char)} (hPat : isGlobstar pat = true)
      (hSegs : segs ≠ []) : SharedOut [pat] segs
  | many {pat : List Char} {pats taken segs : List (List Char)} (hPat : isGlobstar pat = true)
      (hPats : pats ≠ []) (hRest : SharedOut pats segs) :
      SharedOut (pat :: pats) (taken ++ segs)

/-- A pattern in which only stars follow a globstar that comes behind some
other segment. -/
def Loose (pats : List (List Char)) : Prop :=
  ∃ before star after, pats = before ++ star :: after ∧ isGlobstar star = true ∧
    (∃ pat ∈ before, isGlobstar pat = false) ∧ after ≠ [] ∧ ∀ pat ∈ after, onlyStars pat = true

section SharedOut

theorem sharedOut_nil_iff (segs : List (List Char)) : SharedOut [] segs ↔ segs = [] := by
  constructor
  · rintro ⟨⟩
    rfl
  · rintro rfl
    exact SharedOut.nil

/-- Nothing can be shared out over a pattern only if it has no segments. -/
theorem sharedOut_nil_right_iff (pats : List (List Char)) : SharedOut pats [] ↔ pats = [] := by
  constructor
  · intro h
    generalize hSegs : ([] : List (List Char)) = segs at h
    induction h with
    | nil => rfl
    | one => cases hSegs
    | last _ hNe => exact absurd hSegs.symm hNe
    | many _ hPats _ ih =>
        obtain ⟨_, rfl⟩ := List.append_eq_nil_iff.mp hSegs.symm
        exact absurd (ih rfl) hPats
  · rintro rfl
    exact SharedOut.nil

theorem sharedOut_singleton_iff {pat : List Char} (hPat : isGlobstar pat = true)
    (segs : List (List Char)) : SharedOut [pat] segs ↔ segs ≠ [] := by
  constructor
  · rintro h rfl
    simpa using (sharedOut_nil_right_iff [pat]).mp h
  · exact SharedOut.last hPat

theorem sharedOut_globstar_iff {pat : List Char} (hPat : isGlobstar pat = true)
    {pats : List (List Char)} (hPats : pats ≠ []) (segs : List (List Char)) :
    SharedOut (pat :: pats) segs ↔ ∃ tail, tail <:+ segs ∧ tail ≠ [] ∧ SharedOut pats tail := by
  constructor
  · intro h
    cases h with
    | one hNot => simp [hPat] at hNot
    | last => exact absurd rfl hPats
    | many _ _ hRest =>
        refine ⟨_, List.suffix_append _ _, ?_, hRest⟩
        rintro rfl
        exact hPats ((sharedOut_nil_right_iff _).mp hRest)
  · rintro ⟨tail, ⟨taken, rfl⟩, _, hTail⟩
    exact SharedOut.many hPat hPats hTail

theorem sharedOut_cons_iff {pat : List Char} (hPat : isGlobstar pat = false)
    (pats segs : List (List Char)) :
    SharedOut (pat :: pats) segs ↔
      ∃ seg rest, segs = seg :: rest ∧ Covers pat seg ∧ SharedOut pats rest := by
  constructor
  · intro h
    cases h with
    | one _ hSeg hRest => exact ⟨_, _, rfl, (matchPlain_eq_true_iff _ _).mp hSeg, hRest⟩
    | last hStar => simp [hPat] at hStar
    | many hStar => simp [hPat] at hStar
  · rintro ⟨seg, rest, rfl, hSeg, hRest⟩
    exact SharedOut.one hPat ((matchPlain_eq_true_iff _ _).mpr hSeg) hRest

/-- Segments that are no globstars take the first segments of the path, one
each. -/
theorem sharedOut_append_iff {lead : List (List Char)}
    (hLead : ∀ pat ∈ lead, isGlobstar pat = false) (pats segs : List (List Char)) :
    SharedOut (lead ++ pats) segs ↔ lead.length ≤ segs.length ∧
      List.Forall₂ Covers lead (segs.take lead.length) ∧
      SharedOut pats (segs.drop lead.length) := by
  induction lead generalizing segs with
  | nil => simp
  | cons pat lead ih =>
      have ih := ih fun p hp => hLead p (List.mem_cons_of_mem _ hp)
      rw [List.cons_append, sharedOut_cons_iff (hLead pat List.mem_cons_self)]
      cases segs with
      | nil => simp
      | cons seg segs => simp [ih, and_assoc, and_left_comm]

end SharedOut

section Search

theorem ofSegments_isEmpty {segs : List (List Char)} (hSegs : ∀ seg ∈ segs, seg ≠ []) :
    (ofSegments segs).isEmpty = segs.isEmpty := by
  cases segs with
  | nil => rfl
  | cons seg segs =>
      have hSeg := hSegs seg List.mem_cons_self
      cases segs with
      | nil => simpa [ofSegments, joinWith] using hSeg
      | cons next segs => simp [ofSegments, joinWith]

theorem mem_tails_iff {α : Type} (tail items : List α) :
    tail ∈ tails items ↔ tail <:+ items ∧ tail ≠ [] := by
  induction items with
  | nil => simp [tails]
  | cons item items ih =>
      rw [tails, List.mem_cons, ih, List.suffix_cons_iff]
      constructor
      · rintro (rfl | h)
        · simp
        · exact ⟨Or.inr h.1, h.2⟩
      · rintro ⟨rfl | h, hNe⟩
        · exact Or.inl rfl
        · exact Or.inr ⟨h, hNe⟩

/-- What the segments before a globstar leave of a path. -/
theorem restAfter?_eq_some_iff {lead : List (List Char)} (hLead : ∀ pat ∈ lead, pat ≠ [])
    (hLeadSlash : ∀ pat ∈ lead, '/' ∉ pat) (path rest : List Char) :
    restAfter? lead path = some rest ↔ lead.length ≤ (segments path).length ∧
      List.Forall₂ Covers lead ((segments path).take lead.length) ∧
      ofSegments ((segments path).drop lead.length) = rest := by
  rw [restAfter?]
  simp only [ofSegments_isEmpty hLead]
  by_cases hNil : lead = []
  · simp [hNil]
  · have hTake : (segments path).take lead.length ≠ [] := by
      simp [segments_ne_nil, hNil]
    have hMatch := (matchPlain_eq_true_iff _ _).trans <|
      covers_ofSegments_iff hNil hTake hLeadSlash fun seg hSeg =>
        slash_not_mem_of_mem_segments (List.mem_of_mem_take hSeg)
    rw [if_neg (by simpa using hNil), ← hMatch]
    by_cases hShort : (segments path).length < lead.length
    · simp [hShort, Nat.not_le.mpr hShort]
    · rw [if_neg hShort]
      by_cases hFront : matchPlain (ofSegments lead) (ofSegments ((segments path).take lead.length))
      · simp [hFront, Nat.not_lt.mp hShort]
      · simp [hFront]

theorem onlyStars_of_isGlobstar {pat : List Char} (hPat : isGlobstar pat = true) :
    onlyStars pat = true := by
  rw [isGlobstar, Bool.and_eq_true] at hPat
  exact hPat.2

/-- Only stars are left for a globstar to stand behind in an empty text. -/
theorem of_restAfter?_nil {lead : List (List Char)} (hLead : ∀ pat ∈ lead, pat ≠ [] ∧ '/' ∉ pat)
    {rest : List Char} (hRest : restAfter? lead [] = some rest) :
    (∀ pat ∈ lead, onlyStars pat = true) ∧ rest = [] := by
  rw [restAfter?_eq_some_iff (fun pat hPat => (hLead pat hPat).1)
    (fun pat hPat => (hLead pat hPat).2)] at hRest
  obtain ⟨hLength, hFront, rfl⟩ := hRest
  have hSegments : segments [] = [[]] := rfl
  rw [hSegments] at hLength hFront ⊢
  match lead with
  | [] => simp [ofSegments, joinWith]
  | [pat] =>
      rw [List.length_singleton, List.take_succ_cons, List.forall₂_cons] at hFront
      have hStars : onlyStars pat = true := (covers_nil_right_iff pat).mp hFront.1
      simp [hStars, ofSegments, joinWith]
  | _ :: _ :: _ => simp at hLength

/-- Only stars cover nothing. -/
theorem onlyStars_of_matchSegments_nil {lead pats : List (List Char)}
    (hPats : ∀ pat ∈ lead ++ pats, pat ≠ [] ∧ '/' ∉ pat)
    (hMatch : matchSegments lead pats [] = true) :
    ∀ pat ∈ lead ++ pats, onlyStars pat = true := by
  induction pats generalizing lead with
  | nil =>
      rw [matchSegments, matchPlain_eq_true_iff, covers_nil_right_iff, List.all_eq_true] at hMatch
      intro pat hPat
      rw [List.append_nil] at hPat
      exact List.all_eq_true.mpr fun c hChar => hMatch c (mem_joinWith_of_mem hPat hChar)
  | cons pat pats ih =>
      rw [matchSegments] at hMatch
      split at hMatch
      · rename_i hStar
        split at hMatch
        · simp at hMatch
        · rename_i rest hRest
          obtain ⟨hLead, rfl⟩ := of_restAfter?_nil
            (fun p hp => hPats p (List.mem_append_left _ hp)) hRest
          have hBehind : ∀ p ∈ pats, onlyStars p = true := by
            have hMore : ∀ p ∈ [] ++ pats, p ≠ [] ∧ '/' ∉ p :=
              fun p hp => hPats p (List.mem_append_right _ (List.mem_cons_of_mem _ hp))
            rw [@ofSegments_isEmpty pats fun p hp => (hMore p hp).1] at hMatch
            split at hMatch
            · rename_i hNone
              simp [List.isEmpty_iff.mp hNone]
            · have hSuffixes : suffixes [] = [[]] := rfl
              rw [hSuffixes, List.any_cons, List.any_nil, Bool.or_false] at hMatch
              exact ih hMore hMatch
          intro p hp
          rcases List.mem_append.mp hp with hp | hp
          · exact hLead p hp
          · rcases List.mem_cons.mp hp with rfl | hp
            · exact onlyStars_of_isGlobstar hStar
            · exact hBehind p hp
      · rw [List.append_cons] at hPats ⊢
        exact ih hPats hMatch

/-- A pattern that ends in more than stars is not loose. -/
theorem not_loose_of_getLast? {pats : List (List Char)} {pat : List Char}
    (hLast : pats.getLast? = some pat) (hPat : onlyStars pat = false) : ¬Loose pats := by
  rintro ⟨before, star, after, rfl, _, _, hAfter, hStars⟩
  rw [List.append_cons, List.getLast?_append_of_ne_nil _ hAfter] at hLast
  simp [hStars pat (List.mem_of_getLast? hLast)] at hPat

theorem Loose.append_left {pats : List (List Char)} (h : Loose pats) (front : List (List Char)) :
    Loose (front ++ pats) := by
  obtain ⟨before, star, after, rfl, hStar, ⟨pat, hPat, hOther⟩, hAfter⟩ := h
  exact ⟨front ++ before, star, after, by simp, hStar,
    ⟨pat, List.mem_append_right _ hPat, hOther⟩, hAfter⟩

/-- A globstar that does not end a pattern leaves some tail of the path to
the rest of the pattern. -/
theorem any_suffixes_iff {pat : List Char} (hStar : isGlobstar pat = true)
    {pats segs : List (List Char)} (hPats : pats ≠ [])
    (hPatSegs : ∀ p ∈ pats, p ≠ [] ∧ '/' ∉ p) (hSlash : ∀ seg ∈ segs, '/' ∉ seg)
    (hEnd : segs = [] → ¬∀ p ∈ pats, onlyStars p = true)
    (hTails : ∀ tail, tail <:+ segs → tail ≠ [] →
      (matchSegments [] pats (ofSegments tail) = true ↔ SharedOut pats tail)) :
    (suffixes (ofSegments segs)).any (matchSegments [] pats ·) = true ↔
      SharedOut (pat :: pats) segs := by
  rw [sharedOut_globstar_iff hStar hPats]
  by_cases hNil : segs = []
  · subst hNil
    have hSuffixes : suffixes (ofSegments []) = [[]] := rfl
    have hFalse : matchSegments [] pats [] ≠ true :=
      fun hMatch => hEnd rfl (onlyStars_of_matchSegments_nil hPatSegs hMatch)
    simp only [hSuffixes, List.any_cons, List.any_nil, Bool.or_false, hFalse, List.suffix_nil,
      Bool.false_eq_true, false_iff]
    rintro ⟨tail, hTail, hNe, _⟩
    exact hNe hTail
  · rw [suffixes, segments_ofSegments hNil hSlash, List.any_map, List.any_eq_true]
    constructor
    · rintro ⟨tail, hTail, hMatch⟩
      obtain ⟨hSuffix, hNe⟩ := (mem_tails_iff _ _).mp hTail
      exact ⟨tail, hSuffix, hNe, (hTails tail hSuffix hNe).mp hMatch⟩
    · rintro ⟨tail, hSuffix, hNe, hShared⟩
      exact ⟨tail, (mem_tails_iff _ _).mpr ⟨hSuffix, hNe⟩, (hTails tail hSuffix hNe).mpr hShared⟩

/-- A plain pattern shares out a path one segment each. -/
theorem matchPlain_ofSegments_iff {lead : List (List Char)} (hNe : lead ≠ [])
    (hSlash : ∀ pat ∈ lead, '/' ∉ pat) (hLead : ∀ pat ∈ lead, isGlobstar pat = false)
    (path : List Char) :
    matchPlain (ofSegments lead) path = true ↔ SharedOut lead (segments path) := by
  have hCovers := covers_ofSegments_iff hNe (segments_ne_nil path) hSlash
    fun seg hSeg => slash_not_mem_of_mem_segments hSeg
  rw [ofSegments_segments] at hCovers
  have hShared := sharedOut_append_iff hLead [] (segments path)
  rw [List.append_nil, sharedOut_nil_iff, List.drop_eq_nil_iff] at hShared
  rw [matchPlain_eq_true_iff, hCovers, hShared]
  constructor
  · intro h
    have hLength := h.length_eq
    have hFront : (segments path).take lead.length = segments path :=
      List.take_of_length_le (Nat.le_of_eq hLength.symm)
    exact ⟨Nat.le_of_eq hLength, by rwa [hFront], Nat.le_of_eq hLength.symm⟩
  · rintro ⟨_, hFront, hLength⟩
    rwa [List.take_of_length_le hLength] at hFront

/-- The search goes along the pattern and finds the ways to share out a
path. -/
theorem matchSegments_iff {lead pats : List (List Char)} {path : List Char}
    (hPath : ∀ seg ∈ segments path, seg ≠ []) (hNe : lead ++ pats ≠ [])
    (hPats : ∀ pat ∈ lead ++ pats, pat ≠ [] ∧ '/' ∉ pat)
    (hLead : ∀ pat ∈ lead, isGlobstar pat = false) (hTight : ¬Loose (lead ++ pats)) :
    matchSegments lead pats path = true ↔ SharedOut (lead ++ pats) (segments path) := by
  induction pats generalizing lead path with
  | nil =>
      rw [List.append_nil] at hNe hPats ⊢
      exact matchPlain_ofSegments_iff hNe (fun pat hPat => (hPats pat hPat).2) hLead path
  | cons pat pats ih =>
      have hLeadPats : ∀ p ∈ lead, p ≠ [] ∧ '/' ∉ p :=
        fun p hp => hPats p (List.mem_append_left _ hp)
      have hMore : ∀ p ∈ [] ++ pats, p ≠ [] ∧ '/' ∉ p :=
        fun p hp => hPats p (List.mem_append_right _ (List.mem_cons_of_mem _ hp))
      rw [matchSegments]
      split
      · rename_i hStar
        have hRestIff := restAfter?_eq_some_iff (fun p hp => (hLeadPats p hp).1)
          (fun p hp => (hLeadPats p hp).2) path
        rw [sharedOut_append_iff hLead]
        split
        · rename_i hNone
          simp only [Bool.false_eq_true, false_iff]
          rintro ⟨hLength, hFront, _⟩
          exact absurd ((hRestIff _).mpr ⟨hLength, hFront, rfl⟩) (by simp [hNone])
        · rename_i rest hSome
          obtain ⟨hLength, hFront, rfl⟩ := (hRestIff rest).mp hSome
          have hBack : ∀ seg ∈ (segments path).drop lead.length, seg ≠ [] ∧ '/' ∉ seg :=
            fun seg hSeg => ⟨hPath seg (List.mem_of_mem_drop hSeg),
              slash_not_mem_of_mem_segments (List.mem_of_mem_drop hSeg)⟩
          simp only [hLength, hFront, true_and]
          rw [@ofSegments_isEmpty pats fun p hp => (hMore p hp).1,
            @ofSegments_isEmpty lead fun p hp => (hLeadPats p hp).1,
            ofSegments_isEmpty fun seg hSeg => (hBack seg hSeg).1]
          split
          · rename_i hNone
            rw [List.isEmpty_iff.mp hNone, sharedOut_singleton_iff hStar]
            by_cases hNil : lead = []
            · simp [hNil, segments_ne_nil]
            · simp [hNil]
          · rename_i hSomePats
            rw [List.isEmpty_iff] at hSomePats
            refine any_suffixes_iff hStar hSomePats hMore (fun seg hSeg => (hBack seg hSeg).2) ?_ ?_
            · -- the path can end before a globstar only if something stands before it
              intro hNil hStars
              obtain ⟨first, hFirst⟩ : ∃ first, first ∈ lead := by
                refine List.exists_mem_of_ne_nil lead ?_
                rintro rfl
                exact segments_ne_nil path hNil
              exact hTight ⟨lead, pat, pats, rfl, hStar, ⟨first, hFirst, hLead first hFirst⟩,
                hSomePats, hStars⟩
            · intro tail hSuffix hTail
              have hSegs := segments_ofSegments hTail
                fun seg hSeg => (hBack seg (hSuffix.subset hSeg)).2
              have hWell : ∀ seg ∈ segments (ofSegments tail), seg ≠ [] := by
                rw [hSegs]
                exact fun seg hSeg => (hBack seg (hSuffix.subset hSeg)).1
              have hTightMore : ¬Loose pats := fun hLoose =>
                hTight (by simpa using hLoose.append_left (lead ++ [pat]))
              have hRest := @ih [] (ofSegments tail) hWell hSomePats hMore (by simp) hTightMore
              rwa [hSegs] at hRest
      · rename_i hPlain
        have hShift : lead ++ pat :: pats = (lead ++ [pat]) ++ pats := List.append_cons ..
        rw [hShift] at hNe hPats hTight ⊢
        refine ih hPath hNe hPats (fun p hp => ?_) hTight
        rcases List.mem_append.mp hp with hp | hp
        · exact hLead p hp
        · simpa [List.mem_singleton.mp hp] using hPlain

end Search

/-- A pattern that is not loose covers exactly the paths that can be shared
out over it. -/
theorem matchPath_iff_sharedOut {pattern path : List Char} (hPattern : WellFormed pattern)
    (hPath : WellFormed path) (hTight : ¬Loose (segments pattern)) :
    matchPath pattern path = true ↔ SharedOut (segments pattern) (segments path) :=
  @matchSegments_iff [] (segments pattern) path hPath.2 (segments_ne_nil pattern)
    (fun pat hPat => ⟨hPattern.2 pat hPat, slash_not_mem_of_mem_segments hPat⟩) (by simp) hTight

theorem matchPath_inner_globstar :
    WellFormed "**/test/**/?*.rs".toList ∧ WellFormed "lib/test/a/b/c.rs".toList ∧
      ¬Loose (segments "**/test/**/?*.rs".toList) ∧
      matchPath "**/test/**/?*.rs".toList "lib/test/a/b/c.rs".toList = true := by
  have hPattern : WellFormed "**/test/**/?*.rs".toList := by
    unfold WellFormed
    decide
  have hPath : WellFormed "lib/test/a/b/c.rs".toList := by
    unfold WellFormed
    decide
  have hTight : ¬Loose (segments "**/test/**/?*.rs".toList) :=
    @not_loose_of_getLast? _ "?*.rs".toList (by decide) (by decide)
  refine ⟨hPattern, hPath, hTight, (matchPath_iff_sharedOut hPattern hPath hTight).mpr ?_⟩
  have hShares : SharedOut ["**".toList, "test".toList, "**".toList, "?*.rs".toList]
      (["lib".toList] ++ "test".toList :: (["a".toList, "b".toList] ++ ["c.rs".toList])) :=
    .many (by decide) (by simp) (.one (by decide) (by decide)
      (.many (by decide) (by simp) (.one (by decide) (by cbv) .nil)))
  exact hShares

end SymbolMap.Glob
