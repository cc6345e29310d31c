import Mathlib.Data.List.Forall2
import SymbolMap.Glob
import SymbolMap.Proofs.Path.Segments

/-! What plain patterns cover. The search goes through the text once and comes
back to the last star only; it still finds a match whenever there is one,
because a star that gives way to a later one has taken no slash that it would
have to give back. -/
namespace SymbolMap.Glob

open SymbolMap.Text SymbolMap.Path

/-- A text that a plain pattern covers. A star stands for any run of
characters without a slash, `?` for one character that is no slash, and every
other character for itself. -/
inductive Covers : List Char → List Char → Prop
  | nil : Covers [] []
  | star {pat taken text : List Char} (hTaken : '/' ∉ taken) (hRest : Covers pat text) :
      Covers ('*' :: pat) (taken ++ text)
  | any {pat text : List Char} {c : Char} (hChar : c ≠ '/') (hRest : Covers pat text) :
      Covers ('?' :: pat) (c :: text)
  | same {pat text : List Char} {c : Char} (hStar : c ≠ '*') (hAny : c ≠ '?')
      (hRest : Covers pat text) : Covers (c :: pat) (c :: text)

section Covers

@[simp] theorem covers_nil_iff (text : List Char) : Covers [] text ↔ text = [] := by
  constructor
  · rintro ⟨⟩
    rfl
  · rintro rfl
    exact Covers.nil

theorem covers_star_iff (pat text : List Char) :
    Covers ('*' :: pat) text ↔
      ∃ taken rest, text = taken ++ rest ∧ '/' ∉ taken ∧ Covers pat rest := by
  constructor
  · intro h
    cases h with
    | star hTaken hRest => exact ⟨_, _, rfl, hTaken, hRest⟩
    | same hStar => exact absurd rfl hStar
  · rintro ⟨taken, rest, rfl, hTaken, hRest⟩
    exact Covers.star hTaken hRest

theorem covers_cons_iff {p : Char} (hStar : p ≠ '*') (pat text : List Char) :
    Covers (p :: pat) text ↔ ∃ c rest, text = c :: rest ∧ accepts p c = true ∧ Covers pat rest := by
  constructor
  · intro h
    cases h with
    | star => exact absurd rfl hStar
    | any hChar hRest => exact ⟨_, _, rfl, by simpa [accepts] using hChar, hRest⟩
    | same _ hAny hRest => exact ⟨_, _, rfl, by simp [accepts, hAny], hRest⟩
  · rintro ⟨c, rest, rfl, hAccepts, hRest⟩
    by_cases hAny : p = '?'
    · subst hAny
      exact Covers.any (by simpa [accepts] using hAccepts) hRest
    · have hSame : p = c := by simpa [accepts, hAny] using hAccepts
      exact hSame ▸ Covers.same hStar hAny hRest

/-- Nothing is left for a pattern only if it is made of stars. -/
theorem covers_nil_right_iff (pat : List Char) :
    Covers pat [] ↔ pat.all (· == '*') = true := by
  induction pat with
  | nil => simp
  | cons p pat ih =>
      by_cases hStar : p = '*'
      · subst hStar
        rw [covers_star_iff]
        constructor
        · rintro ⟨taken, rest, hSplit, _, hRest⟩
          obtain ⟨rfl, rfl⟩ := List.append_eq_nil_iff.mp hSplit.symm
          simpa using ih.mp hRest
        · intro hAll
          exact ⟨[], [], rfl, by simp, ih.mpr (by simpa using hAll)⟩
      · rw [covers_cons_iff hStar]
        simp [hStar]

/-- A covered text has a character for each one of the pattern that is no
star. -/
theorem Covers.length_le {pat text : List Char} (h : Covers pat text) :
    (pat.filter (· != '*')).length ≤ text.length := by
  induction h with
  | nil => simp
  | star _ _ ih =>
      simp only [bne_self_eq_false, Bool.false_eq_true, not_false_eq_true, List.filter_cons_of_neg,
        List.length_append]
      omega
  | any _ _ ih => simpa using ih
  | same hStar _ _ ih => simpa [hStar] using ih

/-- A pattern in two parts covers the texts in two parts. -/
theorem covers_append_iff (first second text : List Char) :
    Covers (first ++ second) text ↔
      ∃ front back, text = front ++ back ∧ Covers first front ∧ Covers second back := by
  induction first generalizing text with
  | nil => simp
  | cons p first ih =>
      rw [List.cons_append]
      by_cases hStar : p = '*'
      · subst hStar
        simp only [covers_star_iff]
        constructor
        · rintro ⟨taken, rest, rfl, hTaken, hRest⟩
          obtain ⟨front, back, rfl, hFront, hBack⟩ := (ih rest).mp hRest
          exact ⟨taken ++ front, back, by simp, ⟨taken, front, rfl, hTaken, hFront⟩, hBack⟩
        · rintro ⟨_, back, rfl, ⟨taken, front, rfl, hTaken, hFront⟩, hBack⟩
          exact ⟨taken, front ++ back, by simp, hTaken,
            (ih _).mpr ⟨front, back, rfl, hFront, hBack⟩⟩
      · simp only [covers_cons_iff hStar]
        constructor
        · rintro ⟨c, rest, rfl, hAccepts, hRest⟩
          obtain ⟨front, back, rfl, hFront, hBack⟩ := (ih rest).mp hRest
          exact ⟨c :: front, back, rfl, ⟨c, front, rfl, hAccepts, hFront⟩, hBack⟩
        · rintro ⟨_, back, rfl, ⟨c, front, rfl, hAccepts, hFront⟩, hBack⟩
          exact ⟨c, front ++ back, rfl, hAccepts, (ih _).mpr ⟨front, back, rfl, hFront, hBack⟩⟩

end Covers

section Search

theorem not_covers_of_reach_failed {pat text : List Char} (hReach : reach pat text = .failed) :
    ¬Covers pat text := by
  induction text generalizing pat with
  | nil => simp [reach] at hReach
  | cons c text ih =>
      cases pat with
      | nil => simp
      | cons p pat =>
          rw [reach] at hReach
          split at hReach
          · cases hReach
          · rename_i hStar
            rw [covers_cons_iff hStar]
            rintro ⟨_, _, hText, hAccepts, hRest⟩
            cases hText
            rw [if_pos hAccepts] at hReach
            exact ih hReach hRest

/-- When the text ends before the next star, the rest of the pattern decides;
a pattern that needs more than the text needs more than any part of it. -/
theorem covers_of_reach_ended {pat text : List Char} {complete : Bool}
    (hReach : reach pat text = .ended complete) :
    (Covers pat text ↔ complete = true) ∧
      (complete = false → text.length < (pat.filter (· != '*')).length) := by
  induction text generalizing pat with
  | nil =>
      rw [reach, Reach.ended.injEq] at hReach
      subst hReach
      refine ⟨covers_nil_right_iff pat, fun hMore => ?_⟩
      rw [List.all_eq_false] at hMore
      obtain ⟨p, hp, hNot⟩ := hMore
      exact List.length_pos_of_mem (List.mem_filter.mpr ⟨hp, by simpa using hNot⟩)
  | cons c text ih =>
      cases pat with
      | nil => simp [reach] at hReach
      | cons p pat =>
          rw [reach] at hReach
          split at hReach
          · cases hReach
          · rename_i hStar
            split at hReach
            · rename_i hAccepts
              obtain ⟨hIff, hLonger⟩ := ih hReach
              constructor
              · rw [covers_cons_iff hStar, ← hIff]
                simp [hAccepts]
              · intro hMore
                simpa [hStar] using hLonger hMore
            · cases hReach

/-- The pattern up to the next star covers the text up to the rest. -/
theorem split_of_reach_star {pat text pat' rest : List Char}
    (hReach : reach pat text = .star pat' rest) :
    ∃ lead front, pat = lead ++ '*' :: pat' ∧ text = front ++ rest ∧ '*' ∉ lead ∧
      Covers lead front := by
  induction text generalizing pat with
  | nil => simp [reach] at hReach
  | cons c text ih =>
      cases pat with
      | nil => simp [reach] at hReach
      | cons p pat =>
          rw [reach] at hReach
          split at hReach
          · rename_i hStar
            cases hReach
            exact ⟨[], [], by simp [hStar], rfl, by simp, Covers.nil⟩
          · rename_i hStar
            split at hReach
            · rename_i hAccepts
              obtain ⟨lead, front, rfl, rfl, hLead, hCovers⟩ := ih hReach
              refine ⟨p :: lead, c :: front, rfl, rfl, ?_, ?_⟩
              · simpa [Ne.symm hStar] using hLead
              · exact (covers_cons_iff hStar _ _).mpr ⟨c, front, rfl, hAccepts, hCovers⟩
            · cases hReach

/-- A pattern without stars has its slashes where the text has them. -/
theorem Covers.map_slash {pat text : List Char} (h : Covers pat text) (hStar : '*' ∉ pat) :
    text.map (· == '/') = pat.map (· == '/') := by
  induction h with
  | nil => rfl
  | star => simp at hStar
  | any hChar _ ih =>
      rw [List.map_cons, List.map_cons, ih fun h => hStar (List.mem_cons_of_mem _ h)]
      simpa using hChar
  | same _ _ _ ih =>
      rw [List.map_cons, List.map_cons, ih fun h => hStar (List.mem_cons_of_mem _ h)]

/-- Moving a text behind some characters without a slash brings no slash past
its end: its first slash cannot move. -/
theorem slash_not_mem_of_shift {front front' taken moved : List Char}
    (hSame : front.map (· == '/') = front'.map (· == '/')) (hTaken : '/' ∉ taken)
    (hShift : front ++ moved = taken ++ front') : '/' ∉ moved := by
  intro hMoved
  have hLength : moved.length = taken.length := by
    have hFronts := congrArg List.length hSame
    have hAll := congrArg List.length hShift
    simp only [List.length_map, List.length_append] at hFronts hAll
    omega
  have hFirst : front.idxOf '/' = front'.idxOf '/' := by
    have h := congrArg (List.findIdx id) hSame
    rwa [List.findIdx_map, List.findIdx_map] at h
  have hMem : '/' ∈ front ↔ '/' ∈ front' := by
    have h := congrArg (true ∈ ·) hSame
    simpa using h
  by_cases hFront : '/' ∈ front
  · have hIndex := congrArg (List.idxOf '/') hShift
    rw [List.idxOf_append, List.idxOf_append, if_pos hFront, if_neg hTaken, hFirst] at hIndex
    have hNone : moved = [] := List.length_eq_zero_iff.mp (by omega)
    simp [hNone] at hMoved
  · have hAll : '/' ∈ taken ++ front' := hShift ▸ List.mem_append_right _ hMoved
    rcases List.mem_append.mp hAll with h | h
    · exact hTaken h
    · exact hFront (hMem.mpr h)

/-- A star gives way to the next star for good: what the first one could take
beyond, the second one can take. -/
theorem covers_star_star_iff {lead front pat rest : List Char} (hStar : '*' ∉ lead)
    (hFront : Covers lead front) :
    Covers ('*' :: (lead ++ '*' :: pat)) (front ++ rest) ↔ Covers ('*' :: pat) rest := by
  constructor
  · intro h
    obtain ⟨taken, after, hText, hTaken, hAfter⟩ := (covers_star_iff _ _).mp h
    obtain ⟨front', back, rfl, hFront', hBack⟩ := (covers_append_iff _ _ _).mp hAfter
    obtain ⟨more, tail, rfl, hMore, hTail⟩ := (covers_star_iff _ _).mp hBack
    have hSame : front.map (· == '/') = front'.map (· == '/') :=
      (hFront.map_slash hStar).trans (hFront'.map_slash hStar).symm
    have hLonger : front.length ≤ (taken ++ front').length := by
      have h := congrArg List.length hSame
      simp only [List.length_map] at h
      simp [h]
    -- the later match leaves `moved` in front of what its second star takes
    rw [← List.append_assoc] at hText
    obtain ⟨moved, hShift, hRest⟩ : ∃ moved, front ++ moved = taken ++ front' ∧
        rest = moved ++ (more ++ tail) := by
      rcases List.append_eq_append_iff.mp hText with ⟨moved, hLeft, hRight⟩ | ⟨moved, hLeft, hRight⟩
      · exact ⟨moved, hLeft.symm, hRight⟩
      · have hNone : moved = [] := by
          have h := congrArg List.length hLeft
          rw [List.length_append] at h
          exact List.length_eq_zero_iff.mp (by omega)
        subst hNone
        exact ⟨[], by simpa using hLeft, by simpa using hRight.symm⟩
    rw [hRest, ← List.append_assoc]
    refine Covers.star ?_ hTail
    rw [List.mem_append, not_or]
    exact ⟨slash_not_mem_of_shift hSame hTaken hShift, hMore⟩
  · intro h
    have hBoth := (covers_append_iff lead ('*' :: pat) (front ++ rest)).mpr
      ⟨front, rest, rfl, hFront, h⟩
    have hNone : Covers ('*' :: (lead ++ '*' :: pat)) ([] ++ (front ++ rest)) :=
      Covers.star (by simp) hBoth
    exact hNone

/-- The search behind a star finds a match whenever there is one. -/
theorem matchAfterStar_iff (pat text : List Char) :
    matchAfterStar pat text = true ↔ Covers ('*' :: pat) text := by
  fun_induction matchAfterStar pat text with
  | case1 pat text complete hReach =>
      obtain ⟨hIff, hLonger⟩ := covers_of_reach_ended hReach
      cases complete with
      | true =>
          have hCovers : Covers ('*' :: pat) ([] ++ text) :=
            Covers.star (by simp) (hIff.mpr rfl)
          simpa using hCovers
      | false =>
          simp only [Bool.false_eq_true, false_iff]
          intro h
          obtain ⟨taken, rest, rfl, _, hRest⟩ := (covers_star_iff _ _).mp h
          have hNeeds := hRest.length_le
          have hTooShort := hLonger rfl
          rw [List.length_append] at hTooShort
          omega
  | case2 pat text pat' rest hReach ih =>
      obtain ⟨lead, front, rfl, rfl, hStar, hFront⟩ := split_of_reach_star hReach
      rw [ih, covers_star_star_iff hStar hFront]
  | case3 pat hReach => simp [reach] at hReach
  | case4 pat cs hReach =>
      simp only [Bool.false_eq_true, false_iff]
      intro h
      obtain ⟨taken, rest, hText, hTaken, hRest⟩ := (covers_star_iff _ _).mp h
      cases taken with
      | nil =>
          rw [List.nil_append] at hText
          exact not_covers_of_reach_failed hReach (hText ▸ hRest)
      | cons c taken =>
          cases hText
          simp at hTaken
  | case5 pat c cs hReach hSlash ih =>
      rw [ih, covers_star_iff, covers_star_iff]
      constructor
      · rintro ⟨taken, rest, rfl, hTaken, hRest⟩
        exact ⟨c :: taken, rest, rfl, by simp [hTaken, Ne.symm hSlash], hRest⟩
      · rintro ⟨taken, rest, hText, hTaken, hRest⟩
        cases taken with
        | nil =>
            rw [List.nil_append] at hText
            exact absurd (hText ▸ hRest) (not_covers_of_reach_failed hReach)
        | cons d taken =>
            cases hText
            exact ⟨taken, rest, rfl, fun h => hTaken (List.mem_cons_of_mem _ h), hRest⟩

/-- The search finds out whether a plain pattern covers a text. -/
theorem matchPlain_eq_true_iff (pat text : List Char) :
    matchPlain pat text = true ↔ Covers pat text := by
  rw [matchPlain]
  split
  · rename_i complete hReach
    exact (covers_of_reach_ended hReach).1.symm
  · rename_i pat' rest hReach
    obtain ⟨lead, front, rfl, rfl, hStar, hFront⟩ := split_of_reach_star hReach
    rw [matchAfterStar_iff, covers_append_iff]
    constructor
    · exact fun h => ⟨front, rest, rfl, hFront, h⟩
    · rintro ⟨front', back, hText, hFront', hBack⟩
      have hSame := (hFront.map_slash hStar).trans (hFront'.map_slash hStar).symm
      have hLength : front.length = front'.length := by
        simpa using congrArg List.length hSame
      exact (List.append_inj hText hLength).2 ▸ hBack
  · rename_i hReach
    simpa using not_covers_of_reach_failed hReach

end Search

section Segmentwise

/-- A pattern without a slash covers no slash. -/
theorem Covers.slash_not_mem {pat text : List Char} (h : Covers pat text) (hPat : '/' ∉ pat) :
    '/' ∉ text := by
  induction h with
  | nil => simp
  | star hTaken _ ih => simp_all
  | any hChar _ ih =>
      simp only [List.mem_cons, not_or] at hPat ⊢
      exact ⟨Ne.symm hChar, ih hPat.2⟩
  | same _ _ _ ih =>
      simp only [List.mem_cons, not_or] at hPat ⊢
      exact ⟨hPat.1, ih hPat.2⟩

theorem covers_slash_iff (pat text : List Char) :
    Covers ('/' :: pat) text ↔ ∃ rest, text = '/' :: rest ∧ Covers pat rest := by
  rw [covers_cons_iff (by decide)]
  simp [accepts]

/-- The first slash of a pattern meets the first slash of the text. -/
theorem covers_append_slash_iff {pat seg : List Char} (hPat : '/' ∉ pat) (hSeg : '/' ∉ seg)
    (more rest : List Char) :
    Covers (pat ++ '/' :: more) (seg ++ '/' :: rest) ↔ Covers pat seg ∧ Covers more rest := by
  rw [covers_append_iff]
  constructor
  · rintro ⟨front, back, hText, hFront, hBack⟩
    obtain ⟨rest', rfl, hRest⟩ := (covers_slash_iff _ _).mp hBack
    obtain ⟨rfl, rfl⟩ := append_slash_inj hSeg (hFront.slash_not_mem hPat) hText
    exact ⟨hFront, hRest⟩
  · rintro ⟨hFirst, hOthers⟩
    exact ⟨seg, '/' :: rest, rfl, hFirst, (covers_slash_iff _ _).mpr ⟨_, rfl, hOthers⟩⟩

/-- A plain pattern of several segments covers a path segment by segment. -/
theorem covers_ofSegments_iff {pats segs : List (List Char)} (hPats : pats ≠ []) (hSegs : segs ≠ [])
    (hPatSlash : ∀ pat ∈ pats, '/' ∉ pat) (hSegSlash : ∀ seg ∈ segs, '/' ∉ seg) :
    Covers (ofSegments pats) (ofSegments segs) ↔ List.Forall₂ Covers pats segs := by
  induction pats generalizing segs with
  | nil => exact absurd rfl hPats
  | cons pat pats ih =>
      obtain ⟨seg, segs, rfl⟩ := List.exists_cons_of_ne_nil hSegs
      have hPat := hPatSlash pat List.mem_cons_self
      have hSeg := hSegSlash seg List.mem_cons_self
      cases pats with
      | nil =>
          cases segs with
          | nil => simp [ofSegments, joinWith]
          | cons next segs =>
              -- the pattern has no slash for the one of the text
              have hNot : ¬Covers (ofSegments [pat]) (ofSegments (seg :: next :: segs)) :=
                fun h => absurd (by simp [ofSegments, joinWith]) (h.slash_not_mem hPat)
              simp [hNot]
      | cons pat' pats =>
          cases segs with
          | nil =>
              have hNot : ¬Covers (ofSegments (pat :: pat' :: pats)) (ofSegments [seg]) := by
                intro h
                obtain ⟨front, back, hText, _, hBack⟩ := (covers_append_iff pat _ _).mp h
                obtain ⟨rest, rfl, _⟩ := (covers_slash_iff _ _).mp hBack
                have hSame : seg = front ++ '/' :: rest := hText
                exact hSeg (by simp [hSame])
              simp [hNot]
          | cons next segs =>
              rw [List.forall₂_cons, ← @ih (next :: segs) (by simp) (by simp)
                (fun p hp => hPatSlash p (List.mem_cons_of_mem _ hp))
                (fun p hp => hSegSlash p (List.mem_cons_of_mem _ hp))]
              exact covers_append_slash_iff hPat hSeg _ _

end Segmentwise

end SymbolMap.Glob
