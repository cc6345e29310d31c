import SymbolMap.Proofs.Glob.Plain

/-! Plain patterns by trying every way. The definition of what a pattern
covers can be run as it stands: for each star every run of characters is
tried. The search that only comes back to the last star gives the same
answers, so what it leaves untried would not have matched. -/
namespace SymbolMap.Glob

/-- What can be left of a text behind a star, the longest first: the star
takes one more character each time, but no slash. -/
def leftByStar : List Char → List (List Char)
  | [] => [[]]
  | c :: text => (c :: text) :: if c = '/' then [] else leftByStar text

/-- Match a pattern and try every run of characters for every star. -/
def backtrack : List Char → List Char → Bool
  | [], text => text.isEmpty
  | p :: pat, text =>
    if p = '*' then (leftByStar text).any (backtrack pat)
    else
      match text with
      | [] => false
      | c :: rest => accepts p c && backtrack pat rest

theorem mem_leftByStar_iff (text rest : List Char) :
    rest ∈ leftByStar text ↔ ∃ taken, text = taken ++ rest ∧ '/' ∉ taken := by
  induction text with
  | nil => simp [leftByStar, eq_comm, and_comm]
  | cons c text ih =>
      rw [leftByStar, List.mem_cons]
      constructor
      · rintro (rfl | hRest)
        · exact ⟨[], rfl, by simp⟩
        · split at hRest
          · cases hRest
          · rename_i hSlash
            obtain ⟨taken, rfl, hTaken⟩ := ih.mp hRest
            exact ⟨c :: taken, rfl, by simp [hTaken, Ne.symm hSlash]⟩
      · rintro ⟨taken, hText, hTaken⟩
        cases taken with
        | nil => exact Or.inl hText.symm
        | cons d taken =>
            obtain ⟨rfl, rfl⟩ := List.cons.inj hText
            rw [List.mem_cons, not_or] at hTaken
            rw [if_neg (Ne.symm hTaken.1)]
            exact Or.inr (ih.mpr ⟨taken, rfl, hTaken.2⟩)

theorem backtrack_eq_true_iff (pat text : List Char) :
    backtrack pat text = true ↔ Covers pat text := by
  induction pat generalizing text with
  | nil => simp [backtrack]
  | cons p pat ih =>
      by_cases hStar : p = '*'
      · subst hStar
        have hTried : backtrack ('*' :: pat) text = (leftByStar text).any (backtrack pat) := by
          cases text <;> simp [backtrack]
        rw [hTried, List.any_eq_true, covers_star_iff]
        simp only [mem_leftByStar_iff, ih]
        constructor
        · rintro ⟨rest, ⟨taken, hText, hTaken⟩, hRest⟩
          exact ⟨taken, rest, hText, hTaken, hRest⟩
        · rintro ⟨taken, rest, hText, hTaken, hRest⟩
          exact ⟨rest, ⟨taken, hText, hTaken⟩, hRest⟩
      · rw [covers_cons_iff hStar]
        cases text with
        | nil => simp [backtrack, hStar]
        | cons c rest => simp [backtrack, hStar, ih]

/-- The search finds exactly the texts that a pattern covers, and so answers
as the search that tries every way. -/
theorem matchPlain_agrees_with_backtracking (pat text : List Char) :
    (matchPlain pat text = true ↔ Covers pat text) ∧
      matchPlain pat text = backtrack pat text := by
  have hFound := matchPlain_eq_true_iff pat text
  refine ⟨hFound, ?_⟩
  rw [Bool.eq_iff_iff, hFound, backtrack_eq_true_iff]

/-- Two stars and a slash: the first star has to leave the second `b` to the
pattern. -/
example : backtrack "a*b*/?".toList "axbyb/c".toList = true := by decide

end SymbolMap.Glob
