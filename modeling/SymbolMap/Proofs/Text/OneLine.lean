import Mathlib
import SymbolMap.Proofs.Path.Normalize
import SymbolMap.Text.Blank

/-! Text on one line. Collapsing leaves single spaces as the only blanks, a
line holds no line feed, and whatever trims a text only takes characters
away, so that no blank is left at its ends. -/
namespace SymbolMap.Text

section Trimming

theorem dropEndWhile_subset (p : Char → Bool) (s : List Char) : dropEndWhile p s ⊆ s := by
  obtain ⟨dropped, hText, _⟩ := exists_append_dropEndWhile p s
  intro c hChar
  rw [hText]
  exact List.mem_append_left _ hChar

theorem stripWhere_subset (p : Char → Bool) (s : List Char) : stripWhere p s ⊆ s :=
  List.Subset.trans (dropEndWhile_subset p _) (List.dropWhile_sublist p).subset

theorem trim_subset (s : List Char) : trim s ⊆ s := stripWhere_subset isBlank s

theorem dropLastIf_subset (c : Char) (s : List Char) : dropLastIf c s ⊆ s := by
  rw [dropLastIf]
  split
  · exact List.dropLast_subset s
  · exact List.Subset.refl s

/-- What is left of a text does not end in a character to drop. -/
theorem not_of_mem_getLast?_dropEndWhile {p : Char → Bool} {s : List Char} {c : Char}
    (hLast : c ∈ (dropEndWhile p s).getLast?) : p c = false := by
  rw [dropEndWhile, List.getLast?_reverse, Option.mem_def] at hLast
  have hFirst := List.head?_dropWhile_not p s.reverse
  rwa [hLast] at hFirst

/-- Dropping characters at the end of a text keeps its first one, unless it
drops everything. -/
theorem mem_head?_of_dropEndWhile {p : Char → Bool} {s : List Char} {c : Char}
    (hFirst : c ∈ (dropEndWhile p s).head?) : c ∈ s.head? := by
  obtain ⟨dropped, hText, _⟩ := exists_append_dropEndWhile p s
  rw [hText, List.head?_append, Option.mem_def, Option.mem_def.mp hFirst, Option.some_or]

/-- A text that neither begins nor ends with a blank. -/
structure Trimmed (s : List Char) : Prop where
  first : ∀ c ∈ s.head?, isBlank c = false
  last : ∀ c ∈ s.getLast?, isBlank c = false

theorem trimmed_trim (s : List Char) : Trimmed (trim s) where
  first c hFirst := by
    have hKept := List.head?_dropWhile_not isBlank s
    rwa [Option.mem_def.mp (mem_head?_of_dropEndWhile hFirst)] at hKept
  last _ hLast := not_of_mem_getLast?_dropEndWhile hLast

end Trimming

section Words

theorem not_isBlank_of_mem_words {s word : List Char} (hWord : word ∈ words s) {c : Char}
    (hChar : c ∈ word) : isBlank c = false :=
  (mem_piece_of_mem_splitWhere (List.mem_filter.mp hWord).1 hChar).2

theorem ne_nil_of_mem_words {s word : List Char} (hWord : word ∈ words s) : word ≠ [] := by
  simpa using (List.mem_filter.mp hWord).2

end Words

section Spacing

/-- A text in which the only blanks are spaces and no two of them are
neighbours. -/
structure SingleSpaced (s : List Char) : Prop where
  blanks : ∀ c ∈ s, isBlank c = true → c = ' '
  apart : s.IsChain fun a b => ¬(a = ' ' ∧ b = ' ')

theorem singleSpaced_nil : SingleSpaced [] := ⟨by simp, List.IsChain.nil⟩

theorem SingleSpaced.newline_not_mem {s : List Char} (h : SingleSpaced s) : '\n' ∉ s :=
  fun hBreak => absurd (h.blanks '\n' hBreak (by decide)) (by decide)

theorem singleSpaced_of_not_isBlank {s : List Char} (hNone : ∀ c ∈ s, isBlank c = false) :
    SingleSpaced s := by
  constructor
  · intro c hChar hBlank
    rw [hNone c hChar] at hBlank
    cases hBlank
  · refine List.Pairwise.isChain (List.pairwise_of_forall_mem_list ?_)
    rintro a hChar b _ ⟨rfl, _⟩
    exact absurd (hNone ' ' hChar) (by decide)

/-- The beginning of a single-spaced text is single-spaced. -/
theorem SingleSpaced.dropEndWhile {s : List Char} (h : SingleSpaced s) (p : Char → Bool) :
    SingleSpaced (dropEndWhile p s) := by
  obtain ⟨dropped, hText, _⟩ := exists_append_dropEndWhile p s
  refine ⟨fun c hChar => h.blanks c (dropEndWhile_subset p s hChar), ?_⟩
  exact h.apart.prefix ⟨dropped, hText.symm⟩

theorem SingleSpaced.concat {s : List Char} (h : SingleSpaced s) {c : Char}
    (hKept : isBlank c = false) : SingleSpaced (s ++ [c]) := by
  constructor
  · intro d hChar hBlank
    rcases List.mem_append.mp hChar with hChar | hChar
    · exact h.blanks d hChar hBlank
    · rw [List.mem_singleton.mp hChar, hKept] at hBlank
      cases hBlank
  · rw [List.isChain_append]
    refine ⟨h.apart, List.IsChain.singleton c, ?_⟩
    rintro _ _ d hChar ⟨_, rfl⟩
    rw [List.head?_cons, Option.mem_some_iff] at hChar
    exact absurd (hChar ▸ hKept) (by decide)

/-- Two single-spaced texts with a space between them, when no space is next
to it. -/
theorem SingleSpaced.append_space {first second : List Char} (hFirst : SingleSpaced first)
    (hEnd : ' ' ∉ first.getLast?) (hSecond : SingleSpaced second) (hStart : ' ' ∉ second.head?) :
    SingleSpaced (first ++ ' ' :: second) := by
  constructor
  · intro c hChar hBlank
    rcases List.mem_append.mp hChar with hChar | hChar
    · exact hFirst.blanks c hChar hBlank
    · rcases List.mem_cons.mp hChar with rfl | hChar
      · rfl
      · exact hSecond.blanks c hChar hBlank
  · rw [List.isChain_append, List.isChain_cons]
    refine ⟨hFirst.apart, ⟨?_, hSecond.apart⟩, ?_⟩
    · rintro c hChar ⟨_, rfl⟩
      exact hStart hChar
    · rintro c hChar _ _ ⟨rfl, _⟩
      exact hEnd hChar

/-- Words with one space between neighbours. -/
theorem singleSpaced_joinWith {pieces : List (List Char)}
    (hPieces : ∀ piece ∈ pieces, piece ≠ [] ∧ ∀ c ∈ piece, isBlank c = false) :
    SingleSpaced (joinWith ' ' pieces) ∧ ∀ c ∈ (joinWith ' ' pieces).head?, isBlank c = false := by
  induction pieces with
  | nil => exact ⟨singleSpaced_nil, by simp [joinWith]⟩
  | cons piece pieces ih =>
      obtain ⟨⟨hNe, hNone⟩, hRest⟩ := List.forall_mem_cons.mp hPieces
      have hFirst : ∀ c ∈ piece.head?, isBlank c = false :=
        fun c hChar => hNone c (List.mem_of_mem_head? hChar)
      cases pieces with
      | nil => exact ⟨singleSpaced_of_not_isBlank hNone, hFirst⟩
      | cons next pieces =>
          obtain ⟨hSpaced, hStart⟩ := ih hRest
          rw [joinWith]
          constructor
          · refine (singleSpaced_of_not_isBlank hNone).append_space ?_ hSpaced ?_
            · exact fun hSpace => absurd (hNone ' ' (List.mem_of_getLast? hSpace)) (by decide)
            · exact fun hSpace => absurd (hStart ' ' hSpace) (by decide)
          · rwa [List.head?_append_of_ne_nil _ hNe]

/-- What is left of a declaration is single-spaced, without blanks at its
ends. -/
theorem singleSpaced_collapseUpTo (p : Char → Bool) (s : List Char) :
    SingleSpaced (collapseUpTo p s) ∧ Trimmed (collapseUpTo p s) := by
  obtain ⟨hSpaced, hStart⟩ := @singleSpaced_joinWith (words s) fun word hWord =>
    ⟨ne_nil_of_mem_words hWord, fun _ hChar => not_isBlank_of_mem_words hWord hChar⟩
  refine ⟨(hSpaced.dropEndWhile p).dropEndWhile isBlank, ?_, ?_⟩
  · intro c hFirst
    exact hStart c (mem_head?_of_dropEndWhile (mem_head?_of_dropEndWhile hFirst))
  · exact fun c hLast => not_of_mem_getLast?_dropEndWhile hLast

theorem newline_not_mem_collapseUpTo (p : Char → Bool) (s : List Char) :
    '\n' ∉ collapseUpTo p s :=
  (singleSpaced_collapseUpTo p s).1.newline_not_mem

end Spacing

section Lines

theorem count_joinWith {sep c : Char} (hNe : sep ≠ c) (pieces : List (List Char)) :
    (joinWith sep pieces).count c = (pieces.map (List.count c)).sum := by
  induction pieces with
  | nil => rfl
  | cons piece pieces ih =>
      cases pieces with
      | nil => simp [joinWith]
      | cons next pieces => simp [joinWith, List.count_cons_of_ne hNe, ih]

theorem newline_not_mem_of_mem_lines {s line : List Char} (hLine : line ∈ lines s) :
    '\n' ∉ line := by
  have hPieces : ∀ pieces : List (List Char), (∀ piece ∈ pieces, '\n' ∉ piece) →
      ∀ line ∈ linesOfPieces pieces, '\n' ∉ line := by
    intro pieces hFree
    fun_induction linesOfPieces pieces with
    | case1 => simp
    | case2 => simp
    | case3 last _ => simpa using hFree
    | case4 piece next pieces ih =>
        obtain ⟨hFirst, hRest⟩ := List.forall_mem_cons.mp hFree
        refine List.forall_mem_cons.mpr ⟨?_, ih hRest⟩
        exact fun hBreak => hFirst (dropLastIf_subset '\r' piece hBreak)
  apply hPieces (splitAt '\n' s) _ line hLine
  intro piece hPiece hBreak
  have hKept := (mem_piece_of_mem_splitWhere hPiece hBreak).2
  simp at hKept

end Lines

end SymbolMap.Text
