import Mathlib.Data.List.Lex
import Mathlib.Data.String.Basic
import SymbolMap.Proofs.Path.Names

/-! Two orders on paths: by names, component by component, and as text. They
differ only where a name is the beginning of another, because the slash that
ends the shorter name is then compared with a character of the longer one. -/
namespace SymbolMap.Path

open SymbolMap.Text

/-- Names that come before others as text though the others come first by
names. Behind the names that they share, the others lead further down where
these have a longer name, which goes on with a character before the slash:
`a-b` overtakes `a/x`. -/
inductive Overtakes : List String → List String → Prop
  | longer {name longer : String} {c : Char} {more : List Char} {deeper others : List String}
      (hLonger : longer.toList = name.toList ++ c :: more) (hBefore : c < '/')
      (hDeeper : deeper ≠ []) : Overtakes (longer :: others) (name :: deeper)
  | shared {name : String} {later earlier : List String} (hRest : Overtakes later earlier) :
      Overtakes (name :: later) (name :: earlier)

section Texts

theorem append_lt_append_iff (first second third : List Char) :
    first ++ second < first ++ third ↔ second < third := by
  induction first with
  | nil => rfl
  | cons c first ih => rw [List.cons_append, List.cons_append, List.cons_lt_cons_self, ih]

/-- A text does not come before its beginning. -/
theorem not_append_lt (first second : List Char) : ¬first ++ second < first := by
  have hIff := append_lt_append_iff first second []
  rw [List.append_nil] at hIff
  rw [hIff]
  exact List.not_lt_nil _

/-- A text is the beginning of a greater one, or comes first whatever follows
the two. -/
theorem beginning_or_lt {a b : List Char} (h : a < b) :
    (∃ c more, b = a ++ c :: more) ∨ ∀ s t, a ++ s < b ++ t := by
  induction h with
  | @nil c more => exact Or.inl ⟨c, more, rfl⟩
  | cons _ ih =>
      rcases ih with ⟨c, more, rfl⟩ | hLess
      · exact Or.inl ⟨c, more, rfl⟩
      · exact Or.inr fun s t => List.Lex.cons (hLess s t)
  | rel hLess => exact Or.inr fun s t => List.Lex.rel hLess

end Texts

section Comparison

variable {names others : List String}

theorem ofNames_singleton (name : String) : ofNames [name] = name := by
  simp [ofNames, ofSegments, joinWith]

theorem ofNames_cons (hNames : names ≠ []) (name : String) :
    (ofNames (name :: names)).toList = name.toList ++ '/' :: (ofNames names).toList := by
  have hAppend := ofNames_append (List.cons_ne_nil name []) hNames
  rwa [ofNames_singleton] at hAppend

/-- Paths in the same directory compare by what lies below it. -/
theorem ofNames_cons_lt_iff (hOthers : others ≠ []) (name : String) :
    ofNames (name :: others) < ofNames (name :: names) ↔ ofNames others < ofNames names := by
  rw [String.lt_iff_toList_lt, String.lt_iff_toList_lt, ofNames_cons hOthers]
  by_cases hNames : names = []
  · rw [hNames, ofNames_singleton]
    exact iff_of_false (not_append_lt _ _) (List.not_lt_nil _)
  · rw [ofNames_cons hNames, append_lt_append_iff, List.cons_lt_cons_self]

/-- Behind a smaller first name, only a longer name can come first as
text. -/
theorem ofNames_lt_iff_of_lt {name longer : String} (hSlash : '/' ∉ longer.toList)
    (hLess : name < longer) (names others : List String) :
    ofNames (longer :: others) < ofNames (name :: names) ↔
      names ≠ [] ∧ ∃ c more, longer.toList = name.toList ++ c :: more ∧ c < '/' := by
  obtain ⟨after, hText⟩ := exists_ofNames_cons longer others
  rw [String.lt_iff_toList_lt, hText]
  rcases beginning_or_lt (String.lt_iff_toList_lt.mp hLess) with ⟨c, more, hLonger⟩ | hFirst
  · have hChar : c ≠ '/' := by
      rintro rfl
      exact hSlash (by simp [hLonger])
    rw [hLonger, List.append_assoc]
    by_cases hNames : names = []
    · rw [hNames, ofNames_singleton]
      exact iff_of_false (not_append_lt _ _) fun h => h.1 rfl
    · rw [ofNames_cons hNames, append_lt_append_iff, List.cons_append, List.cons_lt_cons_iff]
      simp [hNames, hChar]
  · obtain ⟨rest, hRest⟩ := exists_ofNames_cons name names
    rw [hRest]
    refine iff_of_false (List.lt_asymm (hFirst rest after)) ?_
    rintro ⟨_, c, more, hLonger, _⟩
    have hSelf := hFirst (c :: more) []
    rw [← hLonger, List.append_nil] at hSelf
    exact List.lt_irrefl _ hSelf

theorem overtakes_cons_iff (name : String) (names others : List String) :
    Overtakes (name :: others) (name :: names) ↔ Overtakes others names := by
  refine ⟨?_, .shared⟩
  rintro (⟨hLonger, _, _⟩ | hRest)
  · simp at hLonger
  · exact hRest

theorem Overtakes.irrefl (names : List String) : ¬Overtakes names names := by
  induction names with
  | nil => rintro ⟨⟩
  | cons name names ih =>
      rw [overtakes_cons_iff]
      exact ih

/-- Where names come in one order, their texts come in the other exactly when
the later ones overtake. -/
theorem ofNames_lt_iff_overtakes (hOthers : ∀ name ∈ others, IsStep name)
    (hLess : names < others) :
    ofNames others < ofNames names ↔ Overtakes others names := by
  induction hLess with
  | nil =>
      refine iff_of_false ?_ (by rintro ⟨⟩)
      rw [ofNames_nil, String.lt_iff_toList_lt]
      exact List.not_lt_nil _
  | @cons name names others hLess ih =>
      have hRest := ih fun step hStep => hOthers step (List.mem_cons_of_mem _ hStep)
      rw [overtakes_cons_iff, ← hRest]
      exact ofNames_cons_lt_iff (fun h => List.not_lt_nil names (h ▸ hLess)) name
  | @rel name names longer others hLess =>
      rw [ofNames_lt_iff_of_lt (hOthers longer List.mem_cons_self).2.2 hLess]
      constructor
      · rintro ⟨hNames, c, more, hLonger, hBefore⟩
        exact .longer hLonger hBefore hNames
      · rintro (⟨hLonger, hBefore, hDeeper⟩ | _)
        · exact ⟨hDeeper, _, _, hLonger, hBefore⟩
        · exact absurd hLess (String.lt_irrefl _)

end Comparison

end SymbolMap.Path
