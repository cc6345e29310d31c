import SymbolMap.Language
import SymbolMap.Proofs.Path.Normalize

/-! Languages by the names of files. Only the last name of a path tells the
language of a file, and it ends as the extensions of known languages do. -/
namespace SymbolMap

open SymbolMap.Path SymbolMap.Text

/-- The language of a file goes by its name alone. -/
theorem Language.ofPath_ofNames {names : List String} {name : String}
    (hSteps : ∀ step ∈ names ++ [name], IsStep step) :
    Language.ofPath (ofNames (names ++ [name])) = Language.ofPath name := by
  have hAlone := components_of_isStep (hSteps name (by simp))
  have hFile : fileName? (ofNames (names ++ [name])) = fileName? name := by
    rw [fileName?, fileName?, components_ofNames hSteps, hAlone]
    simp
  rw [Language.ofPath, Language.ofPath, extension?, extension?, hFile]

/-- No extension of a known language ends in a slash of either kind. -/
theorem Language.getLast?_of_isKnown_ofExtension {ext : String}
    (hKnown : (Language.ofExtension ext).isKnown = true) :
    ∃ c, ext.toList.getLast? = some c ∧ c ≠ '/' ∧ c ≠ '\\' := by
  have hSupported : Language.lowercase ext ∈ Language.supportedExtensions := by
    rw [Language.ofExtension] at hKnown
    cases hFound : Language.all.find? fun language =>
        language.extensions.contains (Language.lowercase ext) with
    | none =>
        rw [hFound] at hKnown
        exact absurd hKnown (by decide)
    | some language =>
        have hIn := List.find?_some hFound
        exact List.mem_flatMap.mpr
          ⟨language, List.mem_of_find?_eq_some hFound, by simpa using hIn⟩
  have hEnds : ∀ e ∈ Language.supportedExtensions, e.toList.getLast?.any fun c =>
      c != '/' && c != '\\' := by decide
  have hEnd := hEnds _ hSupported
  rw [Language.lowercase, String.toList_ofList, List.getLast?_map] at hEnd
  cases hLast : ext.toList.getLast? with
  | none => simp [hLast] at hEnd
  | some c =>
      refine ⟨c, rfl, ?_, ?_⟩
      all_goals
        rintro rfl
        revert hEnd
        simp only [hLast]
        decide

/-- The extension of a name is the text after its last dot. -/
theorem getLast?_of_extension? {name ext : String} (hName : IsStep name)
    (hExt : extension? name = some ext) :
    (splitAt '.' name.toList).getLast? = some ext.toList := by
  have hFile : ∀ file, fileName? name = some file → file = name := by
    intro file hFile
    rw [fileName?, components_of_isStep hName, List.getLast?_singleton] at hFile
    split at hFile
    · cases hFile
    · exact (Option.some.inj hFile).symm
  rw [extension?] at hExt
  split at hExt
  · cases hExt
  · rename_i file hSome
    rw [hFile file hSome] at hExt
    cases hLast : (splitAt '.' name.toList).getLast? with
    | none => simp [hLast] at hExt
    | some piece =>
        simp only [hLast] at hExt
        split at hExt
        · cases hExt
        · cases hExt
          rw [String.toList_ofList]

/-- The name of a file in a known language does not end in a slash of either
kind. -/
theorem Language.getLast?_of_isKnown {name : String} (hName : IsStep name)
    (hKnown : (Language.ofPath name).isKnown = true) :
    ∃ c, name.toList.getLast? = some c ∧ c ≠ '/' ∧ c ≠ '\\' := by
  have hUnknown : ¬(Language.unknown.isKnown = true) := by decide
  rw [Language.ofPath] at hKnown
  split at hKnown
  · rename_i ext hExt
    obtain ⟨c, hLast, hEnd⟩ := Language.getLast?_of_isKnown_ofExtension hKnown
    refine ⟨c, ?_, hEnd⟩
    have hNe : ext.toList ≠ [] := by
      intro hNil
      simp [hNil] at hLast
    have hJoin := @getLast?_joinWith '.' _ _ (getLast?_of_extension? hName hExt) hNe
    rwa [joinWith_splitAt, hLast] at hJoin
  · exact absurd hKnown hUnknown

end SymbolMap
