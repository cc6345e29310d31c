import SymbolMap.Ignore.RuleSet
import SymbolMap.Proofs.Path.Normalize

/-! The verdicts of rule sets. The verdict on a path asks for every directory
above it, so it covers what is decided about those directories. Of a path by
itself the last rule that matches decides, and the others do not count. -/
namespace SymbolMap.Ignore

open SymbolMap.Path SymbolMap.Text

section Last

variable {set set' : RuleSet} {path : List Char} {isDir : Bool}

/-- The rules that match a path, in their order. -/
def RuleSet.matching (set : RuleSet) (path : List Char) (isDir : Bool) : List Rule :=
  set.rules.filter (·.matches path isDir)

theorem RuleSet.excludes_eq_getLast? (set : RuleSet) (path : List Char) (isDir : Bool) :
    set.excludes path isDir =
      match (set.matching path isDir).getLast? with
      | some rule => !rule.negated
      | none => false := by
  have hLast : set.rules.reverse.find? (·.matches path isDir) =
      (set.matching path isDir).getLast? := by
    rw [matching, ← List.head?_filter, List.filter_reverse, List.head?_reverse]
  exact congrArg (fun last? : Option Rule => match last? with
    | some rule => !rule.negated
    | none => false) hLast

theorem RuleSet.excludes_congr (hSame : set.matching path isDir = set'.matching path isDir) :
    set.excludes path isDir = set'.excludes path isDir := by
  rw [excludes_eq_getLast?, excludes_eq_getLast?, hSame]

/-- Rules may go without changing a verdict as long as the last one that
matches stays. -/
theorem RuleSet.excludes_filter {keep : Rule → Bool}
    (hKeep : ∀ rule, (set.matching path isDir).getLast? = some rule → keep rule = true) :
    RuleSet.excludes { rules := set.rules.filter keep } path isDir = set.excludes path isDir := by
  have hMatching : RuleSet.matching { rules := set.rules.filter keep } path isDir =
      (set.matching path isDir).filter keep :=
    List.filter_comm _ _ _
  rw [excludes_eq_getLast?, excludes_eq_getLast?, hMatching]
  rcases List.eq_nil_or_concat' (set.matching path isDir) with hNone | ⟨front, last, hLast⟩
  · rw [hNone, List.filter_nil]
  · have hStays : keep last = true := hKeep last (by simp [hLast])
    simp [hLast, hStays]

/-- Every rule that matches is the last one or comes before it. -/
theorem RuleSet.before_last {r : Rule → Rule → Prop} (hOrder : set.rules.Pairwise r)
    {rule last : Rule} (hRule : rule ∈ set.rules) (hMatch : rule.matches path isDir = true)
    (hLast : (set.matching path isDir).getLast? = some last) : rule = last ∨ r rule last := by
  obtain ⟨front, hFront⟩ := List.getLast?_eq_some_iff.mp hLast
  have hMem : rule ∈ set.matching path isDir := List.mem_filter.mpr ⟨hRule, hMatch⟩
  have hPairs : (set.matching path isDir).Pairwise r := hOrder.sublist List.filter_sublist
  rw [hFront] at hMem hPairs
  rcases List.mem_append.mp hMem with hMem | hMem
  · exact Or.inr ((List.pairwise_append.mp hPairs).2.2 rule hMem last (by simp))
  · exact Or.inl (List.mem_singleton.mp hMem)

theorem base_of_mem_rulesOf {contents base : List Char} {rule : Rule}
    (hRule : rule ∈ rulesOf contents base) :
    rule.base = String.ofList (stripWhere (· == '/') base) := by
  obtain ⟨line, _, hParse⟩ := List.mem_filterMap.mp hRule
  simp only [Rule.parse?] at hParse
  split at hParse
  · cases hParse
  · split at hParse
    · cases hParse
    · cases hParse
      rfl

/-- Rules that do not match a path may stand anywhere. -/
theorem RuleSet.excludes_insert {front added back : List Rule}
    (hNone : ∀ rule ∈ added, rule.matches path isDir = false) :
    RuleSet.excludes { rules := front ++ added ++ back } path isDir =
      RuleSet.excludes { rules := front ++ back } path isDir := by
  have hAdded : added.filter (·.matches path isDir) = [] := by
    rw [List.filter_eq_nil_iff]
    intro rule hRule
    simp [hNone rule hRule]
  apply excludes_congr
  simp only [matching, List.filter_append, hAdded, List.append_nil]

/-- A rule matches nothing that is not below its base. -/
theorem Rule.matches_of_not_below {rule : Rule} (hBase : rule.base ≠ "")
    (hNot : ∀ rest, path ≠ rule.base.toList ++ '/' :: rest) : rule.matches path isDir = false := by
  have hRelative : rule.relative? path = none := by
    rw [Rule.relative?, if_neg (by simpa using hBase), Option.eq_none_iff_forall_ne_some]
    intro rest hBelow
    exact hNot rest ((below?_eq_some_iff _ _ _).mp hBelow)
  rw [Rule.matches, hRelative]
  split <;> rfl

end Last

theorem RuleSet.ignores_iff (set : RuleSet) (path : List Char) (isDir : Bool) :
    set.ignores path isDir = true ↔ normalize path ≠ [] ∧
      ((∃ above ∈ ancestors (normalize path), set.excludes above true = true) ∨
        set.excludes (normalize path) isDir = true) := by
  simp [RuleSet.ignores, List.any_eq_true]

theorem RuleSet.ignores_of_normalize_ne {set : RuleSet} {path : List Char} {isDir : Bool}
    (hNe : normalize path ≠ []) :
    set.ignores path isDir = ((ancestors (normalize path)).any (set.excludes · true) ||
      set.excludes (normalize path) isDir) := by
  simp [RuleSet.ignores, hNe]

/-- Rule sets that agree on a path and on the directories above it give the
same verdict. -/
theorem RuleSet.ignores_congr {set set' : RuleSet} {path : List Char} {isDir : Bool}
    (hAbove : ∀ above ∈ ancestors (normalize path),
      set.excludes above true = set'.excludes above true)
    (hHere : set.excludes (normalize path) isDir = set'.excludes (normalize path) isDir) :
    set.ignores path isDir = set'.ignores path isDir := by
  rw [Bool.eq_iff_iff, ignores_iff, ignores_iff, hHere]
  refine and_congr_right fun _ => or_congr_left (exists_congr fun above => ?_)
  exact and_congr_right fun hMem => by rw [hAbove above hMem]

/-- Whatever lies below an ignored directory is ignored. -/
theorem RuleSet.ignores_below {set : RuleSet} {dir rest : List Char}
    (hIgnored : set.ignores dir true = true) (hDot : ¬['.', '/'] <+: slashed dir ++ ['/'])
    {c : Char} (hLast : (slashed rest).getLast? = some c) (hEnd : c ≠ '/') (isDir : Bool) :
    set.ignores (dir ++ '/' :: rest) isDir = true := by
  obtain ⟨more, hBelow⟩ := exists_normalize_below hDot hLast hEnd
  rw [RuleSet.ignores_iff] at hIgnored ⊢
  obtain ⟨_, hVerdict⟩ := hIgnored
  rw [hBelow]
  refine ⟨by simp, Or.inl ?_⟩
  rcases hVerdict with ⟨above, hAbove, hExcluded⟩ | hExcluded
  · exact ⟨above, ancestors_subset_below _ more hAbove, hExcluded⟩
  · exact ⟨normalize dir, mem_ancestors_below _ more, hExcluded⟩

end SymbolMap.Ignore
