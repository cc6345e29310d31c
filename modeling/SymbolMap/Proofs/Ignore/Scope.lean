import Mathlib
import SymbolMap.Proofs.Ignore.Verdict
import SymbolMap.Proofs.Path.Spelling

/-! How far rules reach. A verdict on a directory holds for all that lies
below it, and a verdict does not depend on how a path is written. The rules of
an ignore file say below its directory what they would say at the top, and
nothing of what is not below it, whatever other rules stand around them. -/
namespace SymbolMap.Ignore

open SymbolMap.Path SymbolMap.Text

section Below

variable (set : RuleSet) {dir path rest : List Char} (isDir : Bool)

theorem RuleSet.ignores_of_normalize (hNormal : normalize path = path) (hNe : path ≠ []) :
    set.ignores path isDir =
      ((ancestors path).any (set.excludes · true) || set.excludes path isDir) := by
  rw [RuleSet.ignores_of_normalize_ne (by rwa [hNormal]), hNormal]

/-- Below a directory that is ignored everything is; below one that is not,
the directories between and the path itself decide. -/
theorem RuleSet.ignores_append (hDir : Plain dir)
    (hRest : ∀ seg ∈ segments rest, seg ≠ [] ∧ '\\' ∉ seg) :
    set.ignores (dir ++ '/' :: rest) isDir =
      (set.ignores dir true ||
        ((ancestors rest).any (fun between => set.excludes (dir ++ '/' :: between) true) ||
          set.excludes (dir ++ '/' :: rest) isDir)) := by
  rw [set.ignores_of_normalize isDir (hDir.normalize_append hRest) (by simp),
    set.ignores_of_normalize true hDir.normalize hDir.filled, ancestors_append, List.any_append,
    List.any_cons, List.any_map]
  simp only [Bool.or_assoc, Function.comp_def]

end Below

/-- What lies below an ignored directory is ignored, whatever rules speak of
it; below another directory the directories between and the path itself
decide. The verdict on a plain path is the same however it is written. -/
theorem RuleSet.ignores_all_below_however_spelled (set : RuleSet) :
    (∀ dir rest isDir, Plain dir → (∀ seg ∈ segments rest, seg ≠ [] ∧ '\\' ∉ seg) →
      (set.ignores dir true = true → set.ignores (dir ++ '/' :: rest) isDir = true) ∧
      (set.ignores dir true = false → set.ignores (dir ++ '/' :: rest) isDir =
        ((ancestors rest).any (fun between => set.excludes (dir ++ '/' :: between) true) ||
          set.excludes (dir ++ '/' :: rest) isDir))) ∧
    ∀ path spelling isDir, Plain path → Spells spelling path →
      set.ignores spelling isDir = set.ignores path isDir := by
  refine ⟨fun dir rest isDir hDir hRest => ?_, fun path spelling isDir hPath hSpells => ?_⟩
  · rw [set.ignores_append isDir hDir hRest]
    exact ⟨fun hIgnored => by rw [hIgnored, Bool.true_or],
      fun hNot => by rw [hNot, Bool.false_or]⟩
  · simp only [RuleSet.ignores, hPath.normalize_of_spells hSpells, hPath.normalize]

/-- Rules that take nothing back below an excluded directory. -/
def buildRules : RuleSet := { rules := rulesOf "build/\n!build/keep.o\n!keep.o\n".toList [] }

theorem ignores_all_below_build :
    Plain "build".toList ∧ buildRules.ignores "build".toList true = true ∧
      buildRules.ignores "build/keep.o".toList false = true ∧
      buildRules.ignores ".\\build\\keep.o//".toList false = true := by
  have hDir : Plain "build".toList := by decide
  have hIgnored : buildRules.ignores "build".toList true = true := by cbv
  have hPath : Plain "build/keep.o".toList := by decide
  have hSpells : Spells ".\\build\\keep.o//".toList "build/keep.o".toList :=
    ⟨['.', '/'], 2, Or.inr rfl, by simp [WrittenAs]⟩
  obtain ⟨hBelow, hSame⟩ := buildRules.ignores_all_below_however_spelled
  have hKept : buildRules.ignores "build/keep.o".toList false = true :=
    (hBelow "build".toList "keep.o".toList false hDir (by decide)).1 hIgnored
  exact ⟨hDir, hIgnored, hKept, (hSame _ _ false hPath hSpells).trans hKept⟩

section Moved

/-- The same rule in the ignore file of a directory. -/
def Rule.moved (base : List Char) (rule : Rule) : Rule :=
  { rule with base := String.ofList base }

/-- The directory of an ignore file decides nothing but the base of its
rules. -/
theorem Rule.parse?_eq_map_moved (line base : List Char) :
    Rule.parse? line base =
      (Rule.parse? line []).map (Rule.moved (stripWhere (· == '/') base)) := by
  simp only [Rule.parse?]
  split
  · rfl
  · split <;> rfl

theorem rulesOf_eq_map_moved (contents base : List Char) :
    rulesOf contents base =
      (rulesOf contents []).map (Rule.moved (stripWhere (· == '/') base)) := by
  rw [rulesOf, rulesOf, List.map_filterMap]
  exact congrArg (fun parse => (lines contents).filterMap parse)
    (funext fun line => Rule.parse?_eq_map_moved line base)

variable {base path : List Char} (isDir : Bool)

/-- Below the base a rule matches what it matches at the top. -/
theorem Rule.matches_moved {rule : Rule} (hTop : rule.base = "") (hBase : base ≠ [])
    (path : List Char) :
    (rule.moved base).matches (base ++ '/' :: path) isDir = rule.matches path isDir := by
  have hMoved : (rule.moved base).relative? (base ++ '/' :: path) = some path := by
    rw [Rule.relative?, Rule.moved, if_neg (by simpa using hBase), String.toList_ofList]
    exact (below?_eq_some_iff _ _ _).mpr rfl
  have hSame : rule.relative? path = some path := by
    rw [Rule.relative?, hTop]
    rfl
  rw [Rule.matches, Rule.matches, hMoved, hSame]
  rfl

theorem RuleSet.excludes_moved {rules : List Rule} (hTop : ∀ rule ∈ rules, rule.base = "")
    (hBase : base ≠ []) (path : List Char) :
    RuleSet.excludes { rules := rules.map (Rule.moved base) } (base ++ '/' :: path) isDir =
      RuleSet.excludes { rules } path isDir := by
  have hMatching :
      RuleSet.matching { rules := rules.map (Rule.moved base) } (base ++ '/' :: path) isDir =
        (RuleSet.matching { rules } path isDir).map (Rule.moved base) := by
    simp only [RuleSet.matching, List.filter_map]
    congr 1
    exact List.filter_congr fun rule hRule => Rule.matches_moved isDir (hTop rule hRule) hBase path
  rw [RuleSet.excludes_eq_getLast?, RuleSet.excludes_eq_getLast?, hMatching, List.getLast?_map]
  cases (RuleSet.matching { rules } path isDir).getLast? <;> rfl

/-- Rules of an ignore file match nothing that is not below its directory. -/
theorem matches_rulesOf_of_not_below {contents : List Char} (hBase : Plain base)
    (hNot : ¬∃ rest, path = base ++ '/' :: rest) {rule : Rule}
    (hRule : rule ∈ rulesOf contents base) : rule.matches path isDir = false := by
  have hText : rule.base = String.ofList base := by
    rw [base_of_mem_rulesOf hRule, hBase.stripWhere_slash]
  refine Rule.matches_of_not_below ?_ fun rest hPath => hNot ⟨rest, ?_⟩
  · rw [hText]
    simpa using hBase.filled
  · rw [hPath, hText, String.toList_ofList]

/-- What is not below a directory has nothing above it that is. -/
theorem not_below_of_mem_ancestors (hNot : ¬∃ rest, path = base ++ '/' :: rest) {above : List Char}
    (hAbove : above ∈ ancestors path) : ¬∃ rest, above = base ++ '/' :: rest := by
  rintro ⟨rest, rfl⟩
  obtain ⟨more, hPath⟩ := (mem_ancestors_iff _ _).mp hAbove
  exact hNot ⟨rest ++ '/' :: more, by simp [hPath]⟩

/-- Rules of an ignore file may stand anywhere among others without changing
the verdict on what is not below its directory. -/
theorem RuleSet.ignores_insert_rulesOf (contents : List Char) (front back : List Rule)
    (hBase : Plain base) (hPath : Plain path) (hNot : ¬∃ rest, path = base ++ '/' :: rest) :
    RuleSet.ignores { rules := front ++ rulesOf contents base ++ back } path isDir =
      RuleSet.ignores { rules := front ++ back } path isDir := by
  apply RuleSet.ignores_congr
  · rw [hPath.normalize]
    intro above hAbove
    have hOutside := not_below_of_mem_ancestors hNot hAbove
    exact RuleSet.excludes_insert fun _ => matches_rulesOf_of_not_below true hBase hOutside
  · rw [hPath.normalize]
    exact RuleSet.excludes_insert fun _ => matches_rulesOf_of_not_below isDir hBase hNot

theorem RuleSet.ignores_empty (path : List Char) : RuleSet.ignores {} path isDir = false := by
  simp [RuleSet.ignores, RuleSet.excludes]

/-- Below its directory an ignore file says what it would say at the top. -/
theorem RuleSet.ignores_add_below (contents : List Char) (hBase : Plain base)
    (hPath : Plain path) :
    (RuleSet.add {} contents base).ignores (base ++ '/' :: path) isDir =
      (RuleSet.add {} contents []).ignores path isDir := by
  have hRules : (RuleSet.add {} contents base).rules =
      (rulesOf contents []).map (Rule.moved base) := by
    rw [RuleSet.add, List.nil_append, rulesOf_eq_map_moved, hBase.stripWhere_slash]
  have hTop : ∀ rule ∈ rulesOf contents [], rule.base = "" :=
    fun rule hRule => base_of_mem_rulesOf hRule
  have hExcludes : ∀ below isDir,
      (RuleSet.add {} contents base).excludes (base ++ '/' :: below) isDir =
        (RuleSet.add {} contents []).excludes below isDir := by
    intro below isDir
    have hMoved := RuleSet.excludes_moved isDir hTop hBase.filled below
    rwa [← hRules] at hMoved
  -- the directory itself is not below itself, so its own rules leave it alone
  have hOpen : (RuleSet.add {} contents base).ignores base true = false := by
    have hNot : ¬∃ rest, base = base ++ '/' :: rest := by simp
    have hInsert := RuleSet.ignores_insert_rulesOf true contents [] [] hBase hBase hNot
    rw [List.append_nil] at hInsert
    exact hInsert.trans (RuleSet.ignores_empty true base)
  rw [RuleSet.ignores_append _ isDir hBase hPath.segments_below, hOpen, Bool.false_or,
    RuleSet.ignores_of_normalize _ isDir hPath.normalize hPath.filled]
  simp only [hExcludes]

end Moved

/-- The rules of an ignore file speak of what lies below its directory, as
they would at the top of what lies there, and of nothing else: wherever they
stand among other rules, no other verdict changes. -/
theorem rules_speak_below_their_base {base : List Char} (hBase : Plain base)
    (contents : List Char) :
    (∀ path isDir, Plain path →
      (RuleSet.add {} contents base).ignores (base ++ '/' :: path) isDir =
        (RuleSet.add {} contents []).ignores path isDir) ∧
    ∀ (front back : List Rule) path isDir, Plain path → (¬∃ rest, path = base ++ '/' :: rest) →
      RuleSet.ignores { rules := front ++ rulesOf contents base ++ back } path isDir =
        RuleSet.ignores { rules := front ++ back } path isDir :=
  ⟨fun _ isDir => RuleSet.ignores_add_below isDir contents hBase,
    fun front back _ isDir => RuleSet.ignores_insert_rulesOf isDir contents front back hBase⟩

/-- An ignore file that takes one path back. -/
def keepingText : List Char := "*.o\n!/keep.o\n".toList

theorem rules_speak_below_keepingText :
    Plain "src/gen".toList ∧
      (RuleSet.add {} keepingText "src/gen".toList).ignores "src/gen/lib/a.o".toList false = true ∧
      (RuleSet.add {} keepingText "src/gen".toList).ignores "src/gen/keep.o".toList false = false ∧
      RuleSet.ignores
        { rules := rulesOf "*.o\n".toList [] ++ rulesOf keepingText "src/gen".toList ++ [] }
        "src/gen2/keep.o".toList false = true := by
  have hBase : Plain "src/gen".toList := by decide
  obtain ⟨hBelow, hOutside⟩ := rules_speak_below_their_base hBase keepingText
  refine ⟨hBase, ?_, ?_, ?_⟩
  · exact (hBelow "lib/a.o".toList false (by decide)).trans (by cbv)
  · exact (hBelow "keep.o".toList false (by decide)).trans (by cbv)
  · refine (hOutside _ _ "src/gen2/keep.o".toList false (by decide) ?_).trans (by cbv)
    rw [← mem_ancestors_iff]
    decide

end SymbolMap.Ignore
