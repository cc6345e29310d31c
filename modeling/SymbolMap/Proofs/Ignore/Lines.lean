import SymbolMap.Ignore.Rule
import SymbolMap.Proofs.Path.Normalize

/-! Which rules can be written. Reading a line takes away trailing spaces, a
mark, a slash at the end and a slash at the start, one after the other. What
is left is always a consistent rule. Each consistent rule is also left by some
line: a mark in front keeps the first character of the pattern from being read
as one, and a backslash before the last space keeps the spaces. -/
namespace SymbolMap.Ignore

open SymbolMap.Text

/-- A rule whose flags agree with its pattern: a slash in the pattern anchors
the rule, and a slash at the end of the pattern comes only behind the one that
asks for directories. -/
structure Rule.Consistent (rule : Rule) : Prop where
  filled : rule.pattern ≠ ""
  anchored : '/' ∈ rule.pattern.toList → rule.anchored = true
  directory : rule.pattern.toList.getLast? = some '/' → rule.directoryOnly = true

section Reading

/-- The rule that a line says once its trailing spaces and its mark are gone. -/
def Rule.ofMarked (negated : Bool) (marked base : List Char) : Rule where
  pattern := String.ofList (dropFirstIf '/' (dropLastIf '/' marked))
  negated := negated
  directoryOnly := marked.getLast? = some '/'
  anchored := (dropLastIf '/' marked).contains '/'
  base := String.ofList (stripWhere (· == '/') base)

theorem Rule.parse?_eq_some_iff (line base : List Char) (rule : Rule) :
    Rule.parse? line base = some rule ↔
      trimSpaces line ≠ [] ∧ (trimSpaces line).head? ≠ some '#' ∧ rule.pattern ≠ "" ∧
        rule = Rule.ofMarked (splitMark (trimSpaces line)).1 (splitMark (trimSpaces line)).2 base := by
  have hParse : Rule.parse? line base =
      if trimSpaces line = [] ∨ (trimSpaces line).head? = some '#' then none
      else if (Rule.ofMarked (splitMark (trimSpaces line)).1
          (splitMark (trimSpaces line)).2 base).pattern = "" then none
      else some (Rule.ofMarked (splitMark (trimSpaces line)).1
        (splitMark (trimSpaces line)).2 base) := by
    simp [Rule.parse?, Rule.ofMarked]
  rw [hParse]
  constructor
  · intro hRule
    split at hRule
    · cases hRule
    · rename_i hLine
      split at hRule
      · cases hRule
      · rename_i hPattern
        cases hRule
        exact ⟨fun h => hLine (Or.inl h), fun h => hLine (Or.inr h), hPattern, rfl⟩
  · rintro ⟨hLine, hComment, hPattern, rfl⟩
    rw [if_neg (not_or.mpr ⟨hLine, hComment⟩), if_neg hPattern]

theorem dropFirstIf_suffix (c : Char) (s : List Char) : dropFirstIf c s <:+ s := by
  cases s with
  | nil => exact List.suffix_rfl
  | cons d s =>
      rw [dropFirstIf]
      split
      · exact List.suffix_cons d s
      · exact List.suffix_rfl

/-- A text that still ends in a character after one of them is dropped had it
there before. -/
theorem getLast?_of_getLast?_dropLastIf {c : Char} {s : List Char}
    (hLast : (dropLastIf c s).getLast? = some c) : s.getLast? = some c := by
  by_contra hOther
  rw [dropLastIf, if_neg hOther] at hLast
  exact hOther hLast

theorem Rule.consistent_ofMarked {negated : Bool} {marked base : List Char}
    (hPattern : (Rule.ofMarked negated marked base).pattern ≠ "") :
    (Rule.ofMarked negated marked base).Consistent := by
  have hText : (Rule.ofMarked negated marked base).pattern.toList <:+ dropLastIf '/' marked := by
    rw [Rule.ofMarked, String.toList_ofList]
    exact dropFirstIf_suffix _ _
  refine ⟨hPattern, fun hSlash => ?_, fun hLast => ?_⟩
  · exact List.contains_iff_mem.mpr (hText.subset hSlash)
  · obtain ⟨front, hFront⟩ := hText
    have hBody : (dropLastIf '/' marked).getLast? = some '/' := by
      rw [← hFront, List.getLast?_append, hLast]
      rfl
    exact decide_eq_true (getLast?_of_getLast?_dropLastIf hBody)

theorem Rule.consistent_of_parse? {line base : List Char} {rule : Rule}
    (hParse : Rule.parse? line base = some rule) : rule.Consistent := by
  obtain ⟨_, _, hPattern, rfl⟩ := (Rule.parse?_eq_some_iff line base rule).mp hParse
  exact Rule.consistent_ofMarked hPattern

end Reading

section Writing

/-- A text with a backslash before its last space, if it ends in one. -/
def keepSpaces (text : List Char) : List Char :=
  if text.getLast? = some ' ' then text.dropLast ++ ['\\', ' '] else text

/-- The pattern of a rule between the slashes that set its flags. -/
def Rule.marked (rule : Rule) : List Char :=
  (if rule.anchored then ['/'] else []) ++ rule.pattern.toList ++
    if rule.directoryOnly then ['/'] else []

/-- A line that says a rule. It always has a mark, so that the pattern may
begin with any character. -/
def Rule.line (rule : Rule) : List Char :=
  keepSpaces ((if rule.negated then '!' else '\\') :: rule.marked)

theorem trimSpaces_keepSpaces (text : List Char) : trimSpaces (keepSpaces text) = text := by
  rw [keepSpaces]
  split
  · rename_i hSpace
    obtain ⟨front, rfl⟩ := List.getLast?_eq_some_iff.mp hSpace
    have hTrimmed : dropEndWhile (· == ' ') (front ++ ['\\', ' ']) = front ++ ['\\'] := by
      simp [dropEndWhile]
    simp [trimSpaces, hTrimmed]
  · rename_i hOther
    have hSame : dropEndWhile (· == ' ') text = text := by
      cases hLast : text.getLast? with
      | none => rw [List.getLast?_eq_none_iff.mp hLast]; rfl
      | some c =>
          refine dropEndWhile_of_getLast? hLast ?_
          rw [beq_eq_false_iff_ne]
          rintro rfl
          exact hOther hLast
    simp [trimSpaces, hSame]

variable {rule : Rule}

theorem Rule.Consistent.toList_ne_nil (hRule : rule.Consistent) : rule.pattern.toList ≠ [] := by
  simpa using hRule.filled

/-- Only the slash that asks for directories can stand at the end. -/
theorem Rule.Consistent.getLast?_marked (hRule : rule.Consistent) :
    rule.marked.getLast? = some '/' ↔ rule.directoryOnly = true := by
  rw [Rule.marked]
  cases hDirectory : rule.directoryOnly with
  | true => simp
  | false =>
      have hLast : rule.pattern.toList.getLast? ≠ some '/' := by
        intro hSlash
        rw [hRule.directory hSlash] at hDirectory
        cases hDirectory
      simp [List.getLast?_append_of_ne_nil _ hRule.toList_ne_nil, hLast]

theorem Rule.Consistent.dropLastIf_marked (hRule : rule.Consistent) :
    dropLastIf '/' rule.marked =
      (if rule.anchored then ['/'] else []) ++ rule.pattern.toList := by
  rw [dropLastIf]
  split
  · rename_i hLast
    rw [Rule.marked, hRule.getLast?_marked.mp hLast, if_pos rfl, List.dropLast_concat]
  · rename_i hLast
    rw [hRule.getLast?_marked] at hLast
    rw [Rule.marked, if_neg hLast, List.append_nil]

/-- Reading a consistent rule between its slashes gives the rule. -/
theorem Rule.Consistent.ofMarked_marked (hRule : rule.Consistent) (base : List Char) :
    Rule.ofMarked rule.negated rule.marked base =
      { rule with base := String.ofList (stripWhere (· == '/') base) } := by
  have hDirectory : decide (rule.marked.getLast? = some '/') = rule.directoryOnly := by
    rw [Bool.eq_iff_iff, decide_eq_true_iff, hRule.getLast?_marked]
  rw [Rule.ofMarked, hRule.dropLastIf_marked, hDirectory]
  cases hAnchored : rule.anchored with
  | true => simp [dropFirstIf]
  | false =>
      have hSlash : '/' ∉ rule.pattern.toList := by
        intro hSlash
        rw [hRule.anchored hSlash] at hAnchored
        cases hAnchored
      have hFirst : dropFirstIf '/' rule.pattern.toList = rule.pattern.toList := by
        cases hText : rule.pattern.toList with
        | nil => rfl
        | cons c rest =>
            rw [hText, List.mem_cons, not_or] at hSlash
            rw [dropFirstIf, if_neg (Ne.symm hSlash.1)]
      simp [hFirst, hSlash]

/-- The line of a consistent rule says this rule. -/
theorem Rule.Consistent.parse?_line (hRule : rule.Consistent) (base : List Char) :
    Rule.parse? rule.line base =
      some { rule with base := String.ofList (stripWhere (· == '/') base) } := by
  have hMark : splitMark ((if rule.negated then '!' else '\\') :: rule.marked) =
      (rule.negated, rule.marked) := by
    cases rule.negated <;> rfl
  rw [Rule.parse?_eq_some_iff, Rule.line, trimSpaces_keepSpaces, hMark, hRule.ofMarked_marked]
  refine ⟨List.cons_ne_nil _ _, ?_, hRule.filled, rfl⟩
  cases rule.negated <;> simp

end Writing

/-- The rules that lines can say are exactly the consistent ones, with the
directory of the ignore file as their base. Whatever its pattern begins or ends
with, and negated or not, a consistent rule is read from the line that is
written for it. -/
theorem Rule.parse?_says_exactly_consistent (rule : Rule) (base : List Char) :
    ((∃ line, Rule.parse? line base = some rule) ↔
      rule.Consistent ∧ rule.base = String.ofList (stripWhere (· == '/') base)) ∧
    (rule.Consistent → Rule.parse? rule.line base =
      some { rule with base := String.ofList (stripWhere (· == '/') base) }) := by
  refine ⟨⟨?_, ?_⟩, fun hRule => hRule.parse?_line base⟩
  · rintro ⟨line, hParse⟩
    refine ⟨Rule.consistent_of_parse? hParse, ?_⟩
    obtain ⟨_, _, _, hOf⟩ := (Rule.parse?_eq_some_iff line base rule).mp hParse
    rw [hOf]
    rfl
  · rintro ⟨hRule, hBase⟩
    refine ⟨rule.line, ?_⟩
    rw [hRule.parse?_line base, ← hBase]

/-- A pattern that begins like a comment and ends in two spaces. -/
example : Rule.parse? "\\#a \\ ".toList [] = some ⟨"#a  ", false, false, false, ""⟩ := by decide

end SymbolMap.Ignore
