import SymbolMap.Proofs.Glob.Globstar
import SymbolMap.Proofs.Ignore.Lines

/-! Rules that are not anchored match at any depth. Their patterns have no
slash. Of all the tails of a path such a pattern can cover only the last
segment, unless it is a globstar and covers every tail. So trying every tail
comes down to trying the last segment. -/
namespace SymbolMap.Path

open SymbolMap.Text

section LastSegment

/-- The text after the last slash of a path; all of it if there is none. -/
def lastSegment (path : List Char) : List Char :=
  (path.reverse.takeWhile (· != '/')).reverse

/-- The tails of a path begin where a slash precedes. -/
theorem mem_suffixes_iff (tail path : List Char) :
    tail ∈ suffixes path ↔ tail = path ∨ ∃ front, path = front ++ '/' :: tail := by
  constructor
  · intro hTail
    obtain ⟨segs, hSegs, rfl⟩ := List.mem_map.mp hTail
    obtain ⟨⟨front, hFront⟩, hNe⟩ := (Glob.mem_tails_iff _ _).mp hSegs
    by_cases hNone : front = []
    · rw [hNone, List.nil_append] at hFront
      exact Or.inl (by rw [hFront, ofSegments_segments])
    · have hPath : path = ofSegments front ++ '/' :: ofSegments segs := by
        rw [← ofSegments_segments path, ← hFront]
        exact joinWith_append '/' hNone hNe
      exact Or.inr ⟨ofSegments front, hPath⟩
  · intro hTail
    have hSuffix : segments tail <:+ segments path := by
      rcases hTail with rfl | ⟨front, rfl⟩
      · exact List.suffix_rfl
      · rw [segments_append]
        exact List.suffix_append _ _
    have hMem := (Glob.mem_tails_iff _ _).mpr ⟨hSuffix, segments_ne_nil tail⟩
    exact List.mem_map.mpr ⟨segments tail, hMem, ofSegments_segments tail⟩

theorem slash_not_mem_lastSegment (path : List Char) : '/' ∉ lastSegment path := by
  intro hSlash
  simpa using List.mem_takeWhile_imp (List.mem_reverse.mp hSlash)

theorem ne_slash_of_mem_reverse {text : List Char} (hText : '/' ∉ text) :
    ∀ c ∈ text.reverse, (c != '/') = true := by
  intro c hChar
  rw [bne_iff_ne]
  rintro rfl
  exact hText (List.mem_reverse.mp hChar)

theorem lastSegment_of_not_mem {path : List Char} (hPath : '/' ∉ path) :
    lastSegment path = path := by
  rw [lastSegment, List.takeWhile_eq_self_iff.mpr (ne_slash_of_mem_reverse hPath),
    List.reverse_reverse]

theorem lastSegment_append {last : List Char} (hLast : '/' ∉ last) (front : List Char) :
    lastSegment (front ++ '/' :: last) = last := by
  rw [lastSegment, List.reverse_append, List.reverse_cons, List.append_assoc,
    List.takeWhile_append_of_pos (ne_slash_of_mem_reverse hLast)]
  simp

theorem lastSegment_mem_suffixes (path : List Char) : lastSegment path ∈ suffixes path := by
  have hSplit : path = (path.reverse.dropWhile (· != '/')).reverse ++ lastSegment path := by
    rw [lastSegment, ← List.reverse_append, List.takeWhile_append_dropWhile, List.reverse_reverse]
  rw [mem_suffixes_iff]
  cases hFront : path.reverse.dropWhile (· != '/') with
  | nil =>
      rw [hFront] at hSplit
      exact Or.inl hSplit.symm
  | cons c front =>
      have hSlash : c = '/' := by
        have hHead := List.head?_dropWhile_not (· != '/') path.reverse
        rw [hFront] at hHead
        simpa using hHead
      rw [hFront, hSlash, List.reverse_cons, List.append_assoc] at hSplit
      exact Or.inr ⟨front.reverse, hSplit⟩

/-- The last segment is the one tail without a slash. -/
theorem mem_suffixes_and_not_mem_iff (tail path : List Char) :
    tail ∈ suffixes path ∧ '/' ∉ tail ↔ tail = lastSegment path := by
  constructor
  · intro ⟨hTail, hSlash⟩
    rcases (mem_suffixes_iff _ _).mp hTail with rfl | ⟨front, rfl⟩
    · exact (lastSegment_of_not_mem hSlash).symm
    · exact (lastSegment_append hSlash front).symm
  · intro hTail
    rw [hTail]
    exact ⟨lastSegment_mem_suffixes path, slash_not_mem_lastSegment path⟩

end LastSegment

end SymbolMap.Path

namespace SymbolMap.Glob

open SymbolMap.Path

section OneSegment

variable {pattern : List Char}

/-- A pattern of one segment is a globstar or plain. -/
theorem matchPath_of_no_slash (hPattern : '/' ∉ pattern) (path : List Char) :
    matchPath pattern path = (isGlobstar pattern || matchPlain pattern path) := by
  have hSegments : segments pattern = [pattern] := Text.splitAt_of_not_mem hPattern
  rw [matchPath, hSegments, matchSegments]
  cases hStar : isGlobstar pattern with
  | true => simp [restAfter?, ofSegments, Text.joinWith]
  | false => simp [matchSegments, ofSegments, Text.joinWith]

/-- A pattern of one segment that covers some tail of a path covers its last
segment. -/
theorem any_suffixes_matchPath (hPattern : '/' ∉ pattern) (path : List Char) :
    ((suffixes path).any fun tail => matchPath pattern tail) =
      matchPath pattern (lastSegment path) := by
  simp only [matchPath_of_no_slash hPattern]
  rw [Bool.eq_iff_iff, List.any_eq_true, Bool.or_eq_true]
  constructor
  · intro ⟨tail, hTail, hMatch⟩
    rcases Bool.or_eq_true_iff.mp hMatch with hStar | hPlain
    · exact Or.inl hStar
    · have hSlash := ((matchPlain_eq_true_iff _ _).mp hPlain).slash_not_mem hPattern
      have hLast := (mem_suffixes_and_not_mem_iff tail path).mp ⟨hTail, hSlash⟩
      exact Or.inr (hLast ▸ hPlain)
  · intro hMatch
    exact ⟨lastSegment path, lastSegment_mem_suffixes path, Bool.or_eq_true_iff.mpr hMatch⟩

end OneSegment

end SymbolMap.Glob

namespace SymbolMap.Ignore

open SymbolMap.Path SymbolMap.Text

/-- What is left of a path below a directory. Below the top it is the whole
path, below any other directory the text after the directory and a slash. -/
def LeftBelow (dir path rest : List Char) : Prop :=
  dir = [] ∧ path = rest ∨ dir ≠ [] ∧ path = dir ++ '/' :: rest

theorem Rule.relative?_eq_some_iff (rule : Rule) (path rest : List Char) :
    rule.relative? path = some rest ↔ LeftBelow rule.base.toList path rest := by
  rw [Rule.relative?, LeftBelow]
  by_cases hTop : rule.base = ""
  · simp [hTop]
  · have hDir : rule.base.toList ≠ [] := by simpa using hTop
    rw [if_neg (by simpa using hTop), below?_eq_some_iff]
    simp [hDir]

/-- A rule matches what is below its base and matches its pattern there. -/
theorem Rule.matches_iff (rule : Rule) (path : List Char) (isDir : Bool) :
    rule.matches path isDir = true ↔
      (rule.directoryOnly = true → isDir = true) ∧
        ∃ rest, LeftBelow rule.base.toList path rest ∧
          (if rule.anchored then Glob.matchPath rule.pattern.toList rest
            else (suffixes rest).any fun tail => Glob.matchPath rule.pattern.toList tail) = true := by
  simp only [← Rule.relative?_eq_some_iff]
  rw [Rule.matches]
  cases hRest : rule.relative? path with
  | none => simp
  | some rest => cases rule.directoryOnly <;> cases isDir <;> simp

/-- A rule that a line says and that is not anchored matches a path exactly if
it applies to it, as a rule about directories to directories only and as a rule
of an ignore file below its directory only, and its pattern covers the last
segment. Other tails of the path add nothing. -/
theorem Rule.matches_iff_lastSegment {line base : List Char} {rule : Rule}
    (hParse : Rule.parse? line base = some rule) (hLoose : rule.anchored = false)
    (path : List Char) (isDir : Bool) :
    rule.matches path isDir = true ↔
      (rule.directoryOnly = true → isDir = true) ∧
        ∃ rest, LeftBelow rule.base.toList path rest ∧
          Glob.matchPath rule.pattern.toList (lastSegment rest) = true := by
  have hSlash : '/' ∉ rule.pattern.toList := by
    intro hSlash
    rw [(Rule.consistent_of_parse? hParse).anchored hSlash] at hLoose
    cases hLoose
  rw [Rule.matches_iff]
  simp only [hLoose, Bool.false_eq_true, if_false, Glob.any_suffixes_matchPath hSlash]

theorem matches_iff_lastSegment_objects :
    Rule.parse? "*.o".toList "/src/".toList = some ⟨"*.o", false, false, false, "src"⟩ ∧
      (Rule.mk "*.o" false false false "src").matches "src/lib//a.o".toList false = true ∧
      (Rule.mk "*.o" false false false "src").matches "src/a.o/lib".toList false = false := by
  have hParse : Rule.parse? "*.o".toList "/src/".toList =
      some ⟨"*.o", false, false, false, "src"⟩ := by decide
  have hIff := Rule.matches_iff_lastSegment hParse rfl
  have hFile : LeftBelow "src".toList "src/lib//a.o".toList "lib//a.o".toList :=
    Or.inr ⟨by decide, rfl⟩
  refine ⟨hParse, (hIff _ _).mpr ⟨nofun, _, hFile, by cbv⟩, ?_⟩
  rw [Bool.eq_false_iff, ne_eq, hIff]
  rintro ⟨_, rest, hBelow, hMatch⟩
  rcases hBelow with ⟨hTop, _⟩ | ⟨_, hPath⟩
  · exact absurd hTop (by decide)
  · have hRest : rest = "a.o/lib".toList := by simpa using hPath.symm
    have hNot : Glob.matchPath "*.o".toList (lastSegment "a.o/lib".toList) = false := by cbv
    rw [hRest] at hMatch
    exact Bool.false_ne_true (hNot.symm.trans hMatch)

end SymbolMap.Ignore
