import SymbolMap.Path

/-! Patterns for paths. `?` stands for one character and `*` for any run of
characters, both inside one segment. A segment made of two or more stars is a
globstar and stands for any number of whole segments. -/
namespace SymbolMap.Glob

open SymbolMap.Text SymbolMap.Path

/-- Whether a pattern character other than `*` stands for this character. -/
def accepts (p c : Char) : Bool :=
  if p = '?' then c != '/' else p == c

/-- How matching a pattern up to its next star can go. -/
inductive Reach where
  /-- A character did not match, or text was left over. -/
  | failed
  /-- The text ended; the flag says whether the rest of the pattern may be empty. -/
  | ended (complete : Bool)
  /-- The next star was reached, with this much of the pattern and of the text behind it. -/
  | star (pattern rest : List Char)
deriving Repr, DecidableEq

/-- Match a pattern character by character until its next star. -/
def reach : List Char → List Char → Reach
  | pat, [] => .ended (pat.all (· == '*'))
  | [], _ :: _ => .failed
  | p :: pat, c :: cs =>
    if p = '*' then .star pat (c :: cs)
    else if accepts p c then reach pat cs
    else .failed

/-- What lies behind the next star is shorter than the pattern. -/
theorem length_lt_of_reach {pat text pat' text' : List Char}
    (h : reach pat text = .star pat' text') : pat'.length < pat.length := by
  induction text generalizing pat with
  | nil => simp [reach] at h
  | cons c cs ih =>
    cases pat with
    | nil => simp [reach] at h
    | cons p pat =>
      simp only [reach] at h
      split at h
      · simp only [Reach.star.injEq] at h
        simp [h.1]
      · split at h
        · exact Nat.lt_succ_of_lt (ih h)
        · simp at h

/-- Match behind a star. The star first takes nothing, then one character
more on each failure, but never a slash. Once a later star is reached the
earlier one stays as it is. -/
def matchAfterStar (pat text : List Char) : Bool :=
  match _hReach : reach pat text with
  | .ended complete => complete
  | .star pat' text' => matchAfterStar pat' text'
  | .failed =>
    match text with
    | [] => false
    | c :: cs => if c = '/' then false else matchAfterStar pat cs
termination_by (pat.length, text.length)
decreasing_by
  · exact Prod.Lex.left _ _ (length_lt_of_reach _hReach)
  · exact Prod.Lex.right _ (Nat.lt_succ_self _)

/-- Match a text against a pattern whose stars all stay inside one segment. -/
def matchPlain (pat text : List Char) : Bool :=
  match reach pat text with
  | .ended complete => complete
  | .star pat' text' => matchAfterStar pat' text'
  | .failed => false

/-- A segment of two or more stars. -/
def isGlobstar (seg : List Char) : Bool :=
  2 ≤ seg.length && seg.all (· == '*')

/-- The text left for a globstar, once the segments before it have taken
theirs. Nothing before it takes nothing. -/
def restAfter? (lead : List (List Char)) (text : List Char) : Option (List Char) :=
  let pattern := ofSegments lead
  if pattern.isEmpty then some text
  else
    let segs := segments text
    let count := lead.length
    if segs.length < count then none
    else if matchPlain pattern (ofSegments (segs.take count)) then
      some (ofSegments (segs.drop count))
    else none

/-- Match a path against the segments of a pattern. The segments before the
first globstar, held in `lead`, match as one plain pattern. A globstar that
ends the pattern takes the rest of the path, which must not be empty when
something stands before it; any other globstar takes as many segments as the
rest of the pattern leaves. -/
def matchSegments (lead : List (List Char)) : List (List Char) → List Char → Bool
  | [], text => matchPlain (ofSegments lead) text
  | seg :: segs, text =>
    if isGlobstar seg then
      match restAfter? lead text with
      | none => false
      | some rest =>
        if (ofSegments segs).isEmpty then (ofSegments lead).isEmpty || !rest.isEmpty
        else (suffixes rest).any fun tail => matchSegments [] segs tail
    else matchSegments (lead ++ [seg]) segs text

/-- Whether a pattern covers a path. -/
def matchPath (pattern path : List Char) : Bool :=
  matchSegments [] (segments pattern) path

end SymbolMap.Glob
