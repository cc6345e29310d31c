/-! Cutting text at separators and joining it again. A cut keeps empty
pieces, so it never returns an empty list and joining the pieces gives the
text back. -/
namespace SymbolMap.Text

/-- The pieces of a text between the characters that satisfy `p`. The
separators themselves belong to no piece. -/
def splitWhere (p : Char → Bool) : List Char → List (List Char)
  | [] => [[]]
  | c :: cs =>
    if p c then [] :: splitWhere p cs
    else
      match splitWhere p cs with
      | [] => [[c]]
      | piece :: pieces => (c :: piece) :: pieces

/-- The pieces of a text between the occurrences of one character. -/
def splitAt (sep : Char) (s : List Char) : List (List Char) :=
  splitWhere (· == sep) s

/-- The pieces of a list of texts, one separator between neighbours. -/
def joinWith (sep : Char) : List (List Char) → List Char
  | [] => []
  | [piece] => piece
  | piece :: next :: pieces => piece ++ sep :: joinWith sep (next :: pieces)

/-- A text without its last character, when that character is `c`. -/
def dropLastIf (c : Char) (s : List Char) : List Char :=
  if s.getLast? = some c then s.dropLast else s

/-- A text without its first character, when that character is `c`. -/
def dropFirstIf (c : Char) : List Char → List Char
  | [] => []
  | d :: s => if d = c then s else d :: s

/-- What remains after a leading `lead`, if the text begins with it. -/
def afterLead : List Char → List Char → Option (List Char)
  | [], s => some s
  | _ :: _, [] => none
  | l :: lead, c :: s => if l = c then afterLead lead s else none

/-- A text without its longest tail of characters that satisfy `p`. -/
def dropEndWhile (p : Char → Bool) (s : List Char) : List Char :=
  (s.reverse.dropWhile p).reverse

/-- A text without the characters satisfying `p` at either end. -/
def stripWhere (p : Char → Bool) (s : List Char) : List Char :=
  dropEndWhile p (s.dropWhile p)

/-- The lines of pieces cut at line feeds: each complete line loses one
carriage return, and an empty last piece is no line. -/
def linesOfPieces : List (List Char) → List (List Char)
  | [] => []
  | [last] => if last.isEmpty then [] else [last]
  | line :: next :: pieces => dropLastIf '\r' line :: linesOfPieces (next :: pieces)

/-- The lines of a text. A line ends with a line feed, which a carriage
return may precede; the last line needs no end. -/
def lines (s : List Char) : List (List Char) :=
  linesOfPieces (splitAt '\n' s)

/-- A text that begins with something is longer than what remains. -/
theorem length_lt_of_afterLead {l : Char} {lead s rest : List Char}
    (h : afterLead (l :: lead) s = some rest) : rest.length < s.length := by
  induction lead generalizing l s with
  | nil =>
    cases s with
    | nil => simp [afterLead] at h
    | cons c s =>
      simp only [afterLead] at h
      split at h <;> simp_all
  | cons m lead ih =>
    cases s with
    | nil => simp [afterLead] at h
    | cons c s =>
      rw [afterLead] at h
      split at h
      · exact Nat.lt_succ_of_lt (ih h)
      · simp at h

@[simp] theorem splitWhere_nil (p : Char → Bool) : splitWhere p [] = [[]] := rfl

theorem splitWhere_ne_nil (p : Char → Bool) (s : List Char) : splitWhere p s ≠ [] := by
  cases s with
  | nil => simp
  | cons c cs =>
    simp only [splitWhere]
    split
    · simp
    · split <;> simp

/-- Joining the pieces of a cut at one character gives the text back. -/
theorem joinWith_splitAt (sep : Char) (s : List Char) : joinWith sep (splitAt sep s) = s := by
  unfold splitAt
  induction s with
  | nil => rfl
  | cons c cs ih =>
    obtain ⟨piece, pieces, hPieces⟩ := List.exists_cons_of_ne_nil (splitWhere_ne_nil (· == sep) cs)
    rw [hPieces] at ih
    simp only [splitWhere, hPieces]
    by_cases hSep : c = sep
    · simp [hSep, joinWith, ih]
    · cases pieces <;> simp_all [joinWith]

end SymbolMap.Text
