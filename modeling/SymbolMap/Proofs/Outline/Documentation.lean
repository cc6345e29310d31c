import Mathlib.Data.List.Basic
import SymbolMap.Outline.Comment

/-! What documents a declaration. Directly above it stands a run of comments
and attributes with no free row in it; the run goes up as far as it can. The
documentation is the first text among the comments of the run, in source
order. -/
namespace SymbolMap.Outline

open SymbolMap.Text

section Siblings

theorem mem_withEarlier_iff (before nodes earlier : List Node) (node : Node) :
    (earlier, node) ∈ Node.withEarlier before nodes ↔
      ∃ between later, nodes = between ++ node :: later ∧ earlier = between.reverse ++ before := by
  induction nodes generalizing before with
  | nil => simp [Node.withEarlier]
  | cons first nodes ih =>
      rw [Node.withEarlier, List.mem_cons, ih]
      constructor
      · rintro (hFirst | ⟨between, later, rfl, rfl⟩)
        · cases hFirst
          exact ⟨[], nodes, rfl, rfl⟩
        · exact ⟨first :: between, later, rfl, by simp⟩
      · rintro ⟨between, later, hNodes, rfl⟩
        cases between with
        | nil =>
            cases hNodes
            exact Or.inl rfl
        | cons second between =>
            cases hNodes
            exact Or.inr ⟨between, later, rfl, by simp⟩

/-- Each named child comes with the named children before it, the nearest
first. -/
theorem mem_namedInOrder_iff (parent : Node) (earlier : List Node) (node : Node) :
    (earlier, node) ∈ parent.namedInOrder ↔
      ∃ later, parent.namedChildren = earlier.reverse ++ node :: later := by
  rw [Node.namedInOrder, mem_withEarlier_iff]
  constructor
  · rintro ⟨between, later, hNodes, rfl⟩
    exact ⟨later, by simpa using hNodes⟩
  · rintro ⟨later, hNodes⟩
    exact ⟨earlier.reverse, later, hNodes, by simp⟩

end Siblings

section Runs

/-- Siblings directly above a row, the nearest first: comments and attributes,
with no free row between one and the next or between the nearest and the
row. -/
inductive Run (source : List Char) : Nat → List Node → Prop where
  | nil (row : Nat) : Run source row []
  | cons {row : Nat} {sibling : Node} {above : List Node}
      (kind : isComment sibling = true ∨ isAttribute sibling = true)
      (near : row ≤ lastRow source sibling + 1)
      (rest : Run source (sibling.startPosition source).line above) :
      Run source row (sibling :: above)

/-- The longest run among earlier siblings, from the nearest on. -/
structure LongestRun (source : List Char) (row : Nat) (earlier run : List Node) : Prop where
  nearest : run <+: earlier
  linked : Run source row run
  longest : ∀ other, other <+: earlier → Run source row other → other.length ≤ run.length

/-- The run above a row, found from the nearest sibling upwards. -/
def runAbove (source : List Char) (row : Nat) : List Node → List Node
  | [] => []
  | sibling :: earlier =>
    if (isComment sibling || isAttribute sibling) && row ≤ lastRow source sibling + 1 then
      sibling :: runAbove source (sibling.startPosition source).line earlier
    else []

variable {source : List Char} {row : Nat} {earlier run : List Node}

theorem runAbove_isPrefix (source : List Char) (row : Nat) (earlier : List Node) :
    runAbove source row earlier <+: earlier := by
  induction earlier generalizing row with
  | nil => exact List.nil_prefix
  | cons sibling earlier ih =>
      rw [runAbove]
      split
      · exact List.cons_prefix_cons.mpr ⟨rfl, ih _⟩
      · exact List.nil_prefix

theorem run_runAbove (source : List Char) (row : Nat) (earlier : List Node) :
    Run source row (runAbove source row earlier) := by
  induction earlier generalizing row with
  | nil => exact Run.nil row
  | cons sibling earlier ih =>
      rw [runAbove]
      split
      · rename_i hJoins
        obtain ⟨hKind, hNear⟩ := Bool.and_eq_true_iff.mp hJoins
        exact Run.cons (Bool.or_eq_true_iff.mp hKind) (of_decide_eq_true hNear) (ih _)
      · exact Run.nil row

/-- No run goes further up than the one that is found. -/
theorem Run.isPrefix_runAbove (hRun : Run source row run) (hNearest : run <+: earlier) :
    run <+: runAbove source row earlier := by
  induction hRun generalizing earlier with
  | nil => exact List.nil_prefix
  | @cons row sibling above hKind hNear _ ih =>
      obtain ⟨rest, rfl⟩ := hNearest
      have hJoins : ((isComment sibling || isAttribute sibling) &&
          decide (row ≤ lastRow source sibling + 1)) = true := by
        rw [Bool.and_eq_true_iff, Bool.or_eq_true_iff]
        exact ⟨hKind, decide_eq_true hNear⟩
      rw [List.cons_append, runAbove, if_pos hJoins, List.cons_prefix_cons]
      exact ⟨rfl, ih (List.prefix_append _ _)⟩

theorem longestRun_iff (source : List Char) (row : Nat) (earlier run : List Node) :
    LongestRun source row earlier run ↔ run = runAbove source row earlier := by
  constructor
  · intro hLongest
    have hFound := hLongest.longest _ (runAbove_isPrefix source row earlier)
      (run_runAbove source row earlier)
    exact (hLongest.linked.isPrefix_runAbove hLongest.nearest).eq_of_length_le hFound
  · rintro rfl
    exact ⟨runAbove_isPrefix source row earlier, run_runAbove source row earlier,
      fun other hNearest hRun => (hRun.isPrefix_runAbove hNearest).length_le⟩

end Runs

section Block

/-- On the way up the known block stays the part of the passed nodes from
their topmost comment on, and the way up ends where the run does. -/
theorem commentBlock_eq (source : List Char) (row : Nat) (passed earlier : List Node) :
    commentBlock source row passed (passed.dropWhile (!isComment ·)) earlier =
      ((runAbove source row earlier).reverse ++ passed).dropWhile (!isComment ·) := by
  induction earlier generalizing row passed with
  | nil => rfl
  | cons sibling earlier ih =>
      have hUp := ih (sibling.startPosition source).line (sibling :: passed)
      rw [commentBlock, runAbove]
      by_cases hFree : lastRow source sibling + 1 < row
      · simp [hFree, Nat.not_le.mpr hFree]
      · have hNear : row ≤ lastRow source sibling + 1 := Nat.not_lt.mp hFree
        -- a comment makes all passed nodes the block, an attribute leaves the block as it is
        cases hComment : isComment sibling with
        | true =>
            rw [List.dropWhile_cons_of_neg (by simp [hComment])] at hUp
            simp [hFree, hNear, hUp]
        | false =>
            rw [List.dropWhile_cons_of_pos (by simp [hComment])] at hUp
            cases isAttribute sibling <;> simp [hFree, hNear, hUp]

/-- The first comment with text among some siblings. -/
def firstWithText? (source : List Char) (siblings : List Node) : Option Node :=
  siblings.find? fun sibling =>
    isComment sibling && (firstCommentLine (sibling.text source)).isSome

theorem firstWithText?_cons (source : List Char) (sibling : Node) (siblings : List Node) :
    firstWithText? source (sibling :: siblings) =
      if isComment sibling && (firstCommentLine (sibling.text source)).isSome then some sibling
      else firstWithText? source siblings := by
  rw [firstWithText?, List.find?_cons]
  cases isComment sibling && (firstCommentLine (sibling.text source)).isSome <;> rfl

theorem firstWithText?_dropWhile (source : List Char) (siblings : List Node) :
    firstWithText? source (siblings.dropWhile (!isComment ·)) = firstWithText? source siblings := by
  induction siblings with
  | nil => rfl
  | cons sibling siblings ih =>
      cases hComment : isComment sibling with
      | true => rw [List.dropWhile_cons_of_neg (by simp [hComment])]
      | false =>
          rw [List.dropWhile_cons_of_pos (by simp [hComment]), ih, firstWithText?_cons, hComment]
          rfl

theorem findSome?_eq_firstWithText? (source : List Char) (siblings : List Node) :
    (siblings.findSome? fun sibling =>
      if isComment sibling then firstCommentLine (sibling.text source) else none) =
      (firstWithText? source siblings).bind fun comment =>
        firstCommentLine (comment.text source) := by
  induction siblings with
  | nil => rfl
  | cons sibling siblings ih =>
      rw [List.findSome?_cons, ih, firstWithText?_cons]
      cases hComment : isComment sibling with
      | true => cases hLine : firstCommentLine (sibling.text source) <;> simp [hLine]
      | false => rfl

theorem precedingDoc_eq (source : List Char) (earlier : List Node) (node : Node) :
    precedingDoc source earlier node =
      (firstWithText? source
        (runAbove source (node.startPosition source).line earlier).reverse).bind fun comment =>
          firstCommentLine (comment.text source) := by
  have hBlock := commentBlock_eq source (node.startPosition source).line [] earlier
  rw [List.append_nil] at hBlock
  rw [precedingDoc, ← firstWithText?_dropWhile, ← hBlock]
  exact findSome?_eq_firstWithText? source _

end Block

/-- The documentation of a node is the first text among the comments of the
longest run above it. There is always exactly one longest run, empty perhaps,
and the siblings that it is looked for among are the named ones before the
node. -/
theorem precedingDoc_first_text_of_longest_run (source : List Char) :
    (∀ (parent : Node) earlier node, (earlier, node) ∈ parent.namedInOrder ↔
      ∃ later, parent.namedChildren = earlier.reverse ++ node :: later) ∧
    ∀ earlier node, ∃ run,
      (∀ other, LongestRun source (node.startPosition source).line earlier other ↔ other = run) ∧
      precedingDoc source earlier node =
        (firstWithText? source run.reverse).bind fun comment =>
          firstCommentLine (comment.text source) := by
  constructor
  · exact mem_namedInOrder_iff
  · intro earlier node
    exact ⟨runAbove source (node.startPosition source).line earlier,
      longestRun_iff source _ earlier, precedingDoc_eq source earlier node⟩

end SymbolMap.Outline
