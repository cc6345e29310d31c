import SymbolMap.SyntaxTree
import SymbolMap.Text.Blank

/-! Documentation comments. The comments directly above a declaration
document it, also across attributes and decorators; a blank line detaches
them. Of a comment only its first line with text counts. -/
namespace SymbolMap.Outline

open SymbolMap.Text

/-- A text without a mark repeated at its start. -/
def dropMarks (mark : List Char) (s : List Char) : List Char :=
  match mark with
  | [] => s
  | m :: ms =>
    match _hRest : afterLead (m :: ms) s with
    | some rest => dropMarks (m :: ms) rest
    | none => s
termination_by s.length
decreasing_by
  exact length_lt_of_afterLead _hRest

/-- A text without a mark repeated at its end. -/
def dropEndMarks (mark : List Char) (s : List Char) : List Char :=
  (dropMarks mark.reverse s.reverse).reverse

/-- The text of one line of a comment, without the marks that make it a
comment. -/
def commentText (line : List Char) : List Char :=
  let opened := ["/**", "/*", "//!", "///", "//", "#"].foldl
    (fun s mark => dropMarks mark.toList s) (trim line)
  trim ((dropEndMarks "*/".toList opened).dropWhile (· == '*'))

/-- The first line of a comment that has text. -/
def firstCommentLine (comment : List Char) : Option (List Char) :=
  ((lines comment).map commentText).find? (!·.isEmpty)

/-- Whether one text occurs in another. -/
def occursIn (part : List Char) : List Char → Bool
  | [] => part.isEmpty
  | c :: cs => (afterLead part (c :: cs)).isSome || occursIn part cs

/-- Whether a node is a comment of some kind. -/
def isComment (node : Node) : Bool := occursIn "comment".toList node.kind.toList

/-- Whether a node may stand between a comment and what it documents. -/
def isAttribute (node : Node) : Bool :=
  node.kind == "attribute_item" || node.kind == "decorator"

/-- The last row that holds text of a node. A comment may include its line
feed and then ends at the start of the next row. -/
def lastRow (source : List Char) (node : Node) : Nat :=
  let stop := node.stopPosition source
  if stop.column = 0 && (node.startPosition source).line < stop.line then stop.line - 1
  else stop.line

/-- Go back over comments and attributes as long as no row is left free above
`row`. `passed` are the nodes passed, in source order; the result is the part
of them from the topmost comment on, of which `best` is known so far. -/
def commentBlock (source : List Char) (row : Nat) (passed best : List Node) :
    List Node → List Node
  | [] => best
  | sibling :: earlier =>
    let passed := sibling :: passed
    let next := (sibling.startPosition source).line
    if lastRow source sibling + 1 < row then best
    else if isComment sibling then commentBlock source next passed passed earlier
    else if isAttribute sibling then commentBlock source next passed best earlier
    else best

/-- The first line of the documentation above a node, which comes after
`earlier` siblings, the nearest first. -/
def precedingDoc (source : List Char) (earlier : List Node) (node : Node) :
    Option (List Char) :=
  (commentBlock source (node.startPosition source).line [] [] earlier).findSome? fun sibling =>
    if isComment sibling then firstCommentLine (sibling.text source) else none

end SymbolMap.Outline
