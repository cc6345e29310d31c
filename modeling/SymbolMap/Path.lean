import SymbolMap.Text.Split

/-! Paths as text, cut into segments at slashes. -/
namespace SymbolMap.Path

open SymbolMap.Text

/-- The segments of a path, empty ones included. -/
def segments (path : List Char) : List (List Char) := splitAt '/' path

/-- The path of a list of segments. -/
def ofSegments (segs : List (List Char)) : List Char := joinWith '/' segs

/-- The non-empty tails of a list, longest first. -/
def tails {α : Type} : List α → List (List α)
  | [] => []
  | a :: as => (a :: as) :: tails as

/-- Every tail of a path that begins at a segment, longest first: `a/b/c`,
`b/c` and `c`. -/
def suffixes (path : List Char) : List (List Char) :=
  (tails (segments path)).map ofSegments

/-- The non-empty proper initial parts of a list, shortest first. -/
def properInits {α : Type} : List α → List (List α)
  | [] => []
  | [_] => []
  | a :: b :: as => [a] :: (properInits (b :: as)).map (a :: ·)

/-- The directories above a path, outermost first: `a` and `a/b` for
`a/b/c`. -/
def ancestors (path : List Char) : List (List Char) :=
  (properInits (segments path)).map ofSegments

/-- A path begins at the top of the file system. -/
def isAbsolute (path : String) : Bool := path.toList.head? = some '/'

/-- A path without one leading `./`. -/
def withoutDot (path : List Char) : List Char :=
  (afterLead ['.', '/'] path).getD path

/-- A path without its trailing slashes. -/
def withoutSlashes (path : List Char) : List Char :=
  dropEndWhile (· == '/') path

/-- One spelling for every way to write a path: backslashes count as
slashes, one leading `./` and all trailing slashes go. -/
def normalize (path : List Char) : List Char :=
  withoutSlashes (withoutDot (path.map fun c => if c = '\\' then '/' else c))

/-- What lies below `dir` in `path`: the text after `dir` and a slash. -/
def below? (dir path : List Char) : Option (List Char) :=
  match afterLead dir path with
  | some ('/' :: rest) => some rest
  | _ => none

/-- A path, and below it a further one; an empty path is the place where one
already is. -/
def join (dir name : String) : String :=
  if dir.isEmpty then name else dir ++ "/" ++ name

/-- A path and a name in it, with a slash between unless one is there. -/
def child (dir name : String) : String :=
  if dir.isEmpty || dir.toList.getLast? = some '/' then dir ++ name else dir ++ "/" ++ name

/-- The path, from the top of the file system, of the place to which names
lead. -/
def ofPlace (place : List String) : String :=
  String.ofList ('/' :: ofSegments (place.map String.toList))

/-- A place and those above it, innermost first. -/
def placesAbove (place : List String) : List (List String) :=
  (tails place.reverse).map List.reverse ++ [[]]

/-- The steps of a path: its segments that are not empty, where the current
directory counts only at the start. -/
def steps (path : String) : List String :=
  let segs := (segments path.toList).filter (!·.isEmpty)
  match segs with
  | [] => []
  | first :: rest => (first :: rest.filter (· != ['.'])).map String.ofList

/-- Whether segments, the last one first, end in a step. -/
def endsInStep : List (List Char) → Bool
  | [] => false
  | seg :: outer => !seg.isEmpty && (seg != ['.'] || outer.isEmpty)

/-- The directories that a path runs through, innermost first, as they are
written in it: `a//b` and `a` for `a//b/c/.`. The top of the file system, which
is always there, is not among them. -/
def parents (path : String) : List String :=
  (((tails (segments path.toList).reverse).filter endsInStep).drop 1).map fun segs =>
    String.ofList (ofSegments segs.reverse)

/-- The name components of a path that lead somewhere: neither empty nor the
current directory. -/
def components (path : List Char) : List String :=
  ((segments path).filter fun seg => !seg.isEmpty && seg != ['.']).map String.ofList

/-- The directory part of a file's path, as components. -/
def directory (path : String) : List String :=
  components (ofSegments (segments path.toList).dropLast)

/-- The last component of a path, unless it leads upwards. -/
def fileName? (path : String) : Option String :=
  match (components path.toList).getLast? with
  | some ".." => none
  | name => name

/-- The text after the last dot of a file name. A name whose only dot comes
first has no extension. -/
def extension? (path : String) : Option String :=
  match fileName? path with
  | none => none
  | some name =>
    let pieces := splitAt '.' name.toList
    match pieces.getLast? with
    | none => none
    | some ext =>
      if (joinWith '.' pieces.dropLast).isEmpty then none else some (String.ofList ext)

end SymbolMap.Path
