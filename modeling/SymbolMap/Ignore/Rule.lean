import SymbolMap.Glob

/-! One line of an ignore file, and the paths that it matches. -/
namespace SymbolMap.Ignore

open SymbolMap.Text SymbolMap.Path

/-- One rule of an ignore file. -/
structure Rule where
  /-- The glob, without the marks that set the flags. -/
  pattern : String
  /-- The rule takes paths back instead of excluding them. -/
  negated : Bool
  /-- The rule speaks of directories only. -/
  directoryOnly : Bool
  /-- The glob has to match the whole path below the base, not only a tail of it. -/
  anchored : Bool
  /-- The directory of the ignore file; empty at the top. -/
  base : String
deriving Repr, DecidableEq

/-- A line without its trailing spaces. A backslash before them keeps one. -/
def trimSpaces (line : List Char) : List Char :=
  let trimmed := dropEndWhile (· == ' ') line
  if trimmed.length < line.length && trimmed.getLast? = some '\\' then
    trimmed.dropLast ++ [' ']
  else trimmed

/-- A leading mark: a backslash makes the next character an ordinary one, an
exclamation mark negates the rule. -/
def splitMark : List Char → Bool × List Char
  | '\\' :: rest => (false, rest)
  | '!' :: rest => (true, rest)
  | rest => (false, rest)

/-- Read one line of the ignore file in the directory `base`. Blank lines,
comments and lines that leave no pattern are no rules. A trailing slash means
directories only; a slash anywhere else anchors the rule. -/
def Rule.parse? (line base : List Char) : Option Rule :=
  let line := trimSpaces line
  if line.isEmpty || line.head? = some '#' then none
  else
    let (negated, marked) := splitMark line
    let directoryOnly := marked.getLast? = some '/'
    let body := dropLastIf '/' marked
    let anchored := body.contains '/'
    let pattern := dropFirstIf '/' body
    if pattern.isEmpty then none
    else some {
      pattern := String.ofList pattern
      negated
      directoryOnly
      anchored
      base := String.ofList (stripWhere (· == '/') base) }

/-- The part of a path that a rule looks at: what lies below its base. -/
def Rule.relative? (rule : Rule) (path : List Char) : Option (List Char) :=
  if rule.base.isEmpty then some path else below? rule.base.toList path

/-- Whether a rule matches a path. A rule that is not anchored may match any
tail of the path that begins at a segment. -/
def Rule.matches (rule : Rule) (path : List Char) (isDir : Bool) : Bool :=
  if rule.directoryOnly && !isDir then false
  else
    match rule.relative? path with
    | none => false
    | some relative =>
      if rule.anchored then Glob.matchPath rule.pattern.toList relative
      else (suffixes relative).any fun tail => Glob.matchPath rule.pattern.toList tail

end SymbolMap.Ignore
