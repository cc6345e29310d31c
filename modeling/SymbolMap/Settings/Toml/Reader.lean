import SymbolMap.Settings.Toml.Scalar
import SymbolMap.Settings.Toml.Table

/-! Reading TOML documents. A document that breaks a rule of the format has
no value; which rule it breaks is not said. -/
namespace SymbolMap.Settings.Toml

open SymbolMap.Text

/-- A text without blanks at its start that are no line ends. -/
def skipBlanks (s : List Char) : List Char := s.dropWhile fun c => c == ' ' || c == '\t'

/-- What follows a comment up to and with the end of its line. -/
def afterComment? : List Char → Option (List Char)
  | [] => some []
  | '\n' :: s => some s
  | '\r' :: '\n' :: s => some s
  | c :: s => if isTextChar c then afterComment? s else none

/-- What follows the rest of a line that may hold only blanks and a
comment. -/
def afterLine? (s : List Char) : Option (List Char) :=
  match skipBlanks s with
  | [] => some []
  | '\n' :: s => some s
  | '\r' :: '\n' :: s => some s
  | '#' :: s => afterComment? s
  | _ => none

/-- What follows blanks, line ends and comments; `inComment` says whether one
is inside a comment. -/
def skipLayout (inComment : Bool) : List Char → Option (List Char)
  | [] => some []
  | '\n' :: s => skipLayout false s
  | '\r' :: '\n' :: s => skipLayout false s
  | c :: s =>
    if inComment then if isTextChar c then skipLayout true s else none
    else if c = ' ' || c = '\t' then skipLayout false s
    else if c = '#' then skipLayout true s
    else some (c :: s)

/-- Whether a character may stand in a key without quotes. -/
def isBareChar (c : Char) : Bool := c.isAlphanum || c == '_' || c == '-'

/-- Read one key, with or without quotes. -/
def readKey? (s : List Char) : Option (String × List Char) :=
  match s with
  | '"' :: rest => (readLineString? '"' true rest).map fun (key, s) => (String.ofList key, s)
  | '\x27' :: rest => (readLineString? '\x27' false rest).map fun (key, s) => (String.ofList key, s)
  | _ =>
    let key := s.takeWhile isBareChar
    if key.isEmpty then none else some (String.ofList key, s.dropWhile isBareChar)

/-- The most keys with dots between them, and the most arrays and tables
inside each other. -/
def depthLimit : Nat := 79

/-- Read keys with dots between them: all but the last, the last, and what
follows. Each key takes at least one character, so the length of the text is
fuel enough. -/
def readManyKeys? : Nat → List Char → Option (List String × String × List Char)
  | 0, _ => none
  | fuel + 1, s => do
    let (key, s) ← readKey? s
    let after := skipBlanks s
    match after with
    | '.' :: s =>
      let (keys, last, s) ← readManyKeys? fuel (skipBlanks s)
      some (key :: keys, last, s)
    | _ => some ([], key, after)

/-- Read keys with dots between them, unless they are too many. -/
def readKeys? (fuel : Nat) (s : List Char) : Option (List String × String × List Char) :=
  (readManyKeys? fuel s).filter fun (keys, _, _) => keys.length < depthLimit

/-- Read keys and the equals sign after them. -/
def readKeysEquals? (fuel : Nat) (s : List Char) :
    Option (List String × String × List Char) := do
  let (keys, key, s) ← readKeys? fuel s
  match s with
  | '=' :: s => some (keys, key, skipBlanks s)
  | _ => none

mutual

/-- Read a value, and what follows it. At most `levels` arrays and tables may
lie inside each other. A value takes at least one character for each level, so
the length of the text is fuel enough. -/
def readValue? : Nat → Nat → List Char → Option (Value × List Char)
  | 0, _, _ => none
  | fuel + 1, levels, s =>
    match s, levels with
    | '"' :: rest, _ => (readAnyString? '"' true rest).map fun (t, s) => (.str (String.ofList t), s)
    | '\x27' :: rest, _ =>
      (readAnyString? '\x27' false rest).map fun (t, s) => (.str (String.ofList t), s)
    | '[' :: _, 0 => none
    | '[' :: rest, levels + 1 => (readItems? fuel levels rest).map fun (items, s) => (.arr items, s)
    | '\x7b' :: _, 0 => none
    | '\x7b' :: rest, levels + 1 =>
      match skipBlanks rest with
      | '\x7d' :: s => some (.table [], s)
      | s => (readPairs? fuel levels .nil s).map fun (entries, s) => (.table entries.toFields, s)
    | _, _ => readWord? s

/-- Read the items of an array up to and with its closing bracket. -/
def readItems? : Nat → Nat → List Char → Option (List Value × List Char)
  | 0, _, _ => none
  | fuel + 1, levels, s => do
    let s ← skipLayout false s
    match s with
    | ']' :: s => some ([], s)
    | s =>
      let (item, s) ← readValue? fuel levels s
      let s ← skipLayout false s
      match s with
      | ',' :: s =>
        let (items, s) ← readItems? fuel levels s
        some (item :: items, s)
      | ']' :: s => some ([item], s)
      | _ => none

/-- Read the fields of a table on one line up to and with its closing
brace. -/
def readPairs? : Nat → Nat → Entries → List Char → Option (Entries × List Char)
  | 0, _, _, _ => none
  | fuel + 1, levels, entries, s => do
    let (keys, key, s) ← readKeysEquals? fuel s
    let (value, s) ← readValue? fuel levels s
    let entries ← entries.addDotted keys key value .header
    match skipBlanks s with
    | ',' :: s => readPairs? fuel levels entries (skipBlanks s)
    | '\x7d' :: s => some (entries, s)
    | _ => none

end

/-- A document as read so far: the table that the last header opened, and all
entries. -/
structure State where
  header : List String := []
  entries : Entries := .nil

/-- Read the keys of a header up to the brackets that close it. -/
def readHeader? (fuel : Nat) (closing s : List Char) :
    Option (List String × String × List Char) := do
  let (keys, key, s) ← readKeys? fuel (skipBlanks s)
  let s ← afterLead closing s
  some (keys, key, s)

/-- Read what one line begins: a header, or keys with a value. -/
def readExpression? (fuel : Nat) (state : State) (s : List Char) :
    Option (State × List Char) :=
  match s with
  | '[' :: '[' :: rest => do
    let (keys, key, s) ← readHeader? fuel [']', ']'] rest
    let entries ← Entries.within .implied (fun _ inner => inner.pushTable key) .header keys
      state.entries
    some ({ header := keys ++ [key], entries }, s)
  | '[' :: rest => do
    let (keys, key, s) ← readHeader? fuel [']'] rest
    let entries ← Entries.within .implied (fun _ inner => inner.openTable key) .header keys
      state.entries
    some ({ header := keys ++ [key], entries }, s)
  | _ => do
    let (keys, key, s) ← readKeysEquals? fuel s
    let (value, s) ← readValue? fuel depthLimit s
    let entries ← Entries.within .implied (fun origin inner =>
      inner.addDotted keys key value origin) .header state.header state.entries
    some ({ state with entries }, s)

/-- Read the lines of a document. Each line takes at least one character, so
the length of the text is fuel enough. -/
def readLines? : Nat → State → List Char → Option State
  | 0, _, _ => none
  | fuel + 1, state, s =>
    match skipBlanks s with
    | [] => some state
    | '\n' :: s => readLines? fuel state s
    | '\r' :: '\n' :: s => readLines? fuel state s
    | '#' :: s => do readLines? fuel state (← afterComment? s)
    | s => do
      let (state, s) ← readExpression? (fuel + 1) state s
      readLines? fuel state (← afterLine? s)

/-- The mark that may stand before a text to tell its encoding. -/
def orderMark : Char := Char.ofNat 0xFEFF

/-- The fields of a document. -/
def read? (text : List Char) : Option Fields :=
  let s := dropFirstIf orderMark text
  (readLines? (s.length + 1) {} s).map (·.entries.toFields)

end SymbolMap.Settings.Toml
