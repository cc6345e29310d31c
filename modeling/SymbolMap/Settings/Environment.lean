import SymbolMap.Settings.Toml.Scalar
import SymbolMap.Text.Blank
import SymbolMap.Text.Utf8

/-! Settings from variables. The name of a variable gives the keys, and its
text is read as a value: truth values, numbers, quoted strings, arrays and
tables. Whatever does not read as one is the text itself. -/
namespace SymbolMap.Settings.Environment

open SymbolMap.Text SymbolMap.Settings.Toml

/-- The variables of a process. -/
abbrev Variables := List (String × String)

/-- What the names of variables for settings begin with, in whatever case. -/
def namePrefix : List Char := "codemap_".toList

/-- Put a dot for each pair of underscores, from the left. -/
def dots : List Char → List Char
  | '_' :: '_' :: s => '.' :: dots s
  | c :: s => c :: dots s
  | [] => []

/-- The keys that the name of a variable stands for. A name with an empty
key stands for none. -/
def keysOf? (name : String) : Option (List String) :=
  match afterLead namePrefix ((trim name.toList).map Char.toLower) with
  | none => none
  | some rest =>
    let keys := splitAt '.' (trim (dots rest))
    if keys.any (·.isEmpty) then none else some (keys.map String.ofList)

/-- Whether a character is a blank of ASCII. -/
def isAsciiBlank (c : Char) : Bool :=
  c == ' ' || c == '\t' || c == '\n' || c == '\r' || c.toNat == 0x0C

/-- Whether a character ends a value without quotes. -/
def isSeparator (c : Char) : Bool :=
  c == ',' || c == '\x7b' || c == '\x7d' || c == '[' || c == ']'

/-- Whether a text is a decimal fraction: digits with a point among or beside
them, and perhaps a sign and an exponent. -/
def isFraction (s : List Char) : Bool :=
  let body := (splitSign s).2
  let pieces := splitWhere (fun c => c == 'e' || c == 'E') body
  let exponentOk := match pieces with
    | [_] => true
    | [_, exponent] =>
      let digits := (splitSign exponent).2
      !digits.isEmpty && digits.all isDecimal
    | _ => false
  let mantissaOk := match splitAt '.' (pieces.head?.getD []) with
    | [whole, fraction] =>
      whole.all isDecimal && fraction.all isDecimal && !(whole.isEmpty && fraction.isEmpty)
    | _ => false
  exponentOk && mantissaOk

/-- An integer that fits into 64 bits, with a sign or without. -/
def wordInteger? (s : List Char) : Option Int :=
  let (negative, digits) := splitSign s
  if digits.isEmpty || !digits.all isDecimal then none
  else
    let n := numberOf 10 digits
    if negative then if n ≤ signedBound then some (-(Int.ofNat n)) else none
    else if n < wordCount then some (Int.ofNat n)
    else none

/-- The value of a text without quotes. -/
def bareValue (s : List Char) : Value :=
  let word := trim s
  if isFraction word then .float
  else
    match wordInteger? word with
    | some n => .int n
    | none => .str (String.ofList word)

/-- Skip blanks. -/
def skipBlanks (s : List Char) : List Char := s.dropWhile isAsciiBlank

/-- Whether a character may stand in a key without quotes. -/
def isKeyChar (c : Char) : Bool := c.isAlphanum || c == '_' || c == '-'

/-- Whether a character stands for itself in a quoted string. -/
def isUnescaped (c : Char) : Bool := c != '"' && c != '\\'

/-- Read a quoted string after its first quote, and what follows it. Of the
text before the first escape only as many octets are kept as it has
characters, so that beyond ASCII its end is lost. -/
def readQuoted? (s : List Char) : Option (List Char × List Char) :=
  (readLineString? '"' true s).map fun (text, after) =>
    let lead := s.takeWhile isUnescaped
    match s.dropWhile isUnescaped with
    | '\\' :: _ => (takeOctets lead.length lead ++ text.drop lead.length, after)
    | _ => (text, after)

/-- Read a key, with or without quotes, and the equals sign after it. -/
def readKey? (s : List Char) : Option (String × List Char) := do
  let (key, s) ← match skipBlanks s with
    | '"' :: rest => readQuoted? rest
    | s =>
      let key := s.takeWhile isKeyChar
      if key.isEmpty then none else some (key, s.dropWhile isKeyChar)
  match skipBlanks s with
  | '=' :: s => some (String.ofList key, s)
  | _ => none

mutual

/-- Read a value with the blanks around it, and what follows. Values nest no
deeper than the text is long, which is fuel enough. -/
def readValue? : Nat → List Char → Option (Value × List Char)
  | 0, _ => none
  | fuel + 1, s => do
    let s := skipBlanks s
    let (value, s) ←
      if let some s := afterLead "true".toList s then some (.bool true, s)
      else if let some s := afterLead "false".toList s then some (.bool false, s)
      else
        match s with
        | '\x7b' :: rest => (readPairs? fuel [] rest).map fun (fields, s) => (.table fields, s)
        | '[' :: rest => (readItems? fuel rest).map fun (items, s) => (.arr items, s)
        | '"' :: rest =>
          (readQuoted? rest).map fun (t, s) => (.str (String.ofList t), s)
        | '\x27' :: rest =>
          match rest with
          | c :: '\x27' :: s => some (.str (String.ofList [c]), s)
          | _ => none
        | s => some (bareValue (s.takeWhile (!isSeparator ·)), s.dropWhile (!isSeparator ·))
    some (value, skipBlanks s)

/-- Read the items of an array up to and with its closing bracket. -/
def readItems? : Nat → List Char → Option (List Value × List Char)
  | 0, _ => none
  | fuel + 1, s =>
    match s with
    | ']' :: s => some ([], s)
    | s => do
      let (item, s) ← readValue? fuel s
      match s with
      | ',' :: s =>
        let (items, s) ← readItems? fuel s
        some (item :: items, s)
      | ']' :: s => some ([item], s)
      | _ => none

/-- Read the fields of a table up to and with its closing brace. Of equal
keys the last counts. -/
def readPairs? : Nat → Fields → List Char → Option (Fields × List Char)
  | 0, _, _ => none
  | fuel + 1, fields, s =>
    match s with
    | '\x7d' :: s => some (fields, s)
    | s => do
      let (key, s) ← readKey? s
      let (value, s) ← readValue? fuel s
      let fields := setField key value fields
      match s with
      | ',' :: s => readPairs? fuel fields s
      | '\x7d' :: s => some (fields, s)
      | _ => none

end

/-- The value of the text of a variable. -/
def valueOf (text : String) : Value :=
  let s := text.toList
  match readValue? (2 * s.length + 2) s with
  | some (value, []) => value
  | _ => .str text

/-- The fields that variables set, one after the other. -/
def fieldsOf (vars : Variables) : Fields :=
  vars.foldl (fun fields (name, text) =>
    match keysOf? name with
    | some (key :: keys) => fieldsOver fields [(key, nest (valueOf text) keys)]
    | _ => fields) []

end SymbolMap.Settings.Environment
