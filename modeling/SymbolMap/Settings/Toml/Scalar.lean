import SymbolMap.Settings.Value
import SymbolMap.Text.Split

/-! The scalar values of a TOML document: strings in their four forms,
numbers, truth values and dates. -/
namespace SymbolMap.Settings.Toml

open SymbolMap.Text

/-- Whether a character may stand for itself in strings and comments: a tab,
or anything that is no control character. -/
def isTextChar (c : Char) : Bool :=
  c == '\t' || (0x20 ≤ c.toNat && c.toNat != 0x7F)

/-- The value of a hexadecimal digit. -/
def hexValue? (c : Char) : Option Nat :=
  if '0' ≤ c && c ≤ '9' then some (c.toNat - '0'.toNat)
  else if 'a' ≤ c && c ≤ 'f' then some (c.toNat - 'a'.toNat + 10)
  else if 'A' ≤ c && c ≤ 'F' then some (c.toNat - 'A'.toNat + 10)
  else none

/-- The character with a code point, if there is one. -/
def charOf? (code : Nat) : Option Char :=
  if code < 0xD800 || (0xDFFF < code && code < 0x110000) then some (Char.ofNat code) else none

/-- What a backslash and one character stand for. -/
def escaped? (c : Char) : Option Char :=
  match c with
  | 'b' => some (Char.ofNat 0x08)
  | 't' => some '\t'
  | 'n' => some '\n'
  | 'f' => some (Char.ofNat 0x0C)
  | 'r' => some '\r'
  | '"' => some '"'
  | '\\' => some '\\'
  | _ => none

/-- The form of a string: its quote, whether it may span lines, and whether
a backslash begins an escape. -/
structure StringForm where
  quote : Char
  multi : Bool
  escapes : Bool

/-- Where one is inside a string. -/
inductive StringState where
  | plain
  /-- After this many quotes in a row. -/
  | quotes (count : Nat)
  /-- After a carriage return, which needs a line feed. -/
  | feed
  /-- After a backslash. -/
  | escape
  /-- Inside a code point, with the digits still to come and the value so far. -/
  | code (left value : Nat)
  /-- After a backslash and blanks, on the way to the end of the line. -/
  | gap
  /-- After a carriage return at the end of such a line. -/
  | gapFeed
  /-- On the blanks and empty lines after the end of such a line. -/
  | skip

/-- What one character does inside a string. -/
inductive StringMove where
  | fail
  /-- Add some text and go on. -/
  | go (text : List Char) (next : StringState)
  /-- The string ended before this character, with some text added. -/
  | stop (text : List Char)

/-- One character of ordinary text. -/
def plainMove (form : StringForm) (c : Char) : StringMove :=
  if c = form.quote then .go [] (.quotes 1)
  else if c = '\\' && form.escapes then .go [] .escape
  else if c = '\n' && form.multi then .go ['\n'] .plain
  else if c = '\r' && form.multi then .go [] .feed
  else if isTextChar c then .go [c] .plain
  else .fail

/-- One character after a backslash. -/
def escapeMove (form : StringForm) (c : Char) : StringMove :=
  if c = 'u' then .go [] (.code 4 0)
  else if c = 'U' then .go [] (.code 8 0)
  else
    match escaped? c with
    | some d => .go [d] .plain
    | none =>
      if !form.multi then .fail
      else if c = ' ' || c = '\t' then .go [] .gap
      else if c = '\n' then .go [] .skip
      else if c = '\r' then .go [] .gapFeed
      else .fail

/-- One character of a string. Three quotes end a form that spans lines, and
up to two more before them are text. -/
def stringMove (form : StringForm) (state : StringState) (c : Char) : StringMove :=
  match state with
  | .plain => plainMove form c
  | .quotes count =>
    if !form.multi then .stop []
    else if c = form.quote then if count < 5 then .go [] (.quotes (count + 1)) else .fail
    else if 3 ≤ count then .stop (List.replicate (count - 3) form.quote)
    else
      match plainMove form c with
      | .go text next => .go (List.replicate count form.quote ++ text) next
      | move => move
  | .feed => if c = '\n' then .go ['\n'] .plain else .fail
  | .escape => escapeMove form c
  | .code left value =>
    match hexValue? c with
    | none => .fail
    | some digit =>
      let value := value * 16 + digit
      if 1 < left then .go [] (.code (left - 1) value)
      else
        match charOf? value with
        | some d => .go [d] .plain
        | none => .fail
  | .gap =>
    if c = ' ' || c = '\t' then .go [] .gap
    else if c = '\n' then .go [] .skip
    else if c = '\r' then .go [] .gapFeed
    else .fail
  | .gapFeed => if c = '\n' then .go [] .skip else .fail
  | .skip =>
    if c = ' ' || c = '\t' || c = '\n' then .go [] .skip
    else if c = '\r' then .go [] .gapFeed
    else plainMove form c

/-- The text of a string that ends with the document. -/
def stringEnd? (form : StringForm) : StringState → Option (List Char)
  | .quotes count =>
    if !form.multi then some []
    else if 3 ≤ count then some (List.replicate (count - 3) form.quote)
    else none
  | _ => none

/-- Read the rest of a string, and what follows it. -/
def readString (form : StringForm) (state : StringState) :
    List Char → Option (List Char × List Char)
  | [] => (stringEnd? form state).map (·, [])
  | c :: s =>
    match stringMove form state c with
    | .fail => none
    | .stop text => some (text, c :: s)
    | .go text next => (readString form next s).map fun (rest, after) => (text ++ rest, after)

/-- A text without one line end at its start. -/
def dropNewline : List Char → List Char
  | '\n' :: s => s
  | '\r' :: '\n' :: s => s
  | s => s

/-- Read a string on one line, as a key or a value may be. -/
def readLineString? (quote : Char) (escapes : Bool) (s : List Char) :
    Option (List Char × List Char) :=
  readString { quote, multi := false, escapes } .plain s

/-- Read a string in any form, after its first quote. -/
def readAnyString? (quote : Char) (escapes : Bool) (s : List Char) :
    Option (List Char × List Char) :=
  match afterLead [quote, quote] s with
  | some body => readString { quote, multi := true, escapes } .plain (dropNewline body)
  | none => readLineString? quote escapes s

/-- Digits without the underscores between them. -/
def ungroup? (isDigit : Char → Bool) (s : List Char) : Option (List Char) :=
  let groups := splitAt '_' s
  if groups.all fun group => !group.isEmpty && group.all isDigit then some groups.flatten
  else none

/-- Whether a character is a decimal digit. -/
def isDecimal (c : Char) : Bool := '0' ≤ c && c ≤ '9'

/-- The number that digits stand for in a base. -/
def numberOf (base : Nat) (digits : List Char) : Nat :=
  digits.foldl (fun n c => n * base + (hexValue? c).getD 0) 0

/-- Decimal digits without a needless zero in front. -/
def decimalDigits? (s : List Char) : Option (List Char) :=
  match ungroup? isDecimal s with
  | some ('0' :: _ :: _) => none
  | digits => digits

/-- A sign, and what follows it. -/
def splitSign : List Char → Bool × List Char
  | '-' :: s => (true, s)
  | '+' :: s => (false, s)
  | s => (false, s)

/-- Whether a signed number fits into 64 bits. -/
def fitsWord (n : Int) : Bool := -(signedBound : Int) ≤ n && n < signedBound

/-- An integer in a base that a letter after a zero names. -/
def basedInteger? (base : Nat) (isDigit : Char → Bool) (s : List Char) : Option Int :=
  (ungroup? isDigit s).map fun digits => Int.ofNat (numberOf base digits)

/-- An integer. -/
def integer? (s : List Char) : Option Int :=
  let number := match s with
    | '0' :: 'x' :: digits => basedInteger? 16 (fun c => (hexValue? c).isSome) digits
    | '0' :: 'o' :: digits => basedInteger? 8 (fun c => '0' ≤ c && c ≤ '7') digits
    | '0' :: 'b' :: digits => basedInteger? 2 (fun c => c == '0' || c == '1') digits
    | _ =>
      let (negative, digits) := splitSign s
      (decimalDigits? digits).map fun digits =>
        let n := Int.ofNat (numberOf 10 digits)
        if negative then -n else n
  number.filter fitsWord

/-- The least number that is too large for a floating-point number of 64 bits:
half a step above the largest. -/
def floatBound : Nat := Nat.pow 2 1024 - Nat.pow 2 970

/-- The number of decimal digits of `floatBound`. -/
def floatDigits : Nat := 309

/-- Whether digits, of which `whole` come before the point, times a power of
ten reach the bound. The place of the first digit that counts decides, unless
it is that of the bound. -/
def reachesBound (digits : List Char) (whole exponent : Int) : Bool :=
  let zeros := (digits.takeWhile (· == '0')).length
  let counting := digits.drop zeros
  let place := whole - zeros + exponent
  if counting.isEmpty || place < floatDigits then false
  else if (floatDigits : Int) < place then true
  else
    floatBound * Nat.pow 10 (counting.length - floatDigits) ≤
      numberOf 10 counting * Nat.pow 10 (floatDigits - counting.length)

/-- Whether a text is a number with a fraction, an exponent, or both. -/
def isFloat (s : List Char) : Bool :=
  let body := (splitSign s).2
  if body = "inf".toList || body = "nan".toList then true
  else
    let pieces := splitWhere (fun c => c == 'e' || c == 'E') body
    let exponentOk := match pieces with
      | [_] => true
      | [_, exponent] => (ungroup? isDecimal (splitSign exponent).2).isSome
      | _ => false
    let mantissa := splitAt '.' (pieces.head?.getD [])
    let mantissaOk := match mantissa with
      | [whole] => pieces.length == 2 && (decimalDigits? whole).isSome
      | [whole, fraction] => (decimalDigits? whole).isSome && (ungroup? isDecimal fraction).isSome
      | _ => false
    exponentOk && mantissaOk

/-- Whether a number with a fraction or an exponent is too large to be held.
One below zero never counts as such. -/
def isInfinite (s : List Char) : Bool :=
  let (negative, body) := splitSign s
  match splitWhere (fun c => c == 'e' || c == 'E') (body.filter (· != '_')) with
  | [] => false
  | mantissa :: exponents =>
    let (below, power) := splitSign (exponents.head?.getD [])
    let exponent := Int.ofNat (numberOf 10 power)
    let whole := mantissa.takeWhile (· != '.')
    !negative && reachesBound (mantissa.filter isDecimal) whole.length
      (if below then -exponent else exponent)

/-- The number that two digits stand for. -/
def pair? (a b : Char) : Option Nat :=
  if isDecimal a && isDecimal b then some (numberOf 10 [a, b]) else none

/-- The days of a month. -/
def daysIn (year month : Nat) : Nat :=
  if month = 2 then
    if year % 4 = 0 && (year % 100 != 0 || year % 400 = 0) then 29 else 28
  else if [4, 6, 9, 11].contains month then 30
  else 31

/-- Whether characters form a number of two digits between bounds. -/
def pairIn (low high : Nat) (a b : Char) : Bool :=
  match pair? a b with
  | some n => low ≤ n && n ≤ high
  | none => false

/-- What follows a date, if the text begins with one. -/
def afterDate? : List Char → Option (List Char)
  | y₁ :: y₂ :: y₃ :: y₄ :: '-' :: m₁ :: m₂ :: '-' :: d₁ :: d₂ :: s =>
    if [y₁, y₂, y₃, y₄].all isDecimal && pairIn 1 12 m₁ m₂ then
      let days := daysIn (numberOf 10 [y₁, y₂, y₃, y₄]) (numberOf 10 [m₁, m₂])
      if pairIn 1 days d₁ d₂ then some s else none
    else none
  | _ => none

/-- What follows a time of day, if the text begins with one. -/
def afterTime? : List Char → Option (List Char)
  | h₁ :: h₂ :: ':' :: m₁ :: m₂ :: ':' :: s₁ :: s₂ :: s =>
    if pairIn 0 23 h₁ h₂ && pairIn 0 59 m₁ m₂ && pairIn 0 60 s₁ s₂ then
      match s with
      | '.' :: d :: s => if isDecimal d then some (s.dropWhile isDecimal) else none
      | s => some s
    else none
  | _ => none

/-- Whether a text is a distance from universal time, or empty. -/
def isOffset : List Char → Bool
  | [] => true
  | ['Z'] | ['z'] => true
  | [sign, h₁, h₂, ':', m₁, m₂] =>
    (sign == '+' || sign == '-') && pairIn 0 23 h₁ h₂ && pairIn 0 59 m₁ m₂
  | _ => false

/-- Whether a text is a date. -/
def isDate (s : List Char) : Bool := afterDate? s == some []

/-- Whether a text is a date, a time, or both. -/
def isDateTime (s : List Char) : Bool :=
  match afterDate? s with
  | some [] => true
  | some (mark :: time) =>
    (mark == 'T' || mark == 't') && ((afterTime? time).map isOffset).getD false
  | none => afterTime? s == some []

/-- A date as a value: a table with its text. No setting is a date, and to a
section it is a table without known fields. -/
def dateValue (s : List Char) : Value := .table [("date", .str (String.ofList s))]

/-- Whether a character may belong to a value without quotes. -/
def isTokenChar (c : Char) : Bool :=
  c.isAlphanum || c == '_' || c == '+' || c == '-' || c == '.' || c == ':'

/-- The value that a word without quotes stands for. -/
def wordValue? (word : List Char) : Option Value :=
  if word = "true".toList then some (.bool true)
  else if word = "false".toList then some (.bool false)
  else
    match integer? word with
    | some n => some (.int n)
    | none =>
      if isFloat word then if isInfinite word then none else some .float
      else if isDateTime word then some (dateValue word)
      else none

/-- Read a value without quotes. A blank may stand between a date and a
time. -/
def readWord? (s : List Char) : Option (Value × List Char) :=
  let word := s.takeWhile isTokenChar
  let after := s.dropWhile isTokenChar
  match after with
  | ' ' :: c :: more =>
    if isDate word && isDecimal c then
      let time := (c :: more).takeWhile isTokenChar
      (wordValue? (word ++ 'T' :: time)).map (·, (c :: more).dropWhile isTokenChar)
    else (wordValue? word).map (·, after)
  | _ => (wordValue? word).map (·, after)

end SymbolMap.Settings.Toml
