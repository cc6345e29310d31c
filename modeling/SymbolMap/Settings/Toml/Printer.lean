import SymbolMap.Settings.Basic
import SymbolMap.Text.Quoted

/-! Settings as a TOML document. A string takes the first of its forms in
which it needs no escape, and arrays of two or more items take a line for
each. -/
namespace SymbolMap.Settings.Toml

open SymbolMap.Text

/-- The most occurrences of a character in a row, after `current` of them. -/
def longestRun (c : Char) (current : Nat) : List Char → Nat
  | [] => current
  | d :: s =>
    if d = c then longestRun c (current + 1) s else max current (longestRun c 0 s)

/-- Whether a character needs an escape in every form. -/
def isControl (c : Char) : Bool :=
  (c.toNat < 0x20 && c != '\t' && c != '\n') || c.toNat == 0x7F

/-- Four hexadecimal digits in capital letters. -/
def hexFour (n : Nat) : List Char :=
  let digits := (hex n).map Char.toUpper
  List.replicate (4 - digits.length) '0' ++ digits

/-- A character inside double quotes; over lines, a line feed stands for
itself. -/
def basicChar (multi : Bool) (c : Char) : List Char :=
  if c.toNat = 0x08 then ['\\', 'b']
  else if c = '\t' then ['\\', 't']
  else if c = '\n' then if multi then ['\n'] else ['\\', 'n']
  else if c.toNat = 0x0C then ['\\', 'f']
  else if c = '\r' then ['\\', 'r']
  else if c = '\\' then ['\\', '\\']
  else if c.toNat < 0x20 || c.toNat = 0x7F then ['\\', 'u'] ++ hexFour c.toNat
  else [c]

/-- A text inside double quotes. Over lines up to two quotes in a row stand
for themselves, otherwise none; `run` is the number of quotes just
written. -/
def basicBody (multi : Bool) (run : Nat) : List Char → List Char
  | [] => []
  | '"' :: s =>
    if multi && run < 2 then '"' :: basicBody multi (run + 1) s
    else ['\\', '"'] ++ basicBody multi 0 s
  | c :: s => basicChar multi c ++ basicBody multi 0 s

/-- A string between three quotes, on a line of its own if it has several. -/
def overLines (quote : Char) (body : List Char) (hasNewline : Bool) : List Char :=
  let mark := List.replicate 3 quote
  mark ++ (if hasNewline then ['\n'] else []) ++ body ++ mark

/-- A string in the first form that fits. -/
def printString (text : String) : String :=
  let s := text.toList
  let control := s.any isControl
  let backslash := s.contains '\\'
  let newline := s.contains '\n'
  let doubles := longestRun '"' 0 s
  let singles := longestRun '\x27' 0 s
  String.ofList <|
    if !control && !backslash && doubles = 0 && !newline then
      ['"'] ++ basicBody false 0 s ++ ['"']
    else if !control && singles = 0 && !newline then ['\x27'] ++ s ++ ['\x27']
    else if !control && !backslash && doubles ≤ 2 then
      overLines '"' (basicBody true 0 s) newline
    else if !control && singles ≤ 2 then overLines '\x27' s newline
    else if newline then overLines '"' (basicBody true 0 s) true
    else ['"'] ++ basicBody false 0 s ++ ['"']

/-- An array of strings. -/
def printStrings : List String → String
  | [] => "[]"
  | [item] => "[" ++ printString item ++ "]"
  | items => "[\n" ++ String.join (items.map fun item => "    " ++ printString item ++ ",\n") ++ "]"

end SymbolMap.Settings.Toml

namespace SymbolMap

open SymbolMap.Settings.Toml

/-- Settings as a document. -/
def Settings.toToml (settings : Settings) : String :=
  "version = " ++ printString settings.version ++ "\n\n[map]\nskip_patterns = " ++
    printStrings settings.map.skipPatterns ++ "\nline_limit = " ++
    toString settings.map.lineLimit ++ "\n\n[scan]\nignore_file = " ++
    printString settings.scan.ignoreFile ++ "\nskip_dirs = " ++
    printStrings settings.scan.skipDirs ++ "\nmax_file_size = " ++
    toString settings.scan.maxFileSize ++ "\n"

end SymbolMap
