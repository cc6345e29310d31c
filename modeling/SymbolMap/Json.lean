import SymbolMap.Text.Quoted

/-! JSON values and their indented text: two spaces a level, fields in the
order of the value, nothing between the brackets of an empty value. -/
namespace SymbolMap.Json

/-- The JSON values that reports are made of. -/
inductive Value where
  | str (text : String)
  | num (number : Int)
  | arr (items : List Value)
  | obj (fields : List (String × Value))

/-- A natural number as a value. -/
def Value.nat (n : Nat) : Value := .num (Int.ofNat n)

/-- A list of texts as a value. -/
def Value.strs (texts : List String) : Value := .arr (texts.map .str)

/-- The spaces in front of a line at some depth. -/
def indent (depth : Nat) : String := String.ofList (List.replicate (2 * depth) ' ')

/-- The members of a value on lines of their own between two brackets. -/
def bracket (opening closing : String) (depth : Nat) (members : List String) : String :=
  match members with
  | [] => opening ++ closing
  | _ =>
    opening ++ "\n" ++
      String.intercalate ",\n" (members.map fun member => indent (depth + 1) ++ member) ++
      "\n" ++ indent depth ++ closing

mutual

/-- The text of a value whose first line stands at some depth. -/
def Value.renderAt (depth : Nat) : Value → String
  | .str text => Text.jsonString text
  | .num number => toString number
  | .arr items => bracket "[" "]" depth (renderItems (depth + 1) items)
  | .obj fields => bracket "\x7b" "\x7d" depth (renderFields (depth + 1) fields)

/-- The texts of the items of an array. -/
def renderItems (depth : Nat) : List Value → List String
  | [] => []
  | item :: items => item.renderAt depth :: renderItems depth items

/-- The texts of the fields of an object. -/
def renderFields (depth : Nat) : List (String × Value) → List String
  | [] => []
  | (name, value) :: fields =>
    (Text.jsonString name ++ ": " ++ value.renderAt depth) :: renderFields depth fields

end

/-- The indented text of a value. -/
def Value.render (value : Value) : String := value.renderAt 0

end SymbolMap.Json
