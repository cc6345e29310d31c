/-! Values as settings files and variables hold them, before anything is
known about their use. -/
namespace SymbolMap.Settings

/-- A value of a settings layer. -/
inductive Value where
  | str (text : String)
  | int (number : Int)
  /-- A number with a fraction or an exponent. No setting takes one, so its
  size is not kept. -/
  | float
  | bool (flag : Bool)
  | arr (items : List Value)
  | table (fields : List (String × Value))

/-- The count of numbers that fit into 64 bits. -/
def wordCount : Nat := 0x10000000000000000

/-- The bound of the signed numbers that fit into 64 bits. -/
def signedBound : Nat := 0x8000000000000000

/-- The fields of a table. -/
abbrev Fields := List (String × Value)

/-- Set one field. A field that is there keeps its place. -/
def setField (key : String) (value : Value) : Fields → Fields
  | [] => [(key, value)]
  | (k, v) :: fields =>
    if k = key then (key, value) :: fields else (k, v) :: setField key value fields

/-- The value of a field. -/
def field? (key : String) (fields : Fields) : Option Value := fields.lookup key

mutual

/-- A value with a later one over it. Tables merge field by field; anything
else is replaced. -/
def Value.over (earlier : Value) : Value → Value
  | .table later =>
    match earlier with
    | .table fields => .table (fieldsOver fields later)
    | _ => .table later
  | later => later

/-- Fields with later ones over them. -/
def fieldsOver (earlier : Fields) : Fields → Fields
  | [] => earlier
  | (key, value) :: later =>
    let merged := match field? key earlier with
      | some old => old.over value
      | none => value
    fieldsOver (setField key merged earlier) later

end

/-- The table that holds one value below a list of keys. -/
def nest (value : Value) : List String → Value
  | [] => value
  | key :: keys => .table [(key, nest value keys)]

end SymbolMap.Settings
