import SymbolMap.Settings.Value

/-! Building the tables of a TOML document. A table may be opened once by a
header; a table that only lies on the way to another may still be opened
later; a table that dotted keys began can only be continued by dotted keys. -/
namespace SymbolMap.Settings.Toml

/-- How a table came to be. -/
inductive Origin where
  /-- A header opened it. -/
  | header
  /-- It lies on the way to a table that a header opened. -/
  | implied
  /-- Dotted keys began it. -/
  | dotted
deriving Repr, DecidableEq

/-- The entries of a table that is being built. -/
inductive Entries where
  | nil
  | value (key : String) (v : Value) (rest : Entries)
  | table (key : String) (origin : Origin) (inner rest : Entries)
  /-- A list of tables, of which the last can still grow. -/
  | tables (key : String) (done : List Value) (last rest : Entries)

namespace Entries

/-- The entries as fields. -/
def toFields : Entries → Fields
  | nil => []
  | value key v rest => (key, v) :: rest.toFields
  | table key _ inner rest => (key, .table inner.toFields) :: rest.toFields
  | tables key done last rest => (key, .arr (done ++ [.table last.toFields])) :: rest.toFields

/-- A change inside a table, which may be refused. -/
abbrev Change := Origin → Entries → Option Entries

/-- New tables below each other, with a change in the innermost. -/
def fresh (created : Origin) (change : Change) : List String → Option Entries
  | [] => change created nil
  | key :: keys => (fresh created change keys).map fun inner => table key created inner nil

/-- Change the table that keys lead to from a table of some origin. Missing
tables appear as `created`. A plain value cannot be entered, and dotted keys
cannot enter a table that a header opened. -/
def within (created : Origin) (change : Change) (here : Origin) :
    List String → Entries → Option Entries
  | [], entries => change here entries
  | keys, nil => fresh created change keys
  | key :: keys, value k v rest =>
    if k = key then none
    else (within created change here (key :: keys) rest).map (value k v)
  | key :: keys, table k origin inner rest =>
    if k = key then
      if created = .dotted && origin = .header then none
      else (within created change origin keys inner).map fun inner => table k origin inner rest
    else (within created change here (key :: keys) rest).map (table k origin inner)
  | key :: keys, tables k done last rest =>
    if k = key then
      (within created change .header keys last).map fun last => tables k done last rest
    else (within created change here (key :: keys) rest).map (tables k done last)

/-- Add a value under a key that is not there yet. -/
def add (key : String) (v : Value) : Entries → Option Entries
  | nil => some (value key v nil)
  | value k w rest => if k = key then none else (rest.add key v).map (value k w)
  | table k origin inner rest => if k = key then none else (rest.add key v).map (table k origin inner)
  | tables k done last rest => if k = key then none else (rest.add key v).map (tables k done last)

/-- Add a value under dotted keys. All but the last name tables that dotted
keys began. -/
def addDotted (keys : List String) (key : String) (v : Value) (here : Origin)
    (entries : Entries) : Option Entries :=
  let change : Change := fun origin inner =>
    if keys.isEmpty || origin = .dotted then inner.add key v else none
  within .dotted change here keys entries

/-- Open a table by a header. -/
def openTable (key : String) : Entries → Option Entries
  | nil => some (table key .header nil nil)
  | value k v rest => if k = key then none else (rest.openTable key).map (value k v)
  | table k origin inner rest =>
    if k = key then if origin = .implied then some (table k .header inner rest) else none
    else (rest.openTable key).map (table k origin inner)
  | tables k done last rest =>
    if k = key then none else (rest.openTable key).map (tables k done last)

/-- Begin the next table of a list by a header. -/
def pushTable (key : String) : Entries → Option Entries
  | nil => some (tables key [] nil nil)
  | value k v rest => if k = key then none else (rest.pushTable key).map (value k v)
  | table k origin inner rest =>
    if k = key then none else (rest.pushTable key).map (table k origin inner)
  | tables k done last rest =>
    if k = key then some (tables k (done ++ [.table last.toFields]) nil rest)
    else (rest.pushTable key).map (tables k done last)

end Entries

end SymbolMap.Settings.Toml
