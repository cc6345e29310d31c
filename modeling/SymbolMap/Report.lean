import SymbolMap.Outline.OfLanguage
import SymbolMap.Plan.Basic

/-! The map of indexed files: planned by the lines that each file takes, and
written as text or as JSON. -/
namespace SymbolMap

/-- A source file with its outline. -/
structure FileOutline where
  path : String
  language : Language
  outline : Outline
deriving Repr, DecidableEq

namespace FileOutline

/-- The lines that a file takes besides its declarations: a header and a
blank. -/
def overheadLines : Nat := 2

/-- The lines that a file takes in a map. Without declarations it is not
shown. -/
def cost (file : FileOutline) : Nat :=
  if file.outline.symbols.isEmpty then 0 else file.outline.symbols.length + overheadLines

/-- What planning has to know of a file. -/
def record (file : FileOutline) : Plan.Record := { path := file.path, cost := file.cost }

end FileOutline

namespace Report

open SymbolMap.Plan

/-- Plan the map of some files. -/
def planMap (files : List FileOutline) (options : Options) : MapPlan :=
  plan (files.map (·.record)) options

/-- The text of a map that shows nothing and hides nothing. -/
def emptyText : String := "No symbols found in the specified directory."

/-- The line in place of a file that a skip pattern covers. -/
def skippedNotice : String :=
  "  (skipped by default - use filter parameter to index this path explicitly)\n"

/-- The line in place of a file in a truncated directory. -/
def truncatedNotice : String :=
  "  (truncated to fit line limit - use filter parameter to view this directory)\n"

/-- What was cut to fit the budget, if anything was. -/
def notice (plan : MapPlan) : String :=
  if plan.pruned then
    "# Note: Output pruned to fit line limit\n" ++
      (if plan.truncatedDirs.isEmpty then ""
        else "# Pruned directories: " ++ String.intercalate ", " plan.truncatedDirs ++ "\n") ++
      (if plan.dropped.isEmpty then ""
        else "# Omitted files: " ++ toString plan.dropped.length ++ "\n") ++
      "\n"
  else ""

/-- The declarations of the file that an entry shows. -/
def entrySymbols (files : List FileOutline) (entry : Entry) : List Symbol :=
  match entry.status, files[entry.index]? with
  | .full, some file => file.outline.symbols
  | _, _ => []

/-- The lines below the header of an entry. -/
def entryBody (files : List FileOutline) (entry : Entry) : String :=
  match entry.status with
  | .full => String.join ((entrySymbols files entry).map fun symbol => symbol.render ++ "\n")
  | .truncated => truncatedNotice
  | .skipped => skippedNotice

/-- One entry of a map. -/
def entryText (files : List FileOutline) (entry : Entry) : String :=
  "## " ++ entry.path ++ "\n" ++ entryBody files entry ++ "\n"

/-- A plan as text. The files are those that were planned. -/
def text (files : List FileOutline) (plan : MapPlan) : String :=
  if plan.isEmpty && !plan.pruned then emptyText
  else notice plan ++ String.join (plan.entries.map (entryText files))

/-- One entry of a map as JSON. Without declarations there is no such
field. -/
def entryJson (files : List FileOutline) (entry : Entry) : Json.Value :=
  let symbols := entrySymbols files entry
  .obj ([("path", .str entry.path), ("status", .str entry.status.word)] ++
    if symbols.isEmpty then [] else [("symbols", .arr (symbols.map Symbol.toJson))])

/-- A plan as JSON. -/
def toJson (files : List FileOutline) (plan : MapPlan) : Json.Value :=
  .obj [("entries", .arr (plan.entries.map (entryJson files))),
    ("truncated_dirs", .strs plan.truncatedDirs), ("dropped", .strs plan.dropped),
    ("total_lines", .nat plan.totalCost)]

end Report

end SymbolMap
