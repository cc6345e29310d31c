import SymbolMap.Command.Run
import SymbolMap.Snapshot

/-! The program. The file system comes as a snapshot on standard input; settings
files that a command makes are written to the real one. -/
namespace SymbolMap.Main

/-- Everything on a stream. -/
partial def readAll (stream : IO.FS.Stream) (soFar : String) : IO String := do
  let line ← stream.getLine
  if line.isEmpty then return soFar else readAll stream (soFar ++ line)

/-- The directory that a settings command names. -/
def rootOf (args : List String) : String :=
  match Command.read args with
  | .invoke { request := .configInit _ _ (some path), .. } => path
  | _ => "."

/-- Write a text to a file of the real file system. -/
def write (path text : String) : IO Unit := do
  let dir := String.ofList (Path.ofSegments (Path.segments path.toList).dropLast)
  unless dir.isEmpty do IO.FS.createDirAll dir
  IO.FS.writeFile path text

/-- Run a command line on a workspace. -/
def run (workspace : Snapshot.Workspace) (args : List String) : IO UInt32 := do
  let (disk, outcome) := Command.runLine workspace.disk workspace.vars args
  for (path, text) in
      Snapshot.changes workspace.disk disk (Snapshot.writablePaths workspace (rootOf args)) do
    write path text
  IO.print outcome.stdout
  IO.eprint outcome.stderr
  return outcome.code.toUInt32

end SymbolMap.Main

/-- Run the command line on the snapshot from standard input. -/
def main (args : List String) : IO UInt32 := do
  let text ← SymbolMap.Main.readAll (← IO.getStdin) ""
  match SymbolMap.Snapshot.read? text.toList with
  | some workspace => SymbolMap.Main.run workspace args
  | none => do
    IO.eprintln "✗ the snapshot on standard input cannot be read"
    return 1
