import SymbolMap.Disk.Listing
import SymbolMap.Error
import SymbolMap.Path

/-! Files by path. A path is followed segment by segment, through links and
upwards: from the top of the file system if it begins with a slash, and else
from the working directory. Nothing lies above the top. -/
namespace SymbolMap

/-- A file system as a process sees it. -/
structure Disk where
  /-- The entries at the top. -/
  root : Listing := .nil
  /-- The names that lead from the top to the working directory. -/
  cwd : List String := []

namespace Disk

/-- The most links that are followed on one path. -/
def linkLimit : Nat := 40

/-- The most octets of one name. -/
def nameLimit : Nat := 255

/-- The most octets of a path. -/
def pathLimit : Nat := 4095

/-- What is wrong with a path before it is followed, if anything is. -/
def pathFault? (path : List Char) : Option Fault :=
  if path.any fun c => c.toNat == 0 then some .nulInPath
  else if pathLimit < Text.octetLength path then some .nameTooLong
  else none

/-- The segments of a path, for following it. An empty path leads nowhere. -/
def route? (path : String) : Option (List String) :=
  match path.toList with
  | [] => none
  | chars => some ((Path.segments chars).map String.ofList)

/-- The place at which following a path begins, when it is met at `here`. -/
def startOf (here : List String) (path : String) : List String :=
  match Path.isAbsolute path with
  | true => []
  | false => here

/-- What the last name of a path is wanted for. -/
inductive Ending where
  /-- The entry with that name, even if it is a link. -/
  | entry
  /-- What the name leads to, links followed. -/
  | target
  /-- A file where the name leads to, which may have to be made. -/
  | newFile
deriving DecidableEq

/-- Follow segments from the directory `here`. The result is the place
reached, by names alone, and what is there; only the last name may be
missing. No file is made under a name that slashes follow, since they ask for
a directory. -/
def resolve (disk : Disk) (ending : Ending) (links : Nat) (here todo : List String) :
    Except Fault (List String × Option Item) :=
  match todo with
  | [] => .ok (here, disk.root.at? here)
  | name :: rest =>
    match disk.root.at? here with
    | some (.dir listing) =>
      if name = "" || name = "." then resolve disk ending links here rest
      else if name = ".." then resolve disk ending links here.dropLast rest
      else if ending = .newFile && !rest.isEmpty && rest.all String.isEmpty then
        .error .isADirectory
      else if nameLimit < Text.octetLength name.toList then .error .nameTooLong
      else
        match listing.get? name with
        | none => if rest.isEmpty then .ok (here ++ [name], none) else .error .notFound
        | some (.link target) =>
          if rest.isEmpty && ending = .entry then .ok (here ++ [name], some (.link target))
          else
            match links, route? target with
            | 0, _ => .error .tooManyLinks
            | _, none => .error .notFound
            | links + 1, some onward =>
              resolve disk ending links (startOf here target) (onward ++ rest)
        | some _ => resolve disk ending links (here ++ [name]) rest
    | some (.file _) => .error .notADirectory
    | _ => .error .notFound
termination_by (links, todo.length)

/-- Follow a path to its place. -/
def locate (disk : Disk) (ending : Ending) (path : String) :
    Except Fault (List String × Option Item) :=
  match pathFault? path.toList, route? path with
  | some fault, _ => .error fault
  | none, none => .error .notFound
  | none, some segs => disk.resolve ending linkLimit (startOf disk.cwd path) segs

/-- What a path leads to, links followed. -/
def lookup (disk : Disk) (path : String) : Except Fault Item :=
  match disk.locate .target path with
  | .ok (_, some item) => .ok item
  | .ok (_, none) => .error .notFound
  | .error fault => .error fault

/-- Whether a path leads to something. -/
def isPresent (disk : Disk) (path : String) : Bool :=
  match disk.lookup path with
  | .ok _ => true
  | .error _ => false

/-- The entries of the directory that a path leads to. -/
def readDir (disk : Disk) (path : String) : Except Fault Listing :=
  match disk.lookup path with
  | .ok (.dir listing) => .ok listing
  | .ok _ => .error .notADirectory
  | .error fault => .error fault

/-- The file that a path leads to. -/
def file? (disk : Disk) (path : String) : Option Document :=
  match disk.lookup path with
  | .ok (.file doc) => some doc
  | _ => none

/-- Whether a path leads to a directory. -/
def isDir (disk : Disk) (path : String) : Bool :=
  match disk.lookup path with
  | .ok (.dir _) => true
  | _ => false

/-- Follow a path to the entry that its last name calls, whatever slashes
come after the name. A path of slashes alone has no name and leads to the
top. -/
def locateEntry (disk : Disk) (path : String) : Except Fault (List String × Option Item) :=
  match pathFault? path.toList with
  | some fault => .error fault
  | none =>
    match Path.withoutSlashes path.toList with
    | [] => disk.locate .entry path
    | bare => disk.locate .entry (String.ofList bare)

/-- Make one directory. Whatever is there already is a fault, a link too. -/
def makeDir (disk : Disk) (path : String) : Except Fault Disk :=
  match disk.locateEntry path with
  | .error fault => .error fault
  | .ok (_, some _) => .error .fileExists
  | .ok (place, none) => .ok { disk with root := disk.root.putAt (.dir .nil) place }

/-- Make the first of the directories at some paths, each of which lies in the
next; the others are made only where they are missing. A failure may come
after some were made, so there is a disk in either case. -/
def makeNested (disk : Disk) : List String → Disk × Except Fault Unit
  | [] => (disk, .ok ())
  | path :: outer =>
    match disk.makeDir path with
    | .ok made => (made, .ok ())
    | .error .notFound =>
      match makeNested disk outer with
      | (partly, .error fault) => (partly, .error fault)
      | (ready, .ok ()) =>
        match ready.makeDir path with
        | .ok made => (made, .ok ())
        | .error fault => if ready.isDir path then (ready, .ok ()) else (ready, .error fault)
    | .error fault => if disk.isDir path then (disk, .ok ()) else (disk, .error fault)

/-- Make the directories that a path runs through. -/
def makeParents (disk : Disk) (path : String) : Disk × Except Fault Unit :=
  disk.makeNested (Path.parents path)

/-- Make a directory and those that its path runs through. An empty path is
the place where one already is. -/
def makeDirs (disk : Disk) (path : String) : Disk × Except Fault Unit :=
  if path.isEmpty then (disk, .ok ()) else disk.makeNested (path :: Path.parents path)

/-- Give a file its contents. The directory has to be there; a link is
followed. -/
def writeFile (disk : Disk) (path : String) (doc : Document) : Except Fault Disk :=
  match disk.locate .newFile path with
  | .error fault => .error fault
  | .ok (_, some (.dir _)) => .error .isADirectory
  | .ok (place, _) => .ok { disk with root := disk.root.putAt (.file doc) place }

/-- Make a link. Whatever is there already is a fault, and so is a target
that is no path. -/
def makeLink (disk : Disk) (path target : String) : Except Fault Disk :=
  match pathFault? target.toList, disk.locate .entry path with
  | some fault, _ => .error fault
  | none, .error fault => .error fault
  | none, .ok (_, some _) => .error .fileExists
  | none, .ok (place, none) =>
    if target.isEmpty then .error .notFound
    else .ok { disk with root := disk.root.putAt (.link target) place }

/-- A change of the disk, which leaves the disk as it is when it fails. -/
def attempt (disk : Disk) : Except Fault Disk → Disk × Except Fault Unit
  | .ok changed => (changed, .ok ())
  | .error fault => (disk, .error fault)

/-- Put a file or a link at a path, once the directories above it are made. -/
def placeIn (disk : Disk) (path : String) (change : Disk → Except Fault Disk) :
    Disk × Except Fault Unit :=
  match disk.makeParents path with
  | (partly, .error fault) => (partly, .error fault)
  | (ready, .ok ()) => ready.attempt (change ready)

/-- Put an item at a path, with the directories above it. A failure may come
after some of these were made. -/
def place (disk : Disk) (path : String) : Item → Disk × Except Fault Unit
  | .dir _ => disk.makeDirs path
  | .file doc => disk.placeIn path (·.writeFile path doc)
  | .link target => disk.placeIn path (·.makeLink path target)

/-- Take away everything in the directory at a place. -/
def emptied (disk : Disk) (place : List String) : Disk :=
  { disk with root := if place.isEmpty then .nil else disk.root.putAt (.dir .nil) place }

/-- Whether a path ends in dots, so that its last name calls no entry. -/
def endsInDots (path : String) : Bool :=
  match (Path.segments (Path.withoutSlashes path.toList)).getLast? with
  | some ['.'] | some ['.', '.'] => true
  | _ => false

/-- Remove one directory. It has to be called by its own name, not through a
link or by dots, and the top of the file system stays. -/
def removeDir (disk : Disk) (path : String) : Except Fault Disk :=
  match disk.locateEntry path with
  | .error fault => .error fault
  | .ok (_, none) => .error .notFound
  | .ok (place, some (.dir _)) =>
    if endsInDots path then .error .invalidArgument
    else if place.isEmpty then .error .busy
    else .ok { disk with root := disk.root.eraseAt place }
  | .ok (_, some _) => .error .notADirectory

/-- Remove a file, a link, or a directory with all in it. A directory is
emptied first, and stays so when it cannot be removed itself. Its path may
have led through what was in it; that it leads nowhere afterwards is no
fault. -/
def remove (disk : Disk) (path : String) : Disk × Except Fault Unit :=
  match disk.locate .entry path with
  | .error fault => (disk, .error fault)
  | .ok (_, none) => (disk, .error .notFound)
  | .ok (place, some (.dir _)) =>
    let bare := disk.emptied place
    match bare.removeDir path with
    | .error .notFound => (bare, .ok ())
    | outcome => bare.attempt outcome
  | .ok (place, some _) => ({ disk with root := disk.root.eraseAt place }, .ok ())

end Disk

end SymbolMap
