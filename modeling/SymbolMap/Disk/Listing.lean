import SymbolMap.SyntaxTree

/-! The contents of directories. Entries are kept in the order of their
names, which is the order in which they are walked. -/
namespace SymbolMap

/-- A stored file: its octets, and the syntax tree that the grammar of its
language gives for them. -/
structure Document where
  bytes : List UInt8
  tree : Node := default

/-- The contents of a file as text. -/
def Document.text (doc : Document) : List Char := Text.decode doc.bytes

/-- The number of octets of a file. -/
def Document.size (doc : Document) : Nat := doc.bytes.length

/-- A file with a text and no syntax tree. -/
def Document.ofText (text : String) : Document := { bytes := Text.encode text.toList }

/-- The entries of a directory, each directory with its own entries. -/
inductive Listing where
  | nil
  | file (name : String) (doc : Document) (rest : Listing)
  | dir (name : String) (below rest : Listing)
  | link (name target : String) (rest : Listing)

/-- What a name stands for. -/
inductive Item where
  | file (doc : Document)
  | dir (listing : Listing)
  | link (target : String)

namespace Listing

/-- An entry in front of others. -/
def cons (name : String) (item : Item) (rest : Listing) : Listing :=
  match item with
  | .file doc => .file name doc rest
  | .dir listing => .dir name listing rest
  | .link target => .link name target rest

/-- What a name stands for in a directory. -/
def get? (name : String) : Listing → Option Item
  | nil => none
  | file n doc rest => if n = name then some (.file doc) else rest.get? name
  | dir n below rest => if n = name then some (.dir below) else rest.get? name
  | link n target rest => if n = name then some (.link target) else rest.get? name

/-- Let a name stand for an item. -/
def put (name : String) (item : Item) : Listing → Listing
  | nil => cons name item nil
  | file n doc rest =>
    if n = name then cons name item rest
    else if name < n then cons name item (file n doc rest)
    else file n doc (rest.put name item)
  | dir n below rest =>
    if n = name then cons name item rest
    else if name < n then cons name item (dir n below rest)
    else dir n below (rest.put name item)
  | link n target rest =>
    if n = name then cons name item rest
    else if name < n then cons name item (link n target rest)
    else link n target (rest.put name item)

/-- Let a name stand for nothing. -/
def erase (name : String) : Listing → Listing
  | nil => nil
  | file n doc rest => if n = name then rest else file n doc (rest.erase name)
  | dir n below rest => if n = name then rest else dir n below (rest.erase name)
  | link n target rest => if n = name then rest else link n target (rest.erase name)

/-- What a list of names leads to, through directories only. -/
def at? (listing : Listing) : List String → Option Item
  | [] => some (.dir listing)
  | name :: names =>
    match listing.get? name with
    | some (.dir below) => below.at? names
    | some item => if names.isEmpty then some item else none
    | none => none

/-- Put an item where a list of names leads; the directories on the way have
to be there. -/
def putAt (listing : Listing) (item : Item) : List String → Listing
  | [] => listing
  | [name] => listing.put name item
  | name :: next :: names =>
    match listing.get? name with
    | some (.dir below) => listing.put name (.dir (below.putAt item (next :: names)))
    | _ => listing

/-- Remove what a list of names leads to. -/
def eraseAt (listing : Listing) : List String → Listing
  | [] => listing
  | [name] => listing.erase name
  | name :: next :: names =>
    match listing.get? name with
    | some (.dir below) => listing.put name (.dir (below.eraseAt (next :: names)))
    | _ => listing

end Listing

end SymbolMap
