import SymbolMap.Text.Split

/-! Command line arguments. Each level of a command has options, names for
its positional arguments, and further commands below it. Options may come
before and after positional arguments; two dashes end them. -/
namespace SymbolMap.Command

open SymbolMap.Text

/-- An option of a command. -/
structure OptionSpec where
  /-- The name after two dashes. -/
  long : String
  /-- The letter after one dash. -/
  short : Option Char := none
  /-- The option has a value. -/
  valued : Bool := false
  /-- The option may come more than once. -/
  repeatable : Bool := false
  /-- A number below zero can be the value, though it begins with a dash. -/
  negative : Bool := false
  /-- Which values are refused at once. -/
  refuses : String → Bool := fun _ => false

/-- One level of a command. -/
structure Level where
  options : List OptionSpec
  /-- The positional arguments, each with the values it refuses. -/
  positionals : List (String × (String → Bool)) := []
  subcommands : List String := []
  /-- The level tells the version. -/
  versioned : Bool := false

/-- The arguments found at one level: options and positional arguments by
name, in the order of the command line. A flag has an empty value. -/
abbrev Found := List (String × String)

/-- What the arguments of one level come to. -/
inductive Scanned where
  /-- The arguments are not in order. -/
  | refused
  | version
  | help
  | done (found : Found)
  /-- A further command follows, with its own arguments. -/
  | subcommand (found : Found) (name : String) (rest : List String)

/-- Whether digits look like a number: perhaps with a point that does not
come first, and perhaps with an exponent. -/
def looksNumeric (s : List Char) : Bool :=
  let isDigit (c : Char) : Bool := '0' ≤ c && c ≤ '9'
  let mantissaOk (m : List Char) : Bool :=
    match splitAt '.' m with
    | [whole] => whole.all isDigit
    | [whole, fraction] => !whole.isEmpty && whole.all isDigit && fraction.all isDigit
    | _ => false
  match splitAt 'e' s with
  | [m] => mantissaOk m
  | [m, exponent] =>
    !m.isEmpty && !exponent.isEmpty && mantissaOk m && exponent.all isDigit
  | _ => false

/-- Where the scan of one level is. -/
structure ScanState where
  found : Found := []
  /-- The number of positional arguments so far. -/
  count : Nat := 0
  /-- The option that waits for its value. -/
  pending : Option OptionSpec := none
  /-- Two dashes have been met. -/
  trailing : Bool := false

/-- Record an option. One that may come once only is refused the second
time. -/
def record? (state : ScanState) (spec : OptionSpec) (value : String) : Option ScanState :=
  if !spec.repeatable && state.found.any (·.1 == spec.long) then none
  else if spec.valued && spec.refuses value then none
  else some { state with found := state.found ++ [(spec.long, value)], pending := none }

/-- Record a positional argument, if another is expected. -/
def position? (level : Level) (state : ScanState) (value : String) : Option ScanState :=
  match level.positionals[state.count]? with
  | none => none
  | some (name, refuses) =>
    if refuses value then none
    else some { state with found := state.found ++ [(name, value)], count := state.count + 1 }

/-- What one argument does. -/
inductive Move where
  | refuse
  | tellVersion
  | tellHelp
  | go (state : ScanState)

/-- A move from a new state, if there is one. -/
def Move.ofState : Option ScanState → Move
  | some state => .go state
  | none => .refuse

/-- An option by its name, perhaps with a value after an equals sign. -/
def longMove (level : Level) (state : ScanState) (name : List Char)
    (attached : Option (List Char)) : Move :=
  match level.options.find? (·.long.toList == name), attached with
  | some spec, some value =>
    if spec.valued then .ofState (record? state spec (String.ofList value)) else .refuse
  | some spec, none =>
    if spec.valued then .go { state with pending := some spec }
    else .ofState (record? state spec "")
  | none, some _ => .refuse
  | none, none =>
    if name = "help".toList then .tellHelp
    else if name = "version".toList && level.versioned then .tellVersion
    else .refuse

/-- Options by their letters. A letter with a value takes the rest as such,
less an equals sign in front, or waits for the next argument. -/
def shortMove (level : Level) (state : ScanState) : List Char → Move
  | [] => .go state
  | c :: rest =>
    match level.options.find? (·.short == some c) with
    | some spec =>
      if !spec.valued then
        match record? state spec "" with
        | some state => shortMove level state rest
        | none => .refuse
      else if rest.isEmpty then .go { state with pending := some spec }
      else .ofState (record? state spec (String.ofList (dropFirstIf '=' rest)))
    | none =>
      if c = 'h' then .tellHelp
      else if c = 'V' && level.versioned then .tellVersion
      else .refuse

/-- One argument at a level, unless it is the name of a further command. An
option that waits takes what does not look like an option. -/
def argumentMove (level : Level) (state : ScanState) (arg : String) : Move :=
  if state.trailing then .ofState (position? level state arg)
  else
    match state.pending, arg.toList with
    | some spec, '-' :: c :: rest =>
      if spec.negative && c != '-' && looksNumeric (c :: rest) then
        .ofState (record? state spec arg)
      else .refuse
    | some spec, _ => .ofState (record? state spec arg)
    | none, ['-', '-'] => .go { state with trailing := true }
    | none, '-' :: '-' :: body =>
      match splitAt '=' body with
      | name :: value :: values => longMove level state name (some (joinWith '=' (value :: values)))
      | _ => longMove level state body none
    | none, '-' :: c :: rest => shortMove level state (c :: rest)
    | none, _ => .ofState (position? level state arg)

/-- Scan the arguments of one level. -/
def scan (level : Level) (state : ScanState) : List String → Scanned
  | [] => if state.pending.isSome then .refused else .done state.found
  | arg :: args =>
    if !state.trailing && state.pending.isNone && level.subcommands.contains arg then
      .subcommand state.found arg args
    else
      match argumentMove level state arg with
      | .refuse => .refused
      | .tellVersion => .version
      | .tellHelp => .help
      | .go state => scan level state args

/-- The last value of an option or positional argument. -/
def value? (found : Found) (name : String) : Option String :=
  ((found.filter (·.1 == name)).getLast?).map (·.2)

/-- All values of an option. -/
def values (found : Found) (name : String) : List String :=
  (found.filter (·.1 == name)).map (·.2)

/-- Whether a flag is set. -/
def isSet (found : Found) (name : String) : Bool := found.any (·.1 == name)

end SymbolMap.Command
