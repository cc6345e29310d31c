/-! How many lines a map may take. -/
namespace SymbolMap.Plan

/-- The number of lines granted when a setting leaves it open. -/
def defaultLineLimit : Nat := 1000

/-- The lines that one map may take. -/
inductive Budget where
  | unlimited
  | lines (count : Nat)
deriving Repr, DecidableEq

/-- The budget that a limit setting means: zero asks for the default and a
negative number for no limit. -/
def Budget.ofLimit (limit : Int) : Budget :=
  if limit = 0 then .lines defaultLineLimit
  else if limit < 0 then .unlimited
  else .lines limit.toNat

/-- The bound of a budget, if it has one. -/
def Budget.limit? : Budget → Option Nat
  | .unlimited => none
  | .lines count => some count

/-- Whether a budget grants this many lines. -/
def Budget.allows : Budget → Nat → Bool
  | .unlimited, _ => true
  | .lines count, n => n ≤ count

/-- A budget in words. -/
def Budget.describe : Budget → String
  | .unlimited => "unlimited"
  | .lines count => toString count ++ " lines"

end SymbolMap.Plan
