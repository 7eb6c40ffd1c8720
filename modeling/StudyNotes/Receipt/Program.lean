import Mathlib.Data.List.Basic

namespace StudyNotes.Receipt.Program

structure DP where
  value : Int
  selectValue : Int
deriving DecidableEq, Repr

/-- The global table, of MAX_V + 1 cells. -/
abbrev Table (maxV : Nat) := Vector DP (maxV + 1)

variable {maxV : Nat}

def init (maxV : Nat) : Table maxV := (Vector.replicate (maxV + 1) ⟨-1, -1⟩).set 0 ⟨0, -1⟩

/-- One iteration of the loop of zero_one_pack. -/
def relax (cost V : Nat) (hV : V < maxV + 1) (dp : Table maxV) : Table maxV :=
  if dp[V - cost].value ≥ 0 then
    if dp[V - cost].value + cost > dp[V].value then dp.set V ⟨dp[V - cost].value + cost, cost⟩ else dp
  else dp

/-- The cell that one iteration leaves at V, from the table before the loop. -/
def relaxed (dp : Table maxV) (cost V : Nat) (hV : V < maxV + 1) : DP :=
  if dp[V - cost].value ≥ 0 ∧ dp[V - cost].value + cost > dp[V].value then ⟨dp[V - cost].value + cost, cost⟩
  else dp[V]

/-- The loop of zero_one_pack when V has come down to n - 1. -/
def packDown (cost : Nat) : (n : Nat) → n ≤ maxV + 1 → Table maxV → Table maxV
  | 0, _, dp => dp
  | V + 1, hV, dp => if V ≥ cost then packDown cost V (Nat.le_of_succ_le hV) (relax cost V hV dp) else dp

def zeroOnePack (dp : Table maxV) (item : Nat) : Table maxV := packDown item (maxV + 1) (Nat.le_refl _) dp

def packAll (maxV : Nat) (items : List Nat) : Table maxV := items.foldl zeroOnePack (init maxV)

/-- The values in the order in which they are printed. It fails outside the
table and when the recursion is deeper than the fuel. -/
def recursivePrintPlan (dp : Table maxV) : Nat → Int → Option (List Int)
  | 0, _ => none
  | fuel + 1, V =>
      if V > 0 then do
        let cell ← dp[V.toNat]?
        let out ← recursivePrintPlan dp fuel (V - cell.selectValue)
        return out ++ [cell.selectValue]
      else some []

/-- The loop of main over the amounts from DEST_V to MAX_V, left at the first hit. -/
def scan (dp : Table maxV) (destV : Nat) : Option Nat :=
  (List.range' destV (maxV + 1 - destV)).find? fun i => dp[i]?.any fun cell => cell.value > 0

/-- What main prints: the amount and its plan, or nothing when no plan is found. -/
def main (maxV destV : Nat) (items : List Nat) : Option (Int × Option (List Int)) := do
  let dp := packAll maxV items
  let i ← scan dp destV
  let cell ← dp[i]?
  return (cell.value, recursivePrintPlan dp (maxV + 1) cell.value)

end StudyNotes.Receipt.Program
