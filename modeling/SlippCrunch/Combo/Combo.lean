import SlippCrunch.Slippc.Analysis

/-! Combos and the statistics they are selected by. -/

namespace SlippCrunch

/-- Frames a movie shows before the punish starts. -/
def comboIntroFrames : UInt8 := 60

/-- Frames a movie shows after the punish has ended. -/
def comboOutroFrames : UInt8 := 60

/-- The attacks of one opening and the record of its punish. -/
structure Combo (F : Type) where
  attacks : List (Attack F)
  punish : Punish F
  deriving DecidableEq

variable {F : Type} [FloatOps F]

/-- A combo without attacks, as assigning an empty initialiser leaves it. -/
instance : Inhabited (Combo F) where
  default := { attacks := [], punish := default }

/-- The first of the largest items, found by replacing the candidate only by a larger item. -/
def maxElement {α : Type} (compare : α → α → Bool) : List α → Option α
  -- An empty range has no largest item.
  | [] => none
  | first :: rest =>
    some (rest.foldl (fun largest item => if compare largest item then item else largest) first)

namespace Combo

variable (combo : Combo F)

/-- The punish ended in one of the proper directions. -/
def didKill : Bool :=
  Dir.neut.value < combo.punish.killDir && combo.punish.killDir < Dir.last.value

/-- The number of attacks. -/
def totalMoveCount : Nat := combo.attacks.length

/-- The number of attacks whose move was not yet in the list of seen moves. -/
def uniqueMoveCount : Nat :=
  -- The list of seen moves starts with one zero for each attack of the combo.
  (combo.attacks.foldl (fun (moveIds, uniqueMoveCount) attack =>
    if moveIds.contains attack.moveId then (moveIds, uniqueMoveCount)
    else (moveIds ++ [attack.moveId], uniqueMoveCount + 1))
    (List.replicate combo.attacks.length (0 : UInt8), 0)).2

/-- The largest damage of a single attack, converted to an integer. -/
def highestSingleAttackDamage : UInt16 :=
  let compareFunc := fun (a1 a2 : Attack F) => FloatOps.lt a1.damage a2.damage
  match maxElement compareFunc combo.attacks with
  | some highestAttack => FloatOps.toUInt16 highestAttack.damage
  -- The integer alternative takes the type of the damage before the result is converted.
  | none => FloatOps.toUInt16 (FloatOps.literal 0 1 : F)

/-- The damages added up in an integer. -/
def totalDamage : UInt16 :=
  -- Each sum is computed in floating point and converted when it is stored.
  combo.attacks.foldl (fun totalDamage attack =>
    FloatOps.toUInt16 (FloatOps.add (FloatOps.ofUInt16 totalDamage) attack.damage)) 0

/-- The largest damage as a share of all of it. -/
def highestSingleAttackDamageRatio : F :=
  FloatOps.div (FloatOps.ofUInt16 combo.highestSingleAttackDamage)
    (FloatOps.ofUInt16 combo.totalDamage)

/-- The largest attack exceeds the given share of the damage. -/
def exceedsSingleAttackDamageRatioThreshold (damageRatioThreshold : F) : Bool :=
  FloatOps.lt damageRatioThreshold combo.highestSingleAttackDamageRatio

/-- The first frame a movie of the combo shows. -/
def movieStartFrame : Int32 :=
  -- The subtraction happens in unsigned arithmetic and the result is reinterpreted.
  (combo.punish.startFrame - comboIntroFrames.toUInt32).toInt32

/-- The last frame a movie of the combo shows. -/
def movieEndFrame : Int32 := (combo.punish.endFrame + comboOutroFrames.toUInt32).toInt32

/-- Every combo scores the same so far. -/
def score (_combo : Combo F) : Int32 := 0

end Combo

/-- The combos worth reporting: lethal, long, damaging, and not resting on a single attack. -/
def isComboValid (combo : Combo F) : Bool :=
  combo.didKill && decide (7 ≤ combo.totalMoveCount) && decide (60 ≤ combo.totalDamage) &&
    !combo.exceedsSingleAttackDamageRatioThreshold (FloatOps.literal 1 4)

end SlippCrunch
