import SlippCrunch.Combo.Combo
import SlippCrunch.Slippc.Parser

/-! The scan that cuts a player's attacks into combos, and the functions leading to it. -/

namespace SlippCrunch

/-- Accesses the scan may make outside of what it was given, all undefined behaviour. -/
inductive Fault where
  | attacksOutOfBounds (iAttack : Nat)
  | punishesOutOfBounds (punishId : Nat)
  | backOfEmpty
  deriving DecidableEq, Repr

variable {F : Type} [FloatOps F]

/-- The entry of the punish table at an index. -/
def AnalysisPlayer.punishAt (player : AnalysisPlayer F) (punishId : UInt8) :
    Except Fault (Punish F) :=
  match player.punishes[punishId.toNat]? with
  | some punish => .ok punish
  | none => .error (.punishesOutOfBounds punishId.toNat)

/-- The last attack of a combo that has one. -/
def Combo.back (combo : Combo F) : Except Fault (Attack F) :=
  match combo.attacks.getLast? with
  | some attack => .ok attack
  | none => .error .backOfEmpty

/-- The variables the loop over the attacks changes. -/
structure ComboScan (F : Type) where
  combos : List (Combo F)
  currCombo : Combo F

/-- The combo under construction ends before an attack that belongs to another punish. -/
def ComboScan.endsBefore (scan : ComboScan F) (currAttack : Attack F) : Except Fault Bool := do
  -- The last attack is only looked at when there is one.
  if scan.currCombo.attacks.isEmpty then return false
  let last ← scan.currCombo.back
  return currAttack.punishId != last.punishId

/-- Look up the punish of the combo under construction, keep it if valid, and start anew. -/
def ComboScan.close (player : AnalysisPlayer F) (scan : ComboScan F) :
    Except Fault (ComboScan F) := do
  let last ← scan.currCombo.back
  let punish ← player.punishAt last.punishId
  let currCombo := { scan.currCombo with punish }
  let combos := if isComboValid currCombo then scan.combos ++ [currCombo] else scan.combos
  return { combos, currCombo := default }

/-- One iteration of the loop. -/
def ComboScan.feed (player : AnalysisPlayer F) (scan : ComboScan F) (currAttack : Attack F) :
    Except Fault (ComboScan F) := do
  -- A reference to the attack's punish is formed first, and never used.
  let _currPunish ← player.punishAt currAttack.punishId
  let scan ← if ← scan.endsBefore currAttack then scan.close player else pure scan
  let attacks := scan.currCombo.attacks ++ [currAttack]
  return { scan with currCombo := { scan.currCombo with attacks } }

/-- The loop from one index on, which only an attack at frame zero ends. -/
def scanAttacks (player : AnalysisPlayer F) (iAttack : Nat) (scan : ComboScan F) :
    Except Fault (ComboScan F) :=
  if inside : iAttack < maxAttacks then
    let currAttack := player.attacks[iAttack]
    if 0 < currAttack.frame then do
      let scan ← scan.feed player currAttack
      scanAttacks player (iAttack + 1) scan
    else .ok scan
  else .error (.attacksOutOfBounds iAttack)
termination_by maxAttacks - iAttack

/-- The index of the player whose attacks are used. -/
def portToUse (analysis : Analysis F) : Fin 2 :=
  if analysis.ap[0].tagCode == "YOYO#278" then 0 else 1

/-- The outcome of the test that decides on this index. -/
def tagMatches (analysis : Analysis F) : Bool := analysis.ap[0].tagCode == "YOYO#278"

/-- The player whose attacks are used. -/
def chosenPlayer (analysis : Analysis F) : AnalysisPlayer F := analysis.ap[portToUse analysis]

/-- The valid combos of one game. -/
def findCombosFromAnalysis (analysis : Analysis F) : Except Fault (List (Combo F)) := do
  let scan ← scanAttacks (chosenPlayer analysis) 0 { combos := [], currCombo := default }
  return scan.combos

variable {P : Type} (slip : SlipParser P F)

/-- The valid combos of the game a parser holds. -/
def findCombosFromParser (parser : P) : Except Fault (List (Combo F)) :=
  findCombosFromAnalysis (slip.analyze parser)

/-- The valid combos of the game in one file. -/
def findCombosFromReplayFilename (replayFilename : Path) : Except Fault (List (Combo F)) :=
  -- Whether the load succeeded is not asked.
  findCombosFromParser slip (slip.loaded replayFilename).1

end SlippCrunch
