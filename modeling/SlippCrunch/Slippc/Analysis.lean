import SlippCrunch.Basis.Floats

/-! The analyzer's records, as far as combos are built from them. -/

namespace SlippCrunch

/-- Maximum number of attacks per player per game. -/
def maxAttacks : Nat := 65535

/-- Maximum number of punishes per player per game. -/
def maxPunishes : Nat := 65535

/-- Directions of blast zones and sticks, and the enumerator that ends them. -/
inductive Dir where
  | neut | up | right | down | left | upRight | upLeft | downRight | downLeft | last
  deriving DecidableEq, Repr

/-- The number an enumerator stands for. -/
def Dir.value : Dir → UInt8
  -- The first eight directions are followed by the count of all of them.
  | .neut => 0
  | .up => 1
  | .right => 2
  | .down => 3
  | .left => 4
  | .upRight => 5
  | .upLeft => 6
  | .downRight => 7
  | .downLeft => 8
  | .last => 9

/-- Information about each attack landed. -/
structure Attack (F : Type) where
  moveId : UInt8
  animFrame : F
  /-- Index of the punish this move is a part of, one punish per opening. -/
  punishId : UInt8
  hitId : UInt8
  frame : UInt32
  damage : F
  opening : UInt8
  killDir : UInt8
  cancelType : UInt8
  deriving DecidableEq

/-- Basic punish information. -/
structure Punish (F : Type) where
  numMoves : UInt8
  startFrame : UInt32
  endFrame : UInt32
  startPct : F
  endPct : F
  stocks : Int32
  lastMoveId : UInt8
  opening : UInt8
  /-- Direction of kill, as a number of the direction enumeration. -/
  killDir : UInt8
  deriving DecidableEq

/-- An attack as its member initialisers leave it. -/
instance {F : Type} [FloatOps F] : Inhabited (Attack F) where
  -- Every member starts at zero, so the frame of an unused entry is zero.
  default :=
    { moveId := 0, animFrame := FloatOps.literal 0 1, punishId := 0, hitId := 0, frame := 0
      damage := FloatOps.literal 0 1, opening := 0, killDir := 0, cancelType := 0 }

/-- A punish as its member initialisers leave it. -/
instance {F : Type} [FloatOps F] : Inhabited (Punish F) where
  -- Every member starts at zero, which as a direction is no kill.
  default :=
    { numMoves := 0, startFrame := 0, endFrame := 0, startPct := FloatOps.literal 0 1
      endPct := FloatOps.literal 0 1, stocks := 0, lastMoveId := 0, opening := 0, killDir := 0 }

/-- An array filled from the front, whose other entries keep their initial value. -/
def filled {α : Type} [Inhabited α] (size : Nat) (items : List α) : Vector α size :=
  Vector.ofFn fun i => items.getD i default

/-- Analysis data for a particular player within a game. -/
structure AnalysisPlayer (F : Type) where
  /-- Code for the player on Slippi Online. -/
  tagCode : String
  attacks : Vector (Attack F) maxAttacks
  punishes : Vector (Punish F) maxPunishes

/-- All analysis data within a game of two players. -/
structure Analysis (F : Type) where
  ap : Vector (AnalysisPlayer F) 2

end SlippCrunch
