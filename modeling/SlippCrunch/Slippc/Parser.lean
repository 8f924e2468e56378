import SlippCrunch.Slippc.Analysis

/-! The replay parser, whose code is not part of the repository, by the functions called of it. -/

namespace SlippCrunch

/-- The name of a file or a directory. -/
abbrev Name := List Char

/-- The names leading to a file, from the outermost directory to the file itself. -/
abbrev Path := List Name

/-- A replay parser that answers every call, and answers equal calls equally. -/
structure SlipParser (P F : Type) where
  /-- Instantiate the parser at a debug level. -/
  new : Nat → P
  /-- Load a replay file, telling whether it could be parsed. -/
  load : P → Path → P × Bool
  /-- Analyze whatever the last load left in the parser. -/
  analyze : P → Analysis F

/-- A parser made for one file and loaded with it, as every caller does. -/
def SlipParser.loaded {P F : Type} (slip : SlipParser P F) (filename : Path) : P × Bool :=
  slip.load (slip.new 0) filename

end SlippCrunch
