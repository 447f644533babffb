/-! Rectangles of characters with a baseline that neighbours align on. -/
namespace SymbolicAlgebra

structure Grid where
  rows : List (List Char)
  /-- The row, counted from the top, that stands in line with neighbours. -/
  baseline : Nat
deriving DecidableEq

namespace Grid

/-- One row. -/
def ofText (text : String) : Grid := ⟨[text.toList], 0⟩

def width (g : Grid) : Nat :=
  match g.rows with
  | row :: _ => row.length
  | [] => 0

def height (g : Grid) : Nat := g.rows.length

/-- The rows with line breaks between them. -/
def text (g : Grid) : String := "\n".intercalate (g.rows.map String.ofList)

def blankRow (width : Nat) : List Char := List.replicate width ' '

/-- A grid with blank rows above and below. -/
def padVertically (above below : Nat) (g : Grid) : Grid :=
  let blank := blankRow g.width
  ⟨List.replicate above blank ++ g.rows ++ List.replicate below blank, above + g.baseline⟩

/-- A row with blanks around it to reach a width; what cannot be shared evenly goes to the right. -/
def centreRow (width : Nat) (row : List Char) : List Char :=
  let left := (width - row.length) / 2
  blankRow left ++ row ++ blankRow (width - row.length - left)

/-- The rows below the baseline. -/
def depth (g : Grid) : Nat := g.height - g.baseline - 1

def maxOf (xs : List Nat) : Nat := xs.foldl max 0

/-- Rows of equal count joined from left to right. -/
def joinRows (count : Nat) : List Grid → List (List Char)
  | [] => List.replicate count []
  | g :: gs => List.zipWith (· ++ ·) g.rows (joinRows count gs)

/-- Grids from left to right, their baselines in one row. -/
def beside (parts : List Grid) : Grid :=
  let above := maxOf (parts.map baseline)
  let below := maxOf (parts.map depth)
  let padded := parts.map fun g => g.padVertically (above - g.baseline) (below - g.depth)
  ⟨joinRows (above + below + 1) padded, above⟩

/-- Numerator and denominator, both centred, with a rule between that is two columns wider. -/
def fraction (num den : Grid) : Grid :=
  let width := max num.width den.width + 2
  ⟨num.rows.map (centreRow width) ++ [List.replicate width '-'] ++ den.rows.map (centreRow width),
    num.height⟩

/-- An exponent above and to the right of its base. -/
def superscript (base exponent : Grid) : Grid :=
  ⟨exponent.rows.map (blankRow base.width ++ ·) ++ base.rows.map (· ++ blankRow exponent.width),
    exponent.height + base.baseline⟩

/-- One column with its own characters at both ends. -/
def column (top middle bottom : Char) (height baseline : Nat) : Grid :=
  ⟨[[top]] ++ List.replicate (height - 2) [middle] ++ [[bottom]], baseline⟩

/-- Round brackets around one row, drawn ones around several. -/
def parenthesized (g : Grid) : Grid :=
  if g.height ≤ 1 then beside [ofText "(", g, ofText ")"]
  else
    beside
      [column '/' '|' '\\' g.height g.baseline, g, column '\\' '|' '/' g.height g.baseline]

end Grid

end SymbolicAlgebra
