import DesignTokens.CommandLine.Markup
import DesignTokens.Text.Parts

/-! # Grids

A grid is printed as its title, its heads and its rows.  A row is as many lines high as its highest
cell.
-/

namespace DesignTokens

/-- A title, the heads of the columns and rows of cells. -/
structure Grid where
  title : String
  heads : List String
  rows : List (List String)
  deriving Repr, Inhabited

namespace Grid

def padded (width : Nat) (s : String) : String :=
  s ++ String.ofList (List.replicate (width - s.length) ' ')

/-- The lines of the cells of a row, each cell as high as the highest. -/
def linesOf (cells : List String) : List (List String) :=
  let columns := cells.map (Text.split '\n')
  let height := (columns.map List.length).foldl max 0
  (List.range height).map fun n => columns.map fun lines => lines[n]?.getD ""

def widths (lines : List (List String)) : List Nat :=
  lines.foldl
    (fun widths cells =>
      (List.range (max widths.length cells.length)).map fun n =>
        max (widths[n]?.getD 0) (cells[n]?.getD "").length)
    []

/-- The printed form of a grid, unless a tag in it closes a style that is not open. -/
def render? (g : Grid) : Option String := do
  let title ← Markup.plain? g.title
  let rows ← g.rows.mapM fun cells => cells.mapM Markup.plain?
  let lines := g.heads :: rows.flatMap linesOf
  let widths := widths lines
  let printed := lines.map fun cells =>
    Text.joinWith "  " ((widths.zip cells).map fun (width, cell) => padded width cell)
  return Text.joinWith "\n" (title :: printed) ++ "\n"

end Grid

end DesignTokens
