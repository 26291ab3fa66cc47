import PocketTerminal.Key

/-! # Grids

Cells of the grids that the arcade games are played on. -/
namespace PocketTerminal.Arcade

abbrev Cell := Int × Int

def shift (p : Cell) (d : Direction) : Cell := (p.1 + d.delta.1, p.2 + d.delta.2)

def distance (p q : Cell) : Nat := (p.1 - q.1).natAbs + (p.2 - q.2).natAbs

def gridCells (cols rows : Nat) : List Cell :=
  (List.range rows).flatMap fun (y : Nat) =>
    (List.range cols).map fun (x : Nat) => ((x : Int), (y : Int))

end PocketTerminal.Arcade
