import PocketTerminal.Chess.Moves
import PocketTerminal.Chance.Stream

/-! # The computer's move

Moves are scored by what they take, what they promote to and how near the middle they
end; one of the three best is played. -/
namespace PocketTerminal.Chess

open Chance (Stream)

def choices : Nat := 3

def offCentre (n : Fin 8) : Nat := (2 * (n.val : Int) - 7).natAbs

/-- Twice the score of a move: ten for each pawn's worth taken, eight for each promoted
to, and up to seven for the middle. -/
def score (p : Position) (m : Move) : Nat :=
  2 * (10 * ((p.at? m.target).elim 0 (·.kind.value)) + 8 * (m.promotion.elim 0 (·.value))) +
    (14 - (offCentre m.target.file + offCentre m.target.rank))

/-- The legal moves, the best first, and equal ones in the order in which they are listed. -/
def ranked (p : Position) : List Move :=
  p.legalMoves.mergeSort fun a b => score p b ≤ score p a

def pickMove (p : Position) (s : Stream) : Option Move × Stream :=
  let best := (ranked p).take choices
  if best.isEmpty then (none, s) else s.choose best

end PocketTerminal.Chess
