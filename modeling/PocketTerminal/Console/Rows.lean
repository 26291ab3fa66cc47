import PocketTerminal.Canvas

/-! # Drawn text as rows

A surface that keeps only the texts drawn on it: those at one height make a row, from
left to right. Blank texts are not kept. -/
namespace PocketTerminal.Console

structure Placed where
  x : Int32
  y : Int32
  text : String
deriving DecidableEq, Repr

def placed (drawing : Drawing) : List Placed :=
  drawing.filterMap fun
    | .text text x y _ _ => if Text.allBlank text then none else some ⟨x, y, text⟩
    | .rect .. => none

def Placed.isBefore (a b : Placed) : Bool := a.y < b.y || (a.y == b.y && a.x ≤ b.x)

def gather : List Placed → List (Int32 × String)
  | [] => []
  | p :: rest =>
    match gather rest with
    | (y, row) :: rows =>
      if y = p.y then (y, p.text ++ " " ++ row) :: rows else (p.y, p.text) :: (y, row) :: rows
    | [] => [(p.y, p.text)]

/-- The rows of a drawing from top to bottom. Texts at one place keep their order. -/
def rows (drawing : Drawing) : List String :=
  (gather ((placed drawing).mergeSort Placed.isBefore)).map Prod.snd

end PocketTerminal.Console
