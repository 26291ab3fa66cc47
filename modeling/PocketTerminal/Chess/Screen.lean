import PocketTerminal.Chess.Game

/-! # The picture of a game of chess -/
namespace PocketTerminal.Chess.Game

open Drawing

def statusLine (g : Game) : String :=
  let side := g.position.sideToMove.name
  if g.pending.isSome then "Promote to: q r b n"
  else
    match g.status with
    | .playing => side ++ " to move"
    | .check => side ++ " to move. Check!"
    | .checkmate winner => "Checkmate. " ++ winner.name ++ " wins. Enter to restart"
    | .stalemate => "Stalemate. Enter to restart"

def drawPiece (piece : Piece) (x y : Int32) (cell : UInt32) (theme : Theme) : Stroke :=
  let font := (min (max (cell * 3 / 5) 6) 48).toUInt16
  let glyph := String.ofList [piece.kind.letter]
  .text glyph (x + (less cell (textWidth glyph font) / 2).toInt32)
    (y + (less cell font.toUInt32 / 2).toInt32) font
    (match piece.side with
     | .white => theme.text
     | .black => theme.accent)

def drawSquare (g : Game) (targets : List Square) (ox oy : Int32) (cell : UInt32)
    (theme : Theme) (s : Square) : Drawing :=
  let x := ox + (s.file.val.toUInt32 * cell).toInt32
  let y := oy + ((7 - s.rank.val).toUInt32 * cell).toInt32
  let shade := theme.dim.withAlpha (if (s.file.val + s.rank.val) % 2 = 1 then 110 else 45)
  let dot := max (cell / 4) 1
  let off := ((cell - dot) / 2).toInt32
  [.rect x y cell cell shade] ++
    (if g.lastMove.any fun m => m.source == s || m.target == s then
      [.rect x y cell cell (theme.accent.withAlpha 40)] else []) ++
    (if targets.contains s then
      [.rect (x + off) (y + off) dot dot (theme.accent.withAlpha 160)] else []) ++
    ((g.position.at? s).map fun piece => drawPiece piece x y cell theme).toList ++
    (if g.selected = some s then outline x y cell cell 2 theme.text else []) ++
    (if g.cursor = s then outline x y cell cell 2 theme.accent else [])

def draw (g : Game) (w h : UInt32) (theme : Theme) : Drawing :=
  let font := fontFor h 20
  let hud := font.toUInt32 * 2 + 8
  let cell := max (min w (less h hud) / 8) 1
  let side := cell * 8
  let ox := (less w side / 2).toInt32
  let targets := (g.selected.map fun s => (g.position.legalMovesFrom s).map (·.target)).getD []
  clear w h theme.bg ++
    Square.all.flatMap (g.drawSquare targets ox 4 cell theme) ++
    [centered g.statusLine w (4 + side.toInt32 + 4) font theme.text]

end PocketTerminal.Chess.Game
