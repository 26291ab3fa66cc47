import PocketTerminal.Color

/-! # Themes

The four roles of color that a program may draw with. -/
namespace PocketTerminal

structure Theme where
  /-- Background fill. -/
  bg : Color := .rgb 12 12 20
  /-- Text and foreground shapes. -/
  text : Color := .rgb 0 200 0
  /-- Secondary text, grid lines and hints. -/
  dim : Color := .rgb 100 130 110
  /-- Highlights. -/
  accent : Color := .rgb 100 200 255
deriving DecidableEq, Repr, Inhabited

end PocketTerminal
