import PocketTerminal.Main
import PocketTerminal.Proofs.Lists
import PocketTerminal.Proofs.Text.Pieces
import PocketTerminal.Proofs.Text.Fillings
import PocketTerminal.Proofs.Text.Beginnings
import PocketTerminal.Proofs.Files.PathComponents
import PocketTerminal.Proofs.Files.Slots
import PocketTerminal.Proofs.Files.Forest
import PocketTerminal.Proofs.Files.TreeSlots
import PocketTerminal.Proofs.Files.Detaching
import PocketTerminal.Proofs.Files.Attaching
import PocketTerminal.Proofs.Files.Settled
import PocketTerminal.Proofs.Files.Relocating
import PocketTerminal.Proofs.Files.Building
import PocketTerminal.Proofs.Files.Guarded
import PocketTerminal.Proofs.Files.Runs
import PocketTerminal.Proofs.Files.Refusals
import PocketTerminal.Proofs.Files.Sights
import PocketTerminal.Proofs.Files.Walks
import PocketTerminal.Proofs.Files.Landings
import PocketTerminal.Proofs.Files.Moves
import PocketTerminal.Proofs.Files.Trees
import PocketTerminal.Proofs.Files.Growing
import PocketTerminal.Proofs.Files.Directories
import PocketTerminal.Proofs.Files.Copies
import PocketTerminal.Proofs.Files.Removals
import PocketTerminal.Proofs.Files.Writings
import PocketTerminal.Proofs.Files.Places
import PocketTerminal.Proofs.Files.Sowing
import PocketTerminal.Proofs.Files.Replanting
import PocketTerminal.Proofs.Files.Loops
import PocketTerminal.Proofs.Text.ByteOffsets
import PocketTerminal.Proofs.Programs.FlatText
import PocketTerminal.Proofs.Programs.ByteEdits
import PocketTerminal.Proofs.Shell.Quoting
import PocketTerminal.Proofs.Shell.Histories
import PocketTerminal.Proofs.Shell.Refusals
import PocketTerminal.Proofs.Session.Display
import PocketTerminal.Proofs.Session.Runs
import PocketTerminal.Proofs.Session.Outcomes
import PocketTerminal.Proofs.Session.Transcripts
import PocketTerminal.Proofs.Session.Printed
import PocketTerminal.Proofs.Session.Redraws
import PocketTerminal.Proofs.Session.Referents
import PocketTerminal.Proofs.Chance.Draws
import PocketTerminal.Proofs.Chess.Boards
import PocketTerminal.Proofs.Chess.Rules
import PocketTerminal.Proofs.Chess.Lines
import PocketTerminal.Proofs.Chess.Generation
import PocketTerminal.Proofs.Chess.Distinct
import PocketTerminal.Proofs.Chess.Effects
import PocketTerminal.Proofs.Chess.Outcomes
import PocketTerminal.Proofs.Chess.Invariant
import PocketTerminal.Proofs.Chess.Captures
import PocketTerminal.Proofs.Chess.Preservation
import PocketTerminal.Proofs.Chess.Games
import PocketTerminal.Proofs.Chess.Promotions
import PocketTerminal.Proofs.Chess.Calls
import PocketTerminal.Proofs.Chess.Waiting
import PocketTerminal.Proofs.Arcade.Grids
import PocketTerminal.Proofs.Arcade.SnakeBoards
import PocketTerminal.Proofs.Arcade.SnakeLengths
import PocketTerminal.Proofs.Arcade.Mazes
import PocketTerminal.Proofs.Arcade.Searches
import PocketTerminal.Proofs.Arcade.Sweeps
import PocketTerminal.Proofs.Arcade.WinnableMazes
import PocketTerminal.Proofs.Arcade.Ghosts
import PocketTerminal.Proofs.Arcade.PacmanGames
import PocketTerminal.Proofs.Arcade.PacmanRuns
import PocketTerminal.Proofs.Arcade.PacmanContacts
import PocketTerminal.Proofs.Arcade.PacmanScores
import PocketTerminal.Proofs.Shell.Blanks
import PocketTerminal.Proofs.Shell.Values
import PocketTerminal.Proofs.Files.NormalForms
import PocketTerminal.Proofs.Files.Resolutions
import PocketTerminal.Proofs.Session.Aliases
import PocketTerminal.Proofs.Shell.Stores
import PocketTerminal.Proofs.Session.Prompts
import PocketTerminal.Proofs.Session.Recalls
import PocketTerminal.Proofs.Session.Completions
import PocketTerminal.Proofs.Programs.Viewports
import PocketTerminal.Proofs.Text.Wildcards
import PocketTerminal.Proofs.Shell.NameSearches
import PocketTerminal.Proofs.Shell.LineSearches
import PocketTerminal.Proofs.Shell.TreeDrawings
import PocketTerminal.Proofs.Chess.Replies
import PocketTerminal.Proofs.Files.Homes
import PocketTerminal.Proofs.Session.Reloads
import PocketTerminal.Proofs.Session.HomeVariables
import PocketTerminal.Proofs.Session.Exports
import PocketTerminal.Proofs.ColorNotation
import PocketTerminal.Proofs.Console.Layouts
import PocketTerminal.Proofs.Console.Waits
