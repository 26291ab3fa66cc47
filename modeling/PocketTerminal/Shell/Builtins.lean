import PocketTerminal.Shell.Commands.Arrange
import PocketTerminal.Shell.Commands.Browse
import PocketTerminal.Shell.Commands.Manual
import PocketTerminal.Shell.Commands.Memory
import PocketTerminal.Shell.Commands.Opening
import PocketTerminal.Shell.Commands.Printing
import PocketTerminal.Shell.Registry

/-! # The commands of every shell -/
namespace PocketTerminal.Shell

def builtinCommands : List Command :=
  [Browse.ls, Browse.cd, Browse.pwd, Browse.tree, Browse.find .simple,
   Arrange.mkdir, Arrange.touch, Arrange.rm, Arrange.rmdir, Arrange.mv, Arrange.cp,
   Printing.echo, Printing.cat, Printing.head, Printing.tail, Printing.wc, Printing.grep .simple,
   Memory.clear, Memory.whoami, Memory.history, Memory.env, Memory.exportCommand,
   Memory.unset, Memory.aliasCommand, Memory.unalias,
   Manual.man, Opening.openCommand, Opening.showCommand] ++ ProgramKind.all.map Opening.program

def Registry.standard : Registry := builtinCommands.foldl Registry.register .empty

end PocketTerminal.Shell
