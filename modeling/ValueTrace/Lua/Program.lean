import ValueTrace.Lua.Tree.Lower
import ValueTrace.Lua.Tree.Parser

/-!
# Statements of Lua text
-/

namespace ValueTrace.Lua

/-- The statements of a list of Lua trees, the first of which has no line to take over. -/
def lowerProgram (trees : List Tree) : Except Error (List Node) := lowerStatements 0 trees

/-- The statements of Lua text. -/
def statements? (source : String) : Except Error (List Node) := do
  lowerProgram (← parse source)

end ValueTrace.Lua
