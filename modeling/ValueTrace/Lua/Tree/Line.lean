import ValueTrace.Lua.Tree

/-!
# Lines of Lua trees

A tree without a line takes the line of what surrounds it. A statement without one first takes the
line of the first of its descendants that has one; comments do not count.
-/

namespace ValueTrace.Lua

/-- A line, or the one that stands in for it where it is missing. -/
def lineOr (own other : Int) : Int := if own = 0 then other else own

mutual
/-- The line of a tree or else of its first descendant with a line; zero if there is none. -/
def Tree.firstLine : Tree → Int
  | .name _ attrib line => lineOr line (firstLineOption attrib)
  | .number _ line => line
  | .string _ line => line
  | .table fields line => lineOr line (firstLineFields fields)
  | .field f => f.firstLine
  | .index value key _ line => lineOr line (lineOr key.firstLine value.firstLine)
  | .call callee args line => lineOr line (lineOr callee.firstLine (firstLineAll args))
  | .invoke source method args line =>
    lineOr line (lineOr source.firstLine (lineOr method.firstLine (firstLineAll args)))
  | .assign _ targets values line =>
    lineOr line (lineOr (firstLineAll targets) (firstLineAll values))
  | .function _ name params body line =>
    lineOr line (lineOr name.firstLine (lineOr (firstLineAll params) body.firstLine))
  | .closure params body line => lineOr line (lineOr (firstLineAll params) body.firstLine)
  | .block b => b.firstLine
  | .comment _ _ => 0
  | .construct _ parts line => lineOr line (firstLineAll parts)
/-- The first line of a list of trees. -/
def firstLineAll : List Tree → Int
  | [] => 0
  | t :: ts => lineOr t.firstLine (firstLineAll ts)
/-- The first line of a tree that may be absent. -/
def firstLineOption : Option Tree → Int
  | none => 0
  | some t => t.firstLine
/-- The line of a field or else of its key or value. -/
def Field.firstLine : Field → Int
  | ⟨key, value, _, line⟩ => lineOr line (lineOr (firstLineOption key) value.firstLine)
/-- The first line of a list of fields. -/
def firstLineFields : List Field → Int
  | [] => 0
  | f :: fs => lineOr f.firstLine (firstLineFields fs)
/-- The line of a block or else of its first statement with a line. -/
def Block.firstLine : Block → Int
  | ⟨statements, line⟩ => lineOr line (firstLineAll statements)
end

end ValueTrace.Lua
