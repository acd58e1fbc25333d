/-!
# Lua programs

The tree of a Lua program. Constructs that the analysis gives a meaning have constructors of their
own; all others are kept as a `Construct` with their parts. A tree may stand on a line of its own;
line zero means that it has none.
-/

namespace ValueTrace.Lua

/-- A number as written in a program. -/
inductive Numeral where
  | int (n : Int)
  | float (x : Float)

inductive BinaryOp where
  | add | sub | mul | div | floorDiv | mod | pow
  | bitAnd | bitOr | bitXor | shiftRight | shiftLeft
  | less | greater | lessEqual | greaterEqual | equal | notEqual
  | and | or | concat
  deriving DecidableEq

inductive UnaryOp where
  | minus | bitNot | not | length
  deriving DecidableEq

/-- Constructs that are kept by name. -/
inductive Construct where
  | chunk | whileLoop | doBlock | repeatLoop | conditional | elseIf
  | label | goto | semicolon | breakLoop | returning | numericFor | genericFor | method
  | attrib | nil | yes | no | dots | varargs
  | binary (op : BinaryOp)
  | unary (op : UnaryOp)
  deriving DecidableEq

def BinaryOp.tag : BinaryOp → String
  | .add => "AddOp"
  | .sub => "SubOp"
  | .mul => "MultOp"
  | .div => "FloatDivOp"
  | .floorDiv => "FloorDivOp"
  | .mod => "ModOp"
  | .pow => "ExpoOp"
  | .bitAnd => "BAndOp"
  | .bitOr => "BOrOp"
  | .bitXor => "BXorOp"
  | .shiftRight => "BShiftROp"
  | .shiftLeft => "BShiftLOp"
  | .less => "LessThanOp"
  | .greater => "GreaterThanOp"
  | .lessEqual => "LessOrEqThanOp"
  | .greaterEqual => "GreaterOrEqThanOp"
  | .equal => "EqToOp"
  | .notEqual => "NotEqToOp"
  | .and => "AndLoOp"
  | .or => "OrLoOp"
  | .concat => "Concat"

def UnaryOp.tag : UnaryOp → String
  | .minus => "UMinusOp"
  | .bitNot => "UBNotOp"
  | .not => "ULNotOp"
  | .length => "ULengthOP"

/-- The name of a construct. -/
def Construct.tag : Construct → String
  | .chunk => "Chunk"
  | .whileLoop => "While"
  | .doBlock => "Do"
  | .repeatLoop => "Repeat"
  | .conditional => "If"
  | .elseIf => "ElseIf"
  | .label => "Label"
  | .goto => "Goto"
  | .semicolon => "SemiColon"
  | .breakLoop => "Break"
  | .returning => "Return"
  | .numericFor => "Fornum"
  | .genericFor => "Forin"
  | .method => "Method"
  | .attrib => "Attribute"
  | .nil => "Nil"
  | .yes => "TrueExpr"
  | .no => "FalseExpr"
  | .dots => "Dots"
  | .varargs => "Varargs"
  | .binary op => op.tag
  | .unary op => op.tag

mutual
/-- A node of a Lua program. -/
inductive Tree where
  /-- A name, with its attribute where it is declared. -/
  | name (id : String) (attrib : Option Tree) (line : Int)
  | number (n : Numeral) (line : Int)
  /-- A string, which is a sequence of bytes. -/
  | string (bytes : ByteArray) (line : Int)
  /-- A table constructor. -/
  | table (fields : List Field) (line : Int)
  /-- A field that stands by itself. -/
  | field (field : Field)
  /-- An indexed value; `dotted` tells `t.k` from `t[k]`. -/
  | index (value key : Tree) (dotted : Bool) (line : Int)
  | call (callee : Tree) (args : List Tree) (line : Int)
  /-- A method call `source:method(args)`. -/
  | invoke (source method : Tree) (args : List Tree) (line : Int)
  | assign (isLocal : Bool) (targets values : List Tree) (line : Int)
  /-- A function statement. -/
  | function (isLocal : Bool) (name : Tree) (params : List Tree) (body : Block) (line : Int)
  /-- A function expression. -/
  | closure (params : List Tree) (body : Block) (line : Int)
  | block (block : Block)
  | comment (text : String) (line : Int)
  /-- Any other construct, with its parts in order. -/
  | construct (kind : Construct) (parts : List Tree) (line : Int)

/-- A field of a table constructor; `bracketed` tells `[k] = v` from `k = v`. -/
structure Field where
  key : Option Tree
  value : Tree
  bracketed : Bool
  line : Int

/-- A list of statements. -/
structure Block where
  statements : List Tree
  line : Int
end

namespace Tree

instance : Inhabited Tree := ⟨.construct .nil [] 0⟩

/-- The line that a tree stands on by itself, or zero. -/
def ownLine : Tree → Int
  | .name _ _ line | .number _ line | .string _ line | .table _ line | .index _ _ _ line
  | .call _ _ line | .invoke _ _ _ line | .assign _ _ _ line | .function _ _ _ _ line
  | .closure _ _ line | .comment _ line | .construct _ _ line => line
  | .field f => f.line
  | .block b => b.line

/-- The same tree on another line. -/
def onLine (line : Int) : Tree → Tree
  | .name id attrib _ => .name id attrib line
  | .number n _ => .number n line
  | .string bytes _ => .string bytes line
  | .table fields _ => .table fields line
  | .field f => .field { f with line }
  | .index value key dotted _ => .index value key dotted line
  | .call callee args _ => .call callee args line
  | .invoke source method args _ => .invoke source method args line
  | .assign isLocal targets values _ => .assign isLocal targets values line
  | .function isLocal f params body _ => .function isLocal f params body line
  | .closure params body _ => .closure params body line
  | .block b => .block { b with line }
  | .comment text _ => .comment text line
  | .construct kind parts _ => .construct kind parts line

def isComment : Tree → Bool
  | .comment _ _ => true
  | _ => false

end Tree

end ValueTrace.Lua
