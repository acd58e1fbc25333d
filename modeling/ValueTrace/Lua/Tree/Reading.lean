import ValueTrace.Lua.Tree.Grammar

/-!
# Where statements end

Line breaks mean nothing in Lua, so a parenthesis after a value may open a call or the next
statement: `x = t.a (b).c = 1` assigns twice. Calls are read as far as they go, and every reading of
an expression keeps the last place at which it could be cut. Only where the targets of an assignment
follow is a statement cut there.
-/

namespace ValueTrace.Lua

/-- What a chain of suffixes may be used as. -/
inductive Form where
  /-- A name or an index, which can be assigned to. -/
  | place
  /-- A call, which can stand as a statement. -/
  | call
  /-- A value in parentheses. -/
  | value
  deriving DecidableEq

/-- An expression that is cut in front of one value in parentheses. -/
structure Cut where
  /-- What stands before the parentheses. -/
  tree : Tree
  /-- The tokens from the opening parenthesis on. -/
  rest : List Token
  /-- Whether an expression may end here: a name without suffixes is always called. -/
  allowed : Bool

/-- A name or a value in parentheses, with suffixes. -/
structure Chain where
  tree : Tree
  form : Form
  /-- The last cut among the suffixes. -/
  cut : Option Cut

/-- An expression. -/
structure Reading where
  tree : Tree
  /-- Whether it can be assigned to. -/
  isPlace : Bool
  /-- The last cut that leaves something that can be assigned to. -/
  cut : Option Cut

/-- An expression without other readings. -/
def Reading.plain (tree : Tree) : Reading := ⟨tree, false, none⟩

/-- The expression as the last part of another one, which is no place. -/
def Reading.within (e : Reading) (around : Tree → Tree) : Reading :=
  ⟨around e.tree, false, e.cut.map fun c => { c with tree := around c.tree }⟩

/-- The expression on another line. -/
def Reading.onLine (line : Int) (e : Reading) : Reading :=
  { e with
    tree := e.tree.onLine line
    cut := e.cut.map fun c => { c with tree := c.tree.onLine line } }

/-- The cut in front of the next token. -/
def Chain.cutHere (c : Chain) (ts : List Token) : Cut :=
  let isName := match c.tree with
    | .name _ _ _ => true
    | _ => false
  ⟨c.tree, ts, !(isName && c.form = .place)⟩

/-- The chain as an expression. -/
def Chain.reading (c : Chain) : Reading :=
  ⟨c.tree, c.form = .place, if c.form = .place then c.cut else none⟩

/-- The expressions up to the last cut after which there are only targets, and that cut. -/
def lastCut? : List Reading → Option (List Tree × Cut)
  | [] => none
  | e :: es =>
    match lastCut? es with
    | some (trees, cut) => some (e.tree :: trees, cut)
    | none => if es.all (·.isPlace) then e.cut.map fun cut => ([cut.tree], cut) else none

/-- Whether what was read so far has to be a target of an assignment. -/
def endsTarget : List Token → Bool
  | ⟨.symbol s, _⟩ :: _ => s = "=" || s = ","
  | _ => false

/-- Ends a statement after its last expressions, which are cut if they end in targets. -/
def endStatement {n : Nat} (p : Parsed (List Reading) n) : Parse (List Tree) n :=
  if endsTarget p.rest then
    match lastCut? p.value with
    | some (trees, cut) =>
      if h : cut.allowed ∧ cut.rest.length < n then .ok ⟨trees, cut.rest, h.2⟩
      else unexpected p.rest
    | none => unexpected p.rest
  else .ok ⟨p.value.map (·.tree), p.rest, p.shorter⟩

end ValueTrace.Lua
