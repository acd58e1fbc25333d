import ValueTrace.Lua.Token.Lexer
import ValueTrace.Lua.Tree.Reading

/-!
# Reading Lua programs

`parse` reads Lua text. Operators are read by priority. Every complete expression stands on the line
where it starts. Within a chain of suffixes an index stands on the line of its point or bracket, a
call on the line where the suffixes since the previous call start, and a method call on the line
where the chain starts. Names that are no expression by themselves have no line.
-/

namespace ValueTrace.Lua

mutual
/-- Reads an expression whose operators bind more strongly than the limit. -/
def expression (limit : Nat) (ts : List Token) : Parse Reading ts.length :=
  match ts with
  | [] => .error .ending
  | t :: rest =>
    match unaryOp? t.lexeme with
    | some op => do
      let ⟨operand, r, h⟩ ← expression unaryPriority rest
      let first := operand.within fun tree => .construct (.unary op) [tree] t.line
      let ⟨result, r', h'⟩ ← operators limit t.line first r
      return ⟨result, r', Nat.lt_succ_of_lt (Nat.lt_of_lt_of_le h' h)⟩
    | none => do
      let ⟨first, r, h⟩ ← operand (t :: rest)
      let ⟨result, r', h'⟩ ← operators limit t.line (first.onLine t.line) r
      return ⟨result, r', Nat.lt_of_lt_of_le h' h⟩
termination_by 10 * ts.length + 4
decreasing_by
  all_goals
    simp only [List.length_cons] at *
    omega

/-- Reads the operators that follow a left operand, and their right operands. -/
def operators (limit : Nat) (line : Int) (left : Reading) (ts : List Token) :
    Parse Reading (ts.length + 1) :=
  match ts with
  | [] => .ok ⟨left, [], Nat.lt_succ_self _⟩
  | t :: rest =>
    match binaryOp? t.lexeme with
    | none => .ok ⟨left, t :: rest, Nat.lt_succ_self _⟩
    | some (op, priority) =>
      if limit < priority.left then do
        let ⟨right, r, h⟩ ← expression priority.right rest
        let both := right.within fun tree => .construct (.binary op) [left.tree, tree] line
        let ⟨result, r', h'⟩ ← operators limit line both r
        return ⟨result, r', Nat.lt_succ_of_lt (Nat.lt_succ_of_lt (Nat.lt_of_lt_of_le h' h))⟩
      else .ok ⟨left, t :: rest, Nat.lt_succ_self _⟩
termination_by 10 * ts.length + 1

/-- Reads an expression without operators. -/
def operand (ts : List Token) : Parse Reading ts.length :=
  match ts with
  | [] => .error .ending
  | ⟨lexeme, line⟩ :: rest =>
    let leaf (tree : Tree) : Parse Reading (rest.length + 1) :=
      .ok ⟨.plain tree, rest, Nat.lt_succ_self _⟩
    match lexeme with
    | .int n => leaf (.number (.int n) line)
    | .float x => leaf (.number (.float (x.getD 0.0)) line)
    | .string bytes => leaf (.string (bytes.getD ByteArray.empty) line)
    | .keyword "nil" => leaf (.construct .nil [] line)
    | .keyword "true" => leaf (.construct .yes [] line)
    | .keyword "false" => leaf (.construct .no [] line)
    | .symbol "..." => leaf (.construct .dots [] line)
    | .symbol "\x7b" => do
      let ⟨fields, r, h⟩ ← tableFields rest
      return ⟨.plain (.table fields line), r, Nat.lt_succ_of_lt h⟩
    | .keyword "function" => do
      let ⟨(params, body), r, h⟩ ← functionBody rest
      return ⟨.plain (.closure params body line), r, Nat.lt_succ_of_lt h⟩
    | _ => do
      let ⟨result, r, h⟩ ← chain (⟨lexeme, line⟩ :: rest)
      return ⟨result.reading, r, h⟩
termination_by 10 * ts.length + 3

/-- Reads one or more expressions separated by commas. -/
def expressions (ts : List Token) : Parse (List Reading) ts.length := do
  let ⟨first, r, h⟩ ← expression 0 ts
  match symbolNext? "," r with
  | some ⟨_, r₁, h₁⟩ =>
    let ⟨more, r₂, h₂⟩ ← expressions r₁
    return ⟨first :: more, r₂, Nat.lt_trans h₂ (Nat.lt_trans h₁ h)⟩
  | none => return ⟨[first], r, h⟩
termination_by 10 * ts.length + 5

/-- Reads the fields of a table and the closing brace. -/
def tableFields (ts : List Token) : Parse (List Field) ts.length :=
  match symbolNext? "\x7d" ts with
  | some ⟨_, r, h⟩ => .ok ⟨[], r, h⟩
  | none => do
    let ⟨first, r, h⟩ ← tableField ts
    match (symbolNext? "," r).or (symbolNext? ";" r) with
    | some ⟨_, r₁, h₁⟩ =>
      let ⟨more, r₂, h₂⟩ ← tableFields r₁
      return ⟨first :: more, r₂, Nat.lt_trans h₂ (Nat.lt_trans h₁ h)⟩
    | none =>
      let ⟨_, r₁, h₁⟩ ← expectSymbol "\x7d" r
      return ⟨[first], r₁, Nat.lt_trans h₁ h⟩
termination_by 10 * ts.length + 6

/-- Reads one field of a table. -/
def tableField (ts : List Token) : Parse Field ts.length :=
  match ts with
  | ⟨.symbol "[", line⟩ :: rest => do
    let ⟨key, r, h⟩ ← expression 0 rest
    let ⟨_, r₁, h₁⟩ ← expectSymbol "]" r
    let ⟨_, r₂, h₂⟩ ← expectSymbol "=" r₁
    let ⟨value, r₃, h₃⟩ ← expression 0 r₂
    return ⟨⟨some key.tree, value.tree, true, line⟩, r₃,
      Nat.lt_succ_of_lt (Nat.lt_trans h₃ (Nat.lt_trans h₂ (Nat.lt_trans h₁ h)))⟩
  | ⟨.name id, line⟩ :: ⟨.symbol "=", _⟩ :: rest => do
    let ⟨value, r, h⟩ ← expression 0 rest
    return ⟨⟨some (plainName id), value.tree, false, line⟩, r,
      Nat.lt_succ_of_lt (Nat.lt_succ_of_lt h)⟩
  | ts => do
    let ⟨value, r, h⟩ ← expression 0 ts
    return ⟨⟨none, value.tree, false, lineOf ts⟩, r, h⟩
termination_by 10 * ts.length + 5
decreasing_by
  all_goals first | omega | (simp only [List.length_cons]; omega)

/-- Reads the arguments of a call: in parentheses, a string, or a table. -/
def arguments (ts : List Token) : Parse (List Tree) ts.length :=
  match ts with
  | ⟨.symbol "(", _⟩ :: ⟨.symbol ")", _⟩ :: rest =>
    .ok ⟨[], rest, Nat.lt_succ_of_lt (Nat.lt_succ_self _)⟩
  | ⟨.symbol "(", _⟩ :: rest => do
    let ⟨args, r, h⟩ ← expressions rest
    let ⟨_, r', h'⟩ ← expectSymbol ")" r
    return ⟨args.map (·.tree), r', Nat.lt_succ_of_lt (Nat.lt_trans h' h)⟩
  | ⟨.string bytes, _⟩ :: rest =>
    .ok ⟨[.string (bytes.getD ByteArray.empty) 0], rest, Nat.lt_succ_self _⟩
  | ⟨.symbol "\x7b", line⟩ :: rest => do
    let ⟨fields, r, h⟩ ← tableFields rest
    return ⟨[.table fields line], r, Nat.lt_succ_of_lt h⟩
  | ts => unexpected ts
termination_by 10 * ts.length

/-- Reads a name or an expression in parentheses, with the suffixes that follow. -/
def chain (ts : List Token) : Parse Chain ts.length :=
  match ts with
  | ⟨.name id, line⟩ :: rest => do
    let ⟨result, r, h⟩ ← suffixes line none ⟨plainName id, .place, none⟩ rest
    return ⟨result, r, h⟩
  | ⟨.symbol "(", line⟩ :: rest => do
    let ⟨inner, r, h⟩ ← expression 0 rest
    let ⟨_, r₁, h₁⟩ ← expectSymbol ")" r
    let ⟨result, r₂, h₂⟩ ← suffixes line none ⟨inner.tree, .value, none⟩ r₁
    return ⟨result, r₂, Nat.lt_succ_of_lt (Nat.lt_of_lt_of_le h₂ (Nat.lt_trans h₁ h))⟩
  | ts => unexpected ts
termination_by 10 * ts.length + 2

/-- Reads the suffixes of a chain that starts on a given line. The optional line is the one of the
first index since the previous call. -/
def suffixes (start : Int) (since : Option Int) (before : Chain) (ts : List Token) :
    Parse Chain (ts.length + 1) :=
  match ts with
  | ⟨.symbol ".", line⟩ :: ⟨.name id, _⟩ :: rest => do
    let index := Tree.index before.tree (plainName id) true line
    let ⟨result, r, h⟩ ←
      suffixes start (some (since.getD line)) ⟨index, .place, before.cut⟩ rest
    return ⟨result, r, Nat.lt_succ_of_lt (Nat.lt_succ_of_lt h)⟩
  | ⟨.symbol "[", line⟩ :: rest => do
    let ⟨key, r, h⟩ ← expression 0 rest
    let ⟨_, r₁, h₁⟩ ← expectSymbol "]" r
    let index := Tree.index before.tree key.tree false line
    let ⟨result, r₂, h₂⟩ ←
      suffixes start (some (since.getD line)) ⟨index, .place, before.cut⟩ r₁
    return ⟨result, r₂,
      Nat.lt_succ_of_lt (Nat.lt_succ_of_lt (Nat.lt_of_lt_of_le h₂ (Nat.lt_trans h₁ h)))⟩
  | ⟨.symbol ":", _⟩ :: ⟨.name id, _⟩ :: rest => do
    let ⟨args, r, h⟩ ← arguments rest
    let call := Tree.invoke before.tree (plainName id) args start
    let ⟨result, r₁, h₁⟩ ← suffixes start none ⟨call, .call, before.cut⟩ r
    return ⟨result, r₁,
      Nat.lt_succ_of_lt (Nat.lt_succ_of_lt (Nat.lt_succ_of_lt (Nat.lt_of_lt_of_le h₁ h)))⟩
  | ts =>
    if startsArguments ts then do
      let ⟨args, r, h⟩ ← arguments ts
      let call := Tree.call before.tree args (since.getD (lineOf ts))
      let cut :=
        if (symbolNext? "(" ts).isSome && args.length = 1 then some (before.cutHere ts)
        else before.cut
      let ⟨result, r₁, h₁⟩ ← suffixes start none ⟨call, .call, cut⟩ r
      return ⟨result, r₁, Nat.lt_succ_of_lt (Nat.lt_of_lt_of_le h₁ h)⟩
    else .ok ⟨before, ts, Nat.lt_succ_self _⟩
termination_by 10 * ts.length + 1
decreasing_by
  all_goals first | omega | (simp only [List.length_cons]; omega)

/-- Reads the parameters and the body of a function. -/
def functionBody (ts : List Token) : Parse (List Tree × Block) ts.length := do
  let ⟨params, r, h⟩ ← parameters ts
  let ⟨body, r₁, h₁⟩ ← block r
  let ⟨_, r₂, h₂⟩ ← expectKeyword "end" r₁
  return ⟨(params, body), r₂, Nat.lt_trans h₂ (Nat.lt_of_lt_of_le h₁ h)⟩
termination_by 10 * ts.length

/-- Reads statements up to where a block ends. A block stands on the line of its first token, even
if that ends it. -/
def block (ts : List Token) : Parse Block (ts.length + 1) := do
  let ⟨list, r, h⟩ ← statements ts
  return ⟨⟨list, lineOf ts⟩, r, h⟩
termination_by 10 * ts.length + 8

/-- Reads statements, of which only the last may return. -/
def statements (ts : List Token) : Parse (List Tree) (ts.length + 1) :=
  match ts with
  | ⟨.keyword "return", line⟩ :: rest => do
    let ⟨values, r, h⟩ ← returned rest
    return ⟨[.construct .returning values line], r, Nat.lt_succ_of_lt h⟩
  | ts =>
    if endsBlock ts then .ok ⟨[], ts, Nat.lt_succ_self _⟩
    else do
      let ⟨first, r, h⟩ ← statement ts
      let ⟨more, r', h'⟩ ← statements r
      return ⟨first :: more, r', Nat.lt_succ_of_lt (Nat.lt_of_lt_of_le h' h)⟩
termination_by 10 * ts.length + 7
decreasing_by
  all_goals first | omega | (simp only [List.length_cons]; omega)

/-- Reads what a block returns, with an optional semicolon. -/
def returned (ts : List Token) : Parse (List Tree) (ts.length + 1) :=
  match symbolNext? ";" ts with
  | some ⟨_, r, h⟩ => .ok ⟨[], r, Nat.lt_succ_of_lt h⟩
  | none =>
    if endsBlock ts then .ok ⟨[], ts, Nat.lt_succ_self _⟩
    else do
      let ⟨values, r, h⟩ ← expressions ts
      match symbolNext? ";" r with
      | some ⟨_, r₁, h₁⟩ =>
        return ⟨values.map (·.tree), r₁, Nat.lt_succ_of_lt (Nat.lt_trans h₁ h)⟩
      | none => return ⟨values.map (·.tree), r, Nat.lt_succ_of_lt h⟩
termination_by 10 * ts.length + 6

/-- Reads one statement. -/
def statement (ts : List Token) : Parse Tree ts.length :=
  match ts with
  | [] => .error .ending
  | ⟨.symbol ";", _⟩ :: rest => .ok ⟨.construct .semicolon [] 0, rest, Nat.lt_succ_self _⟩
  | ⟨.symbol "::", line⟩ :: rest => do
    let ⟨id, r, h⟩ ← expectName rest
    let ⟨_, r₁, h₁⟩ ← expectSymbol "::" r
    return ⟨.construct .label [plainName id] line, r₁, Nat.lt_succ_of_lt (Nat.lt_trans h₁ h)⟩
  | ⟨.keyword "break", line⟩ :: rest =>
    .ok ⟨.construct .breakLoop [] line, rest, Nat.lt_succ_self _⟩
  | ⟨.keyword "goto", line⟩ :: rest => do
    let ⟨id, r, h⟩ ← expectName rest
    return ⟨.construct .goto [plainName id] line, r, Nat.lt_succ_of_lt h⟩
  | ⟨.keyword "do", line⟩ :: rest => do
    let ⟨body, r, h⟩ ← block rest
    let ⟨_, r₁, h₁⟩ ← expectKeyword "end" r
    return ⟨.construct .doBlock [.block body] line, r₁, Nat.lt_trans h₁ h⟩
  | ⟨.keyword "while", line⟩ :: rest => do
    let ⟨test, r, h⟩ ← expression 0 rest
    let ⟨body, r₁, h₁⟩ ← loopBody r
    return ⟨.construct .whileLoop [test.tree, .block body] line, r₁,
      Nat.lt_succ_of_lt (Nat.lt_trans h₁ h)⟩
  | ⟨.keyword "repeat", line⟩ :: rest => do
    let ⟨body, r, h⟩ ← block rest
    let ⟨_, r₁, h₁⟩ ← expectKeyword "until" r
    let ⟨test, r₂, h₂⟩ ← expression 0 r₁
    let ⟨tests, r₃, h₃⟩ ← endStatement ⟨[test], r₂, h₂⟩
    return ⟨.construct .repeatLoop (.block body :: tests) line, r₃,
      Nat.lt_trans h₃ (Nat.lt_trans h₁ h)⟩
  | ⟨.keyword "if", line⟩ :: rest => do
    let ⟨tree, r, h⟩ ← branches .conditional line rest
    return ⟨tree, r, Nat.lt_succ_of_lt h⟩
  | ⟨.keyword "for", line⟩ :: ⟨.name id, _⟩ :: ⟨.symbol "=", _⟩ :: rest => do
    let ⟨range, r, h⟩ ← expressions rest
    let ⟨body, r₁, h₁⟩ ← loopBody r
    if range.length = 2 ∨ range.length = 3 then
      let parts := plainName id :: range.map (·.tree) ++ [.block body]
      return ⟨.construct .numericFor parts line, r₁,
        Nat.lt_succ_of_lt (Nat.lt_succ_of_lt (Nat.lt_succ_of_lt (Nat.lt_trans h₁ h)))⟩
    else unexpected r
  | ⟨.keyword "for", line⟩ :: rest => do
    let ⟨targets, r, h⟩ ← names rest
    let ⟨_, r₁, h₁⟩ ← expectKeyword "in" r
    let ⟨values, r₂, h₂⟩ ← expressions r₁
    let ⟨body, r₃, h₃⟩ ← loopBody r₂
    let parts := .block body :: values.map (·.tree) ++ targets
    return ⟨.construct .genericFor parts line, r₃,
      Nat.lt_succ_of_lt (Nat.lt_trans h₃ (Nat.lt_trans h₂ (Nat.lt_trans h₁ h)))⟩
  | ⟨.keyword "function", line⟩ :: ⟨.name id, nameLine⟩ :: rest => do
    let ⟨name, r, h⟩ := dottedNames (plainName id) rest
    match symbolNext? ":" r with
    | some ⟨_, r₁, h₁⟩ =>
      let ⟨method, r₂, h₂⟩ ← expectName r₁
      let ⟨(params, body), r₃, h₃⟩ ← functionBody r₂
      return ⟨.construct .method (name :: plainName method :: params ++ [.block body]) line, r₃,
        Nat.lt_succ_of_lt (Nat.lt_trans h₃ (Nat.lt_trans h₂ (Nat.lt_trans h₁ h)))⟩
    | none =>
      let ⟨(params, body), r₁, h₁⟩ ← functionBody r
      return ⟨.function false (name.onLine nameLine) params body line, r₁,
        Nat.lt_succ_of_lt (Nat.lt_trans h₁ h)⟩
  | ⟨.keyword "local", line⟩ :: ⟨.keyword "function", _⟩ :: rest => do
    let ⟨id, r, h⟩ ← expectName rest
    let ⟨(params, body), r₁, h₁⟩ ← functionBody r
    return ⟨.function true (plainName id) params body line, r₁,
      Nat.lt_succ_of_lt (Nat.lt_succ_of_lt (Nat.lt_trans h₁ h))⟩
  | ⟨.keyword "local", line⟩ :: rest => do
    let ⟨targets, r, h⟩ ← declaredNames rest
    match symbolNext? "=" r with
    | some ⟨_, r₁, h₁⟩ =>
      let ⟨values, r₂, h₂⟩ ← endStatement (← expressions r₁)
      return ⟨.assign true targets values line, r₂,
        Nat.lt_succ_of_lt (Nat.lt_trans h₂ (Nat.lt_trans h₁ h))⟩
    | none => return ⟨.assign true targets [] line, r, Nat.lt_succ_of_lt h⟩
  | t :: rest => do
    let ⟨first, r, h⟩ ← chain (t :: rest)
    match first.form with
    | .value => unexpected r
    | .call => return ⟨first.tree, r, h⟩
    | .place =>
      let ⟨more, r₁, h₁⟩ ← moreTargets r
      let ⟨values, r₂, h₂⟩ ← endStatement (← expressions r₁)
      return ⟨.assign false (first.tree :: more) values t.line, r₂,
        Nat.lt_trans h₂ (Nat.lt_trans h₁ h)⟩
termination_by 10 * ts.length + 6
decreasing_by
  all_goals first
    | omega
    | (simp only [List.length_cons] at *; omega)

/-- Reads `do`, a block and `end`. -/
def loopBody (ts : List Token) : Parse Block ts.length := do
  let ⟨_, r, h⟩ ← expectKeyword "do" ts
  let ⟨body, r₁, h₁⟩ ← block r
  let ⟨_, r₂, h₂⟩ ← expectKeyword "end" r₁
  return ⟨body, r₂, Nat.lt_trans h₂ (Nat.lt_of_lt_of_le h₁ h)⟩
termination_by 10 * ts.length

/-- Reads a condition, its block, and the branches that follow up to the end. -/
def branches (kind : Construct) (line : Int) (ts : List Token) : Parse Tree ts.length := do
  let ⟨test, r, h⟩ ← expression 0 ts
  let ⟨_, r₁, h₁⟩ ← expectKeyword "then" r
  let ⟨body, r₂, h₂⟩ ← block r₁
  match keywordNext? "elseif" r₂ with
  | some ⟨nextLine, r₃, h₃⟩ =>
    let ⟨next, r₄, h₄⟩ ← branches .elseIf nextLine r₃
    return ⟨.construct kind [test.tree, .block body, next] line, r₄,
      Nat.lt_trans h₄ (Nat.lt_trans h₃ (Nat.lt_of_lt_of_le h₂ (Nat.lt_trans h₁ h)))⟩
  | none =>
    match keywordNext? "else" r₂ with
    | some ⟨_, r₃, h₃⟩ =>
      let ⟨other, r₄, h₄⟩ ← block r₃
      let ⟨_, r₅, h₅⟩ ← expectKeyword "end" r₄
      return ⟨.construct kind [test.tree, .block body, .block other] line, r₅,
        Nat.lt_trans h₅ (Nat.lt_of_lt_of_le h₄
          (Nat.lt_trans h₃ (Nat.lt_of_lt_of_le h₂ (Nat.lt_trans h₁ h))))⟩
    | none =>
      let ⟨_, r₃, h₃⟩ ← expectKeyword "end" r₂
      return ⟨.construct kind [test.tree, .block body] line, r₃,
        Nat.lt_trans h₃ (Nat.lt_of_lt_of_le h₂ (Nat.lt_trans h₁ h))⟩
termination_by 10 * ts.length + 5

/-- Reads the targets after the first one, and the equals sign. -/
def moreTargets (ts : List Token) : Parse (List Tree) ts.length :=
  match ts with
  | ⟨.symbol "=", _⟩ :: rest => .ok ⟨[], rest, Nat.lt_succ_self _⟩
  | ⟨.symbol ",", _⟩ :: rest => do
    let ⟨target, r, h⟩ ← chain rest
    if target.form = .place then
      let ⟨more, r₁, h₁⟩ ← moreTargets r
      return ⟨target.tree :: more, r₁, Nat.lt_succ_of_lt (Nat.lt_trans h₁ h)⟩
    else unexpected r
  | ts => unexpected ts
termination_by 10 * ts.length + 3
end

/-- Reads all tokens as the statements of a program. -/
def program (ts : List Token) : Except SyntaxError (List Tree) := do
  let ⟨list, r, _⟩ ← statements ts
  if r.isEmpty then return list else unexpected r

/-- Reads Lua text as the statements of a program. -/
def parse (source : String) : Except Error (List Tree) :=
  let read : Except SyntaxError (List Token × List Tree) := do
    let ts ← Token.scan source
    let list ← program ts
    return (ts, list)
  match read with
  | .error e => .error (.syntactic e.message)
  | .ok (ts, list) => if ts.any fun t => t.lexeme.lacksValue then .error .valueless else .ok list

end ValueTrace.Lua
