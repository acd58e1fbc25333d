import ValueTrace.Lua.Tree.Lower
import ValueTrace.Proofs.Attempts

/-!
# What lowering gives

Every Lua tree becomes one node, except that an assignment becomes one assignment for each target
(`Tree.lower_cases`). Only a plain name becomes a variable, also as a target
(`map_variableName?_lowerFirst`). The statements of a list are lowered one after the other
(`lowerStatements_cons`), and so are operands and arguments (`lowerAll_eq`, `lowerArguments_eq`).
The values and targets of an assignment are lowered by turns, which makes a difference only where
one of them fails (`assignments_eq_ok`). What holds of a tree whenever it holds of its parts holds of
every tree (`Tree.induct`).
-/

namespace ValueTrace

/-- The name of a variable. -/
def Node.variableName? : Node → Option String
  | .variable x _ => some x
  | _ => none

theorem Node.eq_variable {n : Node} {x : String} (h : n.variableName? = some x) :
    ∃ line, n = .variable x line := by
  unfold variableName? at h
  split at h
  · cases h
    exact ⟨_, rfl⟩
  · cases h

namespace Lua

/-- The name that a tree consists of. -/
def Tree.plainName? : Tree → Option String
  | .name id _ _ => some id
  | _ => none

/-! ## Induction -/

/-- The trees in a field. -/
def Field.parts (f : Field) : List Tree := f.key.toList ++ [f.value]

/-- The trees directly inside a tree; what a field or a body is made of counts as if it stood in its
place. -/
def Tree.parts : Tree → List Tree
  | .name _ attrib _ => attrib.toList
  | .number _ _ | .string _ _ | .comment _ _ => []
  | .table fields _ => fields.flatMap Field.parts
  | .field f => f.parts
  | .index value key _ _ => [value, key]
  | .call callee args _ => callee :: args
  | .invoke source method args _ => source :: method :: args
  | .assign _ targets values _ => targets ++ values
  | .function _ f params body _ => f :: (params ++ body.statements)
  | .closure params body _ => params ++ body.statements
  | .block b => b.statements
  | .construct _ parts _ => parts

theorem Field.sizeOf_lt_of_mem_parts {f : Field} {p : Tree} (h : p ∈ f.parts) :
    sizeOf p < sizeOf f := by
  obtain ⟨key, value, bracketed, line⟩ := f
  rw [parts, List.mem_append, Option.mem_toList, List.mem_singleton] at h
  simp only [Field.mk.sizeOf_spec]
  rcases h with hk | rfl
  · cases hk
    simp only [Option.some.sizeOf_spec]
    omega
  · omega

theorem Block.sizeOf_lt_of_mem_statements {b : Block} {t : Tree} (h : t ∈ b.statements) :
    sizeOf t < sizeOf b := by
  obtain ⟨statements, line⟩ := b
  have := List.sizeOf_lt_of_mem (show t ∈ statements from h)
  simp only [Block.mk.sizeOf_spec]
  omega

theorem Tree.sizeOf_lt_of_mem_parts {t p : Tree} (h : p ∈ t.parts) : sizeOf p < sizeOf t := by
  cases t with
  | number | string | comment => cases h
  | name id attrib line =>
    cases Option.mem_toList.1 h
    simp only [name.sizeOf_spec, Option.some.sizeOf_spec]
    omega
  | table fields line =>
    obtain ⟨f, hf, hp⟩ := List.mem_flatMap.1 h
    have := List.sizeOf_lt_of_mem hf
    have := Field.sizeOf_lt_of_mem_parts hp
    simp only [table.sizeOf_spec]
    omega
  | field f =>
    have := Field.sizeOf_lt_of_mem_parts h
    simp only [field.sizeOf_spec]
    omega
  | index value key dotted line =>
    rw [parts, List.mem_cons, List.mem_singleton] at h
    simp only [index.sizeOf_spec]
    rcases h with rfl | rfl <;> omega
  | call callee args line =>
    simp only [call.sizeOf_spec]
    rcases List.mem_cons.1 h with rfl | ha
    · omega
    · have := List.sizeOf_lt_of_mem ha
      omega
  | invoke source method args line =>
    rw [parts, List.mem_cons, List.mem_cons] at h
    simp only [invoke.sizeOf_spec]
    rcases h with rfl | rfl | ha
    · omega
    · omega
    · have := List.sizeOf_lt_of_mem ha
      omega
  | assign isLocal targets values line =>
    simp only [assign.sizeOf_spec]
    rcases List.mem_append.1 h with ht | hv
    · have := List.sizeOf_lt_of_mem ht
      omega
    · have := List.sizeOf_lt_of_mem hv
      omega
  | function isLocal f params body line =>
    rw [parts, List.mem_cons, List.mem_append] at h
    simp only [function.sizeOf_spec]
    rcases h with rfl | hp | hb
    · omega
    · have := List.sizeOf_lt_of_mem hp
      omega
    · have := Block.sizeOf_lt_of_mem_statements hb
      omega
  | closure params body line =>
    simp only [closure.sizeOf_spec]
    rcases List.mem_append.1 h with hp | hb
    · have := List.sizeOf_lt_of_mem hp
      omega
    · have := Block.sizeOf_lt_of_mem_statements hb
      omega
  | block b =>
    have := Block.sizeOf_lt_of_mem_statements h
    simp only [block.sizeOf_spec]
    omega
  | construct kind parts line =>
    have := List.sizeOf_lt_of_mem (show p ∈ parts from h)
    simp only [construct.sizeOf_spec]
    omega

/-- Induction over the parts of a tree. -/
@[elab_as_elim]
theorem Tree.induct {P : Tree → Prop} (step : ∀ t, (∀ p ∈ t.parts, P p) → P t) (t : Tree) : P t :=
  step t fun p _ => induct step p
termination_by sizeOf t
decreasing_by exact sizeOf_lt_of_mem_parts ‹_›

variable {line : Int}

/-! ## Lists of trees -/

theorem Tree.eq_comment {t : Tree} (h : t.isComment = true) :
    ∃ text own, t = .comment text own := by
  cases t with
  | comment text own => exact ⟨text, own, rfl⟩
  | _ => cases h

/-- The first trees of a list, each as one node. -/
def lowerFirst (line : Int) (count : Nat) (ts : List Tree) : Except Error (List Node) :=
  List.map group <$> (ts.take count).mapM (Tree.lower line)

theorem lowerFirst_nil (count : Nat) : lowerFirst line count [] = .ok [] := by
  rw [lowerFirst, List.take_nil]
  rfl

theorem lowerFirst_cons_eq_ok_iff {count : Nat} {t : Tree} {ts : List Tree} {ns : List Node} :
    lowerFirst line (count + 1) (t :: ts) = .ok ns ↔ ∃ lowered rest,
      t.lower line = .ok lowered ∧ lowerFirst line count ts = .ok rest ∧
        ns = group lowered :: rest := by
  have hcons : lowerFirst line (count + 1) (t :: ts) = (do
      let lowered ← t.lower line
      let rest ← lowerFirst line count ts
      return group lowered :: rest) := by
    simp [lowerFirst]
  rw [hcons, bind_eq_ok_iff]
  refine exists_congr fun lowered => ?_
  rw [bind_eq_ok_iff, ← exists_and_left]
  refine exists_congr fun rest => and_congr_right fun _ => and_congr_right fun _ => ?_
  exact ⟨fun h => (Except.ok.inj h).symm, congrArg Except.ok ∘ Eq.symm⟩

theorem lowerAll_eq (ts : List Tree) :
    lowerAll line ts =
      List.flatten <$> (ts.filter fun t => !t.isComment).mapM (Tree.lower line) := by
  induction ts with
  | nil => rw [lowerAll]; rfl
  | cons t ts ih =>
    rw [lowerAll, ih]
    cases hc : t.isComment with
    | false => simp [hc]
    | true =>
      obtain ⟨text, own, rfl⟩ := Tree.eq_comment hc
      rw [Tree.lower, List.filter_cons_of_neg (by simp [hc])]
      simp only [if_true, bind_pure]
      rfl

theorem lowerArguments_eq (ts : List Tree) :
    lowerArguments line ts =
      List.map (fun ns => ⟨group ns, none, line⟩) <$> ts.mapM (Tree.lower line) := by
  induction ts with
  | nil => rw [lowerArguments]; rfl
  | cons t ts ih =>
    rw [lowerArguments, ih]
    simp

theorem lowerStatements_of_comment {t : Tree} (h : t.isComment = true) (ts : List Tree) :
    lowerStatements line (t :: ts) = lowerStatements line ts := by
  rw [lowerStatements, if_pos h]

theorem lowerStatements_cons {t : Tree} {ts : List Tree} {nodes : List Node}
    (hc : t.isComment = false) (h : lowerStatements line (t :: ts) = .ok nodes) :
    ∃ lowered rest, let here := lineOr t.firstLine line
      t.lower here = .ok lowered ∧ lowerStatements here ts = .ok rest ∧
        nodes = lowered.map asStatement ++ rest := by
  rw [lowerStatements, if_neg (by simp [hc])] at h
  obtain ⟨lowered, hlowered, h⟩ := bind_eq_ok_iff.1 h
  obtain ⟨rest, hrest, h⟩ := bind_eq_ok_iff.1 h
  cases h
  exact ⟨lowered, rest, hlowered, hrest, rfl⟩

/-! ## Assignments -/

/-- One assignment for each target; a target without a value is assigned nil. -/
def assignEach (line : Int) : (targets values : List Node) → List Node
  | [], _ => []
  | t :: ts, [] => .assign t (.operation Construct.nil.tag [] line) line :: assignEach line ts []
  | t :: ts, v :: vs => .assign t v line :: assignEach line ts vs

theorem lowerEach_eq_map (ts : List Tree) : lowerEach line ts = ts.map (Tree.lower line) := by
  induction ts with
  | nil => rw [lowerEach, List.map_nil]
  | cons t ts ih => rw [lowerEach, ih, List.map_cons]

/-- Where an assignment can be lowered, so can all its targets and the values that belong to
them. -/
theorem assignments_eq_ok {ts vs : List Tree} {ns : List Node}
    (h : assignments line (lowerEach line ts) (lowerEach line vs) = .ok ns) :
    ∃ targets values, lowerFirst line ts.length ts = .ok targets ∧
      lowerFirst line ts.length vs = .ok values ∧ ns = assignEach line targets values := by
  induction ts generalizing vs ns with
  | nil =>
    rw [lowerEach, assignments] at h
    cases h
    exact ⟨[], [], rfl, rfl, rfl⟩
  | cons t ts ih =>
    cases vs with
    | nil =>
      rw [lowerEach, lowerEach, assignments] at h
      obtain ⟨target, htarget, h⟩ := bind_eq_ok_iff.1 h
      obtain ⟨rest, hrest, h⟩ := bind_eq_ok_iff.1 h
      cases h
      obtain ⟨targets, values, htargets, hvalues, rfl⟩ :=
        ih (show assignments line (lowerEach line ts) (lowerEach line []) = _ by rwa [lowerEach])
      rw [lowerFirst_nil] at hvalues ⊢
      cases hvalues
      exact ⟨_, _, lowerFirst_cons_eq_ok_iff.2 ⟨target, targets, htarget, htargets, rfl⟩, rfl, rfl⟩
    | cons v vs =>
      rw [lowerEach, lowerEach, assignments] at h
      obtain ⟨value, hvalue, h⟩ := bind_eq_ok_iff.1 h
      obtain ⟨target, htarget, h⟩ := bind_eq_ok_iff.1 h
      obtain ⟨rest, hrest, h⟩ := bind_eq_ok_iff.1 h
      cases h
      obtain ⟨targets, values, htargets, hvalues, rfl⟩ := ih hrest
      exact ⟨_, _, lowerFirst_cons_eq_ok_iff.2 ⟨target, targets, htarget, htargets, rfl⟩,
        lowerFirst_cons_eq_ok_iff.2 ⟨value, values, hvalue, hvalues, rfl⟩, rfl⟩

/-- Values without a target are not looked at. -/
theorem assignments_take (xs ys : List (Except Error (List Node))) :
    assignments line xs (ys.take xs.length) = assignments line xs ys := by
  induction xs generalizing ys with
  | nil => rfl
  | cons x xs ih =>
    cases ys with
    | nil => rfl
    | cons y ys => rw [List.length_cons, List.take_succ_cons, assignments, assignments, ih]

/-! ## One tree -/

/-- A function with a plain name is a declaration. -/
theorem Tree.lower_function_of_name {f : Tree} {id : String} (h : f.plainName? = some id)
    (isLocal : Bool) (params : List Tree) (body : Block) (own : Int) :
    lower line (.function isLocal f params body own) = (do
      let statements ← lowerStatements (lineOr own line) body.statements
      return [.function id (paramsOf (lineOr own line) params) statements (lineOr own line)]) := by
  obtain ⟨statements, bodyLine⟩ := body
  cases f with
  | name id' attrib nameLine =>
    cases h
    rw [lower]
  | _ => cases h

/-- Any other function is kept as it is. -/
theorem Tree.lower_function_of_other {f : Tree} (h : f.plainName? = none)
    (isLocal : Bool) (params : List Tree) (body : Block) (own : Int) :
    lower line (.function isLocal f params body own) = (do
      let names ← f.lower (lineOr own line)
      let paramNodes ← lowerAll (lineOr own line) params
      let statements ← lowerAll (lineOr body.line (lineOr own line)) body.statements
      return [.operation (if isLocal then "LocalFunction" else "Function")
        (names ++ paramNodes ++
          [.operation "Block" statements (lineOr body.line (lineOr own line))])
        (lineOr own line)]) := by
  obtain ⟨statements, bodyLine⟩ := body
  rw [lower]
  rintro id attrib nameLine rfl
  cases h

/-- What a tree becomes: assignments, if it is one itself, and otherwise one node, which is no
assignment and is a variable only if the tree is a name. -/
theorem Tree.lower_cases {t : Tree} {ns : List Node} (h : t.lower line = .ok ns) :
    (∃ isLocal targets values own ts vs, t = .assign isLocal targets values own ∧
      lowerFirst (lineOr own line) targets.length targets = .ok ts ∧
      lowerFirst (lineOr own line) targets.length values = .ok vs ∧
      ns = assignEach (lineOr own line) ts vs) ∨
    ((∀ isLocal targets values own, t ≠ .assign isLocal targets values own) ∧
      ∃ n, ns = [n] ∧ n.variableName? = t.plainName? ∧
        ∀ target value line, n ≠ .assign target value line) := by
  cases t with
  | assign isLocal targets values own =>
    rw [lower] at h
    obtain ⟨ts, vs, hts, hvs, rfl⟩ := assignments_eq_ok h
    exact .inl ⟨isLocal, targets, values, own, ts, vs, rfl, hts, hvs, rfl⟩
  | name | closure | comment =>
    rw [lower] at h
    cases h
    exact .inr ⟨nofun, _, rfl, rfl, nofun⟩
  | number n own =>
    cases n <;>
    · rw [lower] at h
      cases h
      exact .inr ⟨nofun, _, rfl, rfl, nofun⟩
  | string bytes own =>
    rw [lower] at h
    split at h
    · cases h
      exact .inr ⟨nofun, _, rfl, rfl, nofun⟩
    · cases h
  | table fields own | construct kind parts own =>
    rw [lower] at h
    obtain ⟨parts, -, h⟩ := bind_eq_ok_iff.1 h
    cases h
    exact .inr ⟨nofun, _, rfl, rfl, nofun⟩
  | block b =>
    obtain ⟨statements, own⟩ := b
    rw [lower] at h
    obtain ⟨parts, -, h⟩ := bind_eq_ok_iff.1 h
    cases h
    exact .inr ⟨nofun, _, rfl, rfl, nofun⟩
  | field f =>
    obtain ⟨key, value, bracketed, own⟩ := f
    cases key with
    | none =>
      rw [lower] at h
      obtain ⟨values, -, h⟩ := bind_eq_ok_iff.1 h
      cases h
      exact .inr ⟨nofun, _, rfl, rfl, nofun⟩
    | some key =>
      rw [lower] at h
      obtain ⟨keys, -, h⟩ := bind_eq_ok_iff.1 h
      obtain ⟨values, -, h⟩ := bind_eq_ok_iff.1 h
      cases h
      exact .inr ⟨nofun, _, rfl, rfl, nofun⟩
  | index value key dotted own | call callee args own | invoke source method args own =>
    rw [lower] at h
    obtain ⟨first, -, h⟩ := bind_eq_ok_iff.1 h
    obtain ⟨second, -, h⟩ := bind_eq_ok_iff.1 h
    cases h
    exact .inr ⟨nofun, _, rfl, rfl, nofun⟩
  | function isLocal f params body own =>
    cases hf : f.plainName? with
    | some id =>
      rw [lower_function_of_name hf] at h
      obtain ⟨body, -, h⟩ := bind_eq_ok_iff.1 h
      cases h
      exact .inr ⟨nofun, _, rfl, rfl, nofun⟩
    | none =>
      rw [lower_function_of_other hf] at h
      obtain ⟨names, -, h⟩ := bind_eq_ok_iff.1 h
      obtain ⟨params, -, h⟩ := bind_eq_ok_iff.1 h
      obtain ⟨body, -, h⟩ := bind_eq_ok_iff.1 h
      cases h
      exact .inr ⟨nofun, _, rfl, rfl, nofun⟩

/-- Several assignments in the place of one node are not a variable. -/
theorem variableName?_group_assignEach (line : Int) (ts vs : List Node) :
    (group (assignEach line ts vs)).variableName? = none := by
  match ts, vs with
  | [], _ => rfl
  | [_], [] | [_], _ :: _ => rfl
  | _ :: _ :: _, [] | _ :: _ :: _, [_] | _ :: _ :: _, _ :: _ :: _ => rfl

theorem Tree.variableName?_group {t : Tree} {ns : List Node} (h : t.lower line = .ok ns) :
    (group ns).variableName? = t.plainName? := by
  rcases lower_cases h with ⟨_, _, _, _, ts, vs, rfl, -, -, rfl⟩ | ⟨-, n, rfl, hn, -⟩
  · exact variableName?_group_assignEach _ ts vs
  · exact hn

/-- Of the targets of an assignment, the plain names become variables. -/
theorem map_variableName?_lowerFirst {ts : List Tree} {ns : List Node}
    (h : lowerFirst line ts.length ts = .ok ns) :
    ns.map Node.variableName? = ts.map Tree.plainName? := by
  induction ts generalizing ns with
  | nil =>
    cases h
    rfl
  | cons t ts ih =>
    obtain ⟨lowered, rest, hlowered, hrest, rfl⟩ := lowerFirst_cons_eq_ok_iff.1 h
    rw [List.map_cons, List.map_cons, Tree.variableName?_group hlowered, ih hrest]

end Lua

end ValueTrace
