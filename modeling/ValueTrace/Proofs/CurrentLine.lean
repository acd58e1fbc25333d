import ValueTrace.Proofs.Lowering

/-!
# The current line

Lowering hands every tree the line that holds where it stands. The same can be done by a walk over
the trees that keeps the current line in a variable: it enters the line of each tree, converts its
parts, and puts the line back that was current before, also if the conversion fails. Only a list of
statements moves the current line on. The walk gives what lowering gives, and no line that is
entered inside a tree is left behind (`Tree.walk_eq`). The statements of two lists one after the
other are therefore lowered as each list by itself, the second one from the line at which the first
one ends.
-/

namespace ValueTrace.Lua

/-! ## The walk -/

/-- A conversion that keeps the current line in a variable. One that fails has a current line at
its end too. -/
abbrev Walk := EStateM Error Int

namespace Walk

variable {α β : Type}

/-- Makes a line the current one, unless it is missing. -/
def enter (line : Int) : Walk Unit := modify (lineOr line)

/-- Converts something with a line of its own, and puts the current line back in any case. -/
def visiting (own : Int) (x : Walk α) : Walk α := do
  let saved ← get
  enter own
  try x finally set saved

/-- Does one conversion after the other. -/
def inOrder : List (Walk α) → Walk (List α)
  | [] => return []
  | x :: xs => do
    let first ← x
    let rest ← inOrder xs
    return first :: rest

/-- Keeps a construct under its name, with its parts. -/
def keep (name : String) (parts : List (Walk (List Node))) : Walk (List Node) := do
  let operands ← inOrder parts
  return [.operation name operands.flatten (← get)]

/-- Converts what has to be one node. -/
def single (x : Walk (List Node)) : Walk Node := do return group (← x)

/-- Converts a tree in a place where a name may not be a variable. -/
def identifier (plain : Bool) (t : Tree) (x : Walk (List Node)) : Walk Node :=
  match plain, t with
  | true, .name id _ _ => do return .name id (← get)
  | _, _ => single x

/-- Converts the key of a field that stands on the given line. -/
def key (bracketed : Bool) (line : Int) (t : Tree) (x : Walk (List Node)) : Walk (Option Node) :=
  match bracketed, t with
  | false, .name id _ _ => return some (.text id line)
  | false, .number _ _ => return none
  | _, _ => do return some (← single x)

/-- Converts the arguments of a call on the given line. -/
def arguments (line : Int) (xs : List (Walk (List Node))) : Walk (List Argument) := do
  return (← inOrder xs).map fun ns => ⟨group ns, none, line⟩

/-- Assigns to one target after the other; each value is converted before its target. -/
def assign (line : Int) : (targets values : List (Walk (List Node))) → Walk (List Node)
  | [], _ => return []
  | t :: ts, [] => do
    let target ← t
    let rest ← assign line ts []
    return .assign (group target) (.operation Construct.nil.tag [] line) line :: rest
  | t :: ts, v :: vs => do
    let value ← v
    let target ← t
    let rest ← assign line ts vs
    return .assign (group target) (group value) line :: rest

end Walk

open Walk

mutual
/-- Converts a tree under the current line. -/
def Tree.walk : Tree → Walk (List Node)
  | .name id _ own => visiting own do return [.variable id (← get)]
  | .number (.int n) own => visiting own do return [.int n (← get)]
  | .number (.float x) own => visiting own do return [.float x (← get)]
  | .string bytes own => visiting own do
    match String.fromUTF8? bytes with
    | some s => return [.text s (← get)]
    | none => throw (.encoding bytes)
  | .table fields own => visiting own do
    let line ← get
    return [.array (← walkFields fields) line]
  | .field ⟨none, value, _, own⟩ => visiting own (keep "Field" [value.walk])
  | .field ⟨some key, value, _, own⟩ => visiting own (keep "Field" [key.walk, value.walk])
  | .index value key dotted own => visiting own do
    let keyNode ← identifier dotted key key.walk
    let valueNode ← single value.walk
    return [.operation "Index" [valueNode, keyNode] (← get)]
  | .call callee args own => visiting own do
    let line ← get
    let calleeNode ← identifier true callee callee.walk
    return [.call calleeNode (← arguments line (walkEach args)) line]
  | .invoke source _ args own => visiting own do
    let line ← get
    let sourceNode ← single source.walk
    return [.call (.operation "Invoke" [sourceNode] line) (← arguments line (walkEach args)) line]
  | .assign _ targets values own => visiting own do
    Walk.assign (← get) (walkEach targets) (walkEach values)
  | .function isLocal name params ⟨statements, bodyLine⟩ own => visiting own do
    match name with
    | .name id _ _ =>
      let line ← get
      return [.function id (paramsOf line params) (← walkStatements statements) line]
    | _ =>
      let body := visiting bodyLine (keep "Block" (walkParts statements))
      let label := if isLocal then "LocalFunction" else "Function"
      keep label (name.walk :: (walkParts params ++ [body]))
  | .closure _ _ own => visiting own do return [.operation "AnonymousFunction" [] (← get)]
  | .block ⟨statements, own⟩ => visiting own (keep "Block" (walkParts statements))
  | .comment _ own => visiting own (keep "Comment" [])
  | .construct kind parts own => visiting own (keep kind.tag (walkParts parts))
/-- The conversions of several trees. -/
def walkEach : List Tree → List (Walk (List Node))
  | [] => []
  | t :: ts => t.walk :: walkEach ts
/-- The conversions of several trees, without comments. -/
def walkParts : List Tree → List (Walk (List Node))
  | [] => []
  | t :: ts => if t.isComment then walkParts ts else t.walk :: walkParts ts
/-- Converts the fields of a table. The line of a field does not become the current one. -/
def walkFields : List Field → Walk (List Item)
  | [] => return []
  | ⟨none, value, _, own⟩ :: fs => do
    let line := lineOr own (← get)
    let valueNode ← single value.walk
    let rest ← walkFields fs
    return ⟨valueNode, none, line⟩ :: rest
  | ⟨some key, value, bracketed, own⟩ :: fs => do
    let line := lineOr own (← get)
    let valueNode ← single value.walk
    let keyNode ← Walk.key bracketed line key key.walk
    let rest ← walkFields fs
    return ⟨valueNode, keyNode, line⟩ :: rest
/-- Converts statements. The line of each becomes the current one and stays so. -/
def walkStatements : List Tree → Walk (List Node)
  | [] => return []
  | t :: ts => do
    if t.isComment then
      walkStatements ts
    else
      enter t.firstLine
      let first ← t.walk
      let rest ← walkStatements ts
      return first.map asStatement ++ rest
end

/-! ## What a walk comes to -/

namespace Walk

variable {α β : Type} {line own : Int}

/-- The end of a conversion with the given result and the given current line. -/
def ended (line : Int) : Except Error α → EStateM.Result Error Int α
  | .ok a => .ok a line
  | .error e => .error e line

/-- The result of a conversion, without the current line at its end. -/
def outcome : EStateM.Result Error Int α → Except Error α
  | .ok a _ => .ok a
  | .error e _ => .error e

theorem outcome_ended (r : Except Error α) : outcome (ended line r) = r := by
  cases r <;> rfl

/-- Whatever happens inside, the line that was current before is current again. -/
theorem visiting_eq (x : Walk α) :
    (visiting own x).run line = ended line (outcome (x.run (lineOr own line))) := by
  unfold visiting
  show EStateM.bind (tryFinally' x _) _ (lineOr own line) = _
  simp only [EStateM.bind, tryFinally', EStateM.run]
  cases x (lineOr own line) <;> rfl

theorem visiting_of_ended {x : Walk α} {r : Except Error α}
    (hx : x.run (lineOr own line) = ended (lineOr own line) r) :
    (visiting own x).run line = ended line r := by
  rw [visiting_eq, hx, outcome_ended]

theorem pure_eq_ended (a : α) : (pure a : Walk α).run line = ended line (pure a) := rfl

theorem run_bind_of_ok {x : Walk α} {a : α} {after : Int} (hx : x.run line = .ok a after)
    (f : α → Walk β) : (x >>= f).run line = (f a).run after := by
  show EStateM.bind x f line = _
  rw [EStateM.bind, show x line = _ from hx]
  rfl

theorem run_bind_of_error {x : Walk α} {e : Error} {after : Int} (hx : x.run line = .error e after)
    (f : α → Walk β) : (x >>= f).run line = .error e after := by
  show EStateM.bind x f line = _
  rw [EStateM.bind, show x line = _ from hx]

theorem bind_eq_ended {x : Walk α} {f : α → Walk β} {r : Except Error α} {g : α → Except Error β}
    (hx : x.run line = ended line r) (hf : ∀ a, (f a).run line = ended line (g a)) :
    (x >>= f).run line = ended line (r >>= g) := by
  cases r with
  | error e => exact run_bind_of_error hx f
  | ok a => exact (run_bind_of_ok hx f).trans (hf a)

theorem outcome_map (x : Walk α) (f : α → β) :
    outcome ((do return f (← x) : Walk β).run line) = f <$> outcome (x.run line) := by
  show outcome (EStateM.bind x _ line) = f <$> outcome (x line)
  unfold EStateM.bind
  cases x line <;> rfl

theorem inOrder_nil : (inOrder ([] : List (Walk α))).run line = ended line (pure []) := rfl

theorem inOrder_cons {x : Walk α} {xs : List (Walk α)} {r : Except Error α}
    {rs : Except Error (List α)} (hx : x.run line = ended line r)
    (hxs : (inOrder xs).run line = ended line rs) :
    (inOrder (x :: xs)).run line = ended line (do return (← r) :: (← rs)) :=
  bind_eq_ended hx fun _ => bind_eq_ended hxs fun _ => pure_eq_ended _

theorem inOrder_append {xs ys : List (Walk α)} {rs rs' : Except Error (List α)}
    (hxs : (inOrder xs).run line = ended line rs) (hys : (inOrder ys).run line = ended line rs') :
    (inOrder (xs ++ ys)).run line = ended line (do return (← rs) ++ (← rs')) := by
  have happend : inOrder (xs ++ ys) = do return (← inOrder xs) ++ (← inOrder ys) := by
    clear hxs
    induction xs with
    | nil => simp [inOrder]
    | cons x xs ih => simp [inOrder, ih]
  rw [happend]
  exact bind_eq_ended hxs fun _ => bind_eq_ended hys fun _ => pure_eq_ended _

theorem single_eq {x : Walk (List Node)} {r : Except Error (List Node)}
    (hx : x.run line = ended line r) : (single x).run line = ended line (group <$> r) := by
  rw [map_eq_pure_bind]
  exact bind_eq_ended hx fun _ => rfl

theorem identifier_eq {t : Tree} {x : Walk (List Node)}
    (hx : x.run line = ended line (t.lower line))
    (plain : Bool) : (identifier plain t x).run line = ended line
      ((fun ns => if plain then identifierOr line ns t else group ns) <$> t.lower line) := by
  cases plain with
  | false => cases t <;> exact single_eq hx
  | true =>
    cases t with
    | name id attrib own =>
      rw [Tree.lower]
      rfl
    | _ => exact single_eq hx

theorem key_eq {t : Tree} {x : Walk (List Node)} (hx : x.run line = ended line (t.lower line))
    (bracketed : Bool) (own : Int) :
    (key bracketed own t x).run line =
      ended line ((fun ns => fieldKey bracketed own ns t) <$> t.lower line) := by
  have hsingle : (do return some (← single x) : Walk (Option Node)).run line =
      ended line ((fun ns => some (group ns)) <$> t.lower line) := by
    refine (bind_eq_ended (single_eq hx) fun _ => pure_eq_ended _).trans ?_
    simp
  cases bracketed with
  | true => cases t <;> exact hsingle
  | false =>
    cases t with
    | name id attrib own =>
      rw [Tree.lower]
      rfl
    | number n own =>
      cases n <;>
      · rw [Tree.lower]
        rfl
    | _ => exact hsingle

theorem keep_eq {xs : List (Walk (List Node))} {r : Except Error (List (List Node))}
    (hx : (inOrder xs).run line = ended line r) (name : String) :
    (keep name xs).run line = ended line (do return [.operation name (← r).flatten line]) :=
  bind_eq_ended hx fun _ => rfl

end Walk

section

variable {line : Int} {ts : List Tree}

theorem walkEach_eq_map (ts : List Tree) : walkEach ts = ts.map Tree.walk := by
  induction ts with
  | nil => rw [walkEach, List.map_nil]
  | cons t ts ih => rw [walkEach, ih, List.map_cons]

theorem walkParts_eq_map (ts : List Tree) :
    walkParts ts = (ts.filter fun t => !t.isComment).map Tree.walk := by
  induction ts with
  | nil => rw [walkParts]; rfl
  | cons t ts ih =>
    rw [walkParts, ih]
    cases h : t.isComment with
    | true => rw [if_pos rfl, List.filter_cons_of_neg (by simp [h])]
    | false => rw [if_neg Bool.false_ne_true, List.filter_cons_of_pos (by simp [h]), List.map_cons]

theorem inOrder_map_walk (h : ∀ t ∈ ts, t.walk.run line = ended line (t.lower line)) :
    (inOrder (ts.map Tree.walk)).run line = ended line (ts.mapM (Tree.lower line)) := by
  induction ts with
  | nil => rfl
  | cons t ts ih =>
    rw [List.forall_mem_cons] at h
    rw [List.map_cons, List.mapM_cons]
    exact inOrder_cons h.1 (ih h.2)

theorem inOrder_walkParts (h : ∀ t ∈ ts, t.walk.run line = ended line (t.lower line)) :
    (inOrder (walkParts ts)).run line =
      ended line ((ts.filter fun t => !t.isComment).mapM (Tree.lower line)) := by
  rw [walkParts_eq_map]
  exact inOrder_map_walk fun t ht => h t (List.mem_filter.1 ht).1

theorem keep_walkParts (h : ∀ t ∈ ts, t.walk.run line = ended line (t.lower line)) (name : String) :
    (keep name (walkParts ts)).run line =
      ended line (do return [.operation name (← lowerAll line ts) line]) := by
  rw [lowerAll_eq, keep_eq (inOrder_walkParts h)]
  simp

theorem arguments_walkEach (h : ∀ t ∈ ts, t.walk.run line = ended line (t.lower line)) :
    (arguments line (walkEach ts)).run line = ended line (lowerArguments line ts) := by
  rw [walkEach_eq_map, lowerArguments_eq, map_eq_pure_bind]
  exact bind_eq_ended (inOrder_map_walk h) fun _ => rfl

theorem assign_walkEach {values : List Tree}
    (ht : ∀ t ∈ ts, t.walk.run line = ended line (t.lower line))
    (hv : ∀ v ∈ values, v.walk.run line = ended line (v.lower line)) :
    (Walk.assign line (walkEach ts) (walkEach values)).run line =
      ended line (assignments line (lowerEach line ts) (lowerEach line values)) := by
  induction ts generalizing values with
  | nil =>
    rw [walkEach, lowerEach, assignments]
    rfl
  | cons t ts ih =>
    rw [List.forall_mem_cons] at ht
    cases values with
    | nil =>
      have hrest := ih ht.2 hv
      rw [walkEach, lowerEach] at hrest
      rw [walkEach, walkEach, lowerEach, lowerEach, Walk.assign, assignments]
      exact bind_eq_ended ht.1 fun _ => bind_eq_ended hrest fun _ => pure_eq_ended _
    | cons v values =>
      rw [List.forall_mem_cons] at hv
      rw [walkEach, walkEach, lowerEach, lowerEach, Walk.assign, assignments]
      exact bind_eq_ended hv.1 fun _ => bind_eq_ended ht.1 fun _ =>
        bind_eq_ended (ih ht.2 hv.2) fun _ => pure_eq_ended _

theorem walkFields_eq {fields : List Field}
    (h : ∀ p ∈ fields.flatMap Field.parts, p.walk.run line = ended line (p.lower line)) :
    (walkFields fields).run line = ended line (lowerFields line fields) := by
  induction fields with
  | nil =>
    rw [walkFields, lowerFields]
    rfl
  | cons f fields ih =>
    obtain ⟨key, value, bracketed, own⟩ := f
    rw [List.flatMap_cons, List.forall_mem_append] at h
    have hvalue := single_eq (h.1 value (List.mem_append_right _ List.mem_cons_self))
    have hrest := ih h.2
    cases key with
    | none =>
      rw [walkFields, lowerFields]
      refine (bind_eq_ended hvalue fun _ => bind_eq_ended hrest fun _ => pure_eq_ended _).trans ?_
      simp
    | some key =>
      have hkey := key_eq (h.1 key (List.mem_append_left _ List.mem_cons_self)) bracketed
        (lineOr own line)
      rw [walkFields, lowerFields]
      refine (bind_eq_ended hvalue fun _ => bind_eq_ended hkey fun _ => bind_eq_ended hrest
        fun _ => pure_eq_ended _).trans ?_
      simp

end

/-! ## Statements -/

/-- The line that is current after statements: that of the last one with a line, where a statement
without one takes that of its first descendant with one and comments do not count. -/
def currentLine (start : Int) (ts : List Tree) : Int :=
  (((ts.filter fun t => !t.isComment).map Tree.firstLine).filter (· ≠ 0)).getLastD start

section

variable {line : Int} {t : Tree} {ts : List Tree}

theorem currentLine_cons_comment (h : t.isComment = true) :
    currentLine line (t :: ts) = currentLine line ts := by
  rw [currentLine, List.filter_cons_of_neg (by simp [h]), currentLine]

theorem currentLine_cons (h : t.isComment = false) :
    currentLine line (t :: ts) = currentLine (lineOr t.firstLine line) ts := by
  rw [currentLine, List.filter_cons_of_pos (by simp [h]), List.map_cons, currentLine]
  by_cases h0 : t.firstLine = 0
  · rw [List.filter_cons_of_neg (by simpa using h0), lineOr, if_pos h0]
  · rw [List.filter_cons_of_pos (by simpa using h0), lineOr, if_neg h0, List.getLastD_cons]

theorem lowerStatements_of_statement (h : t.isComment = false) (ts : List Tree) :
    lowerStatements line (t :: ts) = (do
      let first ← t.lower (lineOr t.firstLine line)
      let rest ← lowerStatements (lineOr t.firstLine line) ts
      return first.map asStatement ++ rest) := by
  rw [lowerStatements, if_neg (by simp [h])]

theorem walkStatements_of_statement (h : t.isComment = false) (ts : List Tree) :
    (walkStatements (t :: ts)).run line = (do
      let first ← t.walk
      let rest ← walkStatements ts
      return first.map asStatement ++ rest : Walk (List Node)).run (lineOr t.firstLine line) := by
  rw [walkStatements, if_neg (by simp [h])]
  rfl

theorem lowerStatements_append (ts us : List Tree) :
    lowerStatements line (ts ++ us) =
      do return (← lowerStatements line ts) ++ (← lowerStatements (currentLine line ts) us) := by
  induction ts generalizing line with
  | nil =>
    rw [List.nil_append, lowerStatements]
    show _ = do return [] ++ (← lowerStatements line us)
    simp
  | cons t ts ih =>
    rw [List.cons_append]
    cases h : t.isComment with
    | true =>
      rw [lowerStatements_of_comment h, lowerStatements_of_comment h, ih,
        currentLine_cons_comment h]
    | false =>
      simp only [lowerStatements_of_statement h, currentLine_cons h, ih, bind_assoc, pure_bind,
        List.append_assoc]

/-- Where statements can be lowered, the walk gives the same nodes and ends on the current line;
where not, it fails in the same way. -/
theorem walkStatements_eq (h : ∀ t ∈ ts, ∀ line, t.walk.run line = ended line (t.lower line))
    (line : Int) :
    outcome ((walkStatements ts).run line) = lowerStatements line ts ∧
      ∀ ns, lowerStatements line ts = .ok ns →
        (walkStatements ts).run line = .ok ns (currentLine line ts) := by
  induction ts generalizing line with
  | nil =>
    rw [walkStatements, lowerStatements]
    refine ⟨rfl, fun ns hns => ?_⟩
    cases hns
    rfl
  | cons t ts ih =>
    rw [List.forall_mem_cons] at h
    cases hc : t.isComment with
    | true =>
      rw [walkStatements, if_pos hc, lowerStatements_of_comment hc, currentLine_cons_comment hc]
      exact ih h.2 line
    | false =>
      obtain ⟨houtcome, hok⟩ := ih h.2 (lineOr t.firstLine line)
      have ht := h.1 (lineOr t.firstLine line)
      rw [walkStatements_of_statement hc, lowerStatements_of_statement hc, currentLine_cons hc]
      cases hlower : t.lower (lineOr t.firstLine line) with
      | error e =>
        rw [hlower] at ht
        rw [run_bind_of_error ht]
        refine ⟨rfl, fun ns hns => ?_⟩
        cases hns
      | ok first =>
        rw [hlower] at ht
        rw [run_bind_of_ok ht]
        refine ⟨?_, fun ns hns => ?_⟩
        · rw [outcome_map, houtcome]
          exact map_eq_pure_bind _ _
        · obtain ⟨_, hfirst, hns⟩ := bind_eq_ok_iff.1 hns
          cases hfirst
          obtain ⟨rest, hrest, hns⟩ := bind_eq_ok_iff.1 hns
          cases hns
          rw [run_bind_of_ok (hok rest hrest)]
          rfl

end

/-! ## One tree -/

/-- The walk over a tree gives the nodes that lowering gives, or fails in the same way. In either
case it puts the current line back. -/
def Tree.WalkedAsLowered (t : Tree) : Prop := ∀ line, t.walk.run line = ended line (t.lower line)

namespace Tree

theorem walkedAsLowered_field {f : Field} (h : ∀ p ∈ f.parts, p.WalkedAsLowered) :
    (field f).WalkedAsLowered := by
  intro line
  obtain ⟨key, value, bracketed, own⟩ := f
  have hvalue := h value (List.mem_append_right _ List.mem_cons_self) (lineOr own line)
  cases key with
  | none =>
    rw [walk, lower]
    apply visiting_of_ended
    refine (keep_eq (inOrder_map_walk (List.forall_mem_singleton.2 hvalue)) _).trans ?_
    simp
  | some key =>
    have hkey := h key List.mem_cons_self (lineOr own line)
    rw [walk, lower]
    apply visiting_of_ended
    refine (keep_eq (inOrder_map_walk (List.forall_mem_cons.2
      ⟨hkey, List.forall_mem_singleton.2 hvalue⟩)) _).trans ?_
    simp

theorem walkedAsLowered_index {value key : Tree} (hvalue : value.WalkedAsLowered)
    (hkey : key.WalkedAsLowered) (dotted : Bool) (own : Int) :
    (index value key dotted own).WalkedAsLowered := by
  intro line
  have hkeyNode := identifier_eq (hkey (lineOr own line)) dotted
  have hvalueNode := single_eq (hvalue (lineOr own line))
  have hnode (k v : Node) :
      (do return [.operation "Index" [v, k] (← get)] : Walk (List Node)).run (lineOr own line) =
        ended (lineOr own line) (pure [.operation "Index" [v, k] _]) := rfl
  rw [walk, lower]
  apply visiting_of_ended
  refine (bind_eq_ended hkeyNode fun k => bind_eq_ended hvalueNode fun v => hnode k v).trans ?_
  simp

theorem walkedAsLowered_call {callee : Tree} {args : List Tree} (hcallee : callee.WalkedAsLowered)
    (hargs : ∀ t ∈ args, t.WalkedAsLowered) (own : Int) :
    (call callee args own).WalkedAsLowered := by
  intro line
  have hcalleeNode := identifier_eq (hcallee (lineOr own line)) true
  have hargNodes := arguments_walkEach fun t ht => hargs t ht (lineOr own line)
  rw [walk, lower]
  apply visiting_of_ended
  refine (bind_eq_ended hcalleeNode fun _ => bind_eq_ended hargNodes fun _ =>
    pure_eq_ended _).trans ?_
  simp

theorem walkedAsLowered_invoke {source : Tree} {args : List Tree}
    (hsource : source.WalkedAsLowered) (hargs : ∀ t ∈ args, t.WalkedAsLowered) (method : Tree)
    (own : Int) : (invoke source method args own).WalkedAsLowered := by
  intro line
  have hsourceNode := single_eq (hsource (lineOr own line))
  have hargNodes := arguments_walkEach fun t ht => hargs t ht (lineOr own line)
  rw [walk, lower]
  apply visiting_of_ended
  refine (bind_eq_ended hsourceNode fun _ => bind_eq_ended hargNodes fun _ =>
    pure_eq_ended _).trans ?_
  simp

/-- In the body of a function with a plain name the current line moves on, but only there. -/
theorem walkedAsLowered_function_of_name {f : Tree} {id : String} (hf : f.plainName? = some id)
    {body : Block} (hbody : ∀ t ∈ body.statements, t.WalkedAsLowered) (isLocal : Bool)
    (params : List Tree) (own : Int) :
    (function isLocal f params body own).WalkedAsLowered := by
  intro line
  rw [lower_function_of_name hf]
  obtain ⟨statements, bodyLine⟩ := body
  cases f with
  | name id' attrib nameLine =>
    cases hf
    rw [walk, visiting_eq]
    congr 1
    refine (outcome_map _ _).trans ?_
    rw [(walkStatements_eq hbody _).1]
    rfl
  | _ => cases hf

theorem walkedAsLowered_function_of_other {f : Tree} (hf : f.plainName? = none)
    {params : List Tree} {body : Block} (hwalk : f.WalkedAsLowered)
    (hparams : ∀ t ∈ params, t.WalkedAsLowered)
    (hbody : ∀ t ∈ body.statements, t.WalkedAsLowered) (isLocal : Bool) (own : Int) :
    (function isLocal f params body own).WalkedAsLowered := by
  intro line
  rw [lower_function_of_other hf]
  obtain ⟨statements, bodyLine⟩ := body
  have hblock := visiting_of_ended (keep_walkParts (fun t ht => hbody t ht
    (lineOr bodyLine (lineOr own line))) "Block")
  have hparts := inOrder_walkParts fun t ht => hparams t ht (lineOr own line)
  have hoperands := inOrder_cons (hwalk (lineOr own line))
    (inOrder_append hparts (inOrder_cons hblock inOrder_nil))
  rw [walk]
  · apply visiting_of_ended
    refine (keep_eq hoperands _).trans ?_
    simp [lowerAll_eq]
  · rintro id attrib nameLine rfl
    cases hf

theorem walk_eq (t : Tree) : t.WalkedAsLowered := by
  induction t using Tree.induct with
  | step t ih =>
    cases t with
    | name | closure | comment =>
      intro line
      rw [walk, lower]
      exact visiting_of_ended rfl
    | number n own =>
      intro line
      cases n <;>
      · rw [walk, lower]
        exact visiting_of_ended rfl
    | string bytes own =>
      intro line
      rw [walk, lower]
      apply visiting_of_ended
      cases String.fromUTF8? bytes <;> rfl
    | table fields own =>
      intro line
      rw [walk, lower]
      refine visiting_of_ended ?_
      exact bind_eq_ended (walkFields_eq fun p hp => ih p hp _) fun _ => pure_eq_ended _
    | construct kind parts own =>
      intro line
      rw [walk, lower]
      exact visiting_of_ended (keep_walkParts (fun p hp => ih p hp _) _)
    | block b =>
      intro line
      obtain ⟨statements, own⟩ := b
      rw [walk, lower]
      exact visiting_of_ended (keep_walkParts (fun p hp => ih p hp _) _)
    | field f => exact walkedAsLowered_field ih
    | index value key dotted own =>
      rw [parts, List.forall_mem_cons, List.forall_mem_singleton] at ih
      exact walkedAsLowered_index ih.1 ih.2 dotted own
    | call callee args own =>
      rw [parts, List.forall_mem_cons] at ih
      exact walkedAsLowered_call ih.1 ih.2 own
    | invoke source method args own =>
      rw [parts, List.forall_mem_cons, List.forall_mem_cons] at ih
      exact walkedAsLowered_invoke ih.1 ih.2.2 method own
    | assign isLocal targets values own =>
      rw [parts, List.forall_mem_append] at ih
      intro line
      rw [walk, lower]
      apply visiting_of_ended
      exact assign_walkEach (fun t ht => ih.1 t ht _) fun v hv => ih.2 v hv _
    | function isLocal f params body own =>
      rw [parts, List.forall_mem_cons, List.forall_mem_append] at ih
      cases hf : f.plainName? with
      | some id => exact walkedAsLowered_function_of_name hf ih.2.2 isLocal params own
      | none => exact walkedAsLowered_function_of_other hf ih.1 ih.2.1 ih.2.2 isLocal own

end Tree

/-! ## One list after another -/

section

variable {x y : Except Error (List Node)}

theorem append_eq_ok_iff {nodes : List Node} :
    (do return (← x) ++ (← y)) = Except.ok nodes ↔
      ∃ first second, x = .ok first ∧ y = .ok second ∧ nodes = first ++ second := by
  constructor
  · intro h
    obtain ⟨first, hx, h⟩ := bind_eq_ok_iff.1 h
    obtain ⟨second, hy, h⟩ := bind_eq_ok_iff.1 h
    cases h
    exact ⟨first, second, hx, hy, rfl⟩
  · rintro ⟨first, second, rfl, rfl, rfl⟩
    rfl

theorem append_eq_error_iff {e : Error} :
    (do return (← x) ++ (← y)) = Except.error e ↔
      x = .error e ∨ (∃ first, x = .ok first) ∧ y = .error e := by
  constructor
  · intro h
    rcases bind_eq_error_iff.1 h with hx | ⟨first, hx, h⟩
    · exact .inl hx
    rcases bind_eq_error_iff.1 h with hy | ⟨second, -, h⟩
    · exact .inr ⟨⟨first, hx⟩, hy⟩
    · cases h
  · rintro (rfl | ⟨⟨first, rfl⟩, rfl⟩) <;> rfl

end

/-- Statements are lowered one list after the other. The second list starts on the line that is
current after the first, and the first failure is the failure of the whole. Keeping the current line
in a variable comes to the same: a walk over statements ends on the line that is current after
them, and a walk over a tree on the line it began with, whether it succeeds or fails. -/
theorem lowering_one_list_after_another (ts us : List Tree) :
    let c := currentLine 0 ts
    (∀ nodes, lowerStatements 0 (ts ++ us) = .ok nodes ↔ ∃ first second,
      lowerStatements 0 ts = .ok first ∧ lowerStatements c us = .ok second ∧
        nodes = first ++ second) ∧
    (∀ e, lowerStatements 0 (ts ++ us) = .error e ↔ lowerStatements 0 ts = .error e ∨
      (∃ first, lowerStatements 0 ts = .ok first) ∧ lowerStatements c us = .error e) ∧
    (∀ (line : Int) (trees : List Tree),
      outcome ((walkStatements trees).run line) = lowerStatements line trees ∧
      ∀ nodes, lowerStatements line trees = .ok nodes →
        (walkStatements trees).run line = .ok nodes (currentLine line trees)) ∧
    ∀ (line : Int) (t : Tree),
      (∀ nodes, t.lower line = .ok nodes → t.walk.run line = .ok nodes line) ∧
      ∀ e, t.lower line = .error e → t.walk.run line = .error e line := by
  intro c
  refine ⟨fun nodes => ?_, fun e => ?_,
    fun line trees => walkStatements_eq (fun t _ => t.walk_eq) line,
    fun line t => ⟨fun nodes h => ?_, fun e h => ?_⟩⟩
  · rw [lowerStatements_append]
    exact append_eq_ok_iff
  · rw [lowerStatements_append]
    exact append_eq_error_iff
  · rw [t.walk_eq, h]
    rfl
  · rw [t.walk_eq, h]
    rfl

/-- Of strings that are not UTF-8 the first one that is met counts, and a value is met before its
target. -/
example :
    let t : Tree := .index (.name "t" none 0) (.string ⟨#[0xff]⟩ 0) false 0
    lowerStatements 0 [.assign false [t] [.string ⟨#[0xfe]⟩ 0] 1, .string ⟨#[0xfd]⟩ 2] =
      .error (.encoding ⟨#[0xfe]⟩) := rfl

end ValueTrace.Lua
