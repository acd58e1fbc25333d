import ValueTrace.Proofs.LoweredLiterals

/-!
# Inherited lines

A node of a lowered expression stands on the line of the Lua tree that it is made for, or else on
the line of the nearest tree around that one with a line. The fields of a table do not count here,
although they have lines: what stands in a field takes the line of the table over it. `Tree.places`
lists the trees of an expression that nodes are made for, each with what stands around it, and
`Node.marks` lists what can be seen of the nodes, each with its line; the two lists go in step.
-/

namespace ValueTrace

/-! ## Nodes and their lines -/

/-- What can be seen of a node without its parts and its line. -/
inductive Node.Head where
  | variable (name : String)
  | int (value : Int)
  | float (value : Float)
  | text (value : String)
  | array
  | call
  | operation (name : String)

namespace Node

/-- The head and the line of a variable, a literal, a call or any other expression. -/
def mark? : Node → Option (Head × Int)
  | .variable x line => some (.variable x, line)
  | .int n line => some (.int n, line)
  | .float x line => some (.float x, line)
  | .text s line => some (.text s, line)
  | .array _ line => some (.array, line)
  | .call _ _ line => some (.call, line)
  | .operation construct _ line => some (.operation construct, line)
  | _ => none

/-- The heads and lines of all expressions in a list of nodes, from left to right. -/
def marks (ns : List Node) : List (Head × Int) := (ns.flatMap descendants).filterMap mark?

theorem marks_append (ns ms : List Node) : marks (ns ++ ms) = marks ns ++ marks ms := by
  simp [marks]

theorem marks_cons (n : Node) (ns : List Node) : marks (n :: ns) = marks [n] ++ marks ns :=
  marks_append [n] ns

theorem marks_singleton (n : Node) : marks [n] = n.mark?.toList ++ marks n.children := by
  simp only [marks, List.flatMap_singleton, descendants_eq, List.filterMap_cons]
  cases n.mark? <;> rfl

theorem marks_item (value : Node) (key : Option Node) (line : Int) :
    marks [.item ⟨value, key, line⟩] = marks key.toList ++ marks [value] := by
  rw [marks_singleton, children, marks_append]
  rfl

theorem marks_map_argument (line : Int) (nss : List (List Node)) :
    marks ((nss.map fun ns => (⟨Lua.group ns, none, line⟩ : Argument)).map .argument) =
      marks (nss.map Lua.group) := by
  induction nss with
  | nil => rfl
  | cons ns nss ih =>
    rw [List.map_cons, List.map_cons, marks_cons, ih, List.map_cons, marks_cons (Lua.group ns),
      marks_singleton]
    rfl

end Node

namespace Lua

/-! ## Expressions -/

/-- Whether a construct is a constant or an operator. -/
def Construct.isExpression : Construct → Bool
  | .nil | .yes | .no | .dots | .varargs | .binary _ | .unary _ => true
  | _ => false

/-- The trees that are Lua expressions. -/
inductive Tree.IsExpression : Tree → Prop
  | name (id : String) (attrib : Option Tree) (line : Int) : IsExpression (.name id attrib line)
  | number (n : Numeral) (line : Int) : IsExpression (.number n line)
  | string (bytes : ByteArray) (line : Int) : IsExpression (.string bytes line)
  | table {fields : List Field} (line : Int)
    (h : ∀ p ∈ fields.flatMap Field.parts, IsExpression p) : IsExpression (.table fields line)
  | index {value key : Tree} (dotted : Bool) (line : Int) (hvalue : IsExpression value)
    (hkey : IsExpression key) : IsExpression (.index value key dotted line)
  | call {callee : Tree} {args : List Tree} (line : Int) (hcallee : IsExpression callee)
    (hargs : ∀ arg ∈ args, IsExpression arg) : IsExpression (.call callee args line)
  | invoke {source : Tree} {args : List Tree} (method : Tree) (line : Int)
    (hsource : IsExpression source) (hargs : ∀ arg ∈ args, IsExpression arg) :
    IsExpression (.invoke source method args line)
  | closure (params : List Tree) (body : Block) (line : Int) :
    IsExpression (.closure params body line)
  | construct {kind : Construct} {parts : List Tree} (line : Int)
    (hkind : kind.isExpression = true) (h : ∀ p ∈ parts, IsExpression p) :
    IsExpression (.construct kind parts line)

theorem Tree.IsExpression.isComment {t : Tree} (h : t.IsExpression) : t.isComment = false := by
  cases h <;> rfl

/-- An expression becomes one node. -/
theorem Tree.IsExpression.lower_eq_ok {t : Tree} (ht : t.IsExpression) {line : Int}
    {ns : List Node} (h : t.lower line = .ok ns) : ns = [group ns] := by
  rcases lower_cases h with ⟨_, _, _, _, _, _, rfl, -⟩ | ⟨-, n, rfl, -⟩
  · cases ht
  · rfl

/-! ## Places -/

/-- A tree around another one, or a field of a table around a tree. -/
structure Enclosure where
  line : Int
  isField : Bool

/-- A tree, with all that stands around it from the nearest outwards. -/
structure Place where
  tree : Tree
  around : List Enclosure

/-- The first line that is not missing. -/
def firstKnown (lines : List Int) : Int := (lines.find? (· ≠ 0)).getD 0

/-- The line of a tree, or else the nearest one around it. -/
def Place.nearestLine (p : Place) : Int :=
  firstKnown (p.tree.ownLine :: p.around.map Enclosure.line)

/-- The nearest line of a tree around a place, where fields do not count. -/
def treeLine (around : List Enclosure) : Int :=
  firstKnown ((around.filter fun e => !e.isField).map Enclosure.line)

/-- The line of a tree, or else the nearest one of a tree around it. -/
def Place.nearestTreeLine (p : Place) : Int := treeLine (⟨p.tree.ownLine, false⟩ :: p.around)

/-- The places in a tree that stands where a name is not a variable. -/
def placesUnlessName (inner : List Place) : Tree → List Place
  | .name _ _ _ => []
  | _ => inner

/-- The places in the key of a field. A field with a plain name is a place itself, for the text of
that name; a plain number is none. -/
def placesOfKey (around : List Enclosure) (f : Field) (inner : List Place) : Tree → List Place
  | .name _ _ _ => if f.bracketed then inner else [⟨.field f, around⟩]
  | .number _ _ => if f.bracketed then inner else []
  | _ => inner

mutual
/-- The places in an expression that nodes are made for, in the order of the nodes. -/
def Tree.places (around : List Enclosure) : Tree → List Place
  | .table fields own =>
    ⟨.table fields own, around⟩ :: placesFields (⟨own, false⟩ :: around) fields
  | .index value key dotted own =>
    let inner := ⟨own, false⟩ :: around
    ⟨.index value key dotted own, around⟩ :: (value.places inner ++
      if dotted then placesUnlessName (key.places inner) key else key.places inner)
  | .call callee args own =>
    let inner := ⟨own, false⟩ :: around
    ⟨.call callee args own, around⟩ ::
      (placesUnlessName (callee.places inner) callee ++ placesAll inner args)
  | .invoke source method args own =>
    let inner := ⟨own, false⟩ :: around
    ⟨.invoke source method args own, around⟩ :: (source.places inner ++ placesAll inner args)
  | .construct kind parts own =>
    ⟨.construct kind parts own, around⟩ :: placesAll (⟨own, false⟩ :: around) parts
  | t => [⟨t, around⟩]
/-- The places in a list of expressions. -/
def placesAll (around : List Enclosure) : List Tree → List Place
  | [] => []
  | t :: ts => t.places around ++ placesAll around ts
/-- The places in the fields of a table. -/
def placesFields (around : List Enclosure) : List Field → List Place
  | [] => []
  | ⟨none, value, _, own⟩ :: fs => value.places (⟨own, true⟩ :: around) ++ placesFields around fs
  | ⟨some key, value, bracketed, own⟩ :: fs =>
    let inner := ⟨own, true⟩ :: around
    placesOfKey around ⟨some key, value, bracketed, own⟩ (key.places inner) key ++
      (value.places inner ++ placesFields around fs)
end

/-- The heads of the nodes that are made for a tree or a field. -/
def Tree.heads : Tree → List Node.Head
  | .name id _ _ => [.variable id]
  | .number (.int n) _ => [.int n]
  | .number (.float x) _ => [.float x]
  | .string bytes _ => (String.fromUTF8? bytes).toList.map .text
  | .table _ _ => [.array]
  | .index _ _ _ _ => [.operation "Index"]
  | .call _ _ _ => [.call]
  | .invoke _ _ _ _ => [.call, .operation "Invoke"]
  | .closure _ _ _ => [.operation "AnonymousFunction"]
  | .construct kind _ _ => [.operation kind.tag]
  | .field ⟨some (.name id _ _), _, _, _⟩ => [.text id]
  | _ => []

/-- The nodes that are made for places, if each stands on the line given for its place. -/
def marksOn (lineOf : Place → Int) (ps : List Place) : List (Node.Head × Int) :=
  ps.flatMap fun p => p.tree.heads.map fun head => (head, lineOf p)

/-! ## Lines handed down -/

section

variable {around : List Enclosure}

theorem treeLine_tree (own : Int) :
    treeLine (⟨own, false⟩ :: around) = lineOr own (treeLine around) := by
  rw [treeLine, List.filter_cons_of_pos rfl, List.map_cons, firstKnown, lineOr]
  split_ifs with h
  · rw [List.find?_cons_of_neg (by simp [h])]
    rfl
  · rw [List.find?_cons_of_pos (by simp [h])]
    rfl

theorem treeLine_field (own : Int) : treeLine (⟨own, true⟩ :: around) = treeLine around := by
  rw [treeLine, List.filter_cons_of_neg (by simp), treeLine]

theorem marksOn_append (lineOf : Place → Int) (ps qs : List Place) :
    marksOn lineOf (ps ++ qs) = marksOn lineOf ps ++ marksOn lineOf qs :=
  List.flatMap_append

theorem marksOn_cons (lineOf : Place → Int) (p : Place) (ps : List Place) :
    marksOn lineOf (p :: ps) =
      (p.tree.heads.map fun head => (head, lineOf p)) ++ marksOn lineOf ps :=
  List.flatMap_cons

/-- The nodes that a tree is lowered to stand on the nearest lines of trees. -/
def Tree.MarkedByTrees (t : Tree) : Prop :=
  ∀ around ns, t.lower (treeLine around) = .ok ns →
    Node.marks ns = marksOn Place.nearestTreeLine (t.places around)

theorem marks_mapM {ts : List Tree} {nss : List (List Node)} (ih : ∀ t ∈ ts, t.MarkedByTrees)
    (h : ts.mapM (Tree.lower (treeLine around)) = .ok nss) :
    Node.marks nss.flatten = marksOn Place.nearestTreeLine (placesAll around ts) := by
  rw [mapM_eq_ok_iff] at h
  induction h with
  | nil => rfl
  | cons ht _ iht =>
    rw [List.forall_mem_cons] at ih
    rw [List.flatten_cons, Node.marks_append, placesAll, marksOn_append, ih.1 around _ ht,
      iht ih.2]

theorem map_group_eq_flatten {ts : List Tree} {line : Int} {nss : List (List Node)}
    (hts : ∀ t ∈ ts, t.IsExpression) (h : ts.mapM (Tree.lower line) = .ok nss) :
    nss.map group = nss.flatten := by
  rw [mapM_eq_ok_iff] at h
  induction h with
  | nil => rfl
  | cons ht _ ih =>
    rw [List.forall_mem_cons] at hts
    rw [List.map_cons, ih hts.2, List.flatten_cons]
    nth_rewrite 2 [hts.1.lower_eq_ok ht]
    rfl

theorem marks_lowerArguments {ts : List Tree} {args : List Argument}
    (hts : ∀ t ∈ ts, t.IsExpression) (ih : ∀ t ∈ ts, t.MarkedByTrees)
    (h : lowerArguments (treeLine around) ts = .ok args) :
    Node.marks (args.map .argument) = marksOn Place.nearestTreeLine (placesAll around ts) := by
  rw [lowerArguments_eq] at h
  obtain ⟨nss, hnss, rfl⟩ := map_eq_ok_iff.1 h
  rw [Node.marks_map_argument, map_group_eq_flatten hts hnss, marks_mapM ih hnss]

theorem marks_lowerAll {ts : List Tree} {ns : List Node}
    (hts : ∀ t ∈ ts, t.IsExpression) (ih : ∀ t ∈ ts, t.MarkedByTrees)
    (h : lowerAll (treeLine around) ts = .ok ns) :
    Node.marks ns = marksOn Place.nearestTreeLine (placesAll around ts) := by
  rw [lowerAll_eq, List.filter_eq_self.2 fun t ht => by rw [(hts t ht).isComment]; rfl] at h
  obtain ⟨nss, hnss, rfl⟩ := map_eq_ok_iff.1 h
  exact marks_mapM ih hnss

theorem Tree.IsExpression.marks_group {t : Tree} {line : Int} {ns : List Node}
    (ht : t.IsExpression) (h : t.lower line = .ok ns) :
    Node.marks [group ns] = Node.marks ns := by
  rw [← ht.lower_eq_ok h]

theorem marks_identifierOr {t : Tree} {ns : List Node} (line : Int) (ht : t.IsExpression)
    (ih : t.MarkedByTrees) (h : t.lower (treeLine around) = .ok ns) :
    Node.marks [identifierOr line ns t] =
      marksOn Place.nearestTreeLine (placesUnlessName (t.places around) t) := by
  have hgroup := (ht.marks_group h).trans (ih _ ns h)
  cases t with
  | name id attrib own => exact Node.marks_singleton _
  | _ => exact hgroup

/-- The key of a field stands on the line of the table, but the text of a plain name on that of the
field. -/
theorem marks_fieldKey {key : Tree} {keys : List Node} (value : Tree) (bracketed : Bool) (own : Int)
    (hkey : key.IsExpression) (ih : key.MarkedByTrees)
    (h : key.lower (treeLine around) = .ok keys) :
    Node.marks (fieldKey bracketed (lineOr own (treeLine around)) keys key).toList =
      marksOn Place.nearestTreeLine (placesOfKey around ⟨some key, value, bracketed, own⟩
        (key.places (⟨own, true⟩ :: around)) key) := by
  have hgroup : Node.marks [group keys] =
      marksOn Place.nearestTreeLine (key.places (⟨own, true⟩ :: around)) := by
    rw [hkey.marks_group h]
    rw [← treeLine_field own] at h
    exact ih _ keys h
  cases bracketed with
  | true => cases key <;> exact hgroup
  | false =>
    cases key with
    | name id attrib nameLine =>
      rw [← treeLine_tree]
      exact Node.marks_singleton _
    | number n numberLine => rfl
    | _ => exact hgroup

theorem marks_lowerFields {fields : List Field} {items : List Item}
    (hfields : ∀ p ∈ fields.flatMap Field.parts, p.IsExpression)
    (ih : ∀ p ∈ fields.flatMap Field.parts, p.MarkedByTrees)
    (h : lowerFields (treeLine around) fields = .ok items) :
    Node.marks (items.map .item) = marksOn Place.nearestTreeLine (placesFields around fields) := by
  induction fields generalizing items with
  | nil =>
    cases h
    rfl
  | cons f fields ihf =>
    obtain ⟨key, value, bracketed, own⟩ := f
    rw [List.flatMap_cons, List.forall_mem_append] at hfields ih
    have hmem : value ∈ Field.parts ⟨key, value, bracketed, own⟩ :=
      List.mem_append_right _ List.mem_cons_self
    have hvalue {values : List Node} (h : value.lower (treeLine around) = .ok values) :
        Node.marks [group values] =
          marksOn Place.nearestTreeLine (value.places (⟨own, true⟩ :: around)) := by
      rw [(hfields.1 value hmem).marks_group h]
      rw [← treeLine_field own] at h
      exact ih.1 value hmem _ values h
    cases key with
    | none =>
      rw [lowerFields] at h
      obtain ⟨values, hvalues, h⟩ := bind_eq_ok_iff.1 h
      obtain ⟨rest, hrest, h⟩ := bind_eq_ok_iff.1 h
      cases h
      rw [List.map_cons, Node.marks_cons, Node.marks_item, hvalue hvalues,
        ihf hfields.2 ih.2 hrest, placesFields, marksOn_append]
      rfl
    | some key =>
      rw [lowerFields] at h
      obtain ⟨values, hvalues, h⟩ := bind_eq_ok_iff.1 h
      obtain ⟨keys, hkeys, h⟩ := bind_eq_ok_iff.1 h
      obtain ⟨rest, hrest, h⟩ := bind_eq_ok_iff.1 h
      cases h
      have hkey := marks_fieldKey value bracketed own (hfields.1 key List.mem_cons_self)
        (ih.1 key List.mem_cons_self) hkeys
      rw [List.map_cons, Node.marks_cons, Node.marks_item, hkey, hvalue hvalues,
        ihf hfields.2 ih.2 hrest, placesFields, marksOn_append, marksOn_append, List.append_assoc]

end

/-- Every node of a lowered expression stands on the line of the tree that it is made for, or else
on that of the nearest tree around it with a line. -/
theorem Tree.IsExpression.markedByTrees {t : Tree} (ht : t.IsExpression) : t.MarkedByTrees := by
  induction ht with
  | name id attrib own | closure params body own =>
    intro around ns h
    rw [lower, ← treeLine_tree] at h
    cases h
    exact Node.marks_singleton _
  | number n own =>
    intro around ns h
    cases n <;>
    · rw [lower, ← treeLine_tree] at h
      cases h
      exact Node.marks_singleton _
  | string bytes own =>
    intro around ns h
    rw [lower, ← treeLine_tree] at h
    split at h
    · next s hs =>
      cases h
      have hheads : heads (.string bytes own) = [.text s] := by
        rw [heads, hs]
        rfl
      have hplaces : places around (.string bytes own) = [⟨.string bytes own, around⟩] := rfl
      rw [Node.marks_singleton, hplaces, marksOn_cons, hheads]
      rfl
    · cases h
  | table own hparts ih =>
    intro around ns h
    rw [lower, ← treeLine_tree] at h
    obtain ⟨items, hitems, h⟩ := bind_eq_ok_iff.1 h
    cases h
    rw [Node.marks_singleton, Node.children, marks_lowerFields hparts ih hitems, places]
    rfl
  | index dotted own hvalue hkey ihvalue ihkey =>
    intro around ns h
    rw [lower, ← treeLine_tree] at h
    obtain ⟨keys, hkeys, h⟩ := bind_eq_ok_iff.1 h
    obtain ⟨values, hvalues, h⟩ := bind_eq_ok_iff.1 h
    cases h
    have hvalueMarks := (hvalue.marks_group hvalues).trans (ihvalue _ values hvalues)
    have hkeyMarks := (hkey.marks_group hkeys).trans (ihkey _ keys hkeys)
    rw [Node.marks_singleton, Node.children, Node.marks_cons, hvalueMarks, places, marksOn_cons,
      marksOn_append]
    cases dotted with
    | true => rw [if_pos rfl, marks_identifierOr _ hkey ihkey hkeys]; rfl
    | false => rw [if_neg Bool.false_ne_true, hkeyMarks]; rfl
  | call own hcallee hargs ihcallee ihargs =>
    intro around ns h
    rw [lower, ← treeLine_tree] at h
    obtain ⟨callees, hcallees, h⟩ := bind_eq_ok_iff.1 h
    obtain ⟨arguments, harguments, h⟩ := bind_eq_ok_iff.1 h
    cases h
    rw [Node.marks_singleton, Node.children, Node.marks_cons,
      marks_identifierOr _ hcallee ihcallee hcallees, marks_lowerArguments hargs ihargs harguments,
      places, marksOn_cons, marksOn_append]
    rfl
  | invoke method own hsource hargs ihsource ihargs =>
    intro around ns h
    rw [lower, ← treeLine_tree] at h
    obtain ⟨sources, hsources, h⟩ := bind_eq_ok_iff.1 h
    obtain ⟨arguments, harguments, h⟩ := bind_eq_ok_iff.1 h
    cases h
    have hsourceMarks := (hsource.marks_group hsources).trans (ihsource _ sources hsources)
    rw [Node.marks_singleton, Node.children, Node.marks_cons,
      marks_lowerArguments hargs ihargs harguments, Node.marks_singleton, Node.children,
      hsourceMarks, places, marksOn_cons, marksOn_append]
    rfl
  | construct own hkind hparts ih =>
    intro around ns h
    rw [lower, ← treeLine_tree] at h
    obtain ⟨operands, hoperands, h⟩ := bind_eq_ok_iff.1 h
    cases h
    rw [Node.marks_singleton, Node.children, marks_lowerAll hparts ih hoperands, places]
    rfl

/-! ## Fields on lines of their own -/

/-- Two ways to give places lines agree on all nodes only if they agree on every place that has
one. -/
theorem marksOn_eq_iff {f g : Place → Int} {ps : List Place} :
    marksOn f ps = marksOn g ps ↔ ∀ p ∈ ps, p.tree.heads ≠ [] → f p = g p := by
  induction ps with
  | nil => simp [marksOn]
  | cons p ps ih =>
    rw [marksOn_cons, marksOn_cons, List.forall_mem_cons, ← ih]
    constructor
    · intro h
      obtain ⟨hhead, hrest⟩ := List.append_inj h (by rw [List.length_map, List.length_map])
      refine ⟨fun hne => ?_, hrest⟩
      obtain ⟨head, hmem⟩ := List.exists_mem_of_ne_nil _ hne
      have hpair := List.map_inj_left.1 hhead head hmem
      exact congrArg Prod.snd hpair
    · rintro ⟨hhead, hrest⟩
      rw [hrest]
      cases hheads : p.tree.heads with
      | nil => rfl
      | cons head heads => rw [hhead (by simp [hheads])]

/-- Every node of an expression stands on the line of the tree that it is made for, or else on that
of the nearest tree around it with a line; the text of a plain name in a field counts as made for
the field. The nearest line of all, with those of fields around a tree, is the same for all nodes
exactly if no field comes first with a line that differs. -/
theorem marks_of_expression {t : Tree} (ht : t.IsExpression) {line : Int} {ns : List Node}
    (h : t.lower line = .ok ns) :
    let places := t.places [⟨line, false⟩]
    Node.marks ns = marksOn Place.nearestTreeLine places ∧
      (Node.marks ns = marksOn Place.nearestLine places ↔
        ∀ p ∈ places, p.tree.heads ≠ [] → p.nearestTreeLine = p.nearestLine) := by
  intro places
  have hline : treeLine [⟨line, false⟩] = line := by
    rw [treeLine_tree, lineOr]
    split_ifs with h0
    · exact h0.symm
    · rfl
  have hmarks : Node.marks ns = marksOn Place.nearestTreeLine places :=
    ht.markedByTrees _ ns (by rwa [hline])
  exact ⟨hmarks, by rw [hmarks, marksOn_eq_iff]⟩

/-- In `f({k = -z, x})` the call stands on line 3 and the fields on lines 4 and 6. The text `k` is
on line 4, but `x` is on line 3, since neither it nor the table has a line. A field without a name
has its number as key. -/
theorem marks_of_expression_of_call :
    let name (id : String) : Tree := .name id none 0
    let fields : List Field :=
      [⟨some (name "k"), .construct (.unary .minus) [name "z"] 5, false, 4⟩,
        ⟨some (.number (.int 1) 0), name "x", false, 6⟩]
    let t : Tree := .call (name "f") [.table fields 0] 3
    ∃ ns, t.lower 2 = .ok ns ∧
      Node.marks ns = [(.call, 3), (.array, 3), (.text "k", 4), (.operation "UMinusOp", 5),
        (.variable "z", 5), (.variable "x", 3)] := by
  intro name fields t
  have hname (id : String) : (name id).IsExpression := .name id none 0
  have hminus : Tree.IsExpression (.construct (.unary .minus) [name "z"] 5) :=
    .construct 5 rfl (List.forall_mem_singleton.2 (hname "z"))
  have htable : Tree.IsExpression (.table fields 0) := by
    refine .table 0 ?_
    simp only [fields, Field.parts, List.flatMap_cons, List.flatMap_nil, Option.toList_some,
      List.cons_append, List.nil_append, List.append_nil, List.forall_mem_cons]
    exact ⟨hname "k", hminus, .number (.int 1) 0, hname "x", List.forall_mem_nil _⟩
  have ht : t.IsExpression := .call 3 (hname "f") (List.forall_mem_singleton.2 htable)
  have h : t.lower 2 = .ok [.call (.name "f" 3) [⟨.array
      [⟨.operation "UMinusOp" [.variable "z" 5] 5, some (.text "k" 4), 4⟩,
        ⟨.variable "x" 3, none, 6⟩] 3, none, 3⟩] 3] := rfl
  exact ⟨_, h, (marks_of_expression ht h).1.trans rfl⟩

/-- The line of a field does not come down to the value in it: in a table on line 1, a variable
without a line in the first field, which is on line 2, stands on line 1. -/
theorem marks_of_value_in_field :
    let t : Tree := .table [⟨some (.number (.int 1) 0), .name "x" none 0, false, 2⟩] 1
    t.IsExpression ∧ ∃ ns, t.lower 1 = .ok ns ∧ Node.marks ns = [(.array, 1), (.variable "x", 1)] ∧
      Node.marks ns ≠ marksOn Place.nearestLine (t.places [⟨1, false⟩]) := by
  intro t
  have ht : t.IsExpression := by
    refine .table 1 (List.forall_mem_cons.2 ⟨.number (.int 1) 0, ?_⟩)
    exact List.forall_mem_singleton.2 (.name "x" none 0)
  have h : t.lower 1 = .ok [.array [⟨.variable "x" 1, none, 2⟩] 1] := rfl
  have hmarks : Node.marks [.array [⟨.variable "x" 1, none, 2⟩] 1] =
      [(.array, 1), (.variable "x", 1)] :=
    (ht.markedByTrees [⟨1, false⟩] _ h).trans rfl
  refine ⟨ht, _, h, hmarks, ?_⟩
  rw [hmarks]
  intro hlines
  cases hlines

end Lua

end ValueTrace
