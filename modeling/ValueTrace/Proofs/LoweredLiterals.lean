import Mathlib.Data.List.Perm.Basic
import ValueTrace.Lua.Program
import ValueTrace.Proofs.Ambiguity
import ValueTrace.Proofs.Lowering

/-!
# Literals of a lowered program

Lowering takes a Lua tree apart and builds another one. The literals of the nodes that come out are
the numbers and strings of the trees that go in, as often as they stand there
(`Tree.keepsLiterals`). Some parts of a tree are not looked into (`Tree.visibleParts`), and a field
that is written with a plain name has that name as a further literal (`Tree.fieldNames`). Literals
are counted by comparing lists up to their order.
-/

namespace ValueTrace

/-! ## Literals of nodes -/

theorem perm_append_interchange {α : Type} (a b c d : List α) :
    ((a ++ b) ++ (c ++ d)).Perm ((a ++ c) ++ (b ++ d)) := by
  simpa only [List.append_assoc] using (List.perm_append_comm_assoc b c d).append_left a

namespace Node

/-- A node and all nodes in it. -/
def descendants (n : Node) : List Node :=
  n :: n.children.attach.flatMap fun c => c.1.descendants
termination_by sizeOf n
decreasing_by exact sizeOf_lt_of_mem_children c.2

theorem descendants_eq (n : Node) : n.descendants = n :: n.children.flatMap descendants := by
  rw [descendants, ← List.flatMap_map, List.attach_map_subtype_val]

/-- The contents of all literals of scalar types in a list of nodes. -/
def contents (ns : List Node) : List Payload :=
  (ns.flatMap descendants).filterMap fun n => n.literal?.map Literal.payload

theorem contents_append (ns ms : List Node) : contents (ns ++ ms) = contents ns ++ contents ms := by
  simp [contents]

theorem contents_cons (n : Node) (ns : List Node) :
    contents (n :: ns) = contents [n] ++ contents ns :=
  contents_append [n] ns

theorem contents_singleton (n : Node) :
    contents [n] = (n.literal?.map Literal.payload).toList ++ contents n.children := by
  simp only [contents, List.flatMap_singleton, descendants_eq, List.filterMap_cons]
  cases n.literal? <;> rfl

theorem contents_of_not_literal {n : Node} (h : n.literal? = none) :
    contents [n] = contents n.children := by
  rw [contents_singleton, h]
  rfl

theorem contents_map_asStatement (ns : List Node) :
    contents (ns.map Lua.asStatement) = contents ns := by
  induction ns with
  | nil => rfl
  | cons n ns ih =>
    rw [List.map_cons, contents_cons, contents_cons n, ih]
    congr 1
    cases n with
    | operation name operands line => rw [contents_singleton, contents_singleton]; rfl
    | _ => rfl

theorem contents_group (ns : List Node) : contents [Lua.group ns] = contents ns := by
  match ns with
  | [] => exact contents_of_not_literal rfl
  | [_] => rfl
  | _ :: _ :: _ => exact contents_of_not_literal rfl

theorem contents_map_group (nss : List (List Node)) :
    contents (nss.map Lua.group) = contents nss.flatten := by
  induction nss with
  | nil => rfl
  | cons ns nss ih =>
    rw [List.map_cons, contents_cons, contents_group, ih, List.flatten_cons, contents_append]

theorem contents_map_argument (line : Int) (nss : List (List Node)) :
    contents ((nss.map fun ns => (⟨Lua.group ns, none, line⟩ : Argument)).map .argument) =
      contents nss.flatten := by
  rw [← contents_map_group]
  induction nss with
  | nil => rfl
  | cons ns nss ih =>
    rw [List.map_cons, List.map_cons, contents_cons, ih, List.map_cons,
      contents_cons (Lua.group ns)]
    congr 1
    exact contents_of_not_literal rfl

theorem contents_map_paramsOf (line : Int) (params : List Lua.Tree) :
    contents ((Lua.paramsOf line params).map .param) = [] := by
  have hdefault (p : Param) (hp : p ∈ Lua.paramsOf line params) : p.default = none := by
    obtain ⟨t, -, ht⟩ := List.mem_filterMap.1 hp
    split at ht <;> cases ht <;> rfl
  revert hdefault
  induction Lua.paramsOf line params with
  | nil => exact fun _ => rfl
  | cons p ps ih =>
    intro hdefault
    rw [List.forall_mem_cons] at hdefault
    rw [List.map_cons, contents_cons, ih hdefault.2, contents_of_not_literal rfl, children,
      hdefault.1]
    rfl

theorem contents_assign (target value : Node) (line : Int) :
    contents [.assign target value line] = contents [target] ++ contents [value] := by
  rw [contents_of_not_literal rfl, children, contents_cons]

/-- The literals of assignments are those of the targets and those of the values. -/
theorem contents_assignEach (line : Int) {ts vs : List Node} (h : vs.length ≤ ts.length) :
    (contents (Lua.assignEach line ts vs)).Perm (contents ts ++ contents vs) := by
  induction ts generalizing vs with
  | nil =>
    rw [List.length_nil, Nat.le_zero, List.length_eq_zero_iff] at h
    rw [h]
    exact .refl _
  | cons t ts ih =>
    cases vs with
    | nil =>
      -- A target without a value is assigned nil, which is no literal.
      have hnil : contents [.operation Lua.Construct.nil.tag [] line] = [] :=
        contents_of_not_literal rfl
      have hrest : (contents (Lua.assignEach line ts [])).Perm (contents ts ++ contents []) :=
        ih (Nat.zero_le _)
      rw [Lua.assignEach, contents_cons, contents_assign, hnil, contents_cons t ts,
        List.append_nil, List.append_assoc]
      exact hrest.append_left _
    | cons v vs =>
      rw [Lua.assignEach, contents_cons, contents_assign, contents_cons t ts, contents_cons v vs]
      exact ((ih (Nat.le_of_succ_le_succ h)).append_left _).trans (perm_append_interchange _ _ _ _)

end Node

namespace Lua

/-! ## Literals of Lua trees -/

/-- The trees in a field of a table, without a number that only counts the fields. -/
def Field.visibleParts : Field → List Tree
  | ⟨some (.number _ _), value, false, _⟩ => [value]
  | f => f.parts

/-- The name that a field of a table is written with. -/
def Field.plainName? : Field → Option String
  | ⟨some (.name id _ _), _, false, _⟩ => some id
  | _ => none

theorem Field.visibleParts_subset (f : Field) : f.visibleParts ⊆ f.parts := by
  unfold visibleParts
  split
  · exact List.subset_cons_self _ _
  · exact List.Subset.refl _

namespace Tree

/-- The parts of a tree in which literals count. Left out are the parts of function expressions, the
name of a method that is called, the parameters of a function with a plain name, which are names
or `...` if it takes them at all, and values without a target. The attribute of a name is a word. -/
def visibleParts : Tree → List Tree
  | .name _ _ _ | .closure _ _ _ => []
  | .table fields _ => fields.flatMap Field.visibleParts
  | .invoke source _ args _ => source :: args
  | .assign _ targets values _ => targets ++ values.take targets.length
  | .function _ (.name _ _ _) _ body _ => body.statements
  | t => t.parts

theorem visibleParts_subset (t : Tree) : t.visibleParts ⊆ t.parts := by
  unfold visibleParts
  split
  · exact List.nil_subset _
  · exact List.nil_subset _
  · intro p hp
    obtain ⟨f, hf, hp⟩ := List.mem_flatMap.1 hp
    exact List.mem_flatMap.2 ⟨f, hf, f.visibleParts_subset hp⟩
  · exact List.cons_subset_cons _ (List.subset_cons_self _ _)
  · next targets values _ =>
    exact List.append_subset.2 ⟨List.subset_append_left _ _, fun _ hp =>
      List.mem_append_right _ (List.mem_of_mem_take hp)⟩
  · exact fun _ hp => List.mem_cons_of_mem _ (List.mem_append_right _ hp)
  · exact List.Subset.refl _

theorem visibleParts_function_of_name {f : Tree} {id : String} (h : f.plainName? = some id)
    (isLocal : Bool) (params : List Tree) (body : Block) (own : Int) :
    visibleParts (.function isLocal f params body own) = body.statements := by
  cases f with
  | name => rfl
  | _ => cases h

theorem visibleParts_function_of_other {f : Tree} (h : f.plainName? = none)
    (isLocal : Bool) (params : List Tree) (body : Block) (own : Int) :
    visibleParts (.function isLocal f params body own) = f :: (params ++ body.statements) := by
  cases f with
  | name => cases h
  | _ => rfl

/-- A tree and all trees in it in which literals count. -/
def visible (t : Tree) : List Tree := t :: t.visibleParts.attach.flatMap fun p => p.1.visible
termination_by sizeOf t
decreasing_by exact sizeOf_lt_of_mem_parts (visibleParts_subset t p.2)

theorem visible_eq (t : Tree) : t.visible = t :: t.visibleParts.flatMap visible := by
  rw [visible, ← List.flatMap_map, List.attach_map_subtype_val]

/-- The content of a number or a string; a string that is not UTF-8 has none. -/
def content? : Tree → Option Payload
  | .number (.int n) _ => some (.int n)
  | .number (.float x) _ => some (.float x)
  | .string bytes _ =>
    match String.fromUTF8? bytes with
    | some s => some (.text s)
    | none => some .missing
  | _ => none

/-- The plain names that the fields of a table are written with. -/
def fieldNames : Tree → List String
  | .table fields _ => fields.filterMap Field.plainName?
  | _ => []

/-- The contents that trees bring in, field names included. -/
def contents (ts : List Tree) : List Payload :=
  (ts.flatMap visible).flatMap fun t => t.content?.toList ++ t.fieldNames.map .text

theorem contents_append (ts us : List Tree) : contents (ts ++ us) = contents ts ++ contents us := by
  simp [contents]

theorem contents_cons (t : Tree) (ts : List Tree) :
    contents (t :: ts) = contents [t] ++ contents ts :=
  contents_append [t] ts

theorem contents_singleton (t : Tree) :
    contents [t] = (t.content?.toList ++ t.fieldNames.map .text) ++ contents t.visibleParts := by
  simp only [contents, visible_eq, List.flatMap_cons, List.flatMap_nil, List.append_nil]

theorem contents_of_structural {t : Tree} (hc : t.content? = none) (hf : t.fieldNames = []) :
    contents [t] = contents t.visibleParts := by
  rw [contents_singleton, hc, hf]
  rfl

theorem contents_filter_isComment (ts : List Tree) :
    contents (ts.filter fun t => !t.isComment) = contents ts := by
  induction ts with
  | nil => rfl
  | cons t ts ih =>
    cases h : t.isComment with
    | false => rw [List.filter_cons_of_pos (by simp [h]), contents_cons, ih, contents_cons t ts]
    | true =>
      obtain ⟨text, own, rfl⟩ := eq_comment h
      rw [List.filter_cons_of_neg (by simp [h]), ih, contents_cons _ ts, contents_singleton]
      rfl

/-- Whatever a tree is lowered to has the literals of the tree. -/
def KeepsLiterals (t : Tree) : Prop :=
  ∀ line ns, t.lower line = .ok ns → (Node.contents ns).Perm (contents [t])

end Tree

/-! ## Lists of trees -/

section

variable {line : Int} {ts : List Tree}

theorem contents_mapM {nss : List (List Node)} (ih : ∀ t ∈ ts, t.KeepsLiterals)
    (h : ts.mapM (Tree.lower line) = .ok nss) :
    (Node.contents nss.flatten).Perm (Tree.contents ts) := by
  rw [mapM_eq_ok_iff] at h
  induction h with
  | nil => exact .refl _
  | cons ht _ iht =>
    rw [List.forall_mem_cons] at ih
    rw [List.flatten_cons, Node.contents_append, Tree.contents_cons]
    exact (ih.1 line _ ht).append (iht ih.2)

theorem contents_lowerAll {ns : List Node} (ih : ∀ t ∈ ts, t.KeepsLiterals)
    (h : lowerAll line ts = .ok ns) : (Node.contents ns).Perm (Tree.contents ts) := by
  rw [lowerAll_eq] at h
  obtain ⟨nss, hnss, rfl⟩ := map_eq_ok_iff.1 h
  rw [← Tree.contents_filter_isComment]
  exact contents_mapM (fun t ht => ih t (List.mem_filter.1 ht).1) hnss

theorem contents_lowerArguments {args : List Argument} (ih : ∀ t ∈ ts, t.KeepsLiterals)
    (h : lowerArguments line ts = .ok args) :
    (Node.contents (args.map .argument)).Perm (Tree.contents ts) := by
  rw [lowerArguments_eq] at h
  obtain ⟨nss, hnss, rfl⟩ := map_eq_ok_iff.1 h
  rw [Node.contents_map_argument]
  exact contents_mapM ih hnss

theorem contents_lowerFirst {count : Nat} {ns : List Node} (ih : ∀ t ∈ ts, t.KeepsLiterals)
    (h : lowerFirst line count ts = .ok ns) :
    ns.length = min count ts.length ∧ (Node.contents ns).Perm (Tree.contents (ts.take count)) := by
  obtain ⟨nss, hnss, rfl⟩ := map_eq_ok_iff.1 h
  have hlength := (mapM_eq_ok_iff.1 hnss).length_eq
  rw [Node.contents_map_group, List.length_map, ← hlength, List.length_take]
  exact ⟨rfl, contents_mapM (fun t ht => ih t (List.mem_of_mem_take ht)) hnss⟩

theorem contents_lowerStatements {ns : List Node} (ih : ∀ t ∈ ts, t.KeepsLiterals)
    (h : lowerStatements line ts = .ok ns) : (Node.contents ns).Perm (Tree.contents ts) := by
  induction ts generalizing line ns with
  | nil =>
    cases h
    exact .refl _
  | cons t ts iht =>
    rw [List.forall_mem_cons] at ih
    cases hc : t.isComment with
    | true =>
      rw [lowerStatements_of_comment hc] at h
      rw [← Tree.contents_filter_isComment, List.filter_cons_of_neg (by simp [hc]),
        Tree.contents_filter_isComment]
      exact iht ih.2 h
    | false =>
      obtain ⟨lowered, rest, hlowered, hrest, rfl⟩ := lowerStatements_cons hc h
      rw [Node.contents_append, Node.contents_map_asStatement, Tree.contents_cons]
      exact (ih.1 _ lowered hlowered).append (iht ih.2 hrest)

/-- The key and the value of a field have the literals of their trees, or the plain name for the
key. -/
theorem contents_fieldKey {key value : Tree} {keys values : List Node} (bracketed : Bool)
    (own line : Int) (hkey : (Node.contents keys).Perm (Tree.contents [key]))
    (hvalue : (Node.contents values).Perm (Tree.contents [value])) :
    let f : Field := ⟨some key, value, bracketed, own⟩
    (Node.contents (fieldKey bracketed line keys key).toList ++ Node.contents values).Perm
      (f.plainName?.toList.map .text ++ Tree.contents f.visibleParts) := by
  have hgroup : (Node.contents [group keys] ++ Node.contents values).Perm
      (Tree.contents [key, value]) := by
    rw [Node.contents_group, Tree.contents_cons]
    exact hkey.append hvalue
  cases bracketed with
  | true => cases key <;> exact hgroup
  | false =>
    -- Only here a name becomes a text, and a number is left out on both sides.
    cases key with
    | name id attrib nameLine =>
      have hname : Tree.contents [.name id attrib nameLine, value] = Tree.contents [value] := by
        rw [Tree.contents_cons, Tree.contents_of_structural rfl rfl]
        rfl
      have htext : Node.contents [.text id line] = [.text id] := Node.contents_singleton _
      show (Node.contents [.text id line] ++ Node.contents values).Perm
        ([.text id] ++ Tree.contents [.name id attrib nameLine, value])
      rw [hname, htext]
      exact hvalue.append_left _
    | number n numberLine => exact hvalue
    | _ => exact hgroup

/-- An item with the literals of its field, before items with the literals of theirs. -/
theorem contents_cons_item {f : Field} {fields : List Field} {key : Option Node}
    {values : List Node} {rest : List Item} (own : Int)
    (hf : (Node.contents key.toList ++ Node.contents values).Perm
      (f.plainName?.toList.map .text ++ Tree.contents f.visibleParts))
    (hrest : (Node.contents (rest.map .item)).Perm
      ((fields.filterMap Field.plainName?).map .text ++
        Tree.contents (fields.flatMap Field.visibleParts))) :
    (Node.contents (((⟨group values, key, own⟩ : Item) :: rest).map .item)).Perm
      (((f :: fields).filterMap Field.plainName?).map .text ++
        Tree.contents ((f :: fields).flatMap Field.visibleParts)) := by
  have hnames : (f :: fields).filterMap Field.plainName? =
      f.plainName?.toList ++ fields.filterMap Field.plainName? := by
    rw [List.filterMap_cons]
    cases f.plainName? <;> rfl
  rw [List.map_cons, Node.contents_cons, Node.contents_of_not_literal rfl, Node.children,
    Node.contents_append, Node.contents_group, hnames, List.map_append, List.flatMap_cons,
    Tree.contents_append]
  exact (hf.append hrest).trans (perm_append_interchange _ _ _ _)

theorem contents_lowerFields {fields : List Field} {items : List Item}
    (ih : ∀ p ∈ fields.flatMap Field.parts, p.KeepsLiterals)
    (h : lowerFields line fields = .ok items) :
    (Node.contents (items.map .item)).Perm
      ((fields.filterMap Field.plainName?).map .text ++
        Tree.contents (fields.flatMap Field.visibleParts)) := by
  induction fields generalizing items with
  | nil =>
    cases h
    exact .refl _
  | cons f fields ihf =>
    obtain ⟨key, value, bracketed, own⟩ := f
    rw [List.flatMap_cons, List.forall_mem_append] at ih
    have hvalue := ih.1 value (List.mem_append_right _ List.mem_cons_self) line
    cases key with
    | none =>
      rw [lowerFields] at h
      obtain ⟨values, hvalues, h⟩ := bind_eq_ok_iff.1 h
      obtain ⟨rest, hrest, h⟩ := bind_eq_ok_iff.1 h
      cases h
      exact contents_cons_item _ (hvalue values hvalues) (ihf ih.2 hrest)
    | some key =>
      rw [lowerFields] at h
      obtain ⟨values, hvalues, h⟩ := bind_eq_ok_iff.1 h
      obtain ⟨keys, hkeys, h⟩ := bind_eq_ok_iff.1 h
      obtain ⟨rest, hrest, h⟩ := bind_eq_ok_iff.1 h
      cases h
      have hkey := ih.1 key List.mem_cons_self line keys hkeys
      exact contents_cons_item _ (contents_fieldKey bracketed own _ hkey (hvalue values hvalues))
        (ihf ih.2 hrest)

end

/-! ## One tree -/

section

variable {t : Tree} {n : Node} {ns : List Node}

/-- A node that is no literal, for a tree that is none, has the literals of the tree if its children
have those of the parts. -/
theorem contents_of_children (hc : t.content? = none) (hf : t.fieldNames = [])
    (hn : n.literal? = none)
    (h : (Node.contents n.children).Perm (Tree.contents t.visibleParts)) :
    (Node.contents [n]).Perm (Tree.contents [t]) := by
  rw [Tree.contents_of_structural hc hf, Node.contents_of_not_literal hn]
  exact h

theorem contents_cons_of_perm {ts : List Tree} (h : (Node.contents [n]).Perm (Tree.contents [t]))
    (hrest : (Node.contents ns).Perm (Tree.contents ts)) :
    (Node.contents (n :: ns)).Perm (Tree.contents (t :: ts)) := by
  rw [Node.contents_cons, Tree.contents_cons]
  exact h.append hrest

theorem contents_group_of_perm (h : (Node.contents ns).Perm (Tree.contents [t])) :
    (Node.contents [group ns]).Perm (Tree.contents [t]) := by
  rw [Node.contents_group]
  exact h

/-- A tree in a place where a name is not a variable has its literals there too. -/
theorem contents_identifierOr (line : Int) (h : (Node.contents ns).Perm (Tree.contents [t])) :
    (Node.contents [identifierOr line ns t]).Perm (Tree.contents [t]) := by
  cases t with
  | name id attrib own => exact contents_of_children rfl rfl rfl (.refl _)
  | _ => exact contents_group_of_perm h

end

namespace Tree

theorem keepsLiterals_field {f : Field} (h : ∀ p ∈ f.parts, p.KeepsLiterals) :
    (field f).KeepsLiterals := by
  intro line ns hns
  obtain ⟨key, value, bracketed, own⟩ := f
  have hvalue := h value (List.mem_append_right _ List.mem_cons_self)
  cases key with
  | none =>
    rw [lower] at hns
    obtain ⟨values, hvalues, hns⟩ := bind_eq_ok_iff.1 hns
    cases hns
    exact contents_of_children rfl rfl rfl (hvalue _ values hvalues)
  | some key =>
    rw [lower] at hns
    obtain ⟨keys, hkeys, hns⟩ := bind_eq_ok_iff.1 hns
    obtain ⟨values, hvalues, hns⟩ := bind_eq_ok_iff.1 hns
    cases hns
    have hkey := h key List.mem_cons_self _ keys hkeys
    refine contents_of_children rfl rfl rfl ?_
    show (Node.contents (keys ++ values)).Perm (contents ([key] ++ [value]))
    rw [Node.contents_append, contents_append]
    exact hkey.append (hvalue _ values hvalues)

theorem keepsLiterals_index {value key : Tree} (hvalue : value.KeepsLiterals)
    (hkey : key.KeepsLiterals) (dotted : Bool) (own : Int) :
    (index value key dotted own).KeepsLiterals := by
  intro line ns h
  rw [lower] at h
  obtain ⟨keys, hkeys, h⟩ := bind_eq_ok_iff.1 h
  obtain ⟨values, hvalues, h⟩ := bind_eq_ok_iff.1 h
  cases h
  refine contents_of_children rfl rfl rfl
    (contents_cons_of_perm (contents_group_of_perm (hvalue _ values hvalues)) ?_)
  cases dotted with
  | true => exact contents_identifierOr _ (hkey _ keys hkeys)
  | false => exact contents_group_of_perm (hkey _ keys hkeys)

theorem keepsLiterals_call {callee : Tree} {args : List Tree} (hcallee : callee.KeepsLiterals)
    (hargs : ∀ t ∈ args, t.KeepsLiterals) (own : Int) : (call callee args own).KeepsLiterals := by
  intro line ns h
  rw [lower] at h
  obtain ⟨callees, hcallees, h⟩ := bind_eq_ok_iff.1 h
  obtain ⟨arguments, harguments, h⟩ := bind_eq_ok_iff.1 h
  cases h
  exact contents_of_children rfl rfl rfl
    (contents_cons_of_perm (contents_identifierOr _ (hcallee _ callees hcallees))
      (contents_lowerArguments hargs harguments))

theorem keepsLiterals_invoke {source : Tree} {args : List Tree} (hsource : source.KeepsLiterals)
    (hargs : ∀ t ∈ args, t.KeepsLiterals) (method : Tree) (own : Int) :
    (invoke source method args own).KeepsLiterals := by
  intro line ns h
  rw [lower] at h
  obtain ⟨sources, hsources, h⟩ := bind_eq_ok_iff.1 h
  obtain ⟨arguments, harguments, h⟩ := bind_eq_ok_iff.1 h
  cases h
  refine contents_of_children rfl rfl rfl
    (contents_cons_of_perm ?_ (contents_lowerArguments hargs harguments))
  rw [Node.contents_of_not_literal rfl]
  exact contents_group_of_perm (hsource _ sources hsources)

theorem keepsLiterals_assign {targets values : List Tree}
    (htargets : ∀ t ∈ targets, t.KeepsLiterals) (hvalues : ∀ v ∈ values, v.KeepsLiterals)
    (isLocal : Bool) (own : Int) : (assign isLocal targets values own).KeepsLiterals := by
  intro line ns h
  rw [lower] at h
  obtain ⟨ts, vs, hts, hvs, rfl⟩ := assignments_eq_ok h
  obtain ⟨htlength, htargets⟩ := contents_lowerFirst htargets hts
  obtain ⟨hvlength, hvalues⟩ := contents_lowerFirst hvalues hvs
  rw [Nat.min_self] at htlength
  rw [List.take_length] at htargets
  -- Values beyond the targets are not lowered, so none of `vs` gets lost.
  have hle : vs.length ≤ ts.length := by
    rw [htlength, hvlength]
    exact Nat.min_le_left _ _
  rw [contents_of_structural rfl rfl, visibleParts, contents_append]
  exact (Node.contents_assignEach _ hle).trans (htargets.append hvalues)

theorem keepsLiterals_function_of_name {f : Tree} {id : String} (hf : f.plainName? = some id)
    {body : Block} (hbody : ∀ t ∈ body.statements, t.KeepsLiterals) (isLocal : Bool)
    (params : List Tree) (own : Int) : (function isLocal f params body own).KeepsLiterals := by
  intro line ns h
  rw [lower_function_of_name hf] at h
  obtain ⟨statements, hstatements, h⟩ := bind_eq_ok_iff.1 h
  cases h
  refine contents_of_children rfl rfl rfl ?_
  rw [Node.children, Node.contents_append, Node.contents_map_paramsOf,
    visibleParts_function_of_name hf]
  exact contents_lowerStatements hbody hstatements

theorem keepsLiterals_function_of_other {f : Tree} (hf : f.plainName? = none) {params : List Tree}
    {body : Block} (hkeeps : f.KeepsLiterals) (hparams : ∀ t ∈ params, t.KeepsLiterals)
    (hbody : ∀ t ∈ body.statements, t.KeepsLiterals) (isLocal : Bool) (own : Int) :
    (function isLocal f params body own).KeepsLiterals := by
  intro line ns h
  rw [lower_function_of_other hf] at h
  obtain ⟨names, hnames, h⟩ := bind_eq_ok_iff.1 h
  obtain ⟨ps, hps, h⟩ := bind_eq_ok_iff.1 h
  obtain ⟨statements, hstatements, h⟩ := bind_eq_ok_iff.1 h
  cases h
  refine contents_of_children rfl rfl rfl ?_
  rw [visibleParts_function_of_other hf, contents_cons, contents_append, Node.children,
    List.append_assoc, Node.contents_append, Node.contents_append,
    Node.contents_of_not_literal rfl]
  exact (hkeeps _ names hnames).append
    ((contents_lowerAll hparams hps).append (contents_lowerAll hbody hstatements))

/-- Every tree is lowered to nodes with its literals, each as often as it stands there. -/
theorem keepsLiterals (t : Tree) : t.KeepsLiterals := by
  induction t using Tree.induct with
  | step t ih =>
    cases t with
    | name | closure | comment =>
      intro line ns h
      rw [lower] at h
      cases h
      exact contents_of_children rfl rfl rfl (.refl _)
    | number n own =>
      intro line ns h
      cases n <;>
      · rw [lower] at h
        cases h
        rw [contents_singleton, Node.contents_singleton]
        exact .refl _
    | string bytes own =>
      intro line ns h
      rw [lower] at h
      split at h
      · next s hs =>
        cases h
        rw [contents_singleton, content?, hs, Node.contents_singleton]
        exact .refl _
      · cases h
    | table fields own =>
      intro line ns h
      rw [lower] at h
      obtain ⟨items, hitems, h⟩ := bind_eq_ok_iff.1 h
      cases h
      rw [contents_singleton, Node.contents_of_not_literal rfl]
      exact contents_lowerFields ih hitems
    | construct kind parts own =>
      intro line ns h
      rw [lower] at h
      obtain ⟨operands, hoperands, h⟩ := bind_eq_ok_iff.1 h
      cases h
      exact contents_of_children rfl rfl rfl (contents_lowerAll ih hoperands)
    | block b =>
      intro line ns h
      obtain ⟨statements, own⟩ := b
      rw [lower] at h
      obtain ⟨operands, hoperands, h⟩ := bind_eq_ok_iff.1 h
      cases h
      exact contents_of_children rfl rfl rfl (contents_lowerAll ih hoperands)
    | field f => exact keepsLiterals_field ih
    | index value key dotted own =>
      rw [parts, List.forall_mem_cons, List.forall_mem_singleton] at ih
      exact keepsLiterals_index ih.1 ih.2 dotted own
    | call callee args own =>
      rw [parts, List.forall_mem_cons] at ih
      exact keepsLiterals_call ih.1 ih.2 own
    | invoke source method args own =>
      rw [parts, List.forall_mem_cons, List.forall_mem_cons] at ih
      exact keepsLiterals_invoke ih.1 ih.2.2 method own
    | assign isLocal targets values own =>
      rw [parts, List.forall_mem_append] at ih
      exact keepsLiterals_assign ih.1 ih.2 isLocal own
    | function isLocal f params body own =>
      rw [parts, List.forall_mem_cons, List.forall_mem_append] at ih
      cases hf : f.plainName? with
      | some id => exact keepsLiterals_function_of_name hf ih.2.2 isLocal params own
      | none => exact keepsLiterals_function_of_other hf ih.1 ih.2.1 ih.2.2 isLocal own

end Tree

/-! ## Programs -/

theorem Tree.contents_perm (ts : List Tree) :
    (contents ts).Perm ((ts.flatMap visible).filterMap content? ++
      ((ts.flatMap visible).flatMap fieldNames).map .text) := by
  rw [List.filterMap_eq_flatMap_toList, List.map_flatMap]
  exact (List.flatMap_append_perm _ _ _).symm

/-- A lowered program has as literals the numbers and strings of its trees, and a text for every
plain name that a field of a table is written with, each as often as it stands there. -/
theorem lowered_literals {trees : List Tree} {nodes : List Node}
    (h : lowerProgram trees = .ok nodes) :
    let seen := trees.flatMap Tree.visible
    (Node.contents nodes).Perm
      (seen.filterMap Tree.content? ++ (seen.flatMap Tree.fieldNames).map .text) :=
  (contents_lowerStatements (fun t _ => t.keepsLiterals) h).trans (Tree.contents_perm trees)

/-- In `local t, f = {n = 1, 2, [3] = 4}, function() return 5 end, 6` and `t.s:put(2, "n")` the
literals are `1`, `2` and the text `n` twice each, `3` and `4`. -/
theorem lowered_literals_of_table :
    let number (n : Int) : Tree := .number (.int n) 0
    let table : Tree := .table [⟨some (.name "n" none 0), number 1, false, 0⟩,
      ⟨some (number 1), number 2, false, 0⟩, ⟨some (number 3), number 4, true, 0⟩] 1
    let closure : Tree := .closure [] ⟨[.construct .returning [number 5] 0], 0⟩ 0
    let trees : List Tree :=
      [.assign true [.name "t" none 0, .name "f" none 0] [table, closure, number 6] 1,
        .invoke (.index (.name "t" none 0) (.name "s" none 0) true 0) (.name "put" none 0)
          [number 2, .string "n".toUTF8 0] 2]
    ∃ nodes, lowerProgram trees = .ok nodes ∧
      (Node.contents nodes).Perm
        [.int 1, .int 2, .int 3, .int 4, .int 2, .text "n", .text "n"] := by
  intro number table closure trees
  have h : lowerProgram trees = .ok
      [.assign (.variable "t" 1) (.array [⟨.int 1 1, some (.text "n" 1), 1⟩, ⟨.int 2 1, none, 1⟩,
          ⟨.int 4 1, some (.int 3 1), 1⟩] 1) 1,
        .assign (.variable "f" 1) (.operation "AnonymousFunction" [] 1) 1,
        .call (.operation "Invoke" [.operation "Index" [.variable "t" 2, .name "s" 2] 2] 2)
          [⟨.int 2 2, none, 2⟩, ⟨.text "n" 2, none, 2⟩] 2] := by
    with_unfolding_all rfl
  refine ⟨_, h, (lowered_literals h).trans ?_⟩
  simp only [trees, table, closure, number, Tree.visible_eq, Tree.visibleParts, Tree.parts,
    Field.visibleParts, Field.parts, Option.toList_some, List.flatMap_cons, List.flatMap_nil,
    List.cons_append, List.nil_append, List.take_succ_cons, List.length_cons]
  with_unfolding_all exact .refl _

end Lua

end ValueTrace
