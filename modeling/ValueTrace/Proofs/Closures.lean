import ValueTrace.Analysis
import ValueTrace.Proofs.CurrentLine
import ValueTrace.Proofs.LoweredLiterals

/-!
# Function expressions are opaque

What stands inside a function expression has no bearing on the statements of a program.
`Tree.hollow` takes the parameters and bodies of all function expressions out of a tree, so two
trees that differ there only are the same hollow tree. Lowering does not tell a tree from its hollow
form (`Tree.lower_hollow`), with one proviso: a statement without a line takes that of its first
descendant with one, and this search also enters function expressions. So every statement that is
lowered as one has to have a line of its own (`Lined`).
-/

namespace ValueTrace.Lua

/-! ## Hollow trees -/

mutual
/-- The tree without the parameters and bodies of the function expressions in it. -/
@[simp] def Tree.hollow : Tree → Tree
  | .name id attrib line => .name id (hollowOption attrib) line
  | .number n line => .number n line
  | .string bytes line => .string bytes line
  | .table fields line => .table (hollowFields fields) line
  | .field f => .field f.hollow
  | .index value key dotted line => .index value.hollow key.hollow dotted line
  | .call callee args line => .call callee.hollow (hollowAll args) line
  | .invoke source method args line =>
    .invoke source.hollow method.hollow (hollowAll args) line
  | .assign isLocal targets values line =>
    .assign isLocal (hollowAll targets) (hollowAll values) line
  | .function isLocal f params body line =>
    .function isLocal f.hollow (hollowAll params) body.hollow line
  | .closure _ _ line => .closure [] ⟨[], 0⟩ line
  | .block b => .block b.hollow
  | .comment text line => .comment text line
  | .construct kind parts line => .construct kind (hollowAll parts) line
@[simp] def hollowAll : List Tree → List Tree
  | [] => []
  | t :: ts => t.hollow :: hollowAll ts
@[simp] def hollowOption : Option Tree → Option Tree
  | none => none
  | some t => some t.hollow
@[simp] def Field.hollow : Field → Field
  | ⟨key, value, bracketed, line⟩ => ⟨hollowOption key, value.hollow, bracketed, line⟩
@[simp] def hollowFields : List Field → List Field
  | [] => []
  | f :: fs => f.hollow :: hollowFields fs
@[simp] def Block.hollow : Block → Block
  | ⟨statements, line⟩ => ⟨hollowAll statements, line⟩
end

theorem hollowAll_eq_map (ts : List Tree) : hollowAll ts = ts.map Tree.hollow := by
  induction ts with
  | nil => rw [hollowAll, List.map_nil]
  | cons t ts ih => rw [hollowAll, ih, List.map_cons]

theorem hollowFields_eq_map (fs : List Field) : hollowFields fs = fs.map Field.hollow := by
  induction fs with
  | nil => rw [hollowFields, List.map_nil]
  | cons f fs ih => rw [hollowFields, ih, List.map_cons]

theorem hollowOption_eq_map (o : Option Tree) : hollowOption o = o.map Tree.hollow := by
  cases o <;> rw [hollowOption] <;> rfl

theorem Block.statements_hollow (b : Block) :
    b.hollow.statements = b.statements.map Tree.hollow := by
  obtain ⟨statements, line⟩ := b
  rw [hollow, hollowAll_eq_map]

theorem Block.line_hollow (b : Block) : b.hollow.line = b.line := by
  obtain ⟨statements, line⟩ := b
  rw [hollow]

theorem Field.parts_hollow (f : Field) : f.hollow.parts = f.parts.map Tree.hollow := by
  obtain ⟨key, value, bracketed, line⟩ := f
  rw [hollow, hollowOption_eq_map]
  cases key <;> rfl

theorem Field.visibleParts_hollow (f : Field) :
    f.hollow.visibleParts = f.visibleParts.map Tree.hollow := by
  obtain ⟨key, value, bracketed, line⟩ := f
  cases key with
  | none => rw [hollow, hollowOption]; rfl
  | some key =>
    rw [hollow, hollowOption]
    cases key <;> rw [Tree.hollow] <;> cases bracketed <;> simp [visibleParts, parts, Tree.hollow]

namespace Tree

theorem isComment_hollow (t : Tree) : t.hollow.isComment = t.isComment := by
  cases t <;> rw [hollow] <;> rfl

theorem plainName?_hollow (t : Tree) : t.hollow.plainName? = t.plainName? := by
  cases t <;> rw [hollow] <;> rfl

theorem ownLine_hollow (t : Tree) : t.hollow.ownLine = t.ownLine := by
  cases t with
  | field f =>
    obtain ⟨key, value, bracketed, line⟩ := f
    rw [hollow, Field.hollow]
    rfl
  | block b =>
    obtain ⟨statements, line⟩ := b
    rw [hollow, Block.hollow]
    rfl
  | _ => simp only [hollow, ownLine]

theorem visibleParts_hollow (t : Tree) :
    t.hollow.visibleParts = t.visibleParts.map hollow := by
  cases t with
  | name | number | string | closure | comment => rw [hollow]; rfl
  | table fields line =>
    rw [hollow, hollowFields_eq_map, visibleParts, visibleParts, List.flatMap_map, List.map_flatMap]
    exact List.flatMap_congr fun f _ => f.visibleParts_hollow
  | field f =>
    rw [hollow]
    exact f.parts_hollow
  | index value key dotted line => rw [hollow]; rfl
  | call callee args line =>
    rw [hollow, hollowAll_eq_map]
    rfl
  | invoke source method args line =>
    rw [hollow, hollowAll_eq_map]
    rfl
  | assign isLocal targets values line =>
    rw [hollow, hollowAll_eq_map, hollowAll_eq_map, visibleParts, visibleParts, List.map_append,
      List.map_take, List.length_map]
  | function isLocal f params body line =>
    rw [hollow, hollowAll_eq_map]
    cases f <;>
      simp [hollow, visibleParts, parts, Block.statements_hollow]
  | block b =>
    rw [hollow]
    exact b.statements_hollow
  | construct kind parts line =>
    rw [hollow, hollowAll_eq_map]
    rfl

theorem visible_hollow (t : Tree) : t.hollow.visible = t.visible.map hollow := by
  induction t using Tree.induct with
  | step t ih =>
    rw [visible_eq, visible_eq t, visibleParts_hollow, List.map_cons, List.flatMap_map,
      List.map_flatMap]
    congr 1
    exact List.flatMap_congr fun p hp => ih p (visibleParts_subset t hp)

end Tree

/-! ## Lines of statements -/

/-- Statements that each have a line of their own; comments do not count. -/
def Lined (ts : List Tree) : Prop := ∀ t ∈ ts, t.isComment = false → t.ownLine ≠ 0

/-- The statements of a function with a plain name, which are lowered as statements. -/
def Tree.namedBody : Tree → List Tree
  | .function _ (.name _ _ _) _ body _ => body.statements
  | _ => []

theorem Tree.namedBody_function_of_name {f : Tree} {id : String} (h : f.plainName? = some id)
    (isLocal : Bool) (params : List Tree) (body : Block) (own : Int) :
    namedBody (.function isLocal f params body own) = body.statements := by
  cases f with
  | name => rfl
  | _ => cases h

/-- All statements in the bodies of the functions with plain names in a tree have lines. -/
def Tree.BodiesLined (t : Tree) : Prop := ∀ u ∈ t.visible, Lined u.namedBody

theorem Tree.namedBody_hollow (t : Tree) : t.hollow.namedBody = t.namedBody.map hollow := by
  cases t with
  | function isLocal f params body line =>
    rw [hollow]
    cases f <;> simp [hollow, namedBody, Block.statements_hollow]
  | _ => simp only [hollow, namedBody, List.map_nil]

theorem lined_map_hollow {ts : List Tree} : Lined (ts.map Tree.hollow) ↔ Lined ts := by
  unfold Lined
  rw [List.forall_mem_map]
  simp only [Tree.isComment_hollow, Tree.ownLine_hollow]

namespace Tree

theorem bodiesLined_hollow {t : Tree} : t.hollow.BodiesLined ↔ t.BodiesLined := by
  unfold BodiesLined
  rw [visible_hollow, List.forall_mem_map]
  simp only [namedBody_hollow, lined_map_hollow]

theorem BodiesLined.of_mem_visibleParts {t p : Tree} (h : t.BodiesLined)
    (hp : p ∈ t.visibleParts) : p.BodiesLined := by
  intro u hu
  apply h u
  rw [visible_eq]
  exact List.mem_cons_of_mem _ (List.mem_flatMap.2 ⟨p, hp, hu⟩)

theorem BodiesLined.lined_namedBody {t : Tree} (h : t.BodiesLined) : Lined t.namedBody := by
  apply h t
  rw [visible_eq]
  exact List.mem_cons_self

theorem lineOr_of_ne {own : Int} (h : own ≠ 0) (other : Int) : lineOr own other = own := if_neg h

/-- A tree with a line of its own is not searched for one. -/
theorem firstLine_of_ownLine {t : Tree} (hc : t.isComment = false) (h : t.ownLine ≠ 0) :
    t.firstLine = t.ownLine := by
  cases t with
  | comment => cases hc
  | number | string => rw [firstLine, ownLine]
  | field f =>
    obtain ⟨key, value, bracketed, line⟩ := f
    rw [firstLine, Field.firstLine]
    exact lineOr_of_ne h _
  | block b =>
    obtain ⟨statements, line⟩ := b
    rw [firstLine, Block.firstLine]
    exact lineOr_of_ne h _
  | _ =>
    rw [firstLine]
    exact lineOr_of_ne h _

end Tree

/-! ## Lowering hollow trees -/

section

variable {line : Int} {ts : List Tree}

theorem mapM_lower_hollow (h : ∀ t ∈ ts, t.hollow.lower line = t.lower line) :
    (ts.map Tree.hollow).mapM (Tree.lower line) = ts.mapM (Tree.lower line) := by
  induction ts with
  | nil => rfl
  | cons t ts ih =>
    rw [List.forall_mem_cons] at h
    rw [List.map_cons, List.mapM_cons, List.mapM_cons, h.1, ih h.2]

theorem lowerAll_hollow (h : ∀ t ∈ ts, t.hollow.lower line = t.lower line) :
    lowerAll line (ts.map Tree.hollow) = lowerAll line ts := by
  rw [lowerAll_eq, lowerAll_eq, List.filter_map]
  simp only [Function.comp_def, Tree.isComment_hollow]
  rw [mapM_lower_hollow fun t ht => h t (List.mem_filter.1 ht).1]

theorem lowerArguments_hollow (h : ∀ t ∈ ts, t.hollow.lower line = t.lower line) :
    lowerArguments line (ts.map Tree.hollow) = lowerArguments line ts := by
  rw [lowerArguments_eq, lowerArguments_eq, mapM_lower_hollow h]

theorem lowerEach_hollow (h : ∀ t ∈ ts, t.hollow.lower line = t.lower line) :
    lowerEach line (ts.map Tree.hollow) = lowerEach line ts := by
  rw [lowerEach_eq_map, lowerEach_eq_map, List.map_map]
  exact List.map_congr_left h

/-- Values without a target may differ in any way. -/
theorem assignments_hollow {values : List Tree}
    (ht : ∀ t ∈ ts, t.hollow.lower line = t.lower line)
    (hv : ∀ v ∈ values.take ts.length, v.hollow.lower line = v.lower line) :
    assignments line (lowerEach line (ts.map Tree.hollow))
        (lowerEach line (values.map Tree.hollow)) =
      assignments line (lowerEach line ts) (lowerEach line values) := by
  have htake (vs : List Tree) : assignments line (lowerEach line ts) (lowerEach line vs) =
      assignments line (lowerEach line ts) (lowerEach line (vs.take ts.length)) := by
    rw [← assignments_take, lowerEach_eq_map, lowerEach_eq_map, List.length_map, ← List.map_take,
      ← lowerEach_eq_map, ← lowerEach_eq_map]
  rw [lowerEach_hollow ht, htake, ← List.map_take, lowerEach_hollow hv, ← htake]

theorem identifierOr_hollow (ns : List Node) (t : Tree) :
    identifierOr line ns t.hollow = identifierOr line ns t := by
  cases t <;> simp only [Tree.hollow, identifierOr]

theorem fieldKey_hollow (bracketed : Bool) (ns : List Node) (t : Tree) :
    fieldKey bracketed line ns t.hollow = fieldKey bracketed line ns t := by
  cases t <;> simp only [Tree.hollow, fieldKey]

theorem paramsOf_hollow (params : List Tree) :
    paramsOf line (params.map Tree.hollow) = paramsOf line params := by
  rw [paramsOf, List.filterMap_map, paramsOf]
  congr 1
  funext t
  cases t with
  | construct kind parts own => cases kind <;> simp only [Function.comp_apply, Tree.hollow]
  | _ => simp only [Function.comp_apply, Tree.hollow]

/-- The parts of a field are visible, except for numbers, in which there is nothing to take out. -/
theorem Field.lower_hollow_of_mem_parts {f : Field} {p : Tree} (hp : p ∈ f.parts)
    (h : ∀ p ∈ f.visibleParts, p.hollow.lower line = p.lower line) :
    p.hollow.lower line = p.lower line := by
  unfold visibleParts at h
  split at h
  · rcases List.mem_cons.1 hp with rfl | hp
    · rw [Tree.hollow]
    · exact h p hp
  · exact h p hp

theorem lowerFields_hollow {fields : List Field}
    (h : ∀ p ∈ fields.flatMap Field.visibleParts, p.hollow.lower line = p.lower line) :
    lowerFields line (fields.map Field.hollow) = lowerFields line fields := by
  induction fields with
  | nil => rfl
  | cons f fields ih =>
    rw [List.flatMap_cons, List.forall_mem_append] at h
    have hrest := ih h.2
    have hparts (p : Tree) (hp : p ∈ f.parts) := Field.lower_hollow_of_mem_parts hp h.1
    obtain ⟨key, value, bracketed, own⟩ := f
    have hvalue := hparts value (List.mem_append_right _ List.mem_cons_self)
    cases key with
    | none =>
      rw [List.map_cons, Field.hollow, hollowOption, lowerFields, lowerFields, hvalue, hrest]
    | some key =>
      have hkey := hparts key List.mem_cons_self
      rw [List.map_cons, Field.hollow, hollowOption, lowerFields, lowerFields, hvalue, hkey, hrest]
      simp only [fieldKey_hollow]

theorem lowerStatements_hollow (hlined : Lined ts)
    (h : ∀ t ∈ ts, ∀ line, t.hollow.lower line = t.lower line) :
    lowerStatements line (ts.map Tree.hollow) = lowerStatements line ts := by
  induction ts generalizing line with
  | nil => rfl
  | cons t ts ih =>
    rw [List.forall_mem_cons] at h
    have hrest (line : Int) : lowerStatements line (ts.map Tree.hollow) = lowerStatements line ts :=
      ih (fun u hu => hlined u (List.mem_cons_of_mem _ hu)) h.2
    rw [List.map_cons]
    cases hc : t.isComment with
    | true =>
      have hhollow : t.hollow.isComment = true := t.isComment_hollow.trans hc
      rw [lowerStatements_of_comment hc, lowerStatements_of_comment hhollow, hrest]
    | false =>
      have hhollow : t.hollow.isComment = false := t.isComment_hollow.trans hc
      have hline : t.ownLine ≠ 0 := hlined t List.mem_cons_self hc
      have hfirst : t.hollow.firstLine = t.firstLine := by
        rw [Tree.firstLine_of_ownLine hc hline, Tree.firstLine_of_ownLine hhollow, t.ownLine_hollow]
        rwa [t.ownLine_hollow]
      rw [lowerStatements_of_statement hc, lowerStatements_of_statement hhollow]
      simp only [hfirst, h.1, hrest]

end

/-- A tree is lowered like its hollow form, whatever line it takes over. -/
theorem Tree.lower_hollow {t : Tree} (h : t.BodiesLined) (line : Int) :
    t.hollow.lower line = t.lower line := by
  induction t using Tree.induct generalizing line with
  | step t ih =>
    replace ih (p : Tree) (hp : p ∈ t.visibleParts) (line : Int) :
        p.hollow.lower line = p.lower line :=
      ih p (visibleParts_subset t hp) (h.of_mem_visibleParts hp) line
    cases t with
    | name | number | string | closure | comment => simp only [hollow, lower]
    | table fields own =>
      rw [hollow, hollowFields_eq_map, lower, lower, lowerFields_hollow fun p hp => ih p hp _]
    | construct kind parts own =>
      have hparts (line : Int) : lowerAll line (parts.map hollow) = lowerAll line parts :=
        lowerAll_hollow fun p hp => ih p hp line
      rw [hollow, hollowAll_eq_map, lower, lower, hparts]
    | block b =>
      obtain ⟨statements, own⟩ := b
      have hparts (line : Int) : lowerAll line (statements.map hollow) = lowerAll line statements :=
        lowerAll_hollow fun p hp => ih p hp line
      rw [hollow, Block.hollow, hollowAll_eq_map, lower, lower, hparts]
    | field f =>
      obtain ⟨key, value, bracketed, own⟩ := f
      have hvalue := ih value (List.mem_append_right _ List.mem_cons_self)
      cases key with
      | none => rw [hollow, Field.hollow, hollowOption, lower, lower, hvalue]
      | some key =>
        have hkey := ih key List.mem_cons_self
        rw [hollow, Field.hollow, hollowOption, lower, lower, hvalue, hkey]
    | index value key dotted own =>
      have hvalue := ih value List.mem_cons_self
      have hkey := ih key (List.mem_cons_of_mem _ List.mem_cons_self)
      rw [hollow, lower, lower, hvalue, hkey]
      simp only [identifierOr_hollow]
    | call callee args own =>
      have hcallee := ih callee List.mem_cons_self
      rw [hollow, hollowAll_eq_map, lower, lower, hcallee,
        lowerArguments_hollow fun p hp => ih p (List.mem_cons_of_mem _ hp) _]
      simp only [identifierOr_hollow]
    | invoke source method args own =>
      have hsource := ih source List.mem_cons_self
      rw [hollow, hollowAll_eq_map, lower, lower, hsource,
        lowerArguments_hollow fun p hp => ih p (List.mem_cons_of_mem _ hp) _]
    | assign isLocal targets values own =>
      rw [hollow, hollowAll_eq_map, hollowAll_eq_map, lower, lower,
        assignments_hollow (fun p hp => ih p (List.mem_append_left _ hp) _)
          fun p hp => ih p (List.mem_append_right _ hp) _]
    | function isLocal f params body own =>
      have hhollow : f.hollow.plainName? = f.plainName? := f.plainName?_hollow
      rw [hollow, hollowAll_eq_map]
      cases hf : f.plainName? with
      | some id =>
        have hlined : Lined body.statements := by
          have hbody := h.lined_namedBody
          rwa [namedBody_function_of_name hf] at hbody
        rw [visibleParts_function_of_name hf] at ih
        rw [lower_function_of_name hf, lower_function_of_name (hhollow.trans hf), paramsOf_hollow,
          Block.statements_hollow, lowerStatements_hollow hlined ih]
      | none =>
        rw [visibleParts_function_of_other hf, List.forall_mem_cons, List.forall_mem_append] at ih
        obtain ⟨hlower, hparams, hstatements⟩ := ih
        rw [lower_function_of_other hf, lower_function_of_other (hhollow.trans hf), hlower,
          Block.statements_hollow, Block.line_hollow, lowerAll_hollow fun p hp => hparams p hp _,
          lowerAll_hollow fun p hp => hstatements p hp _]

/-! ## Programs -/

/-- Two programs that differ only in the parameters and bodies of function expressions have the same
statements, or fail to be lowered in the same way, and so have the same analysis. Every statement of
the program and of its functions with plain names has to have a line. -/
theorem lowerProgram_eq_of_hollow_eq {trees others : List Tree}
    (hsame : trees.map Tree.hollow = others.map Tree.hollow) (hlined : Lined trees)
    (hbodies : ∀ t ∈ trees, t.BodiesLined) :
    lowerProgram trees = lowerProgram others ∧
      ∀ a : Analysis, a.run <$> lowerProgram trees = a.run <$> lowerProgram others := by
  have hlined' : Lined others := by rwa [← lined_map_hollow, ← hsame, lined_map_hollow]
  have hbodies' : ∀ t ∈ others, t.BodiesLined := by
    have h : ∀ t ∈ trees.map Tree.hollow, t.BodiesLined :=
      List.forall_mem_map.2 fun t ht => Tree.bodiesLined_hollow.2 (hbodies t ht)
    rw [hsame, List.forall_mem_map] at h
    exact fun t ht => Tree.bodiesLined_hollow.1 (h t ht)
  have heq : lowerProgram trees = lowerProgram others := calc
    lowerProgram trees = lowerProgram (trees.map Tree.hollow) :=
      (lowerStatements_hollow hlined fun t ht => Tree.lower_hollow (hbodies t ht)).symm
    _ = lowerProgram (others.map Tree.hollow) := by rw [hsame]
    _ = lowerProgram others :=
      lowerStatements_hollow hlined' fun t ht => Tree.lower_hollow (hbodies' t ht)
  exact ⟨heq, fun a => by rw [heq]⟩

/-- In `local function g() h({c}) end` and `f = c` it does not matter whether `c` stands for
`function() return 1 end` or for `function(x) x = y end`. -/
theorem lowerProgram_eq_of_hollow_eq_nested :
    let name (id : String) : Tree := .name id none 0
    let program (c : Tree) : List Tree :=
      [.function true (name "g") []
          ⟨[.call (name "h") [.table [⟨some (.number (.int 1) 0), c, false, 0⟩] 0] 2], 0⟩ 1,
        .assign false [name "f"] [c] 4]
    let one : Tree := .closure [] ⟨[.construct .returning [.number (.int 1) 5] 5], 5⟩ 0
    let other : Tree := .closure [name "x"] ⟨[.assign false [name "x"] [name "y"] 6], 6⟩ 0
    lowerProgram (program one) = lowerProgram (program other) ∧
      (Analysis.start false).run <$> lowerProgram (program one) =
        (Analysis.start false).run <$> lowerProgram (program other) := by
  intro name program one other
  have hlined : Lined (program one) := by
    simp [program, Lined, Tree.ownLine]
  have hbodies : ∀ t ∈ program one, t.BodiesLined := by
    refine List.forall_mem_cons.2 ⟨?_, List.forall_mem_singleton.2 ?_⟩ <;> unfold Tree.BodiesLined
    · simp only [name, one, Tree.visible_eq, Tree.visibleParts, Tree.parts, Field.visibleParts,
        List.flatMap_cons, List.flatMap_nil, List.cons_append, List.nil_append]
      simp [Tree.namedBody, Lined, Tree.ownLine]
    · simp only [name, one, Tree.visible_eq, Tree.visibleParts, List.flatMap_cons, List.flatMap_nil,
        List.cons_append, List.nil_append, List.take_succ_cons, List.length_cons]
      simp [Tree.namedBody, Lined]
  have hsame : (program one).map Tree.hollow = (program other).map Tree.hollow := by
    with_unfolding_all rfl
  have h := lowerProgram_eq_of_hollow_eq hsame hlined hbodies
  exact ⟨h.1, h.2 _⟩

/-- A statement without a line may take that of the body of a function expression. -/
example : lowerProgram [.assign false [.name "f" none 0] [.closure [] ⟨[], 5⟩ 0] 0] =
    .ok [.assign (.variable "f" 5) (.operation "AnonymousFunction" [] 5) 5] := rfl

end ValueTrace.Lua
