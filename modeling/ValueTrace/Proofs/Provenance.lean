import ValueTrace.Proofs.Inference
import ValueTrace.Proofs.Stored

/-!
# Where values come from

`Value.DrawnFrom` says that every content in a value, at any depth, is the one of a literal, and
that its line is the line of that literal. Inference makes up no content, so whatever an analysis
stores is drawn from the literals in the statements seen so far. There are two exceptions: the
request input is there without a literal, and a declared parameter bears the line on which it is
declared.
-/

namespace ValueTrace

/-! ## Literals of a program -/

namespace Node

/-- One node occurs in another. -/
inductive OccursIn (m : Node) : Node → Prop
  | self : OccursIn m m
  | part {c n : Node} (hc : c ∈ n.children) (h : OccursIn m c) : OccursIn m n

/-- The expressions that a statement takes values from: a right side, arguments, or defaults. -/
def expressions : Node → List Node
  | .assign _ value _ => [value]
  | .call _ args _ => args.map Argument.value
  | .function _ params _ _ => params.filterMap Param.default
  | _ => []

/-- A node occurs in an expression of one of the statements. -/
def WrittenIn (ns : List Node) (m : Node) : Prop :=
  ∃ n ∈ ns, ∃ e ∈ n.expressions, m.OccursIn e

theorem OccursIn.of_value {m : Node} {items : List Item} {i : Item} {line : Int} (hi : i ∈ items)
    (h : m.OccursIn i.value) : m.OccursIn (.array items line) := by
  have hitem : m.OccursIn (.item i) := .part (List.mem_append_right _ List.mem_cons_self) h
  exact .part (List.mem_map_of_mem hi) hitem

theorem WrittenIn.mono {ns : List Node} {m : Node} (h : WrittenIn ns m) (ms : List Node) :
    WrittenIn (ns ++ ms) m := by
  obtain ⟨n, hn, he⟩ := h
  exact ⟨n, List.mem_append_left ms hn, he⟩

theorem writtenIn_last (ns : List Node) {n e m : Node} (he : e ∈ n.expressions)
    (hm : m.OccursIn e) : WrittenIn (ns ++ [n]) m :=
  ⟨n, List.mem_append_right ns List.mem_cons_self, e, he, hm⟩

end Node

namespace Value

/-- Every content in a value is that of a literal among the given nodes, on the line of that
literal. An array has as many elements as the literal has items. Only the request input needs no
literal. -/
inductive DrawnFrom (L : Node → Prop) : Value → Prop
  | missing (name : String) (type : Ty) (line : Int) : DrawnFrom L ⟨name, .missing, type, line⟩
  | int (name : String) {n line : Int} (h : L (.int n line)) :
    DrawnFrom L ⟨name, .int n, .int, line⟩
  | float (name : String) {x : Float} {line : Int} (h : L (.float x line)) :
    DrawnFrom L ⟨name, .float x, .float, line⟩
  | text (name : String) {s : String} {line : Int} (h : L (.text s line)) :
    DrawnFrom L ⟨name, .text s, .string, line⟩
  | array (name : String) (type : Ty) {items : List Item} {line : Int} {vs : List Value}
    (h : L (.array items line)) (hlength : vs.length = items.length)
    (hvs : ∀ v ∈ vs, DrawnFrom L v) : DrawnFrom L ⟨name, .array vs, type, line⟩
  | requestInput (name : String) : DrawnFrom L ⟨name, .array [], .array, 0⟩

namespace DrawnFrom

variable {L L' : Node → Prop} {v : Value}

theorem mono (h : v.DrawnFrom L) (hL : ∀ n, L n → L' n) : v.DrawnFrom L' := by
  induction h with
  | missing name type line => exact .missing name type line
  | int name h => exact .int name (hL _ h)
  | float name h => exact .float name (hL _ h)
  | text name h => exact .text name (hL _ h)
  | array name type h hlength _ ih => exact .array name type (hL _ h) hlength ih
  | requestInput name => exact .requestInput name

theorem rename (h : v.DrawnFrom L) (name : String) : (v.rename name).DrawnFrom L := by
  cases h with
  | missing _ type line => exact .missing name type line
  | int _ h => exact .int name h
  | float _ h => exact .float name h
  | text _ h => exact .text name h
  | array _ type h hlength hvs => exact .array name type h hlength hvs
  | requestInput => exact .requestInput name

end DrawnFrom

theorem drawnFrom_settle {L : Node → Prop} (name : String) (line : Int) {parts : List Value}
    (h : ∀ v ∈ parts, v.DrawnFrom L) : (settle name line parts).DrawnFrom L := by
  unfold settle
  split
  · exact .missing name .unknown line
  · next v hv =>
    have hmem : v ∈ parts.filter resolved := by
      rw [hv]
      exact List.mem_cons_self
    exact h v (List.mem_of_mem_filter hmem)
  · exact .missing name _ line

end Value

/-! ## Inference -/

/-- Everything that can be seen is drawn from the given nodes. -/
structure Sight.DrawnFrom (L : Node → Prop) (sight : Sight) : Prop where
  latest : ∀ x v, sight.latest? x = some v → v.DrawnFrom L
  parameter : ∀ x v, sight.parameter? x = some v → v.DrawnFrom L

/-- Inference makes up no content. -/
theorem Sight.DrawnFrom.infer {L : Node → Prop} {sight : Sight} (hs : sight.DrawnFrom L) {n : Node}
    (hn : ∀ m, m.OccursIn n → L m) (name : String) : (n.infer sight name).DrawnFrom L := by
  induction n using Node.induct generalizing name with
  | use x line =>
    rw [Node.infer]
    split
    · next v hv => exact hs.latest x v hv
    · rcases hp : sight.parameter? name with _ | v
      · exact .missing name .unknown line
      · exact hs.parameter name v hp
  | int k line =>
    rw [Node.infer]
    exact .int name (hn _ .self)
  | float x line =>
    rw [Node.infer]
    exact .float name (hn _ .self)
  | text s line =>
    rw [Node.infer]
    exact .text name (hn _ .self)
  | array items line ih =>
    rw [Node.infer_array]
    refine .array name _ (hn _ .self) (by simp) fun v hv => ?_
    rw [List.map_map] at hv
    obtain ⟨⟨i, place⟩, hi, rfl⟩ := List.mem_map.1 hv
    have hmem : i ∈ items := List.fst_mem_of_mem_zipIdx hi
    exact (ih i hmem).2 (fun m hm => hn m (.of_value hmem hm)) _
  | call callee args line ih _ =>
    rw [Node.infer_call]
    refine Value.drawnFrom_settle name line fun v hv => ?_
    rw [List.mem_singleton.1 hv]
    exact ih (fun m hm => hn m (.part List.mem_cons_self hm)) name
  | structural n h ih =>
    rw [Node.infer_of_structural sight h]
    refine Value.drawnFrom_settle name _ fun v hv => ?_
    obtain ⟨c, hc, rfl⟩ := List.mem_map.1 hv
    exact ih c hc (fun m hm => hn m (.part hc hm)) name

/-! ## What is stored -/

/-- The value of a parameter that a statement declares: a content that is drawn from the statements,
under the name and the line of the parameter. -/
def DeclaredIn (fed : List Node) (function : String) (v : Value) : Prop :=
  ∃ params body line, .function function params body line ∈ fed ∧
    ∃ p ∈ params, ∃ u : Value, u.DrawnFrom (Node.WrittenIn fed) ∧
      v = ⟨p.name, u.payload, u.type, p.line⟩

theorem DeclaredIn.mono {fed : List Node} {function : String} {v : Value}
    (h : DeclaredIn fed function v) (ns : List Node) : DeclaredIn (fed ++ ns) function v := by
  obtain ⟨params, body, line, hmem, p, hp, u, hu, rfl⟩ := h
  exact ⟨params, body, line, List.mem_append_left ns hmem, p, hp, u,
    hu.mono fun _ hm => hm.mono ns, rfl⟩

/-- Whatever was found is drawn from the statements. -/
def Findings.DrawnFrom (fed : List Node) (w : Findings) : Prop :=
  w.All (Value.DrawnFrom (Node.WrittenIn fed)) (DeclaredIn fed)

theorem Findings.DrawnFrom.mono {fed : List Node} {w : Findings} (h : w.DrawnFrom fed)
    (ns : List Node) : w.DrawnFrom (fed ++ ns) :=
  All.mono h (fun _ hv => hv.mono fun _ hm => hm.mono ns) fun _ _ hv => hv.mono ns

theorem Findings.DrawnFrom.sight {fed : List Node} {w : Findings} (h : w.DrawnFrom fed) :
    w.sight.DrawnFrom (Node.WrittenIn fed) :=
  ⟨fun _ _ hv => All.latest h hv, fun x v hv => by cases hv⟩

namespace Analysis

theorem parameter_drawnFrom {L : Node → Prop} {sight : Sight} (h : sight.DrawnFrom L) (p : Param)
    (hp : ∀ e ∈ p.default, ∀ m : Node, m.OccursIn e → L m) :
    ∃ u : Value, u.DrawnFrom L ∧ parameter sight p = ⟨p.name, u.payload, u.type, p.line⟩ := by
  unfold parameter
  split
  · exact ⟨.unresolved p.name (.ofDeclared p.declaredType) p.line, .missing .., rfl⟩
  · next e he => exact ⟨_, h.infer (hp e he) p.name, rfl⟩

theorem Step.findings_drawnFrom {fed : List Node} {a a' : Analysis} {n : Node}
    (hs : Step a n a') (hshape : a.graph.Shaped) (h : a.findings.DrawnFrom fed) :
    a'.findings.DrawnFrom (fed ++ [n]) := by
  have hsight : a.sight.DrawnFrom (Node.WrittenIn (fed ++ [n])) := by
    rw [Analysis.sight, global, hshape.sight_eq]
    exact (h.mono [n]).sight
  -- The expressions of the statement itself are seen before their values are stored.
  have hwritten {e : Node} (he : e ∈ n.expressions) (x : String) :
      ((e.infer a.sight x).rename x).DrawnFrom (Node.WrittenIn (fed ++ [n])) :=
    (hsight.infer (fun _ hm => Node.writtenIn_last fed he hm) x).rename x
  refine hs.findings_all hshape (h.mono [n]) ?_ ?_ ?_
  · rintro x nameLine value line rfl
    exact hwritten List.mem_cons_self x
  · rintro callee args line rfl arg harg x
    exact hwritten (List.mem_map_of_mem harg) x
  · rintro function params body line rfl p hp
    refine ⟨params, body, line, by simp, p, hp, parameter_drawnFrom hsight p ?_⟩
    intro e he m hm
    exact Node.writtenIn_last fed (List.mem_filterMap.2 ⟨p, hp, he⟩) hm

theorem Reached.findings_drawnFrom {verbose : Bool} {fed : List Node} {a : Analysis}
    (h : Reached verbose fed a) : a.findings.DrawnFrom fed := by
  have hboth : a.graph.Shaped ∧ a.findings.DrawnFrom fed :=
    h.induct (P := fun fed a => a.graph.Shaped ∧ a.findings.DrawnFrom fed)
      (fun _ _ _ _ hp hs => ⟨hs.shaped hp.1, hs.findings_drawnFrom hp.1 hp.2⟩)
      (fun _ _ ns hp => ⟨hp.1, hp.2.mono ns⟩)
      ⟨shaped_start verbose, findings_start_all verbose (.requestInput _)⟩
  exact hboth.2

/-- After any number of statements of a program, the tree of all scopes holds only values drawn from
the statements up to there: those in histories and those that calls bound with the lines of their
literals, and the parameters of functions, which calls may inherit, with their own lines. -/
theorem stored_values_drawn (verbose : Bool) (ns : List Node) (k : Nat) :
    let fed := ns.take k
    let a := ((start verbose).run fed).1
    a.tree? = some a.findings.tree ∧
    (∀ history ∈ a.findings.histories.values, ∀ v ∈ history.values,
      v.DrawnFrom (Node.WrittenIn fed)) ∧
    ∀ e ∈ a.findings.functions.entries,
      (∀ v ∈ e.2.parameters.values, DeclaredIn fed e.1 v) ∧
      ∀ call ∈ e.2.calls.values, ∀ v ∈ call.values,
        v.DrawnFrom (Node.WrittenIn fed) ∨ v ∈ e.2.parameters.values := by
  intro fed a
  have hreached : Reached verbose fed a := .run .start fed
  have hdrawn := hreached.findings_drawnFrom
  refine ⟨hreached.shaped.tree?_eq, hdrawn.histories, fun e he => ⟨hdrawn.parameters e he, ?_⟩⟩
  intro call hcall v hv
  obtain ⟨vs, -, hvs, rfl⟩ := hdrawn.calls e he call hcall
  exact (Table.mem_values_overlay hv).imp_left (hvs v)

end Analysis

end ValueTrace
