import ValueTrace.Proofs.Graph
import ValueTrace.Scope.Tree

/-!
# What an analysis has found

The scopes of an analysis have a fixed shape (`Shaped`): the global scope holds functions, the scope
of a function holds its calls, and nothing is below these or shared between them. What such a graph
says can therefore be read off without identifiers (`findings`), and each operation of an analysis
is an operation on the findings (`findings_write`, `findings_introduce`, `findings_recordCall`). The
tree of all scopes is the tree of the findings (`Shaped.tree?_eq`).
-/

namespace ValueTrace

/-- What is known about a function: its parameters, and what they are on each line with a call. -/
structure Profile where
  parameters : Table String Value := ∅
  calls : Table Int (Table String Value) := ∅

/-- What is known about a program: the histories of its variables, and its functions. -/
structure Findings where
  histories : Table String History
  functions : Table String Profile

/-- A function with one more call. -/
def Profile.fileCall (p : Profile) (line : Int) (vs : List Value) : Profile :=
  { p with calls := p.calls.insert line (p.parameters.overlay vs) }

namespace Findings

/-- What an expression sees. -/
def sight (w : Findings) : Sight where
  latest? x := (w.histories.get? x).bind Table.last?
  parameter? _ := none

/-- What is known about a function, which may be nothing. -/
def profile (w : Findings) (function : String) : Profile := (w.functions.get? function).getD {}

theorem profile_of_get? {w : Findings} {function : String} {p : Profile}
    (h : w.functions.get? function = some p) :
    w.profile function = p := by
  rw [profile, h]
  rfl

/-- Declares a function, in place of an earlier one of that name. -/
def declare (w : Findings) (function : String) (vs : List Value) : Findings :=
  { w with
    functions := w.functions.insert function { parameters := (∅ : Table String Value).overlay vs } }

/-- Records a call, under the line of the first value. -/
def recordCall (w : Findings) (function : String) : List Value → Findings
  | [] => w
  | v :: vs =>
    { w with
      functions := w.functions.insert function
        ((w.profile function).fileCall v.line (v :: vs)) }

end Findings

namespace ScopeGraph

variable {g g' : ScopeGraph} {function : String} {id : ScopeId}

/-! ## The shape of the scopes -/

/-- The scope with identifier `c` is one of a call of the function whose scope is `f`. -/
structure IsCall (g : ScopeGraph) (function : String) (f c : ScopeId) : Prop where
  above : f < c
  below : c < g.scopes.length
  scope_eq : g.scope c =
    { name := function, outer := some 0, parameters := (g.scope c).parameters }
  /-- The parameters are those of the function, overlaid with the values of some arguments. -/
  overlay : ∃ vs, vs ≠ [] ∧ (g.scope c).parameters = (g.scope f).parameters.overlay vs

/-- The scope with identifier `f` is the one of a function. -/
structure IsFunction (g : ScopeGraph) (function : String) (f : ScopeId) : Prop where
  above : 0 < f
  below : f < g.scopes.length
  scope_eq : g.scope f =
    { name := function, outer := some 0, parameters := (g.scope f).parameters,
      calls := (g.scope f).calls }
  calls : ∀ e ∈ (g.scope f).calls.entries, g.IsCall function f e.2

/-- The scopes are one global scope with functions, and these have calls. -/
structure Shaped (g : ScopeGraph) : Prop where
  nonempty : 0 < g.scopes.length
  global_eq : g.scope 0 =
    { name := "global", outer := none, histories := (g.scope 0).histories,
      functions := (g.scope 0).functions }
  nodup : (g.scope 0).functions.keys.Nodup
  functions : ∀ e ∈ (g.scope 0).functions.entries, g.IsFunction e.1 e.2

/-- What is known about the function with a given scope. -/
def profile (g : ScopeGraph) (f : ScopeId) : Profile where
  parameters := (g.scope f).parameters
  calls := (g.scope f).calls.mapValues fun c => (g.scope c).parameters

/-- What is known about the program. -/
def findings (g : ScopeGraph) : Findings where
  histories := (g.scope 0).histories
  functions := (g.scope 0).functions.mapValues g.profile

theorem IsCall.name_eq {f c : ScopeId} (h : g.IsCall function f c) :
    (g.scope c).name = function := by
  rw [h.scope_eq]

theorem IsFunction.name_eq {f : ScopeId} (h : g.IsFunction function f) :
    (g.scope f).name = function := by
  rw [h.scope_eq]

theorem Shaped.isFunction (h : g.Shaped) {f : ScopeId}
    (hf : (g.scope 0).functions.get? function = some f) : g.IsFunction function f :=
  h.functions _ (Table.mem_entries_of_get? hf)

theorem get?_findings (g : ScopeGraph) (function : String) :
    g.findings.functions.get? function = ((g.scope 0).functions.get? function).map g.profile :=
  Table.get?_mapValues _ _ _

theorem Shaped.sight_eq (h : g.Shaped) : g.sight 0 = g.findings.sight := by
  have hlatest (x : String) : g.latest? 0 x = ((g.scope 0).histories.get? x).bind Table.last? := by
    rcases hx : (g.scope 0).histories.get? x with _ | history
    · have ho : (g.scope 0).outer = none := by rw [h.global_eq]
      rw [latest?, history_of_outermost hx ho]
      rfl
    · exact latest?_of_get? hx
  have hparameter : (g.scope 0).parameters = ∅ := by rw [h.global_eq]
  simp only [sight, Findings.sight, Sight.mk.injEq]
  refine ⟨funext hlatest, funext fun x => ?_⟩
  rw [hparameter, Table.get?_empty]

/-! ## What does not touch a function

Scopes of a function and of its calls bear the function's name, so a change that leaves all scopes
of that name alone leaves the function alone. -/

/-- Every scope of the given name, except the global one, is the same in both graphs. -/
structure Frame (g g' : ScopeGraph) (function : String) : Prop where
  length_le : g.scopes.length ≤ g'.scopes.length
  scope_eq : ∀ i, 0 < i → i < g.scopes.length → (g.scope i).name = function →
    g'.scope i = g.scope i

theorem Frame.function_eq (hf : Frame g g' function) {f : ScopeId} (h : g.IsFunction function f) :
    g'.scope f = g.scope f :=
  hf.scope_eq f h.above h.below h.name_eq

theorem Frame.call_eq (hf : Frame g g' function) {f c : ScopeId} (h : g.IsCall function f c) :
    g'.scope c = g.scope c :=
  hf.scope_eq c (Nat.zero_lt_of_lt h.above) h.below h.name_eq

theorem IsFunction.frame {f : ScopeId} (h : g.IsFunction function f)
    (hf : Frame g g' function) : g'.IsFunction function f := by
  have hs := hf.function_eq h
  refine ⟨h.above, Nat.lt_of_lt_of_le h.below hf.length_le, ?_, ?_⟩
  · rw [hs]
    exact h.scope_eq
  · intro e he
    rw [hs] at he
    have hc := h.calls e he
    have hsc := hf.call_eq hc
    refine ⟨hc.above, Nat.lt_of_lt_of_le hc.below hf.length_le, ?_, ?_⟩
    · rw [hsc]
      exact hc.scope_eq
    · rw [hsc, hs]
      exact hc.overlay

theorem IsFunction.profile_frame {f : ScopeId} (h : g.IsFunction function f)
    (hf : Frame g g' function) : g'.profile f = g.profile f := by
  have hs := hf.function_eq h
  simp only [profile, hs, Profile.mk.injEq, true_and]
  apply Table.mapValues_congr
  intro e he
  rw [hf.call_eq (h.calls e he)]

/-! ## Writing to a variable -/

theorem frame_write (g : ScopeGraph) (v : Value) (function : String) :
    Frame g (g.write 0 v).1 function :=
  ⟨Nat.le_of_eq (length_write g 0 v).symm, fun _ hi _ _ => scope_write_of_ne (Nat.ne_of_gt hi) v⟩

theorem functions_write (h : 0 < g.scopes.length) (v : Value) :
    ((g.write 0 v).1.scope 0).functions = (g.scope 0).functions := by
  rw [scope_write_self h]
  split_ifs <;> rfl

theorem Shaped.write (h : g.Shaped) (v : Value) : (g.write 0 v).1.Shaped := by
  have hfun := functions_write h.nonempty v
  refine ⟨by rw [length_write]; exact h.nonempty, ?_, by rw [hfun]; exact h.nodup, ?_⟩
  · rw [scope_write_self h.nonempty]
    have hg := h.global_eq
    split_ifs
    · rw [hg]
      rfl
    · exact hg
  · intro e he
    rw [hfun] at he
    exact (h.functions e he).frame (frame_write g v e.1)

theorem findings_write (h : g.Shaped) (v : Value) :
    (g.write 0 v).1.findings =
      { g.findings with histories := ((g.write 0 v).1.scope 0).histories } := by
  simp only [findings, functions_write h.nonempty, Findings.mk.injEq, true_and]
  apply Table.mapValues_congr
  intro e he
  exact (h.functions e he).profile_frame (frame_write g v e.1)

/-! ## Declaring a function -/

theorem frame_introduce (g : ScopeGraph) (function : String) (vs : List Value) (other : String) :
    Frame g (g.introduce 0 function vs) other :=
  ⟨by rw [length_introduce]; exact Nat.le_succ _,
    fun _ hi hlt _ => scope_introduce_of_ne hlt (Nat.ne_of_gt hi) function vs⟩

theorem Shaped.introduce (h : g.Shaped) (function : String) (vs : List Value) :
    (g.introduce 0 function vs).Shaped := by
  have hglobal := scope_introduce_outer h.nonempty function vs
  have hself := scope_introduce_self h.nonempty function vs
  refine ⟨by rw [length_introduce]; exact Nat.succ_pos _, ?_, ?_, ?_⟩
  · rw [hglobal, h.global_eq]
  · rw [hglobal]
    exact Table.nodup_keys_insert h.nodup _ _
  · intro e he
    rw [hglobal] at he
    rcases Table.mem_entries_insert he with rfl | he
    · refine ⟨h.nonempty, by rw [length_introduce]; exact Nat.lt_succ_self _, ?_, ?_⟩
      · rw [hself]
      · rw [hself]
        intro e he
        cases he
    · exact (h.functions e he).frame (frame_introduce g function vs e.1)

theorem findings_introduce (h : g.Shaped) (function : String) (vs : List Value) :
    (g.introduce 0 function vs).findings = g.findings.declare function vs := by
  have hglobal := scope_introduce_outer h.nonempty function vs
  have hprofile : (g.introduce 0 function vs).profile g.scopes.length =
      { parameters := (∅ : Table String Value).overlay vs } := by
    rw [profile, scope_introduce_self h.nonempty]
    rfl
  have hold : (g.scope 0).functions.mapValues (g.introduce 0 function vs).profile =
      (g.scope 0).functions.mapValues g.profile := by
    apply Table.mapValues_congr
    intro e he
    exact (h.functions e he).profile_frame (frame_introduce g function vs e.1)
  simp only [findings, Findings.declare, hglobal, Table.mapValues_insert, hprofile, hold]

/-! ## Recording a call -/

section Call

variable {f : ScopeId} (h : g.Shaped) (hf : (g.scope 0).functions.get? function = some f)
  (line : Int) (vs : List Value)

include h hf

theorem Shaped.fileCall_global : (g.fileCall f line vs).scope 0 = g.scope 0 :=
  scope_fileCall_of_ne h.nonempty (Nat.ne_of_lt (h.isFunction hf).above) line vs

theorem Shaped.frame_fileCall {other : String} (hne : other ≠ function) :
    Frame g (g.fileCall f line vs) other := by
  refine ⟨by rw [length_fileCall]; exact Nat.le_succ _, fun i _ hlt hname => ?_⟩
  apply scope_fileCall_of_ne hlt
  rintro rfl
  exact hne (hname.symm.trans (h.isFunction hf).name_eq)

theorem Shaped.fileCall_isFunction (hvs : vs ≠ []) :
    (g.fileCall f line vs).IsFunction function f := by
  have hfun := h.isFunction hf
  have hs := scope_fileCall_function hfun.below line vs
  have hlen := length_fileCall g f line vs
  refine ⟨hfun.above, by rw [hlen]; exact Nat.lt_succ_of_lt hfun.below, ?_, ?_⟩
  · rw [hs, hfun.scope_eq]
  · intro e he
    rw [hs] at he
    rcases Table.mem_entries_insert he with rfl | he
    · have hself := scope_fileCall_self hfun.below line vs
      refine ⟨hfun.below, by rw [hlen]; exact Nat.lt_succ_self _, ?_, vs, hvs, ?_⟩
      · rw [hself, hfun.scope_eq]
      · rw [hself, hs]
    · have hc := hfun.calls e he
      have hsc := scope_fileCall_of_ne hc.below (Nat.ne_of_gt hc.above) line vs
      refine ⟨hc.above, by rw [hlen]; exact Nat.lt_succ_of_lt hc.below, ?_, ?_⟩
      · rw [hsc]
        exact hc.scope_eq
      · rw [hsc, hs]
        exact hc.overlay

theorem Shaped.fileCall (hvs : vs ≠ []) : (g.fileCall f line vs).Shaped := by
  have hglobal := h.fileCall_global hf line vs
  refine ⟨by rw [length_fileCall]; exact Nat.succ_pos _, ?_, by rw [hglobal]; exact h.nodup, ?_⟩
  · rw [hglobal]
    exact h.global_eq
  · intro e he
    rw [hglobal] at he
    by_cases hname : e.1 = function
    · have hid : e.2 = f := by
        have := Table.get?_of_mem_entries h.nodup he
        rw [hname, hf] at this
        exact (Option.some.inj this).symm
      rw [hname, hid]
      exact h.fileCall_isFunction hf line vs hvs
    · exact (h.functions e he).frame (h.frame_fileCall hf line vs hname)

theorem Shaped.profile_fileCall :
    (g.fileCall f line vs).profile f = (g.profile f).fileCall line vs := by
  have hfun := h.isFunction hf
  have hs := scope_fileCall_function hfun.below line vs
  have hself := scope_fileCall_self hfun.below line vs
  have hold : (g.scope f).calls.mapValues (fun c => ((g.fileCall f line vs).scope c).parameters) =
      (g.scope f).calls.mapValues fun c => (g.scope c).parameters := by
    apply Table.mapValues_congr
    intro e he
    have hc := hfun.calls e he
    rw [scope_fileCall_of_ne hc.below (Nat.ne_of_gt hc.above)]
  simp only [profile, Profile.fileCall, hs, Table.mapValues_insert, hself, hold]

theorem findings_fileCall :
    (g.fileCall f line vs).findings =
      { g.findings with
        functions := g.findings.functions.insert function ((g.profile f).fileCall line vs) } := by
  simp only [findings, h.fileCall_global hf, Findings.mk.injEq, true_and]
  rw [← h.profile_fileCall hf]
  apply Table.insert_mapValues_of_get? h.nodup hf
  intro e he hne
  exact (h.functions e he).profile_frame (h.frame_fileCall hf line vs hne)

end Call

theorem get?_introduce (h : g.Shaped) (function : String) (vs : List Value) :
    ((g.introduce 0 function vs).scope 0).functions.get? function = some g.scopes.length := by
  rw [scope_introduce_outer h.nonempty]
  exact Table.get?_insert_self _ _ _

theorem Shaped.recordCall (h : g.Shaped) (function : String) (vs : List Value) :
    (g.recordCall 0 function vs none).1.Shaped := by
  cases vs with
  | nil => exact h
  | cons v vs =>
    rcases hf : (g.scope 0).functions.get? function with _ | f
    · rw [recordCall_unknown hf]
      exact (h.introduce function []).fileCall (get?_introduce h function []) _ _ (by simp)
    · rw [recordCall_known hf]
      exact h.fileCall hf _ _ (by simp)

theorem findings_recordCall (h : g.Shaped) (function : String) (vs : List Value) :
    (g.recordCall 0 function vs none).1.findings = g.findings.recordCall function vs := by
  cases vs with
  | nil => rfl
  | cons v vs =>
    have hget := get?_findings g function
    rcases hf : (g.scope 0).functions.get? function with _ | f
    · have hi := get?_introduce h function []
      have hempty : (g.introduce 0 function []).profile g.scopes.length = {} := by
        rw [profile, scope_introduce_self h.nonempty]
        rfl
      rw [hf] at hget
      rw [recordCall_unknown hf, findings_fileCall (h.introduce function []) hi,
        findings_introduce h, hempty]
      simp only [Findings.declare, Findings.recordCall, Findings.profile, hget,
        Table.insert_insert_self]
      rfl
    · rw [hf] at hget
      rw [recordCall_known hf, findings_fileCall h hf]
      simp only [Findings.recordCall, Findings.profile, hget]
      rfl

/-! ## The tree of all scopes -/

theorem mapM_eq_some {α β : Type} {f : α → Option β} {k : α → β} {l : List α}
    (h : ∀ a ∈ l, f a = some (k a)) : l.mapM f = some (l.map k) := by
  induction l with
  | nil => rfl
  | cons a l ih =>
    rw [List.mapM_cons, h a List.mem_cons_self, ih fun b hb => h b (List.mem_cons_of_mem a hb)]
    rfl

end ScopeGraph

/-- The tree of a function, which bears its name. -/
def Profile.tree (p : Profile) (function : String) : ScopeTree Value :=
  .mk function [] p.parameters.entries []
    (p.calls.entries.map fun e => (e.1, .mk function [] e.2.entries [] []))

/-- The tree of a program. -/
def Findings.tree (w : Findings) : ScopeTree Value :=
  .mk "global" (w.histories.entries.map fun e => (e.1, e.2.values)) []
    (w.functions.entries.map fun e => (e.1, e.2.tree e.1)) []

namespace ScopeGraph

variable {g : ScopeGraph} {function : String}

/-- The tree below a scope, put together from the trees one level further down. -/
theorem unfold_succ {levels : Nat} {id : ScopeId} {functions : List (String × ScopeTree Value)}
    {calls : List (Int × ScopeTree Value)}
    (hf : ((g.scope id).functions.entries.mapM fun e =>
      (g.unfold levels e.2).bind fun t => some (e.1, t)) = some functions)
    (hc : ((g.scope id).calls.entries.mapM fun e =>
      (g.unfold levels e.2).bind fun t => some (e.1, t)) = some calls) :
    g.unfold (levels + 1) id = some (.mk (g.scope id).name
      ((g.scope id).histories.entries.map fun e => (e.1, e.2.values))
      (g.scope id).parameters.entries functions calls) := by
  show (((g.scope id).functions.entries.mapM fun e =>
    (g.unfold levels e.2).bind fun t => some (e.1, t)).bind fun functions =>
      ((g.scope id).calls.entries.mapM fun e =>
        (g.unfold levels e.2).bind fun t => some (e.1, t)).bind fun calls => _) = _
  rw [hf, Option.bind_some, hc, Option.bind_some]
  rfl

theorem IsCall.unfold_eq {f c : ScopeId} (h : g.IsCall function f c) (levels : Nat) :
    g.unfold (levels + 1) c = some (.mk function [] (g.scope c).parameters.entries [] []) := by
  have hfunctions : (g.scope c).functions = ∅ := by rw [h.scope_eq]
  have hcalls : (g.scope c).calls = ∅ := by rw [h.scope_eq]
  have hhistories : (g.scope c).histories = ∅ := by rw [h.scope_eq]
  rw [unfold_succ (by rw [hfunctions]; rfl) (by rw [hcalls]; rfl), h.name_eq, hhistories]
  rfl

theorem IsFunction.unfold_eq {f : ScopeId} (h : g.IsFunction function f) {levels : Nat}
    (hl : g.scopes.length ≤ f + levels) :
    g.unfold levels f = some ((g.profile f).tree function) := by
  cases levels with
  | zero => exact absurd h.below (Nat.not_lt.2 hl)
  | succ levels =>
    have hcalls : ((g.scope f).calls.entries.mapM fun e =>
        (g.unfold levels e.2).bind fun t => some (e.1, t)) =
        some ((g.scope f).calls.entries.map fun e =>
          (e.1, .mk function [] (g.scope e.2).parameters.entries [] [])) := by
      apply mapM_eq_some
      intro e he
      have hc := h.calls e he
      cases levels with
      | zero =>
        have hlt : e.2 < f + 1 := Nat.lt_of_lt_of_le hc.below hl
        exact absurd hc.above (Nat.not_lt.2 (Nat.le_of_lt_succ hlt))
      | succ levels => rw [hc.unfold_eq levels, Option.bind_some]
    have hhistories : (g.scope f).histories = ∅ := by rw [h.scope_eq]
    have hfunctions : (g.scope f).functions = ∅ := by rw [h.scope_eq]
    rw [unfold_succ (by rw [hfunctions]; rfl) hcalls, h.name_eq, hhistories]
    simp only [Profile.tree, profile, Table.mapValues, List.map_map]
    rfl

/-- The scopes of an analysis form a tree, which shows what was found. -/
theorem Shaped.tree?_eq (h : g.Shaped) : g.tree? 0 = some g.findings.tree := by
  obtain ⟨levels, hl⟩ : ∃ n, g.scopes.length = n + 1 :=
    ⟨_, (Nat.succ_pred_eq_of_pos h.nonempty).symm⟩
  have hfunctions : ((g.scope 0).functions.entries.mapM fun e =>
      (g.unfold levels e.2).bind fun t => some (e.1, t)) =
      some ((g.scope 0).functions.entries.map fun e => (e.1, (g.profile e.2).tree e.1)) := by
    apply mapM_eq_some
    intro e he
    have hf := h.functions e he
    have hle : g.scopes.length ≤ e.2 + levels := by
      rw [hl, Nat.add_comm]
      exact Nat.add_le_add_right hf.above levels
    rw [hf.unfold_eq hle, Option.bind_some]
  have hname : (g.scope 0).name = "global" := by rw [h.global_eq]
  have hparameters : (g.scope 0).parameters = ∅ := by rw [h.global_eq]
  have hcalls : (g.scope 0).calls = ∅ := by rw [h.global_eq]
  rw [tree?, hl, unfold_succ hfunctions (by rw [hcalls]; rfl), hname, hparameters]
  simp only [Findings.tree, findings, Table.mapValues, List.map_map]
  rfl

end ScopeGraph

end ValueTrace
