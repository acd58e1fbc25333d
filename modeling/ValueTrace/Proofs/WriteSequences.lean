import Mathlib.Data.List.TakeWhile
import ValueTrace.Proofs.DroppedWrites
import ValueTrace.Proofs.Representation

/-!
# Sequences of writes

What a history holds after scopes have been used in any way. There are two results. The first says
when an entry with a content loses it: a write is dropped in favour of the last entry only, so one
that goes back to the line of an earlier entry replaces that entry, whatever it holds, unless the
last one has a content (`resolvedAt_write_iff`). The second gives the whole history where every
value written to the variable has a line of its own: the values without a content before the first
one with a content, and then all with one (`History.kept`). `Scope.Holds` is the invariant for it,
which one write preserves (`Holds.write`, `Holds.dropped`) and so does every sequence of operations
(`holds_performAll`).
-/

namespace ValueTrace

/-! ## Entries that are written again -/

theorem History.resolvedAt_insert_iff {h : History} {line line' : Int} (hl : h.ResolvedAt line)
    {v : Value} :
    ResolvedAt (h.insert line' v) line ↔ (line' = line → v.resolved = true) := by
  by_cases hline : line = line'
  · subst hline
    rw [ResolvedAt, Table.get?_insert_self]
    simp
  · rw [ResolvedAt, Table.get?_insert_of_ne h hline]
    exact iff_of_true hl fun he => absurd he.symm hline

/-- A write is kept if it has a content, or if the history does not end with one. -/
theorem Scope.accepts_iff {s : Scope} {v : Value} :
    s.accepts v = true ↔ ((s.ownHistory v.name).Settled → v.resolved = true) := by
  refine ⟨resolved_of_accepts, fun h => ?_⟩
  unfold accepts
  split
  · next w hw =>
    rcases hresolved : w.resolved with _ | _
    · rfl
    · rw [h ⟨w, hw, hresolved⟩]
      rfl
  · rfl

theorem Scope.ownHistory_write_self (s : Scope) (v : Value) :
    (s.write v).ownHistory v.name = (s.ownHistory v.name).insert v.line v :=
  ownHistory_of_get? (get?_write_self s v)

namespace ScopeGraph

variable {g g' : ScopeGraph} {id : ScopeId} {x : String} {line : Int} {op : Operation}
  {ops : List Operation}

theorem get?_write_of_accepts {h : History} {v : Value} (hx : v.name = x)
    (hid : id < g.scopes.length) (hget : (g.scope id).histories.get? x = some h)
    (hacc : (g.scope id).accepts v = true) :
    ((g.write id v).1.scope id).histories.get? x = some (h.insert v.line v) := by
  subst hx
  rw [scope_write_self hid, if_pos hacc, Scope.get?_write_self, Scope.ownHistory_of_get? hget]

/-- An entry loses its content exactly if a value without one is written at its line while the
history does not end with a content. -/
theorem resolvedAt_write_iff (hid : id < g.scopes.length)
    (hl : ((g.scope id).ownHistory x).ResolvedAt line) (v : Value) :
    (((g.write id v).1.scope id).ownHistory x).ResolvedAt line ↔
      ¬(v.name = x ∧ v.line = line ∧ v.resolved = false ∧
        ¬((g.scope id).ownHistory x).Settled) := by
  by_cases hx : v.name = x
  · subst hx
    rcases hacc : (g.scope id).accepts v with _ | _
    · have hsettled : ((g.scope id).ownHistory v.name).Settled := by
        by_contra hnot
        rw [Scope.accepts_iff.2 fun hs => absurd hs hnot] at hacc
        cases hacc
      rw [write_eq_of_not_accepts hacc]
      exact iff_of_true hl fun h => h.2.2.2 hsettled
    · rw [scope_write_self hid, if_pos hacc, Scope.ownHistory_write_self,
        History.resolvedAt_insert_iff hl]
      constructor
      · rintro hv ⟨-, hline, hunresolved, -⟩
        rw [hv hline] at hunresolved
        cases hunresolved
      · intro hnot hline
        by_contra hv
        exact hnot ⟨rfl, hline, Bool.eq_false_iff.2 hv, fun hs => hv (Scope.accepts_iff.1 hacc hs)⟩
  · have hsame := get?_write_of_ne hid (Ne.symm hx)
    rw [Scope.ownHistory, hsame, ← Scope.ownHistory]
    exact iff_of_true hl fun h => hx h.1

theorem grows_perform (h : g.Built) (hop : ∀ i ∈ op.operands, i < g.scopes.length) (id : ScopeId)
    (x : String) :
    ((g.scope id).ownHistory x).Grows (((g.perform op).scope id).ownHistory x) := by
  rcases histories_perform hop id with ⟨v, rfl, -, -⟩ | ⟨-, hhistories⟩
  · exact grows_write (h.filed id) (hop id List.mem_cons_self) v x
  · rw [Scope.ownHistory_congr hhistories]
    exact .refl _

theorem grows_performAll (h : g.Built) (hops : g.Admissible ops) (id : ScopeId) (x : String) :
    ((g.scope id).ownHistory x).Grows (((g.performAll ops).scope id).ownHistory x) := by
  induction ops generalizing g with
  | nil => exact .refl _
  | cons op ops ih =>
    obtain ⟨hop, hrest⟩ := hops
    exact (grows_perform h hop id x).trans (ih (h.perform hop) hrest)

/-- An entry with a content, in any graph that can be built. Whatever is written next, the entry is
there. It still has a content unless it is written again without one while the history does not end
with a content. If the history ends with one, then the entry keeps a content in any further use. -/
theorem content_of_entry_stays (h : g.Built) (hid : id < g.scopes.length)
    (hl : ((g.scope id).ownHistory x).ResolvedAt line) :
    (∀ v, line ∈ (((g.write id v).1.scope id).ownHistory x).keys ∧
      ((((g.write id v).1.scope id).ownHistory x).ResolvedAt line ↔
        ¬(v.name = x ∧ v.line = line ∧ v.resolved = false ∧
          ¬((g.scope id).ownHistory x).Settled))) ∧
    ∀ ops, g.Admissible ops →
      line ∈ (((g.performAll ops).scope id).ownHistory x).keys ∧
      (((g.scope id).ownHistory x).Settled →
        (((g.performAll ops).scope id).ownHistory x).ResolvedAt line) := by
  have hmem : line ∈ ((g.scope id).ownHistory x).keys := by
    obtain ⟨w, hw, -⟩ := hl
    exact Table.mem_keys.2 ⟨w, Table.mem_entries_of_get? hw⟩
  refine ⟨fun v => ⟨?_, resolvedAt_write_iff hid hl v⟩, fun ops hops => ?_⟩
  · exact (grows_write (h.filed id) hid v x).keys.subset hmem
  · have hgrows := grows_performAll h hops id x
    exact ⟨hgrows.keys.subset hmem, fun hs => hgrows.resolvedAt hs line hl⟩

/-- The first of two entries has a content and the second has none. A content written at the second
line keeps the first entry, also against a later write without a content. -/
theorem content_of_entry_stays_of_operations :
    let blank (line : Int) : Value := .unresolved "x" .unknown line
    let five : Value := ⟨"x", .int 5, .int, 1⟩
    let six : Value := ⟨"x", .int 6, .int, 2⟩
    let g := performAll {} [.create "global" none, .write 0 (blank 1), .write 0 (blank 2),
      .write 0 five]
    let g' := (g.write 0 six).1
    g.Built ∧ ((g.scope 0).ownHistory "x").ResolvedAt 1 ∧
      ((g'.scope 0).ownHistory "x").ResolvedAt 1 ∧
      (((g'.performAll [.write 0 (blank 1)]).scope 0).ownHistory "x").ResolvedAt 1 := by
  intro blank five six g g'
  have hbuilt : g.Built := built_performAll ⟨by decide, by decide, by decide, by decide, trivial⟩
  have hid : 0 < g.scopes.length := by decide
  have hget : (g.scope 0).histories.get? "x" = some ⟨[(1, five), (2, blank 2)]⟩ := rfl
  have hget' : (g'.scope 0).histories.get? "x" = some ⟨[(1, five), (2, six)]⟩ :=
    get?_write_of_accepts (v := six) rfl hid hget (Scope.accepts_iff.2 fun _ => rfl)
  have hl : ((g.scope 0).ownHistory "x").ResolvedAt 1 := by
    rw [Scope.ownHistory_of_get? hget]
    exact ⟨five, rfl, rfl⟩
  have hl' : ((g'.scope 0).ownHistory "x").ResolvedAt 1 :=
    ((content_of_entry_stays hbuilt hid hl).1 six).2.2 fun h => nomatch h.2.1
  have hsettled : ((g'.scope 0).ownHistory "x").Settled := by
    rw [Scope.ownHistory_of_get? hget']
    exact ⟨six, rfl, rfl⟩
  have hops : g'.Admissible [.write 0 (blank 1)] := ⟨by decide, trivial⟩
  have hstays := content_of_entry_stays (hbuilt.write hid six) (by decide) hl'
  exact ⟨hbuilt, hl, hl', (hstays.2 _ hops).2 hsettled⟩

/-- The last of two entries has no content, so a write without a content is kept and replaces the
content of the first. -/
theorem content_of_entry_overwritten :
    let blank (line : Int) : Value := .unresolved "x" .unknown line
    let five : Value := ⟨"x", .int 5, .int, 1⟩
    let g := performAll {} [.create "global" none, .write 0 (blank 1), .write 0 (blank 2),
      .write 0 five]
    g.history 0 "x" = [five, blank 2] ∧ (g.write 0 (blank 1)).2 = true ∧
      (g.write 0 (blank 1)).1.history 0 "x" = [blank 1, blank 2] := by
  intro blank five g
  have hget : (g.scope 0).histories.get? "x" = some ⟨[(1, five), (2, blank 2)]⟩ := rfl
  have hacc : (g.scope 0).accepts (blank 1) = true := by
    rw [Scope.accepts_iff]
    change ((g.scope 0).ownHistory "x").Settled → _
    rw [Scope.ownHistory_of_get? hget]
    rintro ⟨w, hw, hresolved⟩
    cases hw
    exact hresolved
  refine ⟨history_of_get? hget, (write_snd g 0 _).trans hacc, ?_⟩
  exact history_of_get? (get?_write_of_accepts rfl (by decide) hget hacc)

end ScopeGraph

/-! ## What is kept of values with lines of their own -/

namespace History

variable {ws : List Value} {v : Value}

/-- What a history keeps of values that are written to it in order, each at a line of its own. -/
def kept (ws : List Value) : List Value :=
  ws.takeWhile (fun v => !v.resolved) ++ ws.filter Value.resolved

/-- The history with these entries. -/
def ofKept (ws : List Value) : History := ⟨(kept ws).map fun v => (v.line, v)⟩

theorem mem_of_mem_kept (h : v ∈ kept ws) : v ∈ ws := by
  rcases List.mem_append.1 h with h | h
  · exact (List.takeWhile_sublist _).subset h
  · exact List.mem_of_mem_filter h

theorem values_ofKept (ws : List Value) : (ofKept ws).values = kept ws := by
  rw [ofKept, Table.values, List.map_map]
  exact List.map_id _

theorem keys_ofKept (ws : List Value) : (ofKept ws).keys = (kept ws).map Value.line := by
  rw [ofKept, Table.keys, List.map_map]
  rfl

theorem kept_of_unresolved (h : ∀ w ∈ ws, w.resolved = false) : kept ws = ws := by
  have hfilter : ws.filter Value.resolved = [] := by simpa using h
  rw [kept, hfilter, List.append_nil, List.takeWhile_eq_self_iff]
  intro w hw
  rw [h w hw]
  rfl

theorem takeWhile_concat (h : ∃ w ∈ ws ++ [v], w.resolved = true) :
    (ws ++ [v]).takeWhile (fun v => !v.resolved) = ws.takeWhile fun v => !v.resolved := by
  induction ws with
  | nil =>
    obtain ⟨w, hw, hresolved⟩ := h
    obtain rfl := List.mem_singleton.1 hw
    simp [hresolved]
  | cons u ws ih =>
    rcases hu : u.resolved with _ | _
    · simp only [List.cons_append, List.mem_cons, exists_eq_or_imp, hu, Bool.false_eq_true,
        false_or] at h
      simp [hu, ih h]
    · simp [hu]

/-- If there is a value with a content, one more is kept exactly if it has a content. -/
theorem kept_concat_of_resolved (h : ∃ w ∈ ws ++ [v], w.resolved = true) :
    kept (ws ++ [v]) = kept ws ++ [v].filter Value.resolved := by
  rw [kept, takeWhile_concat h, List.filter_append, ← List.append_assoc, ← kept]

theorem kept_concat (h : v.resolved = true ∨ ∀ w ∈ ws, w.resolved = false) :
    kept (ws ++ [v]) = kept ws ++ [v] := by
  rcases hv : v.resolved with _ | _
  · have hws := h.resolve_left (by simp [hv])
    have hconcat : ∀ w ∈ ws ++ [v], w.resolved = false := by
      simpa [or_imp, forall_and, hv] using hws
    rw [kept_of_unresolved hconcat, kept_of_unresolved hws]
  · rw [kept_concat_of_resolved ⟨v, List.mem_append_right _ List.mem_cons_self, hv⟩,
      List.filter_cons_of_pos hv, List.filter_nil]

theorem kept_concat_of_dropped (hv : v.resolved = false) (h : ∃ w ∈ ws, w.resolved = true) :
    kept (ws ++ [v]) = kept ws := by
  obtain ⟨w, hw, hresolved⟩ := h
  rw [kept_concat_of_resolved ⟨w, List.mem_append_left _ hw, hresolved⟩,
    List.filter_cons_of_neg (by simp [hv]), List.filter_nil, List.append_nil]

theorem settled_ofKept_iff : (ofKept ws).Settled ↔ ∃ w ∈ ws, w.resolved = true := by
  rw [Settled, Table.last?, values_ofKept]
  constructor
  · rintro ⟨w, hw, hresolved⟩
    exact ⟨w, mem_of_mem_kept (List.mem_of_getLast? hw), hresolved⟩
  · rintro ⟨w, hw, hresolved⟩
    have hne : ws.filter Value.resolved ≠ [] :=
      List.ne_nil_of_mem (List.mem_filter.2 ⟨hw, hresolved⟩)
    have hlast := List.mem_filter.1 (List.getLast_mem hne)
    refine ⟨(ws.filter Value.resolved).getLast hne, ?_, hlast.2⟩
    rw [kept, List.getLast?_append, List.getLast?_eq_some_getLast hne, Option.some_or]

end History

namespace Scope

variable {s s' : Scope} {x : String} {ws : List Value} {v : Value}

/-- The history of a variable is what is kept of the given values. -/
structure Holds (s : Scope) (x : String) (ws : List Value) : Prop where
  unwritten : ws = [] → s.histories.get? x = none
  written : ws ≠ [] → s.histories.get? x = some (History.ofKept ws)

theorem Holds.ownHistory_eq (h : s.Holds x ws) : s.ownHistory x = History.ofKept ws := by
  by_cases hws : ws = []
  · rw [ownHistory, h.unwritten hws, hws]
    rfl
  · exact ownHistory_of_get? (h.written hws)

theorem Holds.congr (h : s.Holds x ws) (hs : s'.histories.get? x = s.histories.get? x) :
    s'.Holds x ws :=
  ⟨fun hws => hs.trans (h.unwritten hws), fun hws => hs.trans (h.written hws)⟩

theorem Holds.accepts_iff (h : s.Holds v.name ws) :
    s.accepts v = true ↔ v.resolved = true ∨ ∀ w ∈ ws, w.resolved = false := by
  rw [Scope.accepts_iff, h.ownHistory_eq, History.settled_ofKept_iff]
  by_cases hws : ∃ w ∈ ws, w.resolved = true
  · have hnot : ¬∀ w ∈ ws, w.resolved = false := by simpa using hws
    rw [or_iff_left hnot]
    exact ⟨fun hv => hv hws, fun hv _ => hv⟩
  · refine iff_of_true (fun hws' => absurd hws' hws) (.inr ?_)
    simpa using hws

theorem Holds.write (h : s.Holds v.name ws) (hline : v.line ∉ ws.map Value.line)
    (hacc : s.accepts v = true) : (s.write v).Holds v.name (ws ++ [v]) := by
  refine ⟨fun hnil => absurd hnil (by simp), fun _ => ?_⟩
  -- The line is new, so the value goes to the end.
  have hnew : v.line ∉ (History.ofKept ws).keys := by
    rw [History.keys_ofKept]
    exact fun hmem => hline (List.map_subset _ (fun _ => History.mem_of_mem_kept) hmem)
  have hconcat : History.ofKept (ws ++ [v]) =
      ⟨(History.ofKept ws).entries ++ [(v.line, v)]⟩ := by
    rw [History.ofKept, History.kept_concat (h.accepts_iff.1 hacc), List.map_append]
    rfl
  rw [get?_write_self, h.ownHistory_eq, hconcat, ← Table.entries_insert_of_notMem v hnew]

theorem Holds.dropped (h : s.Holds v.name ws) (hacc : s.accepts v = false) :
    s.Holds v.name (ws ++ [v]) := by
  have hnot : ¬(v.resolved = true ∨ ∀ w ∈ ws, w.resolved = false) := by
    rw [← h.accepts_iff, hacc]
    exact Bool.false_ne_true
  obtain ⟨hv, hws⟩ := not_or.1 hnot
  have hws' : ∃ w ∈ ws, w.resolved = true := by simpa using hws
  refine ⟨fun hnil => absurd hnil (by simp), fun _ => ?_⟩
  rw [History.ofKept, History.kept_concat_of_dropped (Bool.eq_false_iff.2 hv) hws']
  obtain ⟨w, hw, -⟩ := hws'
  exact h.written (List.ne_nil_of_mem hw)

end Scope

namespace ScopeGraph

variable {g g' : ScopeGraph} {id : ScopeId} {x : String} {op : Operation} {ops : List Operation}

/-- The values that operations hand over to be written to a variable of a scope, in order. -/
def offered (id : ScopeId) (x : String) (ops : List Operation) : List Value :=
  ops.filterMap fun
    | .write target v => if target = id ∧ v.name = x then some v else none
    | _ => none

theorem offered_append (ops ops' : List Operation) :
    offered id x (ops ++ ops') = offered id x ops ++ offered id x ops' :=
  List.filterMap_append

theorem offered_write (id : ScopeId) (v : Value) : offered id v.name [.write id v] = [v] := by
  simp [offered]

theorem offered_of_ne (h : ∀ v, op = .write id v → v.name ≠ x) : offered id x [op] = [] := by
  cases op with
  | write target v =>
    have hne : ¬(target = id ∧ v.name = x) := by
      rintro ⟨rfl, hx⟩
      exact h v rfl hx
    simp [offered, hne]
  | _ => rfl

/-- After operations in which every value for a variable of a scope has a line of its own, the scope
holds what is kept of these values, if there were none before. -/
theorem holds_performAll (hnone : (g.scope id).histories.get? x = none) (hops : g.Admissible ops)
    (hlines : ((offered id x ops).map Value.line).Nodup) :
    ((g.performAll ops).scope id).Holds x (offered id x ops) := by
  -- The induction is on the last operation: what is kept of the earlier values does not change.
  induction ops using List.reverseRecOn with
  | nil => exact ⟨fun _ => hnone, fun hne => absurd rfl hne⟩
  | append_singleton ops op ih =>
    obtain ⟨hops, hop⟩ := admissible_concat.1 hops
    rw [offered_append, List.map_append] at hlines
    have hholds := ih hops hlines.of_append_left
    rw [performAll_concat, offered_append]
    by_cases hwrite : ∃ v, op = .write id v ∧ v.name = x
    · obtain ⟨v, rfl, rfl⟩ := hwrite
      rw [offered_write] at hlines ⊢
      have hnew : v.line ∉ (offered id v.name ops).map Value.line := fun hmem =>
        (List.nodup_append.1 hlines).2.2 v.line hmem v.line List.mem_cons_self rfl
      have hself := scope_write_self (hop id List.mem_cons_self) v
      rcases hacc : ((g.performAll ops).scope id).accepts v with _ | _
      · rw [hacc, if_neg Bool.false_ne_true] at hself
        rw [perform, hself]
        exact hholds.dropped hacc
      · rw [hacc, if_pos rfl] at hself
        rw [perform, hself]
        exact hholds.write hnew hacc
    · have hne (v : Value) (hv : op = .write id v) : v.name ≠ x := fun hx => hwrite ⟨v, hv, hx⟩
      rw [offered_of_ne hne, List.append_nil]
      refine hholds.congr ?_
      rcases histories_perform hop id with ⟨v, rfl, -, hhistories⟩ | ⟨-, hhistories⟩
      · rw [hhistories, Scope.get?_write_of_ne _ (hne v rfl).symm]
      · rw [hhistories]

/-! ## Variables that are not written -/

/-- Looking up a variable goes by the histories of older scopes and the scopes around them. -/
theorem Keeps.history_eq (h : Keeps g g')
    (hget : ∀ i, (g'.scope i).histories.get? x = (g.scope i).histories.get? x)
    (hid : id < g.scopes.length) : g'.history id x = g.history id x := by
  induction id using Nat.strongRecOn with
  | ind id ih =>
    rw [history, history, hget, h.outer_eq id hid]
    split
    · rfl
    · split
      · rfl
      · split_ifs with ho
        · exact ih _ ho (Nat.lt_trans ho hid)
        · rfl

/-- Operations that do not write to a variable leave it as it is in every scope. -/
theorem history_performAll_of_ne (hid : id < g.scopes.length) (hops : g.Admissible ops)
    (hne : ∀ target v, .write target v ∈ ops → v.name ≠ x) :
    (g.performAll ops).history id x = g.history id x := by
  induction ops generalizing g with
  | nil => rfl
  | cons op ops ih =>
    have hkeeps := keeps_perform g op
    have hget (i : ScopeId) :
        ((g.perform op).scope i).histories.get? x = (g.scope i).histories.get? x := by
      rcases histories_perform hops.1 i with ⟨v, rfl, -, hhistories⟩ | ⟨-, hhistories⟩
      · rw [hhistories, Scope.get?_write_of_ne _ (hne i v List.mem_cons_self).symm]
      · rw [hhistories]
    have hrest := ih (Nat.lt_of_lt_of_le hid hkeeps.length_le) hops.2 fun target v hmem =>
      hne target v (List.mem_cons_of_mem op hmem)
    exact hrest.trans (hkeeps.history_eq hget hid)

/-- A variable that was never written in a scope, and any operations in which every value for it has
a line of its own. If there is such a value, looking the variable up gives the values without a
content before the first one with a content, and then all with one. A write of such a value is
dropped exactly if it has no content and comes after one with a content. If the operations do not
write to the variable at all, looking it up gives the same as before. -/
theorem history_of_writes (hid : id < g.scopes.length)
    (hnone : (g.scope id).histories.get? x = none) (hops : g.Admissible ops)
    (hlines : ((offered id x ops).map Value.line).Nodup) :
    let ws := offered id x ops
    (ws ≠ [] → (g.performAll ops).history id x =
      ws.takeWhile (fun v => !v.resolved) ++ ws.filter Value.resolved) ∧
    (∀ before v after, ops = before ++ .write id v :: after → v.name = x →
      (((g.performAll before).write id v).2 = false ↔
        v.resolved = false ∧ ∃ w ∈ offered id x before, w.resolved = true)) ∧
    ((∀ target v, .write target v ∈ ops → v.name ≠ x) →
      (g.performAll ops).history id x = g.history id x) := by
  intro ws
  refine ⟨fun hne => ?_, ?_, history_performAll_of_ne hid hops⟩
  · rw [history_of_get? ((holds_performAll hnone hops hlines).written hne)]
    exact History.values_ofKept ws
  · rintro before v after rfl rfl
    rw [offered_append, List.map_append] at hlines
    have hholds := holds_performAll hnone hops.of_append_left hlines.of_append_left
    have hdropped : ((g.performAll before).write id v).2 = false ↔
        ¬((g.performAll before).scope id).accepts v = true := by
      rw [write_snd, Bool.not_eq_true]
    rw [hdropped, hholds.accepts_iff]
    simp

/-- Two values without a content, one with a content, one without and one with a content are written
in a scope, with other operations in between. -/
theorem history_of_writes_interleaved :
    let g := performAll {} [.create "global" none, .write 0 ⟨"n", .int 7, .int, 1⟩,
      .create "f" (some 0)]
    let blank (line : Int) : Value := .unresolved "n" .unknown line
    let one : Value := ⟨"n", .int 1, .int, 5⟩
    let two : Value := ⟨"n", .int 2, .int, 2⟩
    let other : List Operation := [.write 1 ⟨"m", .int 3, .int, 4⟩, .create "h" (some 1)]
    let before : List Operation := [.write 1 (blank 4)] ++ other ++ [.write 1 (blank 3),
      .write 1 one, .write 0 (blank 5)]
    let ops := before ++ .write 1 (blank 6) :: [.write 1 (.unresolved "m" .unknown 6), .write 1 two]
    (g.scope 1).histories.get? "n" = none ∧ g.Admissible ops ∧
      (g.performAll ops).history 1 "n" = [blank 4, blank 3, one, two] ∧
      ((g.performAll before).write 1 (blank 6)).2 = false ∧
      (g.performAll other).history 1 "n" = g.history 1 "n" := by
  intro g blank one two other before ops
  have hops : g.Admissible ops :=
    ⟨by decide, by decide, by decide, by decide, by decide, by decide, by decide, by decide,
      by decide, trivial⟩
  have hother : g.Admissible other := ⟨by decide, by decide, trivial⟩
  have hbefore : offered 1 "n" before = [blank 4, blank 3, one] := by
    simp [offered, before, other, blank, one, Value.unresolved]
  have hoffered : offered 1 "n" ops = [blank 4, blank 3, one, blank 6, two] := by
    simp [offered, ops, before, other, blank, one, two, Value.unresolved]
  have hid : 1 < g.scopes.length := by decide
  have hnone : (g.scope 1).histories.get? "n" = none := rfl
  obtain ⟨hhistory, hdropped, -⟩ := history_of_writes hid hnone hops
    (by rw [hoffered]; decide)
  obtain ⟨-, -, hsame⟩ := history_of_writes hid hnone hother (by decide)
  refine ⟨hnone, hops, ?_, ?_, hsame ?_⟩
  · rw [hhistory (by rw [hoffered]; exact List.cons_ne_nil _ _), hoffered]
    rfl
  · rw [hdropped before (blank 6) _ rfl rfl, hbefore]
    exact ⟨rfl, one, by simp, rfl⟩
  · intro target v hmem
    obtain ⟨-, rfl⟩ : target = 1 ∧ v = ⟨"m", .int 3, .int, 4⟩ := by simpa [other] using hmem
    decide

/-- A scope in which the variable is not written shows the values of the scope around it. -/
theorem history_of_no_writes :
    let n : Value := ⟨"n", .int 1, .int, 1⟩
    let g := performAll {} [.create "global" none, .write 0 n, .create "f" (some 0)]
    let ws := offered 1 "n" []
    (g.scope 1).histories.get? "n" = none ∧ (g.performAll []).history 1 "n" = [n] ∧
      ws.takeWhile (fun v => !v.resolved) ++ ws.filter Value.resolved = [] := by
  intro n g ws
  refine ⟨rfl, ?_, rfl⟩
  rw [performAll, List.foldl_nil, history]
  exact history_of_get? (rfl : (g.scope 0).histories.get? "n" = some ⟨[(1, n)]⟩)

end ScopeGraph

end ValueTrace
