import ValueTrace.Proofs.Slicing

/-!
# Dropped writes

A write without a content is dropped if reading gives a value with one, and the analysis notes which
line was kept. Later writes may still replace the entry at that line, so a note could become wrong.
It does not: once a history ends with a content, only values with a content are written to it. This
is part of what `History.Grows` says about two states of a history. Each write brings it about, and
so does a whole session (`later_serveAll`), in which statements come one at a time or in lists and
the global scope may be given parameters in between. The main result says that contents stay, and
what the notes mean.
-/

namespace ValueTrace

/-! ## Histories over time -/

namespace History

/-- Whether the last value of a history has a content. -/
def Settled (h : History) : Prop := ∃ v, h.last? = some v ∧ v.resolved = true

/-- Whether a history has a value with a content at a line. -/
def ResolvedAt (h : History) (line : Int) : Prop := ∃ v, h.get? line = some v ∧ v.resolved = true

/-- How a history relates to later states of it: new lines come last, and if the last value has a
content, that stays so, and the other contents stay too. -/
structure Grows (h h' : History) : Prop where
  keys : h.keys <+: h'.keys
  settled : h.Settled → h'.Settled
  resolvedAt : h.Settled → ∀ line, h.ResolvedAt line → h'.ResolvedAt line

variable {h h' h'' : History}

theorem Grows.refl (h : History) : h.Grows h := ⟨List.prefix_rfl, id, fun _ _ => id⟩

theorem Grows.trans (hg : h.Grows h') (hg' : h'.Grows h'') : h.Grows h'' :=
  ⟨hg.keys.trans hg'.keys, fun hs => hg'.settled (hg.settled hs), fun hs line hl =>
    hg'.resolvedAt (hg.settled hs) line (hg.resolvedAt hs line hl)⟩

/-- A history grows by any value if its last one has no content, and else by one with a content. -/
theorem Grows.insert (hn : h.keys.Nodup) (line : Int) {v : Value}
    (hv : h.Settled → v.resolved = true) : h.Grows (h.insert line v) := by
  refine ⟨Table.keys_prefix_insert h line v, fun hs => ?_, fun hs line' hl => ?_⟩
  · by_cases hlast : line ∉ h.keys ∨ h.keys.getLast? = some line
    · exact ⟨v, Table.last?_insert_of_last hn v hlast, hv hs⟩
    · obtain ⟨hmem, hne⟩ := not_or.1 hlast
      obtain ⟨w, hw, hresolved⟩ := hs
      refine ⟨w, ?_, hresolved⟩
      rw [Table.last?_insert_of_not_last v (not_not.1 hmem) hne, hw]
  · by_cases hline : line' = line
    · subst hline
      exact ⟨v, Table.get?_insert_self h line' v, hv hs⟩
    · obtain ⟨w, hw, hresolved⟩ := hl
      refine ⟨w, ?_, hresolved⟩
      rw [Table.get?_insert_of_ne h hline, hw]

end History

theorem Scope.resolved_of_accepts {s : Scope} {v : Value} (h : s.accepts v = true)
    (hs : (s.ownHistory v.name).Settled) : v.resolved = true := by
  obtain ⟨w, hw, hresolved⟩ := hs
  rw [accepts, hw] at h
  simpa [hresolved] using h

theorem Scope.ownHistory_congr {s s' : Scope} (h : s'.histories = s.histories) (x : String) :
    s'.ownHistory x = s.ownHistory x := by
  rw [ownHistory, ownHistory, h]

/-- The value that a history ends with stands at its own line. -/
theorem Scope.Filed.get?_of_last? {s : Scope} (hs : s.Filed) {x : String} {v : Value}
    (h : (s.ownHistory x).last? = some v) : (s.ownHistory x).get? v.line = some v := by
  rw [Table.last?_eq] at h
  obtain ⟨⟨line, w⟩, he, rfl⟩ := Option.map_eq_some_iff.1 h
  have hmem := List.mem_of_getLast? he
  have hline : w.line = line := (hs.own_ownHistory hmem).2
  rw [hline]
  exact Table.get?_of_mem_entries (hs.nodup_ownHistory x) hmem

theorem ScopeGraph.grows_write {g : ScopeGraph} {id : ScopeId} (hs : (g.scope id).Filed)
    (hid : id < g.scopes.length) (v : Value) (x : String) :
    ((g.scope id).ownHistory x).Grows (((g.write id v).1.scope id).ownHistory x) := by
  rw [scope_write_self hid]
  split_ifs with hacc
  · by_cases hx : x = v.name
    · subst hx
      rw [Scope.ownHistory_of_get? (Scope.get?_write_self _ v)]
      exact .insert (hs.nodup_ownHistory _) v.line (Scope.resolved_of_accepts hacc)
    · rw [Scope.ownHistory, Scope.ownHistory, Scope.get?_write_of_ne _ hx]
      exact .refl _
  · exact .refl _

namespace Analysis

variable {a b c : Analysis} {n : Node} {ns : List Node}

/-- The history of a global variable. -/
def history (a : Analysis) (x : String) : History := (a.graph.scope global).ownHistory x

/-- There is no scope around the global one to look in. -/
theorem latest?_eq (a : Analysis) (x : String) : a.latest? x = (a.history x).last? := by
  rcases hx : (a.graph.scope global).histories.get? x with _ | h
  · have hnil : a.graph.history global x = [] := by
      rw [ScopeGraph.history, hx]
      cases (a.graph.scope global).outer with
      | none => rfl
      | some o => exact if_neg (Nat.not_lt_zero o)
    rw [latest?, ScopeGraph.latest?, hnil, history, Scope.ownHistory, hx]
    rfl
  · rw [latest?, ScopeGraph.latest?_of_get? hx, history, Scope.ownHistory_of_get? hx]

theorem settled_iff {x : String} :
    (a.history x).Settled ↔ ∃ v, a.latest? x = some v ∧ v.resolved = true := by
  rw [latest?_eq]
  rfl

/-! ## From one state to a later one -/

/-- What holds of the scopes in every session, also if the global scope was given parameters. -/
structure Founded (a : Analysis) : Prop where
  nonempty : global < a.graph.scopes.length
  built : a.graph.Built

theorem Founded.filed (h : a.Founded) : (a.graph.scope global).Filed := h.built.filed global

theorem founded_start (verbose : Bool) : (start verbose).Founded :=
  ⟨(shaped_start verbose).nonempty, built_start verbose⟩

/-- What a later state of a session keeps of an earlier one. -/
structure Later (a b : Analysis) : Prop where
  founded : a.Founded → b.Founded
  grows : a.Founded → ∀ x, (a.history x).Grows (b.history x)

theorem Later.refl (a : Analysis) : a.Later a := ⟨id, fun _ _ => .refl _⟩

theorem Later.trans (h : a.Later b) (h' : b.Later c) : a.Later c :=
  ⟨fun ha => h'.founded (h.founded ha),
    fun ha x => (h.grows ha x).trans (h'.grows (h.founded ha) x)⟩

/-- A statement writes and drops writes only if it is an assignment to a variable. -/
theorem Step.assign_or_frame (hs : Step a n b) :
    (∃ x nameLine value line, n = .assign (.variable x nameLine) value line ∧
      b = a.assign x value) ∨
    (n.target? = none ∧ (b.graph.scope global).histories = (a.graph.scope global).histories ∧
      b.diagnostics.discarded = a.diagnostics.discarded) := by
  rcases htarget : n.target? with _ | x
  · exact .inr ⟨rfl, hs.histories_eq htarget⟩
  · obtain ⟨nameLine, value, line, rfl⟩ := Node.eq_assign htarget
    cases hs with
    | assign => exact .inl ⟨x, nameLine, value, line, rfl, rfl⟩
    | inert hn => cases hn

theorem Step.length_le (hs : Step a n b) : a.graph.scopes.length ≤ b.graph.scopes.length := by
  cases hs with
  | assign x nameLine value line =>
    rw [graph_assign, ScopeGraph.length_write]
  | call function nameLine args line =>
    rw [graph_call]
    exact ScopeGraph.length_le_recordCall ..
  | declare function params body line =>
    rw [graph_declare, ScopeGraph.length_introduce]
    exact Nat.le_succ _
  | dynamic | inert => exact Nat.le_refl _

theorem Step.later (hs : Step a n b) : a.Later b := by
  refine ⟨fun ha => ⟨Nat.lt_of_lt_of_le ha.nonempty hs.length_le, hs.built ha.nonempty ha.built⟩,
    fun ha x => ?_⟩
  rcases hs.assign_or_frame with ⟨y, nameLine, value, line, rfl, rfl⟩ | ⟨-, hhistories, -⟩
  · rw [history, history, graph_assign]
    exact ScopeGraph.grows_write ha.filed ha.nonempty _ x
  · rw [history, history, Scope.ownHistory_congr hhistories]
    exact .refl _

theorem later_bind (a : Analysis) (v : Value) : a.Later (a.bind v) := by
  refine ⟨fun ha => ⟨?_, ha.built.bind ha.nonempty v⟩, fun ha x => ?_⟩
  · rw [bind, ScopeGraph.bind, ScopeGraph.length_modify]
    exact ha.nonempty
  · rw [history, history, bind, Scope.ownHistory_congr (ScopeGraph.histories_bind ..)]
    exact .refl _

theorem later_run (a : Analysis) (ns : List Node) : a.Later (a.run ns).1 := by
  induction ns generalizing a with
  | nil => exact .refl a
  | cons n ns ih =>
    rw [run]
    rcases hs : a.step n with e | a'
    · exact .refl a
    · exact (step_of_eq_ok hs).later.trans (ih a')

/-! ## Sessions -/

/-- What a session can be asked for: to take one statement, to run over statements, or to give a
parameter of the global scope a value. -/
inductive Request where
  | visit (n : Node)
  | run (ns : List Node)
  | bind (v : Value)

/-- The state after a request, which may end in an error. -/
def serve (a : Analysis) : Request → Analysis
  | .visit n => a.visit n
  | .run ns => (a.run ns).1
  | .bind v => a.bind v

/-- The state after requests that are served in order. -/
def serveAll (a : Analysis) (rs : List Request) : Analysis := rs.foldl serve a

/-- The statements that a run comes to, each with the state that it is met in. -/
def met (a : Analysis) : List Node → List (Analysis × Node)
  | [] => []
  | n :: ns =>
    (a, n) :: match a.step n with
      | .ok a' => a'.met ns
      | .error _ => []

/-- The statements that a session comes to, each with the state that it is met in. -/
def moments (a : Analysis) : List Request → List (Analysis × Node)
  | [] => []
  | .visit n :: rs => a.met [n] ++ (a.visit n).moments rs
  | .run ns :: rs => a.met ns ++ (a.run ns).1.moments rs
  | .bind v :: rs => (a.bind v).moments rs

/-- The note that a statement gives rise to if its write is dropped: the variable, the line of the
value that reading gave, and the line of the value that was not written. -/
def drop? (m : Analysis × Node) : Option DiscardedWrite :=
  (m.1.offer? m.2).bind fun v =>
    if (m.1.graph.write global v).2 then none
    else (m.1.latest? v.name).map fun w => ⟨v.name, w.line, v.line⟩

variable {m : Analysis × Node} {rs : List Request} {r : DiscardedWrite}

theorem visit_eq_run (a : Analysis) (n : Node) : a.visit n = (a.run [n]).1 := by
  rw [visit, run]
  cases a.step n <;> rfl

theorem later_serve (a : Analysis) (r : Request) : a.Later (a.serve r) := by
  cases r with
  | visit n =>
    rw [serve, visit_eq_run]
    exact later_run a [n]
  | run ns => exact later_run a ns
  | bind v => exact later_bind a v

theorem later_serveAll (a : Analysis) (rs : List Request) : a.Later (a.serveAll rs) := by
  induction rs generalizing a with
  | nil => exact .refl a
  | cons r rs ih => exact (later_serve a r).trans (ih _)

/-- A statement is met between the start and the end of a run. -/
theorem later_of_mem_met (h : m ∈ a.met ns) : a.Later m.1 ∧ m.1.Later (a.run ns).1 := by
  induction ns generalizing a with
  | nil => cases h
  | cons n ns ih =>
    rcases List.mem_cons.1 h with rfl | h
    · exact ⟨.refl a, later_run a _⟩
    · rw [run]
      rcases hs : a.step n with e | a'
      · rw [hs] at h
        cases h
      · rw [hs] at h
        obtain ⟨hbefore, hafter⟩ := ih h
        exact ⟨(step_of_eq_ok hs).later.trans hbefore, hafter⟩

theorem later_of_mem_moments (h : m ∈ a.moments rs) : a.Later m.1 ∧ m.1.Later (a.serveAll rs) := by
  induction rs generalizing a with
  | nil => cases h
  | cons r rs ih =>
    -- Before the first request has been served, or after that.
    have hmet {ns : List Node} (hserve : a.serve r = (a.run ns).1) (h : m ∈ a.met ns) :
        a.Later m.1 ∧ m.1.Later (a.serveAll (r :: rs)) := by
      obtain ⟨hbefore, hafter⟩ := later_of_mem_met h
      rw [← hserve] at hafter
      exact ⟨hbefore, hafter.trans (later_serveAll _ rs)⟩
    have hrest (h : m ∈ (a.serve r).moments rs) :
        a.Later m.1 ∧ m.1.Later (a.serveAll (r :: rs)) := by
      obtain ⟨hbefore, hafter⟩ := ih h
      exact ⟨(later_serve a r).trans hbefore, hafter⟩
    cases r with
    | visit n => exact (List.mem_append.1 h).elim (hmet (visit_eq_run a n)) hrest
    | run ns => exact (List.mem_append.1 h).elim (hmet rfl) hrest
    | bind v => exact hrest h

/-! ## What is noted -/

theorem offer?_of_target? (h : n.target? = none) : a.offer? n = none := by
  cases n with
  | assign target value line =>
    cases target with
    | «variable» => cases h
    | _ => rfl
  | _ => rfl

theorem drop?_of_target? (h : n.target? = none) : drop? (a, n) = none := by
  rw [drop?, offer?_of_target? h]
  rfl

/-- A note is about a write that was dropped when reading the variable gave a content. -/
theorem exists_of_drop? (h : drop? m = some r) :
    ∃ v w, m.1.offer? m.2 = some v ∧ (m.1.graph.write global v).2 = false ∧
      m.1.latest? v.name = some w ∧ w.resolved = true ∧ r = ⟨v.name, w.line, v.line⟩ := by
  obtain ⟨v, hoffer, h⟩ := Option.bind_eq_some_iff.1 h
  split_ifs at h with hkept
  obtain ⟨w, hlatest, rfl⟩ := Option.map_eq_some_iff.1 h
  rw [Bool.not_eq_true] at hkept
  obtain ⟨-, w', hw', hresolved⟩ := ScopeGraph.latest?_of_dropped hkept
  obtain rfl : w = w' := Option.some.inj (hlatest.symm.trans hw')
  exact ⟨v, w, hoffer, hkept, hlatest, hresolved, rfl⟩

theorem Step.discarded_eq (hs : Step a n b) :
    b.diagnostics.discarded = a.diagnostics.discarded ++ (drop? (a, n)).toList := by
  rcases hs.assign_or_frame with ⟨x, nameLine, value, line, rfl, rfl⟩ | ⟨htarget, -, hdiscarded⟩
  · rw [discarded_assign, drop?, offer?, Option.bind_some]
    rcases hacc : (a.graph.scope global).accepts ((value.infer a.sight x).rename x) with _ | _
    · have hdropped := ScopeGraph.write_eq_of_not_accepts hacc
      -- There is a value that the write is dropped for, so its line is what is noted.
      obtain ⟨-, w, hw, -⟩ := ScopeGraph.latest?_of_dropped (congrArg Prod.snd hdropped)
      have hlatest : a.latest? x = some w := hw
      rw [hdropped, hlatest]
      simp only [Bool.false_eq_true, if_false, Value.rename, hlatest]
      rfl
    · rw [ScopeGraph.write_eq_of_accepts hacc]
      rfl
  · rw [hdiscarded, drop?_of_target? htarget]
    exact (List.append_nil _).symm

theorem target?_of_step_error {e : UnsupportedTarget} (h : a.step n = .error e) :
    n.target? = none := by
  rcases htarget : n.target? with _ | x
  · rfl
  · obtain ⟨nameLine, value, line, rfl⟩ := Node.eq_assign htarget
    cases h

theorem discarded_run (a : Analysis) (ns : List Node) :
    (a.run ns).1.diagnostics.discarded =
      a.diagnostics.discarded ++ (a.met ns).filterMap drop? := by
  induction ns generalizing a with
  | nil => exact (List.append_nil _).symm
  | cons n ns ih =>
    rw [run, met, List.filterMap_cons]
    rcases hs : a.step n with e | a'
    · rw [drop?_of_target? (target?_of_step_error hs)]
      exact (List.append_nil _).symm
    · rw [ih, (step_of_eq_ok hs).discarded_eq, List.append_assoc]
      cases drop? (a, n) <;> rfl

/-- The notes of a session are those of the statements it came to, in order. -/
theorem discarded_serveAll (a : Analysis) (rs : List Request) :
    (a.serveAll rs).diagnostics.discarded =
      a.diagnostics.discarded ++ (a.moments rs).filterMap drop? := by
  induction rs generalizing a with
  | nil => exact (List.append_nil _).symm
  | cons r rs ih =>
    cases r with
    | visit n =>
      rw [moments, List.filterMap_append, ← List.append_assoc, ← discarded_run, ← visit_eq_run]
      exact ih (a.visit n)
    | run ns =>
      rw [moments, List.filterMap_append, ← List.append_assoc, ← discarded_run]
      exact ih (a.run ns).1
    | bind v => exact ih (a.bind v)

/-- What was noted about a dropped write stays true: the line that was kept still has a content. -/
theorem resolvedAt_of_drop? (hm : m.1.Founded) (hdrop : drop? m = some r) (hlater : m.1.Later b) :
    (b.history r.name).ResolvedAt r.keptLine := by
  obtain ⟨v, w, -, -, hlatest, hresolved, rfl⟩ := exists_of_drop? hdrop
  have hlast : (m.1.history v.name).last? = some w := by rw [← latest?_eq, hlatest]
  exact (hlater.grows hm v.name).resolvedAt ⟨w, hlast, hresolved⟩ w.line
    ⟨w, hm.filed.get?_of_last? hlast, hresolved⟩

/-- A state of a session, and a later one. A variable with a content keeps one, and new lines of its
history come last. A write is dropped only if reading the variable gives a content. The notes about
dropped writes are exactly those of the statements that came so far. Each was made when reading the
variable gave a content from the line it names as kept, and the history still has a content at that
line. -/
theorem contents_stay_as_noted (verbose : Bool) (before after : List Request) :
    let a := (start verbose).serveAll before
    let b := a.serveAll after
    (∀ x v, a.latest? x = some v → v.resolved = true →
      ∃ w, b.latest? x = some w ∧ w.resolved = true) ∧
    (∀ x, (a.history x).keys <+: (b.history x).keys) ∧
    (∀ v, (a.graph.write global v).2 = false →
      ∃ w, a.latest? v.name = some w ∧ w.resolved = true) ∧
    a.diagnostics.discarded = ((start verbose).moments before).filterMap drop? ∧
    ∀ r ∈ a.diagnostics.discarded,
      (∃ m ∈ (start verbose).moments before, ∃ v w, m.1.offer? m.2 = some v ∧
        (m.1.graph.write global v).2 = false ∧ m.1.latest? v.name = some w ∧ w.resolved = true ∧
        r = ⟨v.name, w.line, v.line⟩) ∧
      ∃ w, (b.history r.name).get? r.keptLine = some w ∧ w.resolved = true := by
  intro a b
  have hstart := founded_start verbose
  have ha : a.Founded := (later_serveAll _ before).founded hstart
  have hab : a.Later b := later_serveAll a after
  have hnotes : a.diagnostics.discarded = ((start verbose).moments before).filterMap drop? :=
    discarded_serveAll (start verbose) before
  refine ⟨fun x v hv hresolved => ?_, fun x => (hab.grows ha x).keys, fun v hdropped =>
    (ScopeGraph.latest?_of_dropped hdropped).2, hnotes, fun r hr => ?_⟩
  · exact settled_iff.1 ((hab.grows ha x).settled (settled_iff.2 ⟨v, hv, hresolved⟩))
  · rw [hnotes] at hr
    obtain ⟨m, hm, hdrop⟩ := List.mem_filterMap.1 hr
    obtain ⟨hbefore, hafter⟩ := later_of_mem_moments hm
    exact ⟨⟨m, hm, exists_of_drop? hdrop⟩,
      resolvedAt_of_drop? (hbefore.founded hstart) hdrop (hafter.trans hab)⟩

/-- A write is dropped in favour of the first line of its history. Then a parameter is bound, an
assignment fails, and the entry at the first line is replaced. -/
theorem contents_stay_as_noted_of_session :
    let before : List Request := [.run [.assign (.variable "x" 1) (.int 1 1) 1,
      .assign (.variable "x" 2) (.call (.name "g" 2) [] 2) 2]]
    let after : List Request := [.bind ⟨"x", .int 5, .int, 3⟩,
      .visit (.assign (.name "x" 4) (.int 4 4) 4), .visit (.assign (.variable "x" 5) (.int 7 1) 5)]
    let a := (start false).serveAll before
    let b := a.serveAll after
    a.diagnostics.discarded = [⟨"x", 1, 2⟩] ∧
      (a.history "x").get? 1 = some ⟨"x", .int 1, .int, 1⟩ ∧
      (b.history "x").get? 1 = some ⟨"x", .int 7, .int, 1⟩ ∧
      (∃ w, b.latest? "x" = some w ∧ w.resolved = true) ∧
      ∃ w, (b.history "x").get? 1 = some w ∧ w.resolved = true := by
  intro before after a b
  have hnoted : a.diagnostics.discarded = [⟨"x", 1, 2⟩] := by with_unfolding_all rfl
  obtain ⟨hstay, -, -, -, hnotes⟩ := contents_stay_as_noted false before after
  refine ⟨hnoted, by with_unfolding_all rfl, by with_unfolding_all rfl, ?_, ?_⟩
  · exact hstay "x" ⟨"x", .int 1, .int, 1⟩ (by with_unfolding_all rfl) rfl
  · refine (hnotes ⟨"x", 1, 2⟩ ?_).2
    rw [hnoted]
    exact .head _

end Analysis

end ValueTrace
