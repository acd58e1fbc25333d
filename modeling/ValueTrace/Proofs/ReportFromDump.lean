import ValueTrace.Proofs.ReportLines

/-!
# Reports from dumps

A dump of a tree of scopes holds all that a report on the tree shows. Records have texts as values
have (`ValueRecord.shown`), and a value that has a record has the text of that record
(`Value.shown_of_record`). If a tree has a dump, the rows of the tree and those of the dump tell the
same (`ScopeTree.rel_rows`), so that the report on the tree is what is written of the dump. A dump
keeps integers as they are, however long. Only these can stand in the way of a report.
-/

namespace ValueTrace

/-! ## Records as text -/

mutual
/-- The text of the record of a payload. -/
def PayloadRecord.shown : PayloadRecord → Except TextError String
  | .missing => .ok "?"
  | .int n => integerText n
  | .float x => .ok (Decimal.text x)
  | .text s => .ok (Text.quoted s)
  | .array rs => do
    return "[" ++ ", ".intercalate (← PayloadRecord.shownElements rs) ++ "]"
/-- The texts of the payloads of a list of records. -/
def PayloadRecord.shownElements : List ValueRecord → Except TextError (List String)
  | [] => .ok []
  | ⟨_, p, _, _⟩ :: rs => do
    let first ← p.shown
    let rest ← PayloadRecord.shownElements rs
    return first :: rest
end

/-- The text of a record: payload, type and line. -/
def ValueRecord.shown (r : ValueRecord) : Except TextError String := do
  let payload ← r.payload.shown
  let line ← integerText r.line
  return payload ++ ": " ++ r.type ++ " @" ++ line

theorem PayloadRecord.shownElements_eq_mapM (rs : List ValueRecord) :
    shownElements rs = rs.mapM fun r => r.payload.shown := by
  induction rs with
  | nil => rfl
  | cons r rs ih =>
    obtain ⟨name, p, type, line⟩ := r
    rw [shownElements, ih, List.mapM_cons]

theorem Value.records_eq_mapM (vs : List Value) : records vs = vs.mapM record := by
  induction vs with
  | nil => rfl
  | cons v vs ih => rw [records, ih, List.mapM_cons]

theorem Value.record_eq_ok {v : Value} {r : ValueRecord} (h : v.record = .ok r) :
    v.payload.record = .ok r.payload ∧ v.type.descriptor = .ok r.type ∧ v.line = r.line := by
  obtain ⟨name, payload, type, line⟩ := v
  rw [record] at h
  obtain ⟨p, hp, h⟩ := bind_eq_ok_iff.1 h
  obtain ⟨d, hd, h⟩ := bind_eq_ok_iff.1 h
  cases h
  exact ⟨hp, hd, rfl⟩

theorem Payload.shown_of_record {p : Payload} {r : PayloadRecord} (h : p.record = .ok r) :
    p.shown = r.shown := by
  induction p using Payload.induct generalizing r with
  | missing | int | float | text =>
    rw [record] at h
    cases h
    rw [shown, PayloadRecord.shown]
  | array vs ih =>
    rw [record] at h
    obtain ⟨rs, hrs, h⟩ := bind_eq_ok_iff.1 h
    cases h
    rw [Value.records_eq_mapM, mapM_eq_ok_iff] at hrs
    have helements : shownElements vs = PayloadRecord.shownElements rs := by
      rw [shownElements_eq_mapM, PayloadRecord.shownElements_eq_mapM]
      have hread := (List.forall₂_and_left vs rs).2 ⟨fun v hv r => ih v hv (r := r), hrs⟩
      exact mapM_eq_mapM (hread.imp fun v r h => h.1 r.payload (Value.record_eq_ok h.2).1)
    rw [shown, helements, PayloadRecord.shown]

/-- A value that has a record has the text of the record. -/
theorem Value.shown_of_record {v : Value} {r : ValueRecord} (h : v.record = .ok r) :
    v.shown = r.shown := by
  obtain ⟨hpayload, htype, hline⟩ := Value.record_eq_ok h
  rw [shown, ValueRecord.shown, Payload.shown_of_record hpayload, typeText_eq_ok_iff.2 htype, hline]
  exact bind_congr fun payload => pure_bind r.type _

/-! ## Why there is no text -/

theorem integerText_eq_error {n : Int} {e : TextError} (h : integerText n = .error e) :
    e = .longInteger := by
  unfold integerText at h
  split at h
  · cases h
  · cases h
    rfl

theorem Payload.shown_eq_error {p : Payload} {e : TextError} (h : p.shown = .error e) :
    e = .longInteger := by
  induction p using Payload.induct with
  | missing | float | text =>
    rw [shown] at h
    cases h
  | int n =>
    rw [shown] at h
    exact integerText_eq_error h
  | array vs ih =>
    rw [shown, bind_pure_eq_error_iff, shownElements_eq_mapM] at h
    have hmem : List.Forall₂ (fun v _ => v ∈ vs) vs vs := List.forall₂_same.2 fun _ hv => hv
    obtain ⟨v, _, hv, h⟩ := exists_of_mapM_eq_error hmem h
    exact ih v hv h

/-- Only a long integer keeps a value whose type has a descriptor from having a text. -/
theorem Value.shown_eq_error {v : Value} {d : String} (hd : v.type.descriptor = .ok d)
    {e : TextError} (h : v.shown = .error e) : e = .longInteger := by
  rw [shown, typeText_eq_ok_iff.2 hd] at h
  rcases bind_eq_error_iff.1 h with h | ⟨_, -, h⟩
  · exact Payload.shown_eq_error h
  · rcases bind_eq_error_iff.1 h with h | ⟨_, -, h⟩
    · cases h
    · exact integerText_eq_error (bind_pure_eq_error_iff.1 h)

namespace ScopeTree

theorem Title.text_eq_error {title : Title} {e : TextError} (h : title.text = .error e) :
    e = .longInteger := by
  cases title with
  | scope | function => cases h
  | call line => exact integerText_eq_error (bind_pure_eq_error_iff.1 h)

/-! ## Related rows -/

section

variable {α β : Type} {R : α → β → Prop}

/-- Rows that differ in the content of an entry only, and there as far as `R` allows. -/
inductive Row.Rel (R : α → β → Prop) : Row α → Row β → Prop
  | scope (depth : Nat) (title : Title) : Rel R (.scope depth title) (.scope depth title)
  | heading (depth : Nat) (text : String) : Rel R (.heading depth text) (.heading depth text)
  | entry (depth : Nat) (name : String) {a : α} {b : β} (h : R a b) :
    Rel R (.entry depth name a) (.entry depth name b)

theorem Row.Rel.line_eq {row : Row α} {row' : Row β} (h : row.Rel R row')
    {shown : α → Except TextError String} {shown' : β → Except TextError String}
    (hshown : ∀ a b, R a b → shown a = shown' b) (indent : String) :
    row.line shown indent = row'.line shown' indent := by
  cases h with
  | scope | heading => rfl
  | entry depth name h => rw [line, line, hshown _ _ h]

/-- Paragraphs that differ in the contents of entries only, and there as far as `R` allows. -/
structure Paragraph.Rel (R : α → β → Prop) (p : Paragraph α) (q : Paragraph β) : Prop where
  depth : p.depth = q.depth
  title : p.title = q.title
  histories : List.Forall₂ (fun a b => a.1 = b.1 ∧ List.Forall₂ R a.2 b.2) p.histories q.histories
  parameters : List.Forall₂ (fun a b => a.1 = b.1 ∧ R a.2 b.2) p.parameters q.parameters

theorem rel_headingRows {γ δ : Type} {P : γ → δ → Prop} {group : List γ} {group' : List δ}
    (h : List.Forall₂ P group group') (depth : Nat) (text : String) :
    List.Forall₂ (Row.Rel R) (headingRows depth text group) (headingRows depth text group') := by
  cases h with
  | nil => exact .nil
  | cons => exact .cons (.heading depth text) .nil

theorem rel_entryRows {entries : List (String × α)} {entries' : List (String × β)}
    (h : List.Forall₂ (fun a b => a.1 = b.1 ∧ R a.2 b.2) entries entries') (depth : Nat) :
    List.Forall₂ (Row.Rel R) (entryRows depth entries) (entryRows depth entries') := by
  rw [entryRows, entryRows, List.forall₂_map_left_iff, List.forall₂_map_right_iff]
  refine h.imp ?_
  rintro ⟨x, a⟩ ⟨_, b⟩ ⟨rfl, hab⟩
  exact .entry depth x hab

theorem Paragraph.Rel.writes {p : Paragraph α} {q : Paragraph β} (h : p.Rel R q) :
    List.Forall₂ (fun a b => a.1 = b.1 ∧ R a.2 b.2) p.writes q.writes := by
  refine List.rel_flatMap h.histories ?_
  rintro ⟨x, as⟩ ⟨_, bs⟩ ⟨rfl, hab⟩
  rw [List.forall₂_map_left_iff, List.forall₂_map_right_iff]
  exact hab.imp fun _ _ h => ⟨rfl, h⟩

theorem Paragraph.Rel.rows {p : Paragraph α} {q : Paragraph β} (h : p.Rel R q) :
    List.Forall₂ (Row.Rel R) p.rows q.rows := by
  rw [Paragraph.rows, Paragraph.rows, ← h.depth, ← h.title]
  have hvariables := List.rel_append (rel_headingRows h.histories p.depth "variables:")
    (rel_entryRows h.writes p.depth)
  have hparameters := List.rel_append hvariables
    (rel_headingRows h.parameters p.depth "parameters:")
  exact .cons (.scope p.depth p.title)
    (List.rel_append hparameters (rel_entryRows h.parameters p.depth))

end

/-! ## The rows of a dump -/

/-- The record of a value, as a relation. -/
def Recorded (v : Value) (r : ValueRecord) : Prop := v.record = .ok r

theorem dumpParameters_eq_ok {parameters : List (String × Value)}
    {records : List (String × ValueRecord)} (h : dumpParameters parameters = .ok records) :
    List.Forall₂ (fun a b => a.1 = b.1 ∧ Recorded a.2 b.2) parameters records := by
  induction parameters generalizing records with
  | nil =>
    cases h
    exact .nil
  | cons e parameters ih =>
    obtain ⟨x, v⟩ := e
    rw [dumpParameters] at h
    obtain ⟨r, hr, h⟩ := bind_eq_ok_iff.1 h
    obtain ⟨rest, hrest, h⟩ := bind_eq_ok_iff.1 h
    cases h
    exact .cons ⟨rfl, hr⟩ (ih hrest)

theorem dumpHistories_eq_ok {histories : List (String × List Value)}
    {records : List (String × List ValueRecord)} (h : dumpHistories histories = .ok records) :
    List.Forall₂ (fun a b => a.1 = b.1 ∧ List.Forall₂ Recorded a.2 b.2) histories records := by
  induction histories generalizing records with
  | nil =>
    cases h
    exact .nil
  | cons e histories ih =>
    obtain ⟨x, vs⟩ := e
    rw [dumpHistories] at h
    obtain ⟨rs, hrs, h⟩ := bind_eq_ok_iff.1 h
    obtain ⟨rest, hrest, h⟩ := bind_eq_ok_iff.1 h
    cases h
    rw [Value.records_eq_mapM, mapM_eq_ok_iff] at hrs
    exact .cons ⟨rfl, hrs⟩ (ih hrest)

theorem dump_mk_eq_ok {name : String} {histories : List (String × List Value)}
    {parameters : List (String × Value)} {functions : List (String × ScopeTree Value)}
    {calls : List (Int × ScopeTree Value)} {d : ScopeTree ValueRecord}
    (h : (mk name histories parameters functions calls).dump = .ok d) :
    ∃ historyRecords parameterRecords functionDumps callDumps,
      dumpHistories histories = .ok historyRecords ∧
      dumpParameters parameters = .ok parameterRecords ∧
      dumpFunctions functions = .ok functionDumps ∧ dumpCalls calls = .ok callDumps ∧
      d = mk name historyRecords parameterRecords functionDumps callDumps := by
  rw [dump] at h
  obtain ⟨historyRecords, hhistories, h⟩ := bind_eq_ok_iff.1 h
  obtain ⟨parameterRecords, hparameters, h⟩ := bind_eq_ok_iff.1 h
  obtain ⟨functionDumps, hfunctions, h⟩ := bind_eq_ok_iff.1 h
  obtain ⟨callDumps, hcalls, h⟩ := bind_eq_ok_iff.1 h
  cases h
  exact ⟨_, _, _, _, hhistories, hparameters, hfunctions, hcalls, rfl⟩

mutual
/-- The paragraphs of a tree and those of its dump are on the same scopes and hold the same
entries. -/
theorem rel_paragraphs {tree : ScopeTree Value} {dump : ScopeTree ValueRecord}
    (h : tree.dump = .ok dump) (depth : Nat) (title : Title) :
    List.Forall₂ (Paragraph.Rel Recorded) (tree.paragraphs depth title)
      (dump.paragraphs depth title) := by
  cases tree with
  | mk name histories parameters functions calls =>
    obtain ⟨_, _, _, _, hhistories, hparameters, hfunctions, hcalls, rfl⟩ := dump_mk_eq_ok h
    rw [paragraphs, paragraphs]
    exact .cons ⟨rfl, rfl, dumpHistories_eq_ok hhistories, dumpParameters_eq_ok hparameters⟩
      (List.rel_append (rel_functionParagraphs hfunctions (depth + 1))
        (rel_callParagraphs hcalls (depth + 1)))
theorem rel_functionParagraphs {functions : List (String × ScopeTree Value)}
    {dumps : List (String × ScopeTree ValueRecord)} (h : dumpFunctions functions = .ok dumps)
    (depth : Nat) :
    List.Forall₂ (Paragraph.Rel Recorded) (functionParagraphs depth functions)
      (functionParagraphs depth dumps) := by
  cases functions with
  | nil =>
    cases h
    exact .nil
  | cons f functions =>
    obtain ⟨name, tree⟩ := f
    rw [dumpFunctions] at h
    obtain ⟨first, hfirst, h⟩ := bind_eq_ok_iff.1 h
    obtain ⟨rest, hrest, h⟩ := bind_eq_ok_iff.1 h
    cases h
    rw [functionParagraphs, functionParagraphs]
    exact List.rel_append (rel_paragraphs hfirst depth (.function name))
      (rel_functionParagraphs hrest depth)
theorem rel_callParagraphs {calls : List (Int × ScopeTree Value)}
    {dumps : List (Int × ScopeTree ValueRecord)} (h : dumpCalls calls = .ok dumps)
    (depth : Nat) :
    List.Forall₂ (Paragraph.Rel Recorded) (callParagraphs depth calls)
      (callParagraphs depth dumps) := by
  cases calls with
  | nil =>
    cases h
    exact .nil
  | cons call calls =>
    obtain ⟨line, tree⟩ := call
    rw [dumpCalls] at h
    obtain ⟨first, hfirst, h⟩ := bind_eq_ok_iff.1 h
    obtain ⟨rest, hrest, h⟩ := bind_eq_ok_iff.1 h
    cases h
    rw [callParagraphs, callParagraphs]
    exact List.rel_append (rel_paragraphs hfirst depth (.call line))
      (rel_callParagraphs hrest depth)
end

/-! ## Reports and dumps -/

section

variable {tree : ScopeTree Value} {dump : ScopeTree ValueRecord}

theorem rel_outline (h : tree.dump = .ok dump) :
    List.Forall₂ (Paragraph.Rel Recorded) tree.outline dump.outline := by
  have hname : tree.name = dump.name := by
    cases tree
    obtain ⟨_, _, _, _, -, -, -, -, rfl⟩ := dump_mk_eq_ok h
    rfl
  rw [outline, outline, ← hname]
  exact rel_paragraphs h 0 (.scope tree.name)

/-- The rows of a tree and those of its dump tell the same, one by one. -/
theorem rel_rows (h : tree.dump = .ok dump) :
    List.Forall₂ (Row.Rel Recorded) tree.rows dump.rows :=
  List.rel_flatMap (rel_outline h) fun _ _ hp => hp.rows

theorem report_eq_of_dump (h : tree.dump = .ok dump) (indent : String) :
    tree.report indent = dump.written indent ValueRecord.shown := by
  rw [report_eq_written, written, written]
  have hlines : tree.rows.mapM (Row.line Value.shown indent) =
      dump.rows.mapM (Row.line ValueRecord.shown indent) :=
    mapM_eq_mapM ((rel_rows h).imp fun _ _ hrow =>
      hrow.line_eq (fun _ _ => Value.shown_of_record) indent)
  rw [hlines]

theorem report_eq_error_of_dump (h : tree.dump = .ok dump) {indent : String} {e : TextError}
    (he : tree.report indent = .error e) : e = .longInteger := by
  rw [report_eq_written, written, bind_pure_eq_error_iff] at he
  obtain ⟨row, row', hrow, he⟩ := exists_of_mapM_eq_error (rel_rows h) he
  cases hrow with
  | scope depth title => exact Title.text_eq_error (bind_pure_eq_error_iff.1 he)
  | heading => cases he
  | entry depth name hrecord =>
    exact Value.shown_eq_error (Value.record_eq_ok hrecord).2.1 (bind_pure_eq_error_iff.1 he)

/-- The report on a tree that has a dump is what is written of the dump, or there is none because an
integer in it has too many digits. Row by row the tree and the dump tell the same, in the same
order. So two trees with the same dump have the same report, or neither has one. -/
theorem report_of_dump (h : tree.dump = .ok dump) (indent : String) :
    tree.report indent = dump.written indent ValueRecord.shown ∧
      ((∃ text, tree.report indent = .ok text) ↔ ∀ p ∈ tree.outline, p.Writable) ∧
      (∀ e, tree.report indent = .error e → e = .longInteger) ∧
      List.Forall₂ (Row.Rel Recorded) tree.rows dump.rows ∧
      ∀ other : ScopeTree Value, other.dump = .ok dump →
        other.report indent = tree.report indent := by
  have hreport := report_eq_of_dump h indent
  refine ⟨hreport, exists_report_iff indent tree, fun _ => report_eq_error_of_dump h, rel_rows h,
    fun other hother => ?_⟩
  rw [report_eq_of_dump hother indent, hreport]

end

/-- A function with a parameter and a call of it, where the names of the values and of the scopes
are not those under which they are stored. -/
theorem report_of_dump_nested :
    let v : Value := ⟨"a", .array [⟨"b", .text "\n", .string, 1⟩], .homogeneous .string, 1⟩
    let call : ScopeTree Value := .mk "c" [] [("q", v)] [] []
    let function : ScopeTree Value := .mk "g" [] [("p", .unresolved "p" .unknown 2)] [] [(3, call)]
    let tree : ScopeTree Value := .mk "global" [("x", [v])] [] [("f", function)] []
    ∃ dump text, tree.dump = .ok dump ∧ tree.report defaultIndent = .ok text ∧
      dump.written defaultIndent ValueRecord.shown = .ok text ∧
      dump.rows.length = tree.rows.length := by
  intro v call function tree
  obtain ⟨dump, hdump⟩ : ∃ dump, tree.dump = .ok dump := ⟨_, rfl⟩
  have hshort {n : Int} (h : n.natAbs < 10) : ShortInteger n := shortInteger_of_lt h
  have hv : v.Writable :=
    ⟨.array (List.forall_mem_singleton.2 (.text _)), ⟨_, rfl⟩, hshort (by decide)⟩
  have hparameter : (Value.unresolved "p" .unknown 2).Writable :=
    ⟨.missing, ⟨_, rfl⟩, hshort (by decide)⟩
  have hwritable : ∀ p ∈ tree.outline, p.Writable := by
    refine List.forall_mem_cons.2 ⟨⟨trivial, ?_⟩, List.forall_mem_cons.2 ⟨⟨trivial, ?_⟩,
      List.forall_mem_singleton.2 ⟨hshort (by decide), ?_⟩⟩⟩
    · exact List.forall_mem_singleton.2 hv
    · exact List.forall_mem_singleton.2 hparameter
    · exact List.forall_mem_singleton.2 hv
  obtain ⟨hreport, hexists, -, hrows, -⟩ := report_of_dump hdump defaultIndent
  obtain ⟨text, htext⟩ := hexists.2 hwritable
  exact ⟨dump, text, hdump, htext, hreport ▸ htext, hrows.length_eq.symm⟩

/-- A variable with an integer of too many digits can be dumped, but there is no report on it. -/
theorem dump_without_report :
    let v : Value := ⟨"x", .int (Decimal.tenPow Decimal.maxDigits), .int, 1⟩
    let tree : ScopeTree Value := .mk "global" [("x", [v])] [] [] []
    (∃ dump, tree.dump = .ok dump) ∧ ¬∃ text, tree.report defaultIndent = .ok text := by
  intro v tree
  refine ⟨⟨_, rfl⟩, fun hreport => ?_⟩
  have hwritable := List.forall_mem_singleton.1 ((exists_report_iff _ tree).1 hreport)
  -- The power is never evaluated: it is the bound itself.
  cases (List.forall_mem_singleton.1 hwritable.values).payload with
  | int h => exact not_shortInteger (Nat.le_refl _) h

end ScopeTree

end ValueTrace
