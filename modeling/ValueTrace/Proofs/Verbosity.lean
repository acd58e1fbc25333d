import ValueTrace.CommandLine
import ValueTrace.Proofs.Diagnostics
import ValueTrace.Proofs.ReportFromDump
import ValueTrace.Proofs.WellTyped

/-!
# Verbosity

Verbose diagnostics are asked for by a flag, which is kept in the log until the summary is written.
No statement of a program depends on it (`Analysis.step_withVerbose`), so an analysis finds the same
with and without it, and the verbose summary goes on where the other one ends
(`Diagnostics.exists_summary_append`). A verbose run of the program hence leaves the same behind as
any other, apart from further lines in its errors (`Outcome.Extends`). This holds on every platform,
whatever its parser. Where the analysis comes to its end, a quiet run has errors because of an
argument without a value or because there is no report (`Platform.report_long_integer`).
-/

namespace ValueTrace

/-! ## Summaries -/

namespace Diagnostics

/-- The log, to be summarized verbosely or not. -/
def withVerbose (verbose : Bool) (d : Diagnostics) : Diagnostics := { d with verbose }

/-- What only a verbose summary has. -/
def details (d : Diagnostics) : List String :=
  detailLines "\nSkipped statements:" (d.skipped.map SkippedStatement.message) ++
    detailLines "\nDiscarded writes:" (d.discarded.map DiscardedWrite.message)

theorem summaryLines_withVerbose (d : Diagnostics) :
    (d.withVerbose true).summaryLines = (d.withVerbose false).summaryLines ++ d.details := by
  simp only [summaryLines, withVerbose, details, if_true, Bool.false_eq_true, if_false,
    List.append_nil]
  rfl

theorem exists_summary_append (d : Diagnostics) :
    ∃ more, (d.withVerbose true).summary ++ "\n" =
      (d.withVerbose false).summary ++ "\n" ++ more := by
  rw [summary, summaryLines_withVerbose, summary]
  by_cases hdetails : d.details = []
  · exact ⟨"", by rw [hdetails, List.append_nil, String.append_empty]⟩
  · refine ⟨"\n".intercalate d.details ++ "\n", ?_⟩
    have hlines : (d.withVerbose false).summaryLines ≠ [] := List.cons_ne_nil _ _
    rw [String.intercalate_append_of_ne_nil hlines hdetails, String.append_assoc]

end Diagnostics

/-! ## Analyses -/

namespace Analysis

/-- The analysis, to be summarized verbosely or not. -/
def withVerbose (verbose : Bool) (a : Analysis) : Analysis :=
  { a with diagnostics := a.diagnostics.withVerbose verbose }

variable (verbose : Bool) (a : Analysis)

theorem assign_withVerbose (x : String) (value : Node) :
    (a.withVerbose verbose).assign x value = (a.assign x value).withVerbose verbose := by
  unfold assign
  have hwrite : (a.withVerbose verbose).graph.write global
      ((value.infer (a.withVerbose verbose).sight x).rename x) =
      a.graph.write global ((value.infer a.sight x).rename x) := rfl
  dsimp only
  rw [hwrite]
  rcases a.graph.write global ((value.infer a.sight x).rename x) with ⟨graph, _ | _⟩
  · rfl
  · rfl

theorem call_withVerbose (function : String) (args : List Argument) (line : Int) :
    (a.withVerbose verbose).call function args line =
      (a.call function args line).withVerbose verbose := by
  -- The notes on the arguments are appended to the log, whatever its flag is.
  simp only [call, withVerbose, noteArguments_eq]
  rfl

/-- What a statement does does not depend on the verbosity. -/
theorem step_withVerbose (n : Node) :
    (a.withVerbose verbose).step n = (a.step n).map (withVerbose verbose) := by
  cases n with
  | assign target value line =>
    cases target with
    | «variable» x nameLine => exact congrArg Except.ok (assign_withVerbose verbose a x value)
    | _ => rfl
  | call callee args line =>
    rw [step, step]
    cases callee.staticName? with
    | some function => exact congrArg Except.ok (call_withVerbose verbose a function args line)
    | none => rfl
  | _ => rfl

theorem run_withVerbose (ns : List Node) :
    (a.withVerbose verbose).run ns = ((a.run ns).1.withVerbose verbose, (a.run ns).2) := by
  induction ns generalizing a with
  | nil => rfl
  | cons n ns ih =>
    rw [run, run, step_withVerbose]
    cases a.step n with
    | error e => rfl
    | ok a' => exact ih a'

/-- The warnings of an analysis are about arguments without a value and nothing else. -/
theorem warnings_eq_nil_iff {verbose : Bool} {a : Analysis} {ns : List Node}
    (h : (start verbose).run ns = (a, none)) :
    a.diagnostics.warnings = [] ↔ a.diagnostics.unresolved = [] := by
  rw [diagnostics_run h]
  exact List.map_eq_nil_iff

/-- The scopes of an analysis form a tree that can be dumped. -/
theorem exists_tree_dump {verbose : Bool} {a : Analysis} {ns : List Node}
    (h : (start verbose).run ns = (a, none)) :
    ∃ tree dump, a.tree? = some tree ∧ tree.dump = .ok dump := by
  have hreached : Reached verbose ns a := by
    have hrun : Reached verbose ns ((start verbose).run ns).1 := .run .start ns
    rwa [h] at hrun
  obtain ⟨dump, hdump⟩ := hreached.findings_wellTyped.exists_dump
  exact ⟨a.findings.tree, dump, hreached.shaped.tree?_eq, hdump⟩

end Analysis

/-! ## Outcomes -/

namespace Outcome

/-- An outcome that differs from another by further errors at most. -/
structure Extends (loud quiet : Outcome) : Prop where
  exitCode : loud.exitCode = quiet.exitCode
  output : loud.output = quiet.output
  errors : ∃ more, loud.errors = quiet.errors ++ more

theorem Extends.refl (o : Outcome) : o.Extends o := ⟨rfl, rfl, "", String.append_empty.symm⟩

section

variable (path : Path) (report : String) (d : Diagnostics)

theorem errors_success_quiet :
    (success ⟨path, false⟩ report (d.withVerbose false)).errors =
      if d.warnings = [] then "" else (d.withVerbose false).summary ++ "\n" :=
  if_congr (by simp [Diagnostics.withVerbose]) rfl rfl

theorem errors_success_loud :
    (success ⟨path, true⟩ report (d.withVerbose true)).errors =
      (d.withVerbose true).summary ++ "\n" :=
  if_neg (by simp)

/-- A quiet run that ends well has errors only if there are warnings. -/
theorem errors_success_quiet_eq_empty_iff :
    (success ⟨path, false⟩ report (d.withVerbose false)).errors = "" ↔ d.warnings = [] := by
  rw [errors_success_quiet]
  split_ifs with hwarnings
  · exact iff_of_true rfl hwarnings
  · exact iff_of_false (by simp) hwarnings

theorem extends_success :
    (success ⟨path, true⟩ report (d.withVerbose true)).Extends
      (success ⟨path, false⟩ report (d.withVerbose false)) := by
  refine ⟨rfl, rfl, ?_⟩
  rw [errors_success_quiet, errors_success_loud]
  split_ifs with hwarnings
  · exact ⟨_, String.empty_append.symm⟩
  · exact d.exists_summary_append

end

end Outcome

namespace Platform

variable (p : Platform)

theorem report_of_tree {a : Analysis} {tree : ScopeTree Value} (h : a.tree? = some tree) :
    p.report a =
      if p.fits tree then (tree.report ScopeTree.defaultIndent).mapError .report
      else .error .depth := by
  rw [report, h]

/-- There is a report on a finished analysis exactly if there is room for it and every part of it
can be written. -/
theorem exists_report_iff {verbose : Bool} {ns : List Node} {a : Analysis}
    (h : (Analysis.start verbose).run ns = (a, none)) :
    ∃ tree, a.tree? = some tree ∧
      ((∃ text, p.report a = .ok text) ↔
        p.fits tree = true ∧ ∀ q ∈ tree.outline, q.Writable) := by
  obtain ⟨tree, -, htree, -⟩ := Analysis.exists_tree_dump h
  refine ⟨tree, htree, ?_⟩
  rw [← tree.exists_report_iff ScopeTree.defaultIndent, p.report_of_tree htree]
  cases p.fits tree with
  | false =>
    rw [if_neg Bool.false_ne_true]
    exact iff_of_false (by rintro ⟨_, ⟨⟩⟩) (fun h => absurd h.1 Bool.false_ne_true)
  | true =>
    rw [if_pos rfl]
    cases tree.report ScopeTree.defaultIndent with
    | error e => exact iff_of_false (by rintro ⟨_, ⟨⟩⟩) (by rintro ⟨-, _, ⟨⟩⟩)
    | ok text => exact iff_of_true ⟨text, rfl⟩ ⟨rfl, text, rfl⟩

/-- There is no other reason to be without a report than that there is no room for it or that an
integer has too many digits. -/
theorem report_eq_error {verbose : Bool} {ns : List Node} {a : Analysis}
    (h : (Analysis.start verbose).run ns = (a, none)) {e : RunError}
    (he : p.report a = .error e) : e = .depth ∨ e = .report .longInteger := by
  obtain ⟨tree, dump, htree, hdump⟩ := Analysis.exists_tree_dump h
  rw [p.report_of_tree htree] at he
  split at he
  · cases hreport : tree.report ScopeTree.defaultIndent with
    | ok text =>
      rw [hreport] at he
      cases he
    | error e' =>
      rw [hreport, ScopeTree.report_eq_error_of_dump hdump hreport] at he
      cases he
      exact .inr rfl
  · cases he
    exact .inl rfl

/-- A run on statements that can be analysed prints the report and the summary at the verbosity that
is asked for, or it breaks off. -/
theorem runStatements_of_run {ns : List Node} {a : Analysis}
    (h : (Analysis.start false).run ns = (a, none)) (o : Options) :
    p.runStatements o ns =
      (p.report a).map fun text => .success o text (a.diagnostics.withVerbose o.verbose) := by
  have hrun : (Analysis.start o.verbose).run ns = (a.withVerbose o.verbose, none) := by
    have hsame := Analysis.run_withVerbose o.verbose (.start false) ns
    rwa [h] at hsame
  have hreport : p.report (a.withVerbose o.verbose) = p.report a := rfl
  unfold runStatements
  rw [hrun]
  dsimp only
  rw [hreport]
  cases p.report a with
  | error e => rfl
  | ok text => rfl

theorem extends_runStatements (trace : RunError → String) (path : Path) (ns : List Node) :
    (Outcome.ofRun trace (p.runStatements ⟨path, true⟩ ns)).Extends
      (Outcome.ofRun trace (p.runStatements ⟨path, false⟩ ns)) := by
  rcases hrun : (Analysis.start false).run ns with ⟨a, _ | e⟩
  · rw [p.runStatements_of_run hrun, p.runStatements_of_run hrun]
    cases p.report a with
    | error e => exact .refl _
    | ok text => exact Outcome.extends_success path text a.diagnostics
  · have hloud := Analysis.run_withVerbose true (.start false) ns
    rw [hrun] at hloud
    unfold runStatements
    rw [show (Analysis.start true).run ns = _ from hloud, hrun]
    exact .refl _

theorem outcome_of_statements {o : Options} {entry : Except LookupError FileEntry}
    {ns : List Node} (h : sourceStatements p.parse o.path entry = .ok ns) :
    p.outcome o entry = .ofRun (p.trace entry) (p.runStatements o ns) := by
  unfold outcome runOptions
  rw [h]

theorem extends_outcome (path : Path) (entry : Except LookupError FileEntry) :
    (p.outcome ⟨path, true⟩ entry).Extends (p.outcome ⟨path, false⟩ entry) := by
  unfold outcome runOptions
  dsimp only
  cases sourceStatements p.parse path entry with
  | ok statements => exact p.extends_runStatements _ path statements
  | error e =>
    cases e with
    | lua e => cases e <;> exact .refl _
    | _ => exact .refl _

/-- A run that does not end well prints nothing but errors. -/
theorem output_eq_of_exitCode {o : Options} {entry : Except LookupError FileEntry}
    (h : (p.outcome o entry).exitCode = 1) : (p.outcome o entry).output = "" := by
  unfold outcome runOptions at h ⊢
  split at h
  · unfold runStatements at h ⊢
    split at h
    · rfl
    · next a _ =>
      cases hreport : p.report a with
      | error e => rfl
      | ok text =>
        rw [hreport] at h
        cases h
  all_goals rfl

/-- What a run leaves behind whose analysis comes to its end and which has no report. -/
theorem outcome_of_report_eq_error {path : Path} {entry : Except LookupError FileEntry}
    {ns : List Node} {a : Analysis} (hns : sourceStatements p.parse path entry = .ok ns)
    (hrun : (Analysis.start false).run ns = (a, none)) {e : RunError}
    (he : p.report a = .error e) (verbose : Bool) :
    p.outcome ⟨path, verbose⟩ entry = .failure (p.trace entry e) := by
  rw [p.outcome_of_statements hns, p.runStatements_of_run hrun, he]
  rfl

/-- What a quiet run leaves behind whose analysis comes to its end and which has a report. -/
theorem outcome_of_report_eq_ok {path : Path} {entry : Except LookupError FileEntry}
    {ns : List Node} {a : Analysis} (hns : sourceStatements p.parse path entry = .ok ns)
    (hrun : (Analysis.start false).run ns = (a, none)) {text : String}
    (htext : p.report a = .ok text) :
    let quiet := p.outcome ⟨path, false⟩ entry
    quiet.exitCode = 0 ∧ quiet.output = text ++ "\n" ∧
      (quiet.errors = "" ↔ a.diagnostics.unresolved = []) := by
  rw [p.outcome_of_statements hns, p.runStatements_of_run hrun, htext,
    ← Analysis.warnings_eq_nil_iff hrun]
  exact ⟨rfl, rfl, Outcome.errors_success_quiet_eq_empty_iff _ _ _⟩

end Platform

/-! ## Arguments -/

namespace Options

theorem onlyPath?_verbose_cons (words : List Word) (separated : Option (List String)) :
    onlyPath? (.verbose :: words) separated = onlyPath? words separated := by
  cases words with
  | nil => rcases separated with _ | _ | ⟨_, _ | _⟩ <;> rfl
  | cons word words =>
    unfold onlyPath?
    rw [List.getLast?_cons_cons, List.filterMap_cons]

/-- The flag can be put in front of all arguments. -/
theorem ofArguments?_verbose_cons (args : List String) :
    ofArguments? ("--verbose" :: args) =
      (ofArguments? args).map fun o => { o with verbose := true } := by
  have hflag : "--verbose" ≠ separator := by decide
  have hword : Word.ofString "--verbose" = .verbose := by with_unfolding_all rfl
  unfold ofArguments?
  rw [List.takeWhile_cons_of_pos (by simpa using hflag),
    List.dropWhile_cons_of_pos (by simpa using hflag), List.map_cons, hword]
  simp only [List.any_cons, onlyPath?_verbose_cons, Bool.false_or, Bool.true_or]
  split
  · rfl
  · rw [Option.map_map]
    rfl

end Options

/-! ## Files of one assignment -/

namespace Lua

theorem scanFrom_of_lexeme {line : Nat} {c : Char} {cs : List Char} {s : Scanned (c :: cs).length}
    (hc : c ≠ '-') (hblank : isLuaBlank c = false) (hs : lexeme? (c :: cs) = some s) :
    scanFrom line (c :: cs) = do
      let more ← scanFrom (line + s.breaks) s.rest
      return ⟨s.lexeme, line⟩ :: more := by
  rw [scanFrom]
  · rw [hblank, if_neg Bool.false_ne_true, hs]
  · rintro rest h -
    exact hc h

section

variable {digits : List Char} (hne : digits ≠ []) (h : ∀ c ∈ digits, isHexDigit c = true)
include hne h

theorem hexNumber?_of_digits : hexNumber? digits = some (.int (ofHexDigits digits), []) := by
  have htake : digits.takeWhile isHexDigit = digits := List.takeWhile_eq_self_iff.2 h
  have hdrop : digits.dropWhile isHexDigit = [] := List.dropWhile_eq_nil_iff.2 h
  unfold hexNumber?
  rw [hdrop, htake]
  simp [exponentSpan, hne]

theorem lexeme?_of_digits :
    lexeme? ('0' :: 'x' :: digits) =
      some ⟨.int (ofHexDigits digits), 0, [], Nat.zero_lt_succ _⟩ := by
  have hnumber : number ('0' :: 'x' :: digits) = (.int (ofHexDigits digits), []) := by
    rw [number, if_pos (.inl rfl), hexNumber?_of_digits hne h, Option.getD_some]
  have hstart : startsNumber ('0' :: 'x' :: digits) = true := rfl
  rw [lexeme?, if_neg (by decide), dif_pos hstart]
  simp only [hnumber]

theorem scan_assignment :
    Token.scan (String.ofList ('x' :: '=' :: '0' :: 'x' :: digits)) =
      .ok [⟨.name "x", 1⟩, ⟨.symbol "=", 1⟩, ⟨.int (ofHexDigits digits), 1⟩] := by
  -- The first two lexemes end before the digits, so they can be read without knowing these.
  have hname : lexeme? ('x' :: '=' :: '0' :: 'x' :: digits) =
      some ⟨.name "x", 0, '=' :: '0' :: 'x' :: digits, Nat.lt_succ_self _⟩ := by
    with_unfolding_all rfl
  have hequals : lexeme? ('=' :: '0' :: 'x' :: digits) =
      some ⟨.symbol "=", 0, '0' :: 'x' :: digits, Nat.lt_succ_self _⟩ := by
    with_unfolding_all rfl
  have hskip : skipFirstLine ('x' :: '=' :: '0' :: 'x' :: digits) =
      'x' :: '=' :: '0' :: 'x' :: digits := rfl
  rw [Token.scan, String.toList_ofList, hskip, scanFrom_of_lexeme (by decide) (by decide) hname,
    scanFrom_of_lexeme (by decide) (by decide) hequals,
    scanFrom_of_lexeme (by decide) (by decide) (lexeme?_of_digits hne h), scanFrom]
  rfl

theorem statements?_assignment :
    statements? (String.ofList ('x' :: '=' :: '0' :: 'x' :: digits)) =
      .ok [.assign (.variable "x" 1) (.int (ofHexDigits digits) 1) 1] := by
  rw [statements?, parse, scan_assignment hne h]
  with_unfolding_all rfl

end

/-- A one and zeros are a power. -/
theorem ofHexDigits_one_zeros (k : Nat) :
    ofHexDigits ('1' :: List.replicate k '0') = 16 ^ k := by
  have hshift (n : Nat) :
      (List.replicate k '0').foldl (fun n c => n * 16 + hexValue c) n = n * 16 ^ k := by
    induction k generalizing n with
    | zero => rw [List.replicate_zero, List.foldl_nil, pow_zero, mul_one]
    | succ k ih =>
      have hzero : hexValue '0' = 0 := by decide
      rw [List.replicate_succ, List.foldl_cons, ih, hzero, add_zero, mul_assoc, pow_succ']
  have hone : 0 * 16 + hexValue '1' = 1 := by decide
  rw [ofHexDigits, List.foldl_cons, hone, hshift, one_mul]

end Lua

/-- Six decimal digits are less than five hexadecimal ones. -/
theorem Decimal.tenPow_le_of_le {n k : Nat} (h : n ≤ 6 * k) : tenPow n ≤ 16 ^ (5 * k) := by
  calc
    tenPow n ≤ 10 ^ (6 * k) := Nat.pow_le_pow_right (by decide) h
    _ = (10 ^ 6) ^ k := pow_mul 10 6 k
    _ ≤ (16 ^ 5) ^ k := Nat.pow_le_pow_left (by decide) k
    _ = 16 ^ (5 * k) := (pow_mul 16 5 k).symm

theorem normalizeBreaks_of_notMem {cs : List Char} (h : '\r' ∉ cs) : normalizeBreaks cs = cs := by
  induction cs with
  | nil => rfl
  | cons c cs ih =>
    rw [List.mem_cons, not_or] at h
    rw [normalizeBreaks, ih h.2]
    · exact fun _ hc => absurd hc.symm h.1
    · exact fun hc => absurd hc.symm h.1

theorem sourceStatements_of_text (path : Path) {text : String} {ns : List Node}
    (hbreaks : '\r' ∉ text.toList) (hns : Lua.statements? text = .ok ns) :
    sourceStatements Lua.parse path (.ok (.file text.toUTF8)) = .ok ns := by
  have hread : String.fromUTF8? text.toUTF8 = some text := dif_pos text.isValidUTF8
  obtain ⟨trees, htrees, hlower⟩ := bind_eq_ok_iff.1 hns
  unfold sourceStatements
  dsimp only
  rw [hread]
  dsimp only
  rw [normalizeBreaks_of_notMem hbreaks, String.ofList_toList, htrees]
  dsimp only
  rw [hlower]
  rfl

/-- A file in which a variable is assigned a hexadecimal number. -/
theorem sourceStatements_assignment (path : Path) {digits : List Char} (hne : digits ≠ [])
    (h : ∀ c ∈ digits, Lua.isHexDigit c = true) :
    sourceStatements Lua.parse path
        (.ok (.file (String.ofList ('x' :: '=' :: '0' :: 'x' :: digits)).toUTF8)) =
      .ok [.assign (.variable "x" 1) (.int (Lua.ofHexDigits digits) 1) 1] := by
  refine sourceStatements_of_text path ?_ (Lua.statements?_assignment hne h)
  have hdigits : '\r' ∉ digits := fun hmem => absurd (h _ hmem) (by decide)
  rw [String.toList_ofList]
  simp [hdigits]

theorem ofArguments?_file : Options.ofArguments? ["a"] = some ⟨⟨"", ["a"]⟩, false⟩ := by
  have hparts : "a".splitOn "/" = ["a"] := by cbv
  have hpath : Path.ofString "a" = ⟨"", ["a"]⟩ := by
    rw [Path.ofString, hparts]
    rfl
  rw [← hpath]
  with_unfolding_all rfl

theorem find_file (contents : ByteArray) :
    FileTree.find ⟨[(["a"], .file contents)]⟩ ⟨"", ["a"]⟩ = .ok (.file contents) := rfl

/-- An integer of too many digits can be assigned, but there is no report on it. -/
theorem Platform.report_long_integer (p : Platform) {n : Nat}
    (hn : Decimal.tenPow Decimal.maxDigits ≤ n) {a : Analysis}
    (h : (Analysis.start false).run [.assign (.variable "x" 1) (.int n 1) 1] = (a, none)) :
    ∃ e, p.report a = .error e := by
  obtain ⟨tree, htree, hreport⟩ := p.exists_report_iff h
  cases hresult : p.report a with
  | error e => exact ⟨e, rfl⟩
  | ok text =>
    obtain ⟨-, hwritable⟩ := hreport.1 ⟨text, hresult⟩
    cases h
    cases htree
    have hvalues := (List.forall_mem_singleton.1 hwritable).values
    cases (List.forall_mem_singleton.1 (List.forall_mem_cons.1 hvalues).2).payload with
    | int hshort => exact absurd hshort (not_shortInteger hn)

/-! ## Verbose runs -/

/-- Take a list of arguments that is accepted and does not ask for verbosity. The flag can be put in
front of it. With whatever arguments one asks for verbosity on the same path, the exit code and the
output are the same and the errors only go on, whatever the path names and on every platform. If the
exit code is 1, then nothing is printed as output. If the analysis comes to its end, either there is
a report, and the quiet run has errors only if an argument without a value was noted, or there is
none, since there is no room for it or an integer has too many digits, and both runs break off
alike. -/
theorem verbose_run_extends {args : List String} {path : Path}
    (hargs : Options.ofArguments? args = some ⟨path, false⟩) (p : Platform) (files : FileTree) :
    Options.ofArguments? ("--verbose" :: args) = some ⟨path, true⟩ ∧
    ∀ verboseArgs, Options.ofArguments? verboseArgs = some ⟨path, true⟩ →
      let quiet := p.run files args
      let loud := p.run files verboseArgs
      loud.Extends quiet ∧ (quiet.exitCode = 1 → quiet.output = "") ∧
      ∀ ns a, sourceStatements p.parse path (files.find path) = .ok ns →
        (Analysis.start false).run ns = (a, none) →
        (∃ tree, a.tree? = some tree ∧
          ((∃ text, p.report a = .ok text) ↔
            p.fits tree = true ∧ ∀ q ∈ tree.outline, q.Writable)) ∧
        (∀ text, p.report a = .ok text → quiet.exitCode = 0 ∧ quiet.output = text ++ "\n" ∧
          (quiet.errors = "" ↔ a.diagnostics.unresolved = [])) ∧
        ∀ e, p.report a = .error e → (e = .depth ∨ e = .report .longInteger) ∧
          loud = quiet ∧ quiet = .failure (p.trace (files.find path) e) := by
  refine ⟨by rw [Options.ofArguments?_verbose_cons, hargs]; rfl, fun verboseArgs hloudArgs => ?_⟩
  have hquiet : p.run files args = p.outcome ⟨path, false⟩ (files.find path) := by
    rw [Platform.run, hargs]
  have hloud : p.run files verboseArgs = p.outcome ⟨path, true⟩ (files.find path) := by
    rw [Platform.run, hloudArgs]
  rw [hquiet, hloud]
  refine ⟨p.extends_outcome path _, p.output_eq_of_exitCode, fun ns a hns hrun => ?_⟩
  refine ⟨p.exists_report_iff hrun, fun text => p.outcome_of_report_eq_ok hns hrun, ?_⟩
  intro e he
  have hbroken := p.outcome_of_report_eq_error hns hrun he
  exact ⟨p.report_eq_error hrun he, (hbroken true).trans (hbroken false).symm, hbroken false⟩

/-- A call whose argument has no value, and a call of a function that is not named. -/
theorem verbose_run_extends_of_calls :
    let files : FileTree := ⟨[(["a"], .file "f(x) t.g()".toUTF8)]⟩
    let quiet := Platform.standard.run files ["a"]
    let loud := Platform.standard.run files ["--verbose", "a"]
    loud.Extends quiet ∧ quiet.exitCode = 0 ∧ quiet.errors ≠ "" := by
  intro files quiet loud
  let ns : List Node := [.call (.name "f" 1) [⟨.variable "x" 1, none, 1⟩] 1,
    .call (.operation "Index" [.variable "t" 1, .name "g" 1] 1) [] 1]
  let a := ((Analysis.start false).run ns).1
  have hns : sourceStatements Lua.parse ⟨"", ["a"]⟩ (files.find ⟨"", ["a"]⟩) = .ok ns := by
    rw [find_file]
    refine sourceStatements_of_text _ (by decide) ?_
    with_unfolding_all rfl
  obtain ⟨hloudArgs, hruns⟩ := verbose_run_extends ofArguments?_file .standard files
  obtain ⟨hextends, -, hanalysed⟩ := hruns _ hloudArgs
  obtain ⟨⟨tree, htree, hreport⟩, hended, -⟩ := hanalysed ns a hns rfl
  let unresolved := Value.unresolved "#0" .unknown 1
  have hfound : a.tree? = some (.mk "global" [("_GET", [Analysis.requestInput])] []
      [("f", .mk "f" [] [] [] [(1, .mk "f" [] [("#0", unresolved)] [] [])])] []) := by
    with_unfolding_all rfl
  have hwritable : ∀ q ∈ tree.outline, q.Writable := by
    cases hfound.symm.trans htree
    have hinput : Analysis.requestInput.Writable :=
      ⟨.array (List.forall_mem_nil _), ⟨_, rfl⟩, shortInteger_of_lt (by decide)⟩
    have hparameter : unresolved.Writable :=
      ⟨.missing, ⟨_, rfl⟩, shortInteger_of_lt (by decide)⟩
    refine List.forall_mem_cons.2 ⟨⟨trivial, List.forall_mem_singleton.2 hinput⟩,
      List.forall_mem_cons.2 ⟨⟨trivial, List.forall_mem_nil _⟩,
        List.forall_mem_singleton.2 ⟨?_, ?_⟩⟩⟩
    · exact shortInteger_of_lt (by decide)
    · exact List.forall_mem_singleton.2 hparameter
  obtain ⟨text, htext⟩ := hreport.2 ⟨rfl, hwritable⟩
  obtain ⟨hexit, -, herrors⟩ := hended text htext
  have hnoted : a.diagnostics.unresolved = [⟨"f", "#0", 1⟩] := by with_unfolding_all rfl
  rw [hnoted] at herrors
  exact ⟨hextends, hexit, fun hempty => List.cons_ne_nil _ _ (herrors.1 hempty)⟩

/-- The analysis of this program comes to its end without a note, but the run fails, since there is
no report. -/
theorem errors_without_unresolved_argument :
    let digits := '1' :: List.replicate (5 * 720) '0'
    let text := String.ofList ('x' :: '=' :: '0' :: 'x' :: digits)
    let files : FileTree := ⟨[(["a"], .file text.toUTF8)]⟩
    ∃ path ns a, Options.ofArguments? ["a"] = some ⟨path, false⟩ ∧
      sourceStatements Lua.parse path (files.find path) = .ok ns ∧
      (Analysis.start false).run ns = (a, none) ∧ a.diagnostics.unresolved = [] ∧
      (Platform.standard.run files ["a"]).exitCode = 1 ∧
      (Platform.standard.run files ["a"]).errors ≠ "" := by
  intro digits text files
  have hne : digits ≠ [] := List.cons_ne_nil _ _
  have hdigits : ∀ c ∈ digits, Lua.isHexDigit c = true := by
    refine List.forall_mem_cons.2 ⟨by decide, fun c hc => ?_⟩
    rw [List.eq_of_mem_replicate hc]
    decide
  have hlong : Decimal.tenPow Decimal.maxDigits ≤ Lua.ofHexDigits digits := by
    -- Only exponents are compared: neither power is evaluated.
    rw [Lua.ofHexDigits_one_zeros]
    exact Decimal.tenPow_le_of_le (by decide)
  have hns := sourceStatements_assignment ⟨"", ["a"]⟩ hne hdigits
  rw [← find_file] at hns
  obtain ⟨e, he⟩ := Platform.standard.report_long_integer hlong rfl
  have houtcome := Platform.standard.outcome_of_report_eq_error hns rfl he false
  have hrun : Platform.standard.run files ["a"] =
      .failure (Platform.standard.trace (files.find ⟨"", ["a"]⟩) e) := by
    rw [Platform.run, ofArguments?_file]
    exact houtcome
  refine ⟨_, _, _, ofArguments?_file, hns, rfl, rfl, ?_⟩
  rw [hrun]
  exact ⟨rfl, by simp [Outcome.failure, Platform.standard]⟩

end ValueTrace
