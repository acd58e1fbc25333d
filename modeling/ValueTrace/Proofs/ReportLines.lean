import ValueTrace.Proofs.PayloadText
import ValueTrace.Scope.Report

/-!
# Lines of reports

A report has one line for each scope, for each group of entries that is there, and for each entry,
in the order of the tree (`ScopeTree.lines_eq_mapM`). Texts inside payloads may hold line breaks,
but what is written of them holds none (`Payload.oneLine_shown`), so that where names and
descriptors hold none either, the lines are recovered by cutting the report at its line breaks.
There is no report at all if a value in the tree has no text (`Value.exists_shown_iff`) or the line
of a call has too many digits. Rows are stated for entries of any type, given how these are written.
-/

namespace ValueTrace

/-! ## Texts of one line -/

/-- A text without a line break. -/
def OneLine (s : String) : Prop := '\n' ∉ s.toList

instance (s : String) : Decidable (OneLine s) := inferInstanceAs (Decidable ('\n' ∉ s.toList))

/-- The lines of a text. -/
def textLines (s : String) : List String := (s.toList.splitOn '\n').map String.ofList

theorem OneLine.append {s t : String} (hs : OneLine s) (ht : OneLine t) : OneLine (s ++ t) := by
  rw [OneLine, String.toList_append, List.mem_append, not_or]
  exact ⟨hs, ht⟩

theorem textLines_intercalate {lines : List String} (hlines : ∀ line ∈ lines, OneLine line)
    (hne : lines ≠ []) : textLines ("\n".intercalate lines) = lines := by
  have hsplit : List.splitOn '\n' (['\n'].intercalate (lines.map String.toList)) =
      lines.map String.toList := by
    refine List.splitOn_intercalate _ ?_ (mt List.map_eq_nil_iff.1 hne)
    rintro _ hline
    obtain ⟨line, hmem, rfl⟩ := List.mem_map.1 hline
    exact hlines line hmem
  have hnewline : "\n".toList = ['\n'] := rfl
  rw [textLines, String.toList_intercalate, hnewline, hsplit, List.map_map]
  simp

namespace Decimal

theorem newline_notMem_toDigits (n : Nat) : '\n' ∉ Nat.toDigits 10 n := by
  intro h
  have hdigit := Nat.isDigit_of_mem_toDigits (by decide) (by decide) h
  exact absurd hdigit (by decide)

section

variable {digits : List Char} (h : '\n' ∉ digits) (e : Int)
include h

theorem newline_notMem_positional : '\n' ∉ positional digits e := by
  have htake (n : Nat) : '\n' ∉ digits.take n := mt List.mem_of_mem_take h
  have hdrop (n : Nat) : '\n' ∉ digits.drop n := mt List.mem_of_mem_drop h
  simp only [positional]
  split
  · simp [h]
  · split <;> simp [htake, hdrop]

theorem newline_notMem_scientific : '\n' ∉ scientific digits e := by
  have htake : '\n' ∉ digits.take 1 := mt List.mem_of_mem_take h
  have htail : '\n' ∉ digits.tail := mt List.mem_of_mem_tail h
  simp only [scientific]
  split <;> split <;> simp [newline_notMem_toDigits, htake, htail]

end

theorem newline_notMem_chars (x : Scaled) : '\n' ∉ x.chars := by
  have hdigits : '\n' ∉ ((Nat.toDigits 10 x.digits).reverse.dropWhile (· == '0')).reverse := by
    rw [List.mem_reverse]
    exact fun h => newline_notMem_toDigits x.digits
      (List.mem_reverse.1 ((List.dropWhile_sublist _).mem h))
  simp only [Scaled.chars]
  split
  · exact newline_notMem_positional hdigits _
  · exact newline_notMem_scientific hdigits _

theorem newline_notMem_magnitude (biased fraction : Nat) : '\n' ∉ magnitude biased fraction := by
  unfold magnitude
  split
  · split <;> decide
  · split
    · split
      · decide
      · exact newline_notMem_chars _
    · exact newline_notMem_chars _

theorem oneLine_text (x : Float) : OneLine (text x) := by
  unfold OneLine text
  rw [String.toList_ofList]
  split
  · rw [List.mem_cons, not_or]
    exact ⟨by decide, newline_notMem_magnitude _ _⟩
  · exact newline_notMem_magnitude _ _

end Decimal

/-! ## Values that have a text -/

theorem exists_integerText_iff {n : Int} : (∃ s, integerText n = .ok s) ↔ ShortInteger n :=
  ⟨fun ⟨_, hs⟩ => (integerText_eq_ok_iff.1 hs).1, fun h => ⟨_, integerText_eq_ok_iff.2 ⟨h, rfl⟩⟩⟩

theorem shortInteger_of_lt {n : Int} (h : n.natAbs < 10) : ShortInteger n := by
  have hpow {k : Nat} (hk : k ≠ 0) : 10 ≤ Decimal.tenPow k := Nat.le_self_pow hk 10
  exact h.trans_le (hpow (by decide))

theorem not_shortInteger {n : Nat} (h : Decimal.tenPow Decimal.maxDigits ≤ n) :
    ¬ShortInteger n := by
  rw [ShortInteger, Int.natAbs_natCast]
  exact Nat.not_lt.2 h

theorem oneLine_integerText {n : Int} {s : String} (h : integerText n = .ok s) : OneLine s := by
  obtain ⟨-, rfl⟩ := integerText_eq_ok_iff.1 h
  intro hmem
  have hnewline : isNumeral '\n' = true := isNumeral_of_mem_repr hmem
  exact absurd hnewline (by decide)

namespace Payload

@[elab_as_elim]
theorem induct {P : Payload → Prop} (missing : P .missing) (int : ∀ n, P (.int n))
    (float : ∀ x, P (.float x)) (text : ∀ s, P (.text s))
    (array : ∀ vs, (∀ v ∈ vs, P v.payload) → P (.array vs)) (p : Payload) : P p :=
  @Payload.rec P (fun v => P v.payload) (fun vs => ∀ v ∈ vs, P v.payload) missing int float text
    array (fun _ _ _ _ h => h) (fun _ h => absurd h List.not_mem_nil)
    (fun _ _ hv hvs => List.forall_mem_cons.2 ⟨hv, hvs⟩) p

/-- A payload in which no integer has too many digits. -/
inductive Writable : Payload → Prop
  | missing : Writable .missing
  | int {n : Int} (h : ShortInteger n) : Writable (.int n)
  | float (x : Float) : Writable (.float x)
  | text (s : String) : Writable (.text s)
  | array {vs : List Value} (h : ∀ v ∈ vs, Writable v.payload) : Writable (.array vs)

theorem exists_shown_iff (p : Payload) : (∃ s, p.shown = .ok s) ↔ p.Writable := by
  induction p using Payload.induct with
  | missing => exact ⟨fun _ => .missing, fun _ => ⟨_, by rw [shown]⟩⟩
  | float x => exact ⟨fun _ => .float x, fun _ => ⟨_, by rw [shown]⟩⟩
  | text s => exact ⟨fun _ => .text s, fun _ => ⟨_, by rw [shown]⟩⟩
  | int n =>
    rw [shown, exists_integerText_iff]
    constructor
    · exact .int
    · intro hn
      cases hn with
      | int h => exact h
  | array vs ih =>
    have helements : (∃ texts, shownElements vs = .ok texts) ↔ ∀ v ∈ vs, v.payload.Writable := by
      rw [shownElements_eq_mapM, exists_mapM_eq_ok_iff]
      exact forall₂_congr ih
    constructor
    · rintro ⟨s, hs⟩
      obtain ⟨texts, htexts, -⟩ := shown_array_eq_ok_iff.1 hs
      exact .array (helements.1 ⟨texts, htexts⟩)
    · intro hvs
      cases hvs with
      | array h =>
        obtain ⟨texts, htexts⟩ := helements.2 h
        exact ⟨_, shown_array_eq_ok_iff.2 ⟨texts, htexts, rfl⟩⟩

theorem newline_notMem_closing {texts : List String} (h : ∀ text ∈ texts, OneLine text) :
    '\n' ∉ closing texts := by
  induction texts with
  | nil => decide
  | cons text texts ih =>
    rw [List.forall_mem_cons] at h
    simp only [closing, List.mem_cons, List.mem_append, not_or]
    exact ⟨by decide, by decide, h.1, ih h.2⟩

theorem newline_notMem_elementChars {texts : List String} (h : ∀ text ∈ texts, OneLine text) :
    '\n' ∉ elementChars texts := by
  cases texts with
  | nil => decide
  | cons text texts =>
    rw [List.forall_mem_cons] at h
    rw [elementChars, List.mem_append, not_or]
    exact ⟨h.1, newline_notMem_closing h.2⟩

/-- The text of a payload has no line break in it, whatever the texts inside it are. -/
theorem oneLine_shown {p : Payload} {s : String} (h : p.shown = .ok s) : OneLine s := by
  induction p using Payload.induct generalizing s with
  | missing =>
    rw [shown] at h
    cases h
    decide
  | int n =>
    rw [shown] at h
    exact oneLine_integerText h
  | float x =>
    rw [shown] at h
    cases h
    exact Decimal.oneLine_text x
  | text t =>
    rw [shown] at h
    cases h
    rw [OneLine, Text.quoted, String.toList_ofList]
    exact Text.newline_notMem_quoteChars t.toList
  | array vs ih =>
    obtain ⟨texts, htexts, rfl⟩ := shown_array_eq_ok_iff.1 h
    rw [shownElements_eq_mapM] at htexts
    rw [OneLine, toList_bracketed, List.mem_cons, not_or]
    refine ⟨by decide, newline_notMem_elementChars ?_⟩
    exact forall_of_mapM_eq_ok htexts fun v hv text htext => ih v hv htext

end Payload

namespace Value

/-- A value that has a text: its payload has one, its type has a descriptor, and its line has not
too many digits. -/
structure Writable (v : Value) : Prop where
  payload : v.payload.Writable
  type : ∃ d, v.type.descriptor = .ok d
  line : ShortInteger v.line

theorem typeText_eq_ok_iff {t : Ty} {s : String} : typeText t = .ok s ↔ t.descriptor = .ok s := by
  unfold typeText
  cases t.descriptor with
  | error e => constructor <;> intro h <;> cases h
  | ok d => rw [Except.mapError, Except.ok.injEq, Except.ok.injEq]

theorem shown_eq_ok_iff {v : Value} {s : String} :
    v.shown = .ok s ↔ ∃ payload type line, v.payload.shown = .ok payload ∧
      v.type.descriptor = .ok type ∧ integerText v.line = .ok line ∧
      s = payload ++ ": " ++ type ++ " @" ++ line := by
  rw [shown, bind_eq_ok_iff]
  constructor
  · rintro ⟨payload, hpayload, h⟩
    obtain ⟨type, htype, h⟩ := bind_eq_ok_iff.1 h
    obtain ⟨line, hline, h⟩ := bind_eq_ok_iff.1 h
    cases h
    exact ⟨payload, type, line, hpayload, typeText_eq_ok_iff.1 htype, hline, rfl⟩
  · rintro ⟨payload, type, line, hpayload, htype, hline, rfl⟩
    exact ⟨payload, hpayload, by rw [typeText_eq_ok_iff.2 htype, hline]; rfl⟩

theorem exists_shown_iff (v : Value) : (∃ s, v.shown = .ok s) ↔ v.Writable := by
  constructor
  · rintro ⟨s, hs⟩
    obtain ⟨payload, type, line, hpayload, htype, hline, -⟩ := shown_eq_ok_iff.1 hs
    exact ⟨v.payload.exists_shown_iff.1 ⟨payload, hpayload⟩, ⟨type, htype⟩,
      exists_integerText_iff.1 ⟨line, hline⟩⟩
  · rintro ⟨hpayload, ⟨type, htype⟩, hline⟩
    obtain ⟨payload, hpayload⟩ := v.payload.exists_shown_iff.2 hpayload
    obtain ⟨line, hline⟩ := exists_integerText_iff.2 hline
    exact ⟨_, shown_eq_ok_iff.2 ⟨payload, type, line, hpayload, htype, hline, rfl⟩⟩

theorem oneLine_shown {v : Value} {s : String} (hs : v.shown = .ok s)
    (hd : ∀ d, v.type.descriptor = .ok d → OneLine d) : OneLine s := by
  obtain ⟨payload, type, line, hpayload, htype, hline, rfl⟩ := shown_eq_ok_iff.1 hs
  have hfirst : OneLine (payload ++ ": ") := (Payload.oneLine_shown hpayload).append (by decide)
  have htyped : OneLine (payload ++ ": " ++ type ++ " @") :=
    (hfirst.append (hd type htype)).append (by decide)
  exact htyped.append (oneLine_integerText hline)

end Value

/-! ## Rows of a report -/

namespace ScopeTree

theorem oneLine_pad {indent : String} (h : OneLine indent) (depth : Nat) :
    OneLine (pad indent depth) := by
  rw [OneLine, pad, String.toList_join, List.mem_flatMap]
  rintro ⟨s, hs, hnewline⟩
  rw [List.eq_of_mem_replicate hs] at hnewline
  exact h hnewline

/-- What a scope is called in a report. -/
inductive Title where
  | scope (name : String)
  | function (name : String)
  | call (line : Int)

namespace Title

def text : Title → Except TextError String
  | scope name => return "scope " ++ name
  | function name => return "function " ++ name
  | call line => do
    return "specialized at line " ++ (← integerText line)

def name? : Title → Option String
  | scope name | function name => some name
  | call _ => none

/-- A title that can be written. -/
def Writable : Title → Prop
  | scope _ | function _ => True
  | call line => ShortInteger line

theorem exists_text_iff (title : Title) : (∃ s, title.text = .ok s) ↔ title.Writable := by
  cases title with
  | scope | function => exact ⟨fun _ => trivial, fun _ => ⟨_, rfl⟩⟩
  | call line =>
    rw [Writable, ← exists_integerText_iff]
    exact exists_bind_pure_eq_ok_iff

theorem oneLine_text {title : Title} (h : ∀ name ∈ title.name?, OneLine name) {s : String}
    (hs : title.text = .ok s) : OneLine s := by
  cases title with
  | scope name =>
    cases hs
    exact OneLine.append (by decide) (h name rfl)
  | function name =>
    cases hs
    exact OneLine.append (by decide) (h name rfl)
  | call line =>
    obtain ⟨place, hplace, hs⟩ := bind_eq_ok_iff.1 hs
    cases hs
    exact OneLine.append (by decide) (oneLine_integerText hplace)

end Title

section

variable {α : Type}

/-- What one line of a report tells: that there is a scope, that a group of entries follows, or an
entry. The depth is that of the scope. -/
inductive Row (α : Type) where
  | scope (depth : Nat) (title : Title)
  | heading (depth : Nat) (text : String)
  | entry (depth : Nat) (name : String) (content : α)

/-- How a row is written, if `shown` is how the content of an entry is. -/
def Row.line (shown : α → Except TextError String) (indent : String) :
    Row α → Except TextError String
  | scope depth title => do
    return pad indent depth ++ (← title.text)
  | heading depth text => return pad indent (depth + 1) ++ text
  | entry depth name content => do
    return pad indent (depth + 2) ++ name ++ " = " ++ (← shown content)

/-- The row over a group of entries, if there is a group. -/
def headingRows {β : Type} (depth : Nat) (text : String) (group : List β) : List (Row α) :=
  if group.isEmpty then [] else [.heading depth text]

def entryRows (depth : Nat) (entries : List (String × α)) : List (Row α) :=
  entries.map fun (x, content) => .entry depth x content

/-- The part of a report on one scope, without the scopes below it. -/
structure Paragraph (α : Type) where
  depth : Nat
  title : Title
  histories : List (String × List α)
  parameters : List (String × α)

namespace Paragraph

/-- The entries of all histories. -/
def writes (p : Paragraph α) : List (String × α) :=
  p.histories.flatMap fun (x, contents) => contents.map fun content => (x, content)

def names (p : Paragraph α) : List String :=
  p.title.name?.toList ++ p.histories.map Prod.fst ++ p.parameters.map Prod.fst

def contents (p : Paragraph α) : List α := (p.writes ++ p.parameters).map Prod.snd

/-- The rows of a paragraph. -/
def rows (p : Paragraph α) : List (Row α) :=
  .scope p.depth p.title ::
    (headingRows p.depth "variables:" p.histories ++ entryRows p.depth p.writes ++
      headingRows p.depth "parameters:" p.parameters ++ entryRows p.depth p.parameters)

/-- A paragraph without line breaks in names or descriptors. -/
structure Plain (p : Paragraph Value) : Prop where
  names : ∀ x ∈ p.names, OneLine x
  descriptors : ∀ v ∈ p.contents, ∀ d, v.type.descriptor = .ok d → OneLine d

/-- A paragraph whose title and values can be written. -/
structure Writable (p : Paragraph Value) : Prop where
  title : p.title.Writable
  values : ∀ v ∈ p.contents, v.Writable

end Paragraph

mutual
/-- The paragraphs on a scope and on everything below it, in the order of the tree. -/
def paragraphs (depth : Nat) (title : Title) : ScopeTree α → List (Paragraph α)
  | mk _ histories parameters functions calls =>
    ⟨depth, title, histories, parameters⟩ ::
      (functionParagraphs (depth + 1) functions ++ callParagraphs (depth + 1) calls)
/-- The paragraphs on the functions of a scope. -/
def functionParagraphs (depth : Nat) : List (String × ScopeTree α) → List (Paragraph α)
  | [] => []
  | (name, tree) :: rest =>
    paragraphs depth (.function name) tree ++ functionParagraphs depth rest
/-- The paragraphs on the calls of a scope. -/
def callParagraphs (depth : Nat) : List (Int × ScopeTree α) → List (Paragraph α)
  | [] => []
  | (line, tree) :: rest => paragraphs depth (.call line) tree ++ callParagraphs depth rest
end

/-- The paragraphs of the report on a tree. -/
def outline (tree : ScopeTree α) : List (Paragraph α) := tree.paragraphs 0 (.scope tree.name)

/-- The rows of the report on a tree. -/
def rows (tree : ScopeTree α) : List (Row α) := tree.outline.flatMap Paragraph.rows

theorem rows_ne_nil (tree : ScopeTree α) : tree.rows ≠ [] := by
  cases tree
  exact List.cons_ne_nil _ _

theorem mapM_headingRows {β : Type} (shown : α → Except TextError String) (indent : String)
    (depth : Nat) (text : String) (group : List β) :
    (headingRows depth text group).mapM (Row.line shown indent) =
      pure (heading indent (depth + 1) text group) := by
  cases group with
  | nil => rfl
  | cons => simp [headingRows, heading, Row.line]

namespace Paragraph

theorem mem_names_of_mem_entries {p : Paragraph α} {e : String × α}
    (h : e ∈ p.writes ++ p.parameters) : e.1 ∈ p.names := by
  rw [names, List.mem_append, List.mem_append]
  rcases List.mem_append.1 h with h | h
  · obtain ⟨history, hhistory, h⟩ := List.mem_flatMap.1 h
    obtain ⟨content, -, rfl⟩ := List.mem_map.1 h
    exact .inl (.inr (List.mem_map_of_mem hhistory))
  · exact .inr (List.mem_map_of_mem h)

/-- The rows of a paragraph are its title, its headings and its entries. -/
theorem forall_mem_rows_iff {p : Paragraph α} {P : Row α → Prop}
    (hheading : ∀ text ∈ ["variables:", "parameters:"], P (.heading p.depth text)) :
    (∀ row ∈ p.rows, P row) ↔
      P (.scope p.depth p.title) ∧
        ∀ e ∈ p.writes ++ p.parameters, P (.entry p.depth e.1 e.2) := by
  have hgroup {β : Type} (group : List β) {text : String} (h : P (.heading p.depth text)) :
      ∀ row ∈ headingRows p.depth text group, P row := by
    unfold headingRows
    split
    · exact fun _ hrow => absurd hrow List.not_mem_nil
    · exact List.forall_mem_singleton.2 h
  obtain ⟨hvariables, hparameters⟩ := List.forall_mem_cons.1 hheading
  rw [List.forall_mem_singleton] at hparameters
  rw [rows, List.forall_mem_cons, List.forall_mem_append, List.forall_mem_append,
    List.forall_mem_append, List.forall_mem_append, entryRows, entryRows, List.forall_mem_map,
    List.forall_mem_map]
  refine and_congr_right fun _ => ?_
  constructor
  · rintro ⟨⟨⟨-, hwrites⟩, -⟩, hparameterRows⟩
    exact ⟨hwrites, hparameterRows⟩
  · rintro ⟨hwrites, hparameterRows⟩
    exact ⟨⟨⟨hgroup _ hvariables, hwrites⟩, hgroup _ hparameters⟩, hparameterRows⟩

/-- A paragraph can be written exactly if its title and all contents in it can. -/
theorem exists_line_iff (p : Paragraph α) (shown : α → Except TextError String)
    (indent : String) :
    (∀ row ∈ p.rows, ∃ line, row.line shown indent = .ok line) ↔
      p.title.Writable ∧ ∀ content ∈ p.contents, ∃ s, shown content = .ok s := by
  rw [forall_mem_rows_iff fun _ _ => ⟨_, rfl⟩, contents, List.forall_mem_map,
    ← Title.exists_text_iff]
  exact and_congr exists_bind_pure_eq_ok_iff
    (forall₂_congr fun _ _ => exists_bind_pure_eq_ok_iff)

/-- No row takes more than one line. -/
theorem Plain.oneLine {p : Paragraph Value} (hp : p.Plain) {indent : String}
    (hindent : OneLine indent) :
    ∀ row ∈ p.rows, ∀ line, row.line Value.shown indent = .ok line → OneLine line := by
  have hpad := oneLine_pad hindent
  refine (forall_mem_rows_iff ?_).2 ⟨?_, ?_⟩
  · refine List.forall_mem_cons.2 ⟨?_, List.forall_mem_singleton.2 ?_⟩ <;> rintro _ ⟨⟩
    · exact (hpad _).append (by decide)
    · exact (hpad _).append (by decide)
  · intro line hline
    obtain ⟨s, hs, hline⟩ := bind_eq_ok_iff.1 hline
    cases hline
    refine (hpad _).append (Title.oneLine_text (fun name hname => hp.names name ?_) hs)
    exact List.mem_append_left _ (List.mem_append_left _ (Option.mem_toList.2 hname))
  · intro e he line hline
    obtain ⟨s, hs, hline⟩ := bind_eq_ok_iff.1 hline
    cases hline
    have hname := hp.names e.1 (mem_names_of_mem_entries he)
    have hshown := Value.oneLine_shown hs (hp.descriptors e.2 (List.mem_map_of_mem he))
    exact (((hpad _).append hname).append (by decide)).append hshown

end Paragraph

end

theorem entryLines_eq_mapM (indent : String) (depth : Nat) (entries : List (String × Value)) :
    entryLines indent (depth + 2) entries =
      (entryRows depth entries).mapM (Row.line Value.shown indent) := by
  induction entries with
  | nil => rfl
  | cons e entries ih =>
    obtain ⟨x, v⟩ := e
    have hcons : entryRows depth ((x, v) :: entries) =
        .entry depth x v :: entryRows depth entries := rfl
    rw [entryLines, ih, hcons, List.mapM_cons]
    rfl

variable (indent : String)

mutual
/-- The lines on a tree are those of its rows. -/
theorem lines_eq_mapM (depth : Nat) (title : Title) (tree : ScopeTree Value) :
    (do tree.lines indent depth (← title.text)) =
      ((tree.paragraphs depth title).flatMap Paragraph.rows).mapM
        (Row.line Value.shown indent) := by
  cases tree with
  | mk name histories parameters functions calls =>
    simp only [lines, functionLines_eq_mapM, callLines_eq_mapM, entryLines_eq_mapM]
    rw [paragraphs, List.flatMap_cons, List.flatMap_append, Paragraph.rows]
    -- Headings never fail, so both sides fail at the same title or entry or at none.
    simp only [List.cons_append, List.mapM_cons, List.mapM_append, mapM_headingRows, Row.line,
      Paragraph.writes, bind_assoc, pure_bind, List.append_assoc]
theorem functionLines_eq_mapM (depth : Nat) (functions : List (String × ScopeTree Value)) :
    functionLines indent depth functions =
      ((functionParagraphs depth functions).flatMap Paragraph.rows).mapM
        (Row.line Value.shown indent) := by
  cases functions with
  | nil => rfl
  | cons f functions =>
    obtain ⟨name, tree⟩ := f
    have hfirst := lines_eq_mapM depth (.function name) tree
    rw [functionLines, functionParagraphs, List.flatMap_append, List.mapM_append, ← hfirst,
      ← functionLines_eq_mapM depth functions]
    rfl
theorem callLines_eq_mapM (depth : Nat) (calls : List (Int × ScopeTree Value)) :
    callLines indent depth calls =
      ((callParagraphs depth calls).flatMap Paragraph.rows).mapM
        (Row.line Value.shown indent) := by
  cases calls with
  | nil => rfl
  | cons call calls =>
    obtain ⟨line, tree⟩ := call
    have hfirst := lines_eq_mapM depth (.call line) tree
    rw [callLines, callParagraphs, List.flatMap_append, List.mapM_append, ← hfirst,
      ← callLines_eq_mapM depth calls, Title.text]
    simp only [bind_assoc, pure_bind]
end

/-! ## Whole reports -/

/-- A tree written row by row, if `shown` is how the content of an entry is written. -/
def written {α : Type} (shown : α → Except TextError String) (tree : ScopeTree α) :
    Except TextError String := do
  return "\n".intercalate (← tree.rows.mapM (Row.line shown indent))

theorem report_eq_written (tree : ScopeTree Value) :
    tree.report indent = tree.written indent Value.shown := by
  rw [written, rows, outline, ← lines_eq_mapM]
  rfl

/-- There is a report exactly if all titles and values can be written. -/
theorem exists_report_iff (tree : ScopeTree Value) :
    (∃ text, tree.report indent = .ok text) ↔ ∀ p ∈ tree.outline, p.Writable := by
  have hrows : (∃ lines, tree.rows.mapM (Row.line Value.shown indent) = .ok lines) ↔
      ∀ p ∈ tree.outline, p.Writable := by
    rw [exists_mapM_eq_ok_iff, rows, List.forall_mem_flatMap]
    refine forall₂_congr fun p _ => ?_
    rw [p.exists_line_iff]
    simp only [Value.exists_shown_iff]
    exact ⟨fun ⟨htitle, hvalues⟩ => ⟨htitle, hvalues⟩, fun ⟨htitle, hvalues⟩ => ⟨htitle, hvalues⟩⟩
  rw [← hrows, report_eq_written]
  exact exists_bind_pure_eq_ok_iff

/-- Where no name and no descriptor holds a line break, and neither does the indentation, there is a
report exactly if all titles and values can be written, and its lines are those of the rows, one for
each. -/
theorem textLines_report {indent : String} {tree : ScopeTree Value} (hindent : OneLine indent)
    (hplain : ∀ p ∈ tree.outline, p.Plain) :
    ((∃ text, tree.report indent = .ok text) ↔ ∀ p ∈ tree.outline, p.Writable) ∧
      ∀ text, tree.report indent = .ok text →
        List.Forall₂ (fun row line => row.line Value.shown indent = .ok line) tree.rows
          (textLines text) := by
  refine ⟨exists_report_iff indent tree, fun text htext => ?_⟩
  rw [report_eq_written] at htext
  obtain ⟨lines, hlines, htext⟩ := bind_eq_ok_iff.1 htext
  cases htext
  have hmatch := mapM_eq_ok_iff.1 hlines
  -- There are no line breaks but those between `lines`, so cutting there gives them back.
  have hone : ∀ line ∈ lines, OneLine line := by
    refine forall_of_mapM_eq_ok hlines fun row hrow => ?_
    obtain ⟨p, hp, hrow⟩ := List.mem_flatMap.1 hrow
    exact (hplain p hp).oneLine hindent row hrow
  have hne : lines ≠ [] := by
    rintro rfl
    exact tree.rows_ne_nil (List.forall₂_nil_right_iff.1 hmatch)
  rw [textLines_intercalate hone hne]
  exact hmatch

/-- A text inside an array that looks like the title of a scope takes no line of its own. -/
theorem textLines_report_of_tree :
    let v : Value := ⟨"x", .array [⟨"", .text "\nscope global", .string, 1⟩], .array, 1⟩
    let call : ScopeTree Value := .mk "f" [] [] [] []
    let function : ScopeTree Value := .mk "f" [] [("p", v)] [] [(2, call)]
    let tree : ScopeTree Value := .mk "global" [("x", [v, v])] [] [("f", function)] []
    ∃ text, tree.report defaultIndent = .ok text ∧ (textLines text).length = 8 := by
  intro v call function tree
  have hname {x : String} {xs : List String} (hx : OneLine x) (hxs : ∀ y ∈ xs, OneLine y) :
      ∀ y ∈ x :: xs, OneLine y := List.forall_mem_cons.2 ⟨hx, hxs⟩
  have hnil {α : Type} {P : α → Prop} : ∀ y ∈ ([] : List α), P y := List.forall_mem_nil P
  have hdescriptor : ∀ d, v.type.descriptor = .ok d → OneLine d := by
    intro d hd
    cases hd
    decide
  have hwritable : v.Writable :=
    ⟨.array (List.forall_mem_singleton.2 (.text _)), ⟨"array", rfl⟩,
      shortInteger_of_lt (by decide)⟩
  have hplain : ∀ p ∈ tree.outline, p.Plain := by
    refine List.forall_mem_cons.2 ⟨⟨?_, ?_⟩, List.forall_mem_cons.2 ⟨⟨?_, ?_⟩,
      List.forall_mem_singleton.2 ⟨hnil, hnil⟩⟩⟩
    · exact hname (by decide) (hname (by decide) hnil)
    · exact List.forall_mem_cons.2 ⟨hdescriptor, List.forall_mem_singleton.2 hdescriptor⟩
    · exact hname (by decide) (hname (by decide) hnil)
    · exact List.forall_mem_singleton.2 hdescriptor
  have hvalues : ∀ p ∈ tree.outline, p.Writable := by
    refine List.forall_mem_cons.2 ⟨⟨trivial, ?_⟩, List.forall_mem_cons.2 ⟨⟨trivial, ?_⟩,
      List.forall_mem_singleton.2 ⟨shortInteger_of_lt (by decide), hnil⟩⟩⟩
    · exact List.forall_mem_cons.2 ⟨hwritable, List.forall_mem_singleton.2 hwritable⟩
    · exact List.forall_mem_singleton.2 hwritable
  obtain ⟨hexists, hlines⟩ := textLines_report (show OneLine defaultIndent by decide) hplain
  obtain ⟨text, htext⟩ := hexists.2 hvalues
  exact ⟨text, htext, (hlines text htext).length_eq.symm⟩

/-- There is no report on a variable with an integer of too many digits, although there are no line
breaks in names or descriptors. -/
theorem report_of_long_integer :
    let v : Value := ⟨"x", .int (Decimal.tenPow Decimal.maxDigits), .int, 1⟩
    let tree : ScopeTree Value := .mk "global" [("x", [v])] [] [] []
    (∀ p ∈ tree.outline, p.Plain) ∧ tree.report defaultIndent = .error .longInteger := by
  intro v tree
  constructor
  · refine List.forall_mem_singleton.2 ⟨?_, ?_⟩
    · exact List.forall_mem_cons.2 ⟨by decide, List.forall_mem_singleton.2 (by decide)⟩
    · refine List.forall_mem_singleton.2 fun d hd => ?_
      cases hd
      decide
  · -- The power is never evaluated: it is the bound itself.
    have hlong : integerText (Decimal.tenPow Decimal.maxDigits) = .error .longInteger := by
      have hnone : Decimal.integerText? (Decimal.tenPow Decimal.maxDigits) = none := by
        rw [Decimal.integerText?, Int.natAbs_natCast]
        exact if_neg (Nat.lt_irrefl _)
      unfold integerText
      rw [hnone]
    have hshown : v.shown = .error .longInteger := by
      rw [Value.shown, Payload.shown, hlong]
      rfl
    simp only [report, tree, lines, List.flatMap_cons, List.map_cons, List.cons_append, entryLines,
      entryLine, hshown]
    rfl

end ScopeTree

end ValueTrace
