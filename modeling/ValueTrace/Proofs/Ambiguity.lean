import ValueTrace.Proofs.Inference
import ValueTrace.Scope.Graph

/-!
# Ambiguous expressions

An operation has a content exactly if one of its operands has one and no other has
(`resolved_infer_operation_iff`). An expression that is built from literals by operations therefore
has the content of one of its literals, or none. The literal that `Decides` is the one at the end of
a way on which all other operands are without a content. One literal alone always decides. Where
there are several, none does, unless an operand that is itself ambiguous is passed over: it counts
no more than an operand without any literal.
-/

namespace ValueTrace

/-! ## Settled by one part -/

namespace Value

variable {name : String} {line : Int} {parts : List Value} {v : Value}

theorem settle_of_filter (h : parts.filter resolved = [v]) : settle name line parts = v := by
  rw [settle, h]

theorem resolved_settle_iff :
    (settle name line parts).resolved = true ↔ ∃ v, parts.filter resolved = [v] := by
  constructor
  · intro h
    unfold settle at h
    split at h
    · cases h
    · next v hv => exact ⟨v, hv⟩
    · cases h
  · rintro ⟨v, hv⟩
    have hmem : v ∈ parts.filter resolved := by
      rw [hv]
      exact List.mem_cons_self
    rw [settle_of_filter hv]
    exact (List.mem_filter.1 hmem).2

end Value

namespace Node

variable {sight : Sight} {name : String} {n o : Node} {before after : List Node}

/-- An operation has the value of an operand with a content that stands among others without. -/
theorem infer_operation_of_single (construct : String) (line : Int)
    (ho : (o.infer sight name).resolved = true)
    (hothers : ∀ p ∈ before ++ after, (p.infer sight name).resolved = false) :
    (Node.operation construct (before ++ o :: after) line).infer sight name =
      o.infer sight name := by
  have hnone {ps : List Node} (hps : ∀ p ∈ ps, p ∈ before ++ after) :
      (ps.map (infer sight name)).filter Value.resolved = [] := by
    simpa using fun p hp => hothers p (hps p hp)
  rw [infer, inferAll_eq_map]
  apply Value.settle_of_filter
  rw [List.map_append, List.map_cons, List.filter_append, List.filter_cons_of_pos ho,
    hnone fun p hp => List.mem_append_left after hp,
    hnone fun p hp => List.mem_append_right before hp, List.nil_append]

theorem resolved_infer_operation_iff {construct : String} {operands : List Node} {line : Int} :
    ((Node.operation construct operands line).infer sight name).resolved = true ↔
      ∃ before o after, operands = before ++ o :: after ∧ (o.infer sight name).resolved = true ∧
        ∀ p ∈ before ++ after, (p.infer sight name).resolved = false := by
  constructor
  · intro h
    rw [infer, inferAll_eq_map, Value.resolved_settle_iff] at h
    obtain ⟨v, hv⟩ := h
    rw [List.filter_map, List.map_eq_singleton_iff] at hv
    obtain ⟨o, hfilter, rfl⟩ := hv
    obtain ⟨before, after, rfl, hbefore, ho, hafter⟩ := List.filter_eq_cons_iff.1 hfilter
    refine ⟨before, o, after, rfl, ho, fun p hp => ?_⟩
    rcases List.mem_append.1 hp with hp | hp
    · exact Bool.eq_false_iff.2 (hbefore p hp)
    · exact Bool.eq_false_iff.2 (List.filter_eq_nil_iff.1 hafter p hp)
  · rintro ⟨before, o, after, rfl, ho, hothers⟩
    rw [infer_operation_of_single construct line ho hothers]
    exact ho

end Node

/-! ## Literals -/

/-- A literal of a scalar type, with the line it stands on. -/
structure Literal where
  payload : Payload
  type : Ty
  line : Int

/-- What a literal stands for, under a name. -/
def Literal.value (l : Literal) (name : String) : Value := ⟨name, l.payload, l.type, l.line⟩

namespace Node

variable {sight : Sight} {name : String} {n : Node} {l : Literal}

/-- The literal that a node is, if it is one of a scalar type. -/
def literal? : Node → Option Literal
  | .int n line => some ⟨.int n, .int, line⟩
  | .float x line => some ⟨.float x, .float, line⟩
  | .text s line => some ⟨.text s, .string, line⟩
  | _ => none

mutual
/-- The literals in an expression that are reached through operations alone, from left to right. -/
def literals : Node → List Literal
  | .operation _ operands _ => literalsOf operands
  | n => n.literal?.toList
/-- The literals in a list of expressions. -/
def literalsOf : List Node → List Literal
  | [] => []
  | n :: ns => n.literals ++ literalsOf ns
end

/-- The expressions that are built from literals of scalar types by operations alone. -/
inductive Operational : Node → Prop
  | literal {n : Node} {l : Literal} (h : n.literal? = some l) : Operational n
  | operation (construct : String) {operands : List Node} (line : Int)
    (h : ∀ o ∈ operands, Operational o) : Operational (.operation construct operands line)

/-- A literal that decides the value of an expression: at every operation on the way to it, all
other operands are without a content. -/
inductive Decides (sight : Sight) (name : String) (l : Literal) : Node → Prop
  | self {n : Node} (h : n.literal? = some l) : Decides sight name l n
  | operand (construct : String) (line : Int) {before after : List Node} {o : Node}
    (hothers : ∀ p ∈ before ++ after, (p.infer sight name).resolved = false)
    (ho : Decides sight name l o) :
    Decides sight name l (.operation construct (before ++ o :: after) line)

mutual
/-- Whether somewhere in the expression two operands or more have literals and one of them has
several. -/
def crowded : Node → Bool
  | .operation _ operands _ =>
    (2 ≤ operands.countP (fun o => !o.literals.isEmpty) &&
      operands.any fun o => 2 ≤ o.literals.length) || crowdedAny operands
  | _ => false
/-- Whether this is so in one of several expressions. -/
def crowdedAny : List Node → Bool
  | [] => false
  | n :: ns => n.crowded || crowdedAny ns
end

theorem literals_operation (construct : String) (operands : List Node) (line : Int) :
    (Node.operation construct operands line).literals = operands.flatMap literals := by
  rw [literals]
  induction operands with
  | nil => rfl
  | cons o operands ih => rw [literalsOf, ih, List.flatMap_cons]

theorem literals_of_literal? (h : n.literal? = some l) : n.literals = [l] := by
  cases n with
  | int | float | text =>
    cases h
    rfl
  | _ => cases h

theorem infer_of_literal? (h : n.literal? = some l) :
    n.infer sight name = l.value name ∧ (l.value name).resolved = true := by
  cases n with
  | int | float | text =>
    cases h
    rw [infer]
    exact ⟨rfl, rfl⟩
  | _ => cases h

/-! ## The literal that decides -/

theorem Decides.infer_eq (h : n.Decides sight name l) :
    n.infer sight name = l.value name ∧ (l.value name).resolved = true := by
  induction h with
  | self h => exact infer_of_literal? h
  | operand construct line hothers _ ih =>
    obtain ⟨hinfer, hresolved⟩ := ih
    rw [infer_operation_of_single construct line (hinfer ▸ hresolved) hothers]
    exact ⟨hinfer, hresolved⟩

theorem Decides.mem_literals (h : n.Decides sight name l) : l ∈ n.literals := by
  induction h with
  | self h =>
    rw [literals_of_literal? h]
    exact List.mem_cons_self
  | operand construct line _ _ ih =>
    rw [literals_operation]
    exact List.mem_flatMap.2 ⟨_, List.mem_append_right _ List.mem_cons_self, ih⟩

theorem Operational.exists_decides (h : n.Operational)
    (hresolved : (n.infer sight name).resolved = true) : ∃ l, n.Decides sight name l := by
  induction h with
  | literal h => exact ⟨_, .self h⟩
  | operation construct line _ ih =>
    obtain ⟨before, o, after, rfl, ho, hothers⟩ := resolved_infer_operation_iff.1 hresolved
    obtain ⟨l, hl⟩ := ih o (List.mem_append_right _ List.mem_cons_self) ho
    exact ⟨l, .operand construct line hothers hl⟩

/-- An expression has a content exactly if one of its literals decides. -/
theorem Operational.resolved_iff (h : n.Operational) :
    (n.infer sight name).resolved = true ↔ ∃ l, n.Decides sight name l := by
  refine ⟨h.exists_decides, ?_⟩
  rintro ⟨l, hl⟩
  rw [hl.infer_eq.1]
  exact hl.infer_eq.2

/-! ## One literal and several -/

theorem Operational.unresolved_of_literals_nil (h : n.Operational) (hnil : n.literals = []) :
    (n.infer sight name).resolved = false := by
  rw [Bool.eq_false_iff]
  intro hresolved
  obtain ⟨l, hl⟩ := h.exists_decides hresolved
  have hmem := hl.mem_literals
  rw [hnil] at hmem
  cases hmem

theorem exists_of_flatMap_literals {operands : List Node} (h : operands.flatMap literals = [l]) :
    ∃ before o after, operands = before ++ o :: after ∧ o.literals = [l] ∧
      ∀ p ∈ before ++ after, p.literals = [] := by
  induction operands with
  | nil => cases h
  | cons o operands ih =>
    rw [List.flatMap_cons] at h
    rcases List.append_eq_singleton_iff.1 h with ⟨hnil, hrest⟩ | ⟨ho, hnil⟩
    · obtain ⟨before, o', after, rfl, ho', hothers⟩ := ih hrest
      exact ⟨o :: before, o', after, rfl, ho', List.forall_mem_cons.2 ⟨hnil, hothers⟩⟩
    · exact ⟨[], o, operands, rfl, ho, List.flatMap_eq_nil_iff.1 hnil⟩

theorem mem_of_mem_others {p o : Node} {before after : List Node} (h : p ∈ before ++ after) :
    p ∈ before ++ o :: after :=
  List.mem_append.2 ((List.mem_append.1 h).imp_right (List.mem_cons_of_mem o))

/-- If an operand has not all of several literals, another operand has one. -/
theorem exists_other_literal {o : Node} {before after : List Node}
    (hseveral : 2 ≤ ((before ++ o :: after).flatMap literals).length)
    (hfew : ¬2 ≤ o.literals.length) : ∃ p ∈ before ++ after, p.literals ≠ [] := by
  by_contra hall
  simp only [not_exists, not_and, not_not] at hall
  have hbefore : before.flatMap literals = [] :=
    List.flatMap_eq_nil_iff.2 fun p hp => hall p (List.mem_append_left _ hp)
  have hafter : after.flatMap literals = [] :=
    List.flatMap_eq_nil_iff.2 fun p hp => hall p (List.mem_append_right _ hp)
  rw [List.flatMap_append, List.flatMap_cons, hbefore, hafter, List.nil_append,
    List.append_nil] at hseveral
  exact hfew hseveral

/-- A literal that is the only one decides. -/
theorem Operational.decides_of_literals (h : n.Operational) (sight : Sight) (name : String)
    (hl : n.literals = [l]) : n.Decides sight name l := by
  induction h with
  | literal h =>
    rw [literals_of_literal? h] at hl
    cases hl
    exact .self h
  | operation construct line hoperands ih =>
    rw [literals_operation] at hl
    obtain ⟨before, o, after, rfl, ho, hothers⟩ := exists_of_flatMap_literals hl
    refine .operand construct line (fun p hp => ?_)
      (ih o (List.mem_append_right _ List.mem_cons_self) ho)
    exact (hoperands p (mem_of_mem_others hp)).unresolved_of_literals_nil (hothers p hp)

theorem Operational.several_of_unresolved (h : n.Operational) (hne : n.literals ≠ [])
    (hunresolved : (n.infer sight name).resolved = false) : 2 ≤ n.literals.length := by
  by_contra hfew
  obtain ⟨l, hl⟩ : ∃ l, n.literals = [l] := by
    rw [← List.length_eq_one_iff]
    have := List.length_pos_iff.2 hne
    omega
  have hresolved := h.resolved_iff.2 ⟨l, h.decides_of_literals sight name hl⟩
  rw [hunresolved] at hresolved
  cases hresolved

theorem crowdedAny_of_mem {ns : List Node} (hn : n ∈ ns) (h : n.crowded = true) :
    crowdedAny ns = true := by
  induction ns with
  | nil => cases hn
  | cons m ns ih =>
    rw [crowdedAny, Bool.or_eq_true]
    rcases List.mem_cons.1 hn with rfl | hn
    · exact .inl h
    · exact .inr (ih hn)

/-- Where one of several literals decides, an operand with several literals was passed over. -/
theorem Decides.crowded (hl : n.Decides sight name l) (h : n.Operational)
    (hseveral : 2 ≤ n.literals.length) : n.crowded = true := by
  induction hl with
  | self hliteral =>
    rw [literals_of_literal? hliteral, List.length_singleton] at hseveral
    omega
  | @operand construct line before after o hothers ho ih =>
    cases h with
    | literal h => cases h
    | operation _ _ hoperands =>
      have hmem : o ∈ before ++ o :: after := List.mem_append_right _ List.mem_cons_self
      rw [Node.crowded, Bool.or_eq_true, Bool.and_eq_true, decide_eq_true_eq, List.any_eq_true]
      by_cases hmany : 2 ≤ o.literals.length
      · exact .inr (crowdedAny_of_mem hmem (ih (hoperands o hmem) hmany))
      · rw [literals_operation] at hseveral
        -- Another operand has a literal. It has no content, so it has several.
        obtain ⟨p, hp, hne⟩ := exists_other_literal hseveral hmany
        have hp' := mem_of_mem_others (o := o) hp
        have hpseveral := (hoperands p hp').several_of_unresolved hne (hothers p hp)
        refine .inl ⟨?_, p, hp', decide_eq_true hpseveral⟩
        have hcount : 0 < (before ++ after).countP fun o => !o.literals.isEmpty :=
          List.countP_pos_iff.2 ⟨p, hp, by simpa using hne⟩
        have ho' : (!o.literals.isEmpty) = true := by
          simpa using List.ne_nil_of_mem ho.mem_literals
        rw [List.countP_append] at hcount ⊢
        rw [List.countP_cons_of_pos (p := fun o : Node => !o.literals.isEmpty) ho']
        omega

/-- The value of an expression that is built from literals of scalar types by operations, as seen
from anywhere and under any name. It has a content exactly if a literal decides, and then it is that
literal. Without a literal it has no content, and one literal alone decides. With two or more it has
no content either, unless somewhere in the expression two operands or more have literals and one of
them has several. -/
theorem infer_of_operations (h : n.Operational) (sight : Sight) (name : String) :
    let v := n.infer sight name
    (v.resolved = true ↔ ∃ l, n.Decides sight name l) ∧
    (∀ l, n.Decides sight name l → l ∈ n.literals ∧ v = ⟨name, l.payload, l.type, l.line⟩) ∧
    (n.literals = [] → v.resolved = false) ∧
    (∀ l, n.literals = [l] → v.resolved = true ∧ v = ⟨name, l.payload, l.type, l.line⟩) ∧
    (2 ≤ n.literals.length → n.crowded = false → v.resolved = false) := by
  intro v
  refine ⟨h.resolved_iff, fun l hl => ⟨hl.mem_literals, hl.infer_eq.1⟩,
    h.unresolved_of_literals_nil, fun l hl => ?_, fun hseveral hnot => ?_⟩
  · have hdecides := h.decides_of_literals sight name hl
    exact ⟨h.resolved_iff.2 ⟨l, hdecides⟩, hdecides.infer_eq.1⟩
  · rw [Bool.eq_false_iff]
    intro hresolved
    obtain ⟨l, hl⟩ := h.exists_decides hresolved
    rw [hl.crowded h hseveral] at hnot
    cases hnot

/-- In `-(nil + 5)` the only literal decides, and `("a" .. 1) .. nil` has two and no content. -/
theorem infer_of_operations_nested :
    let sight := (ScopeGraph.create {} "global" none).1.sight 0
    let single : Node := .operation "UMinusOp"
      [.operation "AddOp" [.operation "Nil" [] 1, .int 5 2] 1] 1
    let double : Node := .operation "Concat"
      [.operation "Concat" [.text "a" 1, .int 1 1] 1, .operation "Nil" [] 1] 1
    single.Operational ∧ single.infer sight "x" = ⟨"x", .int 5, .int, 2⟩ ∧
      double.Operational ∧ double.literals.length = 2 ∧ double.crowded = false ∧
      (double.infer sight "x").resolved = false := by
  intro sight single double
  have hnil : (Node.operation "Nil" [] 1).Operational := .operation "Nil" 1 nofun
  have hsingle : single.Operational := by
    refine .operation _ _ (List.forall_mem_singleton.2 (.operation _ _ ?_))
    exact List.forall_mem_cons.2 ⟨hnil, List.forall_mem_singleton.2 (.literal rfl)⟩
  have hdouble : double.Operational := by
    refine .operation _ _ (List.forall_mem_cons.2 ⟨.operation _ _ ?_,
      List.forall_mem_singleton.2 hnil⟩)
    exact List.forall_mem_cons.2 ⟨.literal rfl, List.forall_mem_singleton.2 (.literal rfl)⟩
  obtain ⟨-, -, -, hone, -⟩ := infer_of_operations hsingle sight "x"
  obtain ⟨-, -, -, -, hseveral⟩ := infer_of_operations hdouble sight "x"
  exact ⟨hsingle, (hone ⟨.int 5, .int, 2⟩ rfl).2, hdouble, rfl, rfl, hseveral (by decide) rfl⟩

/-- In `(1 + 2) + 3` the first operand is ambiguous and therefore passed over, so that the third
literal decides. -/
theorem infer_of_ambiguous_operand :
    let sight := (ScopeGraph.create {} "global" none).1.sight 0
    let n : Node := .operation "AddOp" [.operation "AddOp" [.int 1 3, .int 2 3] 3, .int 3 3] 3
    n.Operational ∧ n.literals.length = 3 ∧ n.infer sight "a" = ⟨"a", .int 3, .int, 3⟩ ∧
      (n.infer sight "a").resolved = true := by
  intro sight n
  have hint (k : Int) : (Node.int k 3).Operational := .literal rfl
  refine ⟨?_, rfl, ?_, ?_⟩
  · refine .operation _ _ (List.forall_mem_cons.2 ⟨.operation _ _ ?_,
      List.forall_mem_singleton.2 (hint 3)⟩)
    exact List.forall_mem_cons.2 ⟨hint 1, List.forall_mem_singleton.2 (hint 2)⟩
  · with_unfolding_all rfl
  · with_unfolding_all rfl

end Node

end ValueTrace
