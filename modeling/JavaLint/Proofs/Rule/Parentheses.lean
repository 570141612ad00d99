import JavaLint.Proofs.Syntax.Position
import JavaLint.Proofs.Text.Encoding
import JavaLint.Rule.BooleanReturnsNull
import Mathlib.Data.List.Forall2
import Mathlib.Logic.Relation

/-!
# Parentheses around returned expressions

Whether a returned expression is boolean, produces null or returns null does not depend on parentheses, neither
around the expression nor around the operands of the casts that it consists of. The two expressions that are
compared may stand in different sources, since parentheses move the code behind them.

- `SameCode`: a piece of code that stands in two sources
- `AddsParentheses`: an expression to which parentheses were added
- `SameHead`: what the three questions look at, once the parentheses are gone
- `AddsParentheses.sameHead_unwrap`: added parentheses leave it as it is
- `isNullProducing_iff`: where an expression that produces null leads to
- `parentheses_irrelevant`: all of it together
-/

namespace JavaLint

/-! ## Code in two sources -/

namespace Node

/-- A node of one source and a node of another are the same piece of code: they have the same kind, role and
    text, and so do their children, one by one. -/
inductive SameCode (source source' : Bytes) : Node → Node → Prop
  | intro {n n' : Node} (kind : n.kind = n'.kind) (role : n.role = n'.role)
      (text : n.text source = n'.text source')
      (children : List.Forall₂ (SameCode source source') n.children n'.children) :
      SameCode source source' n n'

variable {source source' : Bytes}

namespace SameCode

variable {n n' : Node}

/-- The same piece of code is of the same kind. -/
private theorem kind_eq (h : SameCode source source' n n') : n.kind = n'.kind := by
  cases h
  assumption

/-- The same piece of code has the same role. -/
private theorem role_eq (h : SameCode source source' n n') : n.role = n'.role := by
  cases h
  assumption

/-- The same piece of code has the same text. -/
private theorem text_eq (h : SameCode source source' n n') : n.text source = n'.text source' := by
  cases h
  assumption

/-- The same piece of code has the same children. -/
private theorem forall₂_children (h : SameCode source source' n n') :
    List.Forall₂ (SameCode source source') n.children n'.children := by
  cases h
  assumption

/-- What does not move stays the same piece of code. -/
private theorem refl (source : Bytes) (n : Node) : SameCode source source n n := by
  induction n using induction with
  | step n ih => exact .intro rfl rfl rfl (List.forall₂_same.2 ih)

end SameCode

/-- Lists of nodes that correspond, roles included, correspond in the first node of each role. -/
private theorem rel_find?_role {R : Node → Node → Prop} (hrole : ∀ c c', R c c' → c.role = c'.role)
    {nodes nodes' : List Node} (h : List.Forall₂ R nodes nodes') (role : Option String) :
    Option.Rel (fun c c' => R c c' ∧ c.role = role) (nodes.find? (·.role == role))
      (nodes'.find? (·.role == role)) := by
  induction h with
  | nil => exact .none
  | @cons c c' _ _ hfirst _ ih =>
    rw [List.find?_cons, List.find?_cons, ← hrole c c' hfirst]
    cases hc : c.role == role with
    | true => exact .some ⟨hfirst, beq_iff_eq.1 hc⟩
    | false => exact ih

/-- Lists of nodes that correspond, correspond in the first node. -/
private theorem rel_head? {R : Node → Node → Prop} {nodes nodes' : List Node} (h : List.Forall₂ R nodes nodes') :
    Option.Rel R nodes.head? nodes'.head? := by
  cases h with
  | nil => exact .none
  | cons hfirst _ => exact .some hfirst

/-- Nodes that correspond give the same answer, if the question is asked of both or of none. -/
private theorem any_eq_of_rel {R : Node → Node → Prop} {x y : Option Node} {p q : Node → Bool} (h : Option.Rel R x y)
    (hR : ∀ c c', R c c' → q c' = p c) : y.any q = x.any p := by
  cases h with
  | none => rfl
  | some hc => exact hR _ _ hc

/-! ## Removing parentheses -/

/-- Without its parentheses, an expression is what its first node is without parentheses. -/
private theorem unwrapParentheses_cons (role : Option String) (span : Span) (place : List Nat) (inner : Node)
    (others : List Node) :
    unwrapParentheses ⟨"parenthesized_expression", role, span, place, inner :: others⟩ =
      inner.unwrapParentheses := by
  rw [unwrapParentheses]
  rfl

/-- What is not in parentheses stays as it is. -/
private theorem unwrapParentheses_of_ne {n : Node} (h : n.kind ≠ "parenthesized_expression") :
    n.unwrapParentheses = n := by
  obtain ⟨kind, role, span, place, children⟩ := n
  cases children with
  | nil => rw [unwrapParentheses]
  | cons inner others =>
    rw [unwrapParentheses]
    exact if_neg fun hkind => h (beq_iff_eq.1 hkind)

/-- The role of a node does not matter for what is inside its parentheses. -/
private theorem exists_unwrapParentheses_withRole (n : Node) (role : Option String) :
    ∃ role', unwrapParentheses { n with role } = { n.unwrapParentheses with role := role' } := by
  obtain ⟨kind, role₀, span, place, children⟩ := n
  cases children with
  | nil => exact ⟨role, by rw [unwrapParentheses, unwrapParentheses]⟩
  | cons inner others =>
    rw [unwrapParentheses, unwrapParentheses]
    -- in parentheses the role is that of what they enclose, and else it is the new one
    by_cases hkind : (kind == "parenthesized_expression") = true
    · refine ⟨inner.unwrapParentheses.role, ?_⟩
      simp only [if_pos hkind]
      cases inner.unwrapParentheses
      rfl
    · refine ⟨role, ?_⟩
      simp only [if_neg hkind]

/-- The same piece of code is the same without its parentheses. -/
private theorem SameCode.unwrapParentheses {n n' : Node} (h : SameCode source source' n n') :
    SameCode source source' n.unwrapParentheses n'.unwrapParentheses := by
  induction n using induction generalizing n' with
  | step n ih =>
    have hkind := h.kind_eq
    have hchildren := h.forall₂_children
    obtain ⟨kind, role, span, place, children⟩ := n
    obtain ⟨kind', role', span', place', children'⟩ := n'
    obtain rfl : kind = kind' := hkind
    -- both have a first node or none
    cases hchildren with
    | nil =>
      rw [Node.unwrapParentheses, Node.unwrapParentheses]
      exact h
    | cons hfirst _ =>
      rw [Node.unwrapParentheses, Node.unwrapParentheses]
      split
      · exact ih _ List.mem_cons_self hfirst
      · exact h

end Node

namespace BooleanReturnsNull

open Node (SameCode)

variable {source source' : Bytes} {e e' : Node}

/-! ## Expressions that produce null -/

/-- The operand of a cast is its first child in that role. -/
private theorem isNullValue_eq (children : List Node) :
    isNullValue children = (children.find? (·.role == some "value")).any isNullProducing := by
  induction children with
  | nil => rfl
  | cons child rest ih =>
    rw [isNullValue, List.find?_cons, ih]
    cases child.role == some "value" <;> rfl

/-- What produces null, by the kind of an expression. -/
private theorem isNullProducing_eq (n : Node) :
    isNullProducing n =
      if n.kind = "parenthesized_expression" then n.children.head?.any isNullProducing
      else if n.kind = "null_literal" then true
      else if n.kind = "cast_expression" then (n.child? "value").any isNullProducing
      else false := by
  obtain ⟨kind, role, span, place, children⟩ := n
  cases children <;>
    simp only [isNullProducing, isNullValue_eq, Node.child?, beq_iff_eq, List.head?_nil, List.head?_cons,
      Option.any_none, Option.any_some]

/-- An expression in parentheses produces null if its first node does. -/
private theorem isNullProducing_cons (role : Option String) (span : Span) (place : List Nat) (inner : Node)
    (others : List Node) :
    isNullProducing ⟨"parenthesized_expression", role, span, place, inner :: others⟩ =
      isNullProducing inner := by
  rw [isNullProducing_eq]
  rfl

/-- The role of an expression does not matter for whether it produces null. -/
private theorem isNullProducing_withRole (n : Node) (role : Option String) :
    isNullProducing { n with role } = isNullProducing n := by
  rw [isNullProducing_eq, isNullProducing_eq n]
  rfl

/-- Without its parentheses, an expression produces null if it did so with them. -/
private theorem isNullProducing_unwrapParentheses (n : Node) :
    isNullProducing n.unwrapParentheses = isNullProducing n := by
  induction n using Node.induction with
  | step n ih =>
    by_cases hkind : n.kind = "parenthesized_expression"
    · obtain ⟨kind, role, span, place, children⟩ := n
      obtain rfl : kind = "parenthesized_expression" := hkind
      cases children with
      -- a pair of parentheses around nothing stays as it is
      | nil => rw [Node.unwrapParentheses]
      | cons inner others =>
        rw [Node.unwrapParentheses_cons, isNullProducing_cons]
        exact ih inner List.mem_cons_self
    · rw [Node.unwrapParentheses_of_ne hkind]

/-- One expression stands for another: as its content in parentheses, or as the operand of a cast. -/
def StandsFor (n m : Node) : Prop :=
  (n.kind = "parenthesized_expression" ∧ n.children.head? = some m) ∨
    (n.kind = "cast_expression" ∧ n.child? "value" = some m)

/-- An expression that stands for one which produces null produces null. -/
private theorem isNullProducing_of_standsFor {n m : Node} (h : StandsFor n m) (hm : isNullProducing m = true) :
    isNullProducing n = true := by
  rw [isNullProducing_eq]
  rcases h with ⟨hkind, hfirst⟩ | ⟨hkind, hvalue⟩
  · simp [hkind, hfirst, hm]
  · simp [hkind, hvalue, hm]

/-- An expression produces null if the way through parentheses and operands of casts ends at the null
    literal. -/
theorem isNullProducing_iff {n : Node} :
    isNullProducing n = true ↔ ∃ m, Relation.ReflTransGen StandsFor n m ∧ m.kind = "null_literal" := by
  constructor
  · intro h
    induction n using Node.induction with
    | step n ih =>
      -- both ways on lead to a child, from where the rest of the way is known
      have hway : ∀ child?, (∀ m, child? = some m → m ∈ n.children ∧ StandsFor n m) →
          child?.any isNullProducing = true →
          ∃ m, Relation.ReflTransGen StandsFor n m ∧ m.kind = "null_literal" := by
        intro child? hstep hany
        obtain ⟨child, hchild, hnull⟩ := (Option.any_eq_true _ _).1 hany
        obtain ⟨hmem, hstands⟩ := hstep child hchild
        obtain ⟨m, hpath, hm⟩ := ih child hmem hnull
        exact ⟨m, .head hstands hpath, hm⟩
      rw [isNullProducing_eq] at h
      split at h
      · next hkind =>
        refine hway _ (fun m hm => ⟨List.mem_of_head? hm, .inl ⟨hkind, hm⟩⟩) h
      · split at h
        · next hkind => exact ⟨n, .refl, hkind⟩
        · split at h
          · next hkind =>
            refine hway _ (fun m hm => ⟨List.mem_of_find?_eq_some hm, .inr ⟨hkind, hm⟩⟩) h
          · cases h
  · rintro ⟨m, hpath, hm⟩
    induction hpath using Relation.ReflTransGen.head_induction_on with
    | refl => simp [isNullProducing_eq, hm]
    | head hstep _ ih => exact isNullProducing_of_standsFor hstep ih

/-- What returns null produces null. -/
private theorem isNullProducing_of_isNullReturn (h : isNullReturn source (some e) = true) :
    isNullProducing e = true := by
  rw [← isNullProducing_unwrapParentheses, isNullProducing_eq]
  simp only [isNullReturn, Bool.or_eq_true, Bool.and_eq_true, beq_iff_eq] at h
  -- null itself, or a cast of it to a boxed type
  rcases h with hnull | ⟨⟨hcast, -⟩, hvalue⟩
  · simp [hnull]
  · simp [hcast, hvalue]

/-- Whether an expression produces null depends on its kind, and on the roles of its children and on which of
    them produce null. -/
private theorem isNullProducing_of_children (hkind : e.kind = e'.kind)
    (hchildren : List.Forall₂ (fun c c' => c.role = c'.role ∧ isNullProducing c' = isNullProducing c)
      e.children e'.children) :
    isNullProducing e' = isNullProducing e := by
  -- only the first child is asked, or the operand
  have hfirst : e'.children.head?.any isNullProducing = e.children.head?.any isNullProducing :=
    Node.any_eq_of_rel (Node.rel_head? hchildren) fun _ _ hc => hc.2
  have hvalue : (e'.child? "value").any isNullProducing = (e.child? "value").any isNullProducing :=
    Node.any_eq_of_rel (Node.rel_find?_role (fun _ _ hc => hc.1) hchildren (some "value"))
      fun _ _ hc => hc.1.2
  rw [isNullProducing_eq, isNullProducing_eq e, hfirst, hvalue, hkind]

/-- The same piece of code produces null in both sources or in none. -/
private theorem isNullProducing_of_sameCode (h : SameCode source source' e e') :
    isNullProducing e' = isNullProducing e := by
  induction e using Node.induction generalizing e' with
  | step e ih =>
    refine isNullProducing_of_children h.kind_eq ?_
    have hboth := (List.forall₂_and_left _ _).2 ⟨fun c hc => @ih c hc, h.forall₂_children⟩
    exact hboth.imp fun _ _ hc => ⟨hc.2.role_eq, hc.1 hc.2⟩

/-! ## Adding parentheses -/

/-- The second expression is the first one with parentheses added: around the expression, inside of parentheses
    that it has, or around the operand of a cast that it is. Added parentheses take over the role of what they
    enclose, and what else is in parentheses after the first node is left open. -/
inductive AddsParentheses (source source' : Bytes) : Node → Node → Prop
  | same {e e' : Node} : SameCode source source' e e' → AddsParentheses source source' e e'
  | around {e inner : Node} (role : Option String) (span : Span) (place : List Nat) (others : List Node) :
      AddsParentheses source source' e inner →
      AddsParentheses source source' e
        ⟨"parenthesized_expression", e.role, span, place, { inner with role } :: others⟩
  | within {inner inner' : Node} (role : Option String) (span span' : Span) (place place' : List Nat)
      (others others' : List Node) :
      AddsParentheses source source' inner inner' →
      AddsParentheses source source' ⟨"parenthesized_expression", role, span, place, inner :: others⟩
        ⟨"parenthesized_expression", role, span', place', inner' :: others'⟩
  | operand {value value' : Node} {before before' after after' : List Node} (role : Option String)
      (span span' : Span) (place place' : List Nat) :
      value.role = some "value" → AddsParentheses source source' value value' →
      List.Forall₂ (SameCode source source') before before' →
      List.Forall₂ (SameCode source source') after after' →
      AddsParentheses source source' ⟨"cast_expression", role, span, place, before ++ value :: after⟩
        ⟨"cast_expression", role, span', place', before' ++ value' :: after'⟩

namespace AddsParentheses

/-- Added parentheses take the place of what they enclose. -/
private theorem role_eq (h : AddsParentheses source source' e e') : e.role = e'.role := by
  cases h with
  | same hsame => exact hsame.role_eq
  | around => rfl
  | within => rfl
  | operand => rfl

end AddsParentheses

/-- Children of two expressions correspond: they have the same role, and they are the same piece of code unless
    they are operands of a cast, of which only counts whether they produce null. -/
structure Corresponds (source source' : Bytes) (c c' : Node) : Prop where
  role_eq : c.role = c'.role
  isNullProducing_eq : isNullProducing c' = isNullProducing c
  sameCode : c.role ≠ some "value" → SameCode source source' c c'

/-- Children that are the same piece of code correspond. -/
private theorem Corresponds.of_sameCode {c c' : Node} (h : SameCode source source' c c') :
    Corresponds source source' c c' :=
  ⟨h.role_eq, isNullProducing_of_sameCode h, fun _ => h⟩

/-- The children of a cast correspond if an operand in which parentheses were added produces null as before. -/
private theorem forall₂_corresponds {value value' : Node} {before before' after after' : List Node}
    (hrole : value.role = some "value") (hvalue : AddsParentheses source source' value value')
    (hnull : isNullProducing value' = isNullProducing value)
    (hbefore : List.Forall₂ (SameCode source source') before before')
    (hafter : List.Forall₂ (SameCode source source') after after') :
    List.Forall₂ (Corresponds source source') (before ++ value :: after) (before' ++ value' :: after') := by
  -- all children but the operand are the same piece of code
  refine List.rel_append (hbefore.imp fun _ _ hc => .of_sameCode hc) (.cons ?_ ?_)
  · exact ⟨hvalue.role_eq, hnull, fun hne => absurd hrole hne⟩
  · exact hafter.imp fun _ _ hc => .of_sameCode hc

/-- Added parentheses do not change whether an expression produces null. -/
private theorem AddsParentheses.isNullProducing_eq (h : AddsParentheses source source' e e') :
    isNullProducing e' = isNullProducing e := by
  induction h with
  | same hsame => exact isNullProducing_of_sameCode hsame
  | around role span place others _ ih =>
    rw [isNullProducing_cons, isNullProducing_withRole]
    exact ih
  | within role span span' place place' others others' _ ih =>
    rw [isNullProducing_cons, isNullProducing_cons]
    exact ih
  | operand role span span' place place' hrole hvalue hbefore hafter ih =>
    -- the operand produces null as before, and the other children have not changed
    refine isNullProducing_of_children rfl ?_
    exact (forall₂_corresponds hrole hvalue ih hbefore hafter).imp fun _ _ hc =>
      ⟨hc.role_eq, hc.isNullProducing_eq⟩

/-! ## What is looked at without parentheses -/

/-- Two expressions agree in what is asked of them: the kind, the text unless they are casts, and the
    children. -/
structure SameHead (source source' : Bytes) (n n' : Node) : Prop where
  kind_eq : n.kind = n'.kind
  text_eq : n.kind ≠ "cast_expression" → n.text source = n'.text source'
  children : List.Forall₂ (Corresponds source source') n.children n'.children

namespace SameHead

variable {n n' : Node}

/-- The same piece of code agrees in what is asked of it. -/
private theorem of_sameCode (h : SameCode source source' n n') : SameHead source source' n n' :=
  ⟨h.kind_eq, fun _ => h.text_eq, h.forall₂_children.imp fun _ _ hc => .of_sameCode hc⟩

/-- The role of an expression is not among what is asked of it. -/
private theorem withRole (h : SameHead source source' n n') (role : Option String) :
    SameHead source source' n { n' with role } :=
  ⟨h.kind_eq, h.text_eq, h.children⟩

/-- The children in a role other than that of an operand are the same piece of code. -/
private theorem rel_child? (h : SameHead source source' n n') {role : String} (hrole : role ≠ "value") :
    Option.Rel (SameCode source source') (n.child? role) (n'.child? role) := by
  -- the first child in the role is the one that corresponds
  have hrel := Node.rel_find?_role (fun _ _ hc => hc.role_eq) h.children (some role)
  rw [Node.child?, Node.child?]
  revert hrel
  generalize n.children.find? (·.role == some role) = x
  generalize n'.children.find? (·.role == some role) = y
  rintro (hc | _)
  · exact .some (hc.1.sameCode (by simpa [hc.2] using hrole))
  · exact .none

/-- The operands produce null in both casts or in none. -/
private theorem any_operand_eq (h : SameHead source source' n n') :
    (n'.child? "value").any isNullProducing = (n.child? "value").any isNullProducing :=
  Node.any_eq_of_rel (Node.rel_find?_role (fun _ _ hc => hc.role_eq) h.children (some "value"))
    fun _ _ hc => hc.1.isNullProducing_eq

/-- The types of two casts have the same name. -/
private theorem any_isNamed_eq (h : SameHead source source' n n') (names : List String) :
    (n'.child? "type").any (isNamed source' names) = (n.child? "type").any (isNamed source names) := by
  refine Node.any_eq_of_rel (h.rel_child? (by decide)) fun c c' hc => ?_
  rw [isNamed, isNamed, hc.text_eq]

/-- The operators of two expressions are the same. -/
private theorem any_operator_eq (h : SameHead source source' n n') (p : String → Bool) :
    ((n'.child? "operator").any fun c => p c.kind) = (n.child? "operator").any fun c => p c.kind := by
  refine Node.any_eq_of_rel (h.rel_child? (by decide)) fun c c' hc => ?_
  rw [hc.kind_eq]

end SameHead

/-- Without parentheses, an expression to which some were added agrees with the one it was before. -/
theorem AddsParentheses.sameHead_unwrap (h : AddsParentheses source source' e e') :
    SameHead source source' e.unwrapParentheses e'.unwrapParentheses := by
  induction h with
  | same hsame => exact .of_sameCode hsame.unwrapParentheses
  | @around e inner role span place others _ ih =>
    -- what is in the added parentheses has lost its role to them
    obtain ⟨role', hunwrap⟩ := inner.exists_unwrapParentheses_withRole role
    rw [Node.unwrapParentheses_cons, hunwrap]
    exact ih.withRole role'
  | within role span span' place place' others others' _ ih =>
    rw [Node.unwrapParentheses_cons, Node.unwrapParentheses_cons]
    exact ih
  | operand role span span' place place' hrole hvalue hbefore hafter _ =>
    -- a cast is not in parentheses itself
    rw [Node.unwrapParentheses_of_ne (by simp), Node.unwrapParentheses_of_ne (by simp)]
    refine ⟨rfl, fun hne => absurd rfl hne, ?_⟩
    exact forall₂_corresponds hrole hvalue hvalue.isNullProducing_eq hbefore hafter

/-- Added parentheses do not change whether an expression is boolean. -/
private theorem AddsParentheses.isBooleanExpression_eq (h : AddsParentheses source source' e e') :
    isBooleanExpression source' e' = isBooleanExpression source e := by
  have hhead := h.sameHead_unwrap
  rw [isBooleanExpression, isBooleanExpression]
  simp only [← hhead.kind_eq]
  -- by the kind, which both have in common
  split
  · rfl
  · rfl
  · rfl
  · next hkind => rw [isNamed, isNamed, hhead.text_eq (by simp [hkind])]
  · exact hhead.any_operator_eq booleanOperators.contains
  · exact hhead.any_operator_eq (· == "!")
  · exact hhead.any_isNamed_eq booleanTypes
  · rfl

/-- Added parentheses do not change whether an expression returns null. -/
private theorem AddsParentheses.isNullReturn_eq (h : AddsParentheses source source' e e') :
    isNullReturn source' (some e') = isNullReturn source (some e) := by
  have hhead := h.sameHead_unwrap
  have htype := hhead.any_isNamed_eq boxedTypes
  rw [isNullReturn, isNullReturn]
  simp only [← hhead.kind_eq, hhead.any_operand_eq, isBoxedType, htype]

/-- Parentheses that are added to a returned expression change none of the three answers about it. It produces
    null exactly if the way through parentheses and operands of casts ends at the null literal, and what returns
    null produces null. -/
theorem parentheses_irrelevant (source : Bytes) (e : Node) :
    (∀ source' e', AddsParentheses source source' e e' →
      isBooleanExpression source' e' = isBooleanExpression source e ∧
      isNullProducing e' = isNullProducing e ∧
      isNullReturn source' (some e') = isNullReturn source (some e)) ∧
    (isNullProducing e = true ↔
      ∃ m, Relation.ReflTransGen StandsFor e m ∧ m.kind = "null_literal") ∧
    (isNullReturn source (some e) = true → isNullProducing e = true) := by
  refine ⟨?_, isNullProducing_iff, isNullProducing_of_isNullReturn⟩
  intro source' e' h
  exact ⟨h.isBooleanExpression_eq, h.isNullProducing_eq, h.isNullReturn_eq⟩

/-- A node that stands in the first line of its source. -/
def inFirstLine (kind : String) (role : Option String) (first last : Nat) (children : List Node) : Node :=
  ⟨kind, role, ⟨first, last, 0, first, 0, last⟩, [], children⟩

/-- The expression `(Boolean) null`. -/
def castNull : Node :=
  inFirstLine "cast_expression" none 0 14
    [inFirstLine "type_identifier" (some "type") 1 8 [], inFirstLine "null_literal" (some "value") 10 14 []]

/-- The expression `((Boolean) (null))`. -/
def wrappedCastNull : Node :=
  inFirstLine "parenthesized_expression" none 0 18 [inFirstLine "cast_expression" none 1 17
    [inFirstLine "type_identifier" (some "type") 2 9 [],
      inFirstLine "parenthesized_expression" (some "value") 11 17 [inFirstLine "null_literal" none 12 16 []]]]

/-- Parentheses around a cast of null, and around its operand, leave it an expression that returns null. -/
theorem parentheses_irrelevant_castNull :
    let source := Utf8.encode "(Boolean) null".toList
    let source' := Utf8.encode "((Boolean) (null))".toList
    let enclosed := inFirstLine "parenthesized_expression" none 0 14 [castNull]
    AddsParentheses source source castNull enclosed ∧ isNullReturn source (some enclosed) = true ∧
      AddsParentheses source source' castNull wrappedCastNull ∧
      isBooleanExpression source' wrappedCastNull = true ∧
      isNullReturn source' (some wrappedCastNull) = true ∧
      ∃ m, Relation.ReflTransGen StandsFor wrappedCastNull m ∧ m.kind = "null_literal" := by
  intro source source' enclosed
  have hnullReturn : isNullReturn source (some castNull) = true := by decide +kernel
  -- parentheses around nodes that stay where they are
  have henclosed : AddsParentheses source source castNull enclosed :=
    .around none _ _ _ (.same (.refl source castNull))
  have hsame := ((parentheses_irrelevant source castNull).1 source _ henclosed).2.2
  -- parentheses that are written into the source, so that the code behind them moves
  have htype : SameCode source source' (inFirstLine "type_identifier" (some "type") 1 8 [])
      (inFirstLine "type_identifier" (some "type") 2 9 []) :=
    .intro rfl rfl (by decide +kernel) .nil
  have hliteral : SameCode source source' (inFirstLine "null_literal" (some "value") 10 14 [])
      (inFirstLine "null_literal" (some "value") 12 16 []) :=
    .intro rfl rfl (by decide +kernel) .nil
  have hvalue : AddsParentheses source source' (inFirstLine "null_literal" (some "value") 10 14 [])
      (inFirstLine "parenthesized_expression" (some "value") 11 17 [inFirstLine "null_literal" none 12 16 []]) :=
    .around none _ _ _ (.same hliteral)
  have hcast := AddsParentheses.operand none ⟨0, 14, 0, 0, 0, 14⟩ ⟨1, 17, 0, 1, 0, 17⟩ [] [] rfl hvalue
    (.cons htype .nil) .nil
  have hadds : AddsParentheses source source' castNull wrappedCastNull := .around none _ _ _ hcast
  obtain ⟨hboolean, -, hreturn⟩ := (parentheses_irrelevant source castNull).1 source' _ hadds
  have hreturn' := hreturn.trans hnullReturn
  refine ⟨henclosed, hsame.trans hnullReturn, hadds, ?_, hreturn', ?_⟩
  · rw [hboolean]
    decide +kernel
  · obtain ⟨-, hway, himplies⟩ := parentheses_irrelevant source' wrappedCastNull
    exact hway.1 (himplies hreturn')

end BooleanReturnsNull

end JavaLint
