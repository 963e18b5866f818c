import ConstraintModel.Proofs.Composition
import ConstraintModel.Proofs.ProgramTerms

/-!
# Constants

The literals and the enumerations that a term shows. They come from the expression that it spells,
so the enumerations that are collected from the expression are all that its term needs; the same
holds of the type that the expression has.
-/

namespace ConstraintModel

open Source

namespace Source

/-- Something in a term whose word does not depend on the scope. -/
inductive Constant
  | literal (value : Literal)
  | enumeration (type : Enumeration)
  deriving DecidableEq

/-- The enumeration that has to be declared for the constant to be read. -/
def Constant.enumerations : Constant → List Enumeration
  | literal v => v.enumerations
  | enumeration e => [e]

mutual

/-- The literals and enumerations that a term shows. -/
def Term.constants : Term → List Constant
  | .literal v => [.literal v]
  | .entity _ | .iterator _ => []
  | .enumeration e => [.enumeration e]
  | .set members => members.map .literal
  | .list ts | .element _ ts | .call _ ts => allConstants ts
  | .unary _ t => t.constants
  | .span _ a b | .binary _ a b => a.constants ++ b.constants
  | .comprehension _ heads body => headConstants heads ++ body.constants

def allConstants : List Term → List Constant
  | [] => []
  | t :: ts => t.constants ++ allConstants ts

def headConstants : List (Symbol × Term) → List Constant
  | [] => []
  | (_, domain) :: heads => domain.constants ++ headConstants heads

end

@[simp] theorem mem_allConstants {k : Constant} {ts : List Term} :
    k ∈ allConstants ts ↔ ∃ t ∈ ts, k ∈ t.constants := by
  induction ts with
  | nil => simp [allConstants]
  | cons t ts ih => simp [allConstants, ih]

/-- The enumerations that have to be declared for a term to be read. -/
def Term.enumerations (t : Term) : List Enumeration :=
  t.constants.flatMap Constant.enumerations

theorem Term.mem_enumerations {t : Term} {x : Enumeration} :
    x ∈ t.enumerations ↔ ∃ k ∈ t.constants, x ∈ k.enumerations :=
  List.mem_flatMap

end Source

/-! ## Spelling -/

theorem mem_allEnumerations {x : Enumeration} {es : List Expr} :
    x ∈ allEnumerations es ↔ ∃ e ∈ es, x ∈ e.enumerations := by
  induction es with
  | nil => simp [allEnumerations]
  | cons e es ih => simp [allEnumerations, ih]

/-- Reading the term takes no other enumerations than the given ones. -/
def Source.Term.Within (xs : List Enumeration) (t : Term) : Prop :=
  t.enumerations ⊆ xs

theorem Source.Term.Within.mono {xs ys : List Enumeration} {t : Term} (h : t.Within xs)
    (hsub : xs ⊆ ys) : t.Within ys :=
  fun _ hx => hsub (h hx)

theorem allWithin {xs : List Enumeration} {ts : List Term} (h : ∀ t ∈ ts, t.Within xs) :
    (allConstants ts).flatMap Constant.enumerations ⊆ xs := by
  intro x hx
  obtain ⟨k, hk, hx⟩ := List.mem_flatMap.1 hx
  obtain ⟨t, ht, hk⟩ := mem_allConstants.1 hk
  exact h t ht (Term.mem_enumerations.2 ⟨k, hk, hx⟩)

theorem pair_within {xs : List Enumeration} {a b : Term} (ha : a.Within xs) (hb : b.Within xs) :
    (a.constants ++ b.constants).flatMap Constant.enumerations ⊆ xs := by
  rw [List.flatMap_append]
  exact List.append_subset.2 ⟨ha, hb⟩

theorem compositional_within (xs : List Enumeration) : Compositional (Term.Within xs) where
  int _ := by simp [Term.Within, Term.enumerations, Term.int, Term.constants, Constant.enumerations,
    Literal.enumerations]
  list _ h := allWithin h
  call _ _ h := allWithin h
  element _ _ _ h := allWithin h
  span _ _ _ ha hb := pair_within ha hb
  binary _ _ _ ha hb := pair_within ha hb

theorem Source.Cut.All.imp {P Q : Term → Prop} (h : ∀ t, P t → Q t) {c : Cut} (hc : c.All P) :
    c.All Q := by
  cases c with
  | index i => exact h _ hc
  | slice _ _ => exact ⟨h _ hc.1, h _ hc.2⟩

theorem cuts_within {ps : List Position} {cs : List Cut}
    (h : List.Forall₂ (CutSpelled fun e t => t.Within e.enumerations) ps cs) :
    ∀ c ∈ cs, c.All (Term.Within (positionEnumerations ps)) := by
  induction h with
  | nil => simp
  | @cons p c ps cs hp _ ih =>
      have hrest : positionEnumerations ps ⊆ positionEnumerations (p :: ps) := by
        cases p <;> simp [positionEnumerations]
      refine List.forall_mem_cons.2 ⟨?_, fun c hc => (ih c hc).imp fun _ ht => ht.mono hrest⟩
      cases hp with
      | index hi => exact hi.mono (by simp [positionEnumerations])
      | slice hfirst hlast =>
          refine (compositional_within _).ofSlice (hfirst.mono ?_) (hlast.mono ?_)
          · simp [positionEnumerations]
          · simp [positionEnumerations]

theorem heads_within {v : Vocabulary} {scope inner : Scope} {gs : List Generator}
    {hs : List (Symbol × Term)}
    (h : HeadsSpelled v (fun _ e t => t.Within e.enumerations) scope gs hs inner) :
    (headConstants hs).flatMap Constant.enumerations ⊆ generatorEnumerations gs := by
  induction h with
  | nil => simp [headConstants]
  | cons ht _ ih =>
      rw [headConstants, List.flatMap_append]
      exact List.append_subset.2
        ⟨fun _ hx => List.mem_append_left _ (ht hx), fun _ hx => List.mem_append_right _ (ih hx)⟩

theorem items_within {es : List Expr} {ts : List Term}
    (h : List.Forall₂ (fun e t => t.Within e.enumerations) es ts) :
    ∀ t ∈ ts, t.Within (allEnumerations es) := by
  intro t ht
  obtain ⟨e, he, hwithin⟩ := exists_of_mem_right h ht
  exact hwithin.mono fun x hx => mem_allEnumerations.2 ⟨e, he, hx⟩

theorem args_within {flatten : Bool} {es : List Expr} {us : List Term}
    (h : List.Forall₂ (ArgSpelled flatten fun e t => t.Within e.enumerations) es us) :
    ∀ u ∈ us, u.Within (allEnumerations es) := by
  refine items_within (h.imp ?_)
  rintro e _ ⟨t, ht, rfl⟩
  exact (compositional_within _).argTerm ht

theorem spellingRules_within (v : Vocabulary) :
    SpellingRules v fun _ e t => t.Within e.enumerations where
  literal _ l _ := by
    simp [Term.Within, Term.enumerations, Term.constants, Constant.enumerations, Expr.enumerations]
  setLiteral _ ls _ := by
    simp [Term.Within, Term.enumerations, Term.constants, Constant.enumerations, Expr.enumerations,
      List.flatMap_map]
  entity _ _ _ _ _ _ := List.nil_subset _
  view _ _ _ positions _ cs _ _ hcuts := by
    refine (compositional_within _).viewTerm (List.nil_subset _) fun c hc => ?_
    exact (cuts_within hcuts c hc).imp fun _ ht => ht.mono (List.subset_append_right _ _)
  range _ _ _ _ _ _ _ _ hfirst hlast :=
    (compositional_within _).spanOf (hfirst.mono (List.subset_append_left _ _))
      (hlast.mono (List.subset_append_right _ _))
  sequence _ _ _ hts := allWithin (items_within hts)
  enumeration _ _ := List.Subset.refl _
  iterator _ _ _ _ _ := List.nil_subset _
  unary _ _ _ _ ht := ht
  binary _ _ _ _ _ _ _ h₁ h₂ := pair_within (h₁.mono (List.subset_append_left _ _))
    (h₂.mono (List.subset_append_right _ _))
  power _ _ _ _ _ h₁ h₂ := by
    refine (compositional_within _).call _ _ (List.forall_mem_cons.2 ⟨?_, ?_⟩)
    · exact h₁.mono (List.subset_append_left _ _)
    · exact List.forall_mem_singleton.2 (h₂.mono (List.subset_append_right _ _))
  size _ _ _ _ _ _ _ := (compositional_within _).sizeTerm (List.nil_subset _)
  aggregate _ _ _ _ hts := allWithin (args_within hts)
  comprehension _ _ _ _ _ _ _ hheads hbody := by
    rw [Term.Within, Term.enumerations, Term.constants, List.flatMap_append]
    exact List.append_subset.2 ⟨fun _ hx => List.mem_append_left _ (heads_within hheads hx),
      fun _ hx => List.mem_append_right _ (hbody hx)⟩
  global _ _ _ _ hts := allWithin (args_within hts)

/-- The enumerations that the term of an expression takes are collected from the expression. -/
theorem term_within {v : Vocabulary} {scope : Scope} {e : Expr} {t : Term}
    (h : e.term v scope = .ok t) : t.Within e.enumerations :=
  Expr.term_induction (spellingRules_within v) h

/-! ## Types -/

theorem EnumValue.name_mem (v : EnumValue) : v.name ∈ v.type.variants :=
  List.get_mem _ _

theorem widen_ne_enumeration {a b : ElemType} {x : Enumeration} :
    a.widen b ≠ .ok (.enumeration x) := by
  cases a <;> cases b <;> simp [ElemType.widen, pure, Except.pure, throw, throwThe,
    MonadExceptOf.throw]

theorem rangeType_ne_enumeration {a b : ElemType} {x : Enumeration} :
    rangeType a b ≠ .ok (.enumeration x) := by
  unfold rangeType
  cases a <;> cases b <;> exact fun h => by cases h

theorem mem_of_literalsType {kind : CollectionKind} {vs : List Literal} {x : Enumeration}
    (h : literalsType kind vs = .ok (.enumeration x)) : x ∈ vs.flatMap Literal.enumerations := by
  cases vs with
  | nil => exact absurd h throw_ne_ok
  | cons v vs =>
      rw [literalsType, pure_eq_ok] at h
      cases v <;> simp_all [Literal.elemType, Literal.enumerations]

theorem aggregateType_eq_enumeration {op : Aggregate} {members : ElemType} {x : Enumeration}
    (h : aggregateType op members = .ok (.enumeration x)) : members = .enumeration x := by
  cases op with
  | sum | product => exact absurd h widen_ne_enumeration
  | count => cases h
  | every | any =>
      rw [aggregateType] at h
      split_ifs at h
      cases h
  | least | greatest =>
      rw [aggregateType] at h
      split_ifs at h
      cases h
      rfl

theorem Domain.mem_enumerations_of_elemType {domain : Domain} {x : Enumeration}
    (h : domain.elemType = .ok (.enumeration x)) : x ∈ domain.enumerations := by
  cases domain with
  | range start stop =>
      simp only [Domain.elemType, bind_eq_ok] at h
      obtain ⟨a, -, b, -, h⟩ := h
      exact absurd h rangeType_ne_enumeration
  | enumeration e =>
      rw [Domain.elemType, pure_eq_ok] at h
      cases h
      exact List.mem_singleton_self x
  | _ =>
      rw [Domain.elemType, pure_eq_ok] at h
      cases h

theorem Literal.mem_enumerations_of_elemType {l : Literal} {x : Enumeration}
    (h : l.elemType = .enumeration x) : x ∈ l.enumerations := by
  cases l <;> cases h
  exact List.mem_singleton_self _

theorem ElemType.mem_enumerations {t : ElemType} {x : Enumeration} :
    x ∈ t.enumerations ↔ t = .enumeration x := by
  cases t <;> simp [ElemType.enumerations, eq_comm]

/-- The enumeration that an expression has as its type is collected from it. -/
theorem Expr.mem_enumerations_of_elemType {x : Enumeration} :
    ∀ e : Expr, e.elemType = .ok (.enumeration x) → x ∈ e.enumerations
  | .literal v, h | .param _ v, h => by
      rw [Expr.elemType, pure_eq_ok] at h
      exact Literal.mem_enumerations_of_elemType h
  | .var _ domain, h | .varArray _ domain _, h | .varSet _ domain, h => by
      rw [Expr.elemType] at h
      exact Domain.mem_enumerations_of_elemType h
  | .boundVar _ type value, h => by
      rw [Expr.elemType, pure_eq_ok] at h
      exact List.mem_append_left _ (ElemType.mem_enumerations.2 h)
  | .iterator _ type, h => by
      rw [Expr.elemType, pure_eq_ok] at h
      exact ElemType.mem_enumerations.2 h
  | .derivedParam _ value, h => by
      rw [Expr.elemType] at h
      exact mem_enumerations_of_elemType value h
  | .paramArray _ values _, h | .paramSet _ (.listed values), h | .setLiteral values, h => by
      rw [Expr.elemType] at h
      exact mem_of_literalsType h
  | .paramSet _ (.interval ..), h | .size .., h => by
      rw [Expr.elemType, pure_eq_ok] at h
      cases h
  | .view array _, h => by
      rw [Expr.elemType] at h
      exact List.mem_append_left _ (mem_enumerations_of_elemType array h)
  | .range start stop, h => by
      simp only [Expr.elemType, bind_eq_ok] at h
      obtain ⟨a, -, b, -, h⟩ := h
      exact absurd h rangeType_ne_enumeration
  | .sequence [], h => absurd h throw_ne_ok
  | .sequence (e :: es), h => by
      simp only [Expr.elemType, commonType, bind_eq_ok, pure_eq_ok] at h
      obtain ⟨t, ht, -, -, rfl⟩ := h
      exact List.mem_append_left _ (mem_enumerations_of_elemType e ht)
  | .enumeration e, h => by
      rw [Expr.elemType, pure_eq_ok] at h
      cases h
      exact List.mem_singleton_self x
  | .unary .not operand, h => by
      simp only [Expr.elemType, bind_eq_ok, pure_eq_ok] at h
      obtain ⟨-, -, h⟩ := h
      cases h
  | .unary .negate operand, h | .unary .absolute operand, h => by
      simp only [Expr.elemType, bind_eq_ok] at h
      obtain ⟨t, -, h⟩ := h
      exact absurd h widen_ne_enumeration
  | .binary op left right, h => by
      rw [Expr.elemType] at h
      split_ifs at h
      · simp only [bind_eq_ok, arithmeticType, pure_eq_ok] at h
        obtain ⟨a, -, b, -, t, ht, h⟩ := h
        split_ifs at h
        subst h
        exact absurd ht widen_ne_enumeration
      · simp only [bind_eq_ok, pure_eq_ok] at h
        obtain ⟨-, -, -, -, h⟩ := h
        cases h
      · simp only [bind_eq_ok, pure_eq_ok] at h
        obtain ⟨-, -, -, -, h⟩ := h
        cases h
  | .power base exponent, h => by
      simp only [Expr.elemType, bind_eq_ok] at h
      obtain ⟨a, -, b, -, h⟩ := h
      exact absurd h widen_ne_enumeration
  | .aggregate op [], h => by
      simp only [Expr.elemType, bind_eq_ok, firstType] at h
      obtain ⟨t, ht, -⟩ := h
      exact absurd ht throw_ne_ok
  | .aggregate op (e :: es), h => by
      simp only [Expr.elemType, bind_eq_ok, firstType] at h
      obtain ⟨t, ⟨-, -, ht⟩, h⟩ := h
      rw [aggregateType_eq_enumeration h] at ht
      exact List.mem_append_left _ (mem_enumerations_of_elemType e ht)
  | .comprehension op generators body, h => by
      have hbody : ∃ t, body.elemType = .ok t ∧ aggregateType op t = .ok (.enumeration x) := by
        rw [Expr.elemType] at h
        split_ifs at h
        all_goals simp only [bind_eq_ok] at h
        · obtain ⟨-, -, -, -, t, ht, h⟩ := h
          exact ⟨t, ht, h⟩
        · obtain ⟨-, -, t, ht, h⟩ := h
          exact ⟨t, ht, h⟩
      obtain ⟨t, ht, h⟩ := hbody
      rw [aggregateType_eq_enumeration h] at ht
      exact List.mem_append_right _ (mem_enumerations_of_elemType body ht)
  | .global kind args, h => by
      simp only [Expr.elemType, bind_eq_ok, pure_eq_ok] at h
      obtain ⟨-, -, h⟩ := h
      cases kind <;> cases h

end ConstraintModel
