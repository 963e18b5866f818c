import ConstraintModel.Proofs.Domains
import ConstraintModel.Proofs.Leaves
import ConstraintModel.Proofs.Naming
import ConstraintModel.Proofs.Predictions

/-!
# Types of results

The type that is inferred for an expression is that of everything it comes to, if its leaves have
values of their own types. So a variable that is made to equal an operation is declared with a type
that has every value of the operation.
-/

namespace ConstraintModel

variable {lib : Library} {σ : Assignment}

/-! ## Expressions -/

mutual

/-- The inferred type of an expression predicts what it comes to. -/
theorem Expr.predicted (hlib : lib.Typed) : ∀ (e : Expr) {types : IteratorTypes} {ρ : Iteration},
    e.Regular types → ρ.Typed types → σ.Types e.expanded.leaves → e.PredictedAt lib σ ρ
  | .literal _, _, _, _, _, _ => by
      rintro t x ⟨⟩ ⟨⟩
      exact .of_scalar rfl rfl
  | .var .., _, _, _, _, hσ | .boundVar .., _, _, _, _, hσ | .param .., _, _, _, _, hσ
  | .varArray .., _, _, _, _, hσ | .paramArray .., _, _, _, _, hσ | .varSet .., _, _, _, _, hσ
  | .paramSet .., _, _, _, _, hσ => leaf_predicted rfl hσ rfl
  | .derivedParam _ value, _, ρ, ⟨⟨_, _, hbind⟩, hvalue⟩, _, hσ =>
    derivedParam_predicted hbind (value.predicted hlib hvalue (.nil ρ) hσ)
  | .setLiteral _, _, _, hset, _, _ => setLiteral_predicted hset
  | .view .., _, _, _, _, hσ => view_predicted hσ
  | .range a b, _, _, ⟨ha, hb⟩, hρ, hσ =>
    range_predicted (a.predicted hlib ha hρ hσ.left) (b.predicted hlib hb hρ hσ.right)
  | .sequence es, _, _, ⟨hscalar, hes⟩, hρ, hσ =>
    sequence_predicted hscalar (all_predicted hlib es hes hρ hσ)
  | .enumeration e, _, _, _, _, _ => enumeration_predicted e
  | .iterator .., _, _, hid, hρ, _ => iterator_predicted hid hρ
  | .unary _ e, _, _, he, hρ, hσ => unary_predicted (e.predicted hlib he hρ hσ)
  | .binary _ a b, _, _, ⟨ha, hb⟩, hρ, hσ =>
    binary_predicted (a.predicted hlib ha hρ hσ.left) (b.predicted hlib hb hρ hσ.right)
  | .power a b, _, _, ⟨ha, hb⟩, hρ, hσ =>
    power_predicted (a.predicted hlib ha hρ hσ.left) (b.predicted hlib hb hρ hσ.right)
  | .size array dim, _, _, _, _, _ => size_predicted array dim
  | .aggregate _ es, _, _, hes, hρ, hσ => aggregate_predicted (all_predicted hlib es hes hρ hσ)
  | .comprehension _ gs body, _, _, ⟨hgs, hbody⟩, hρ, hσ => by
      apply comprehension_predicted
      intro rounds hrounds ρ' hρ'
      have htyped := rounds_typed hlib gs hgs hρ hσ.left hrounds ρ' hρ'
      exact body.predicted hlib hbody htyped hσ.right
  | .global kind es, _, _, _, _, _ => global_predicted hlib kind es

theorem all_predicted (hlib : lib.Typed) : ∀ (es : List Expr) {types : IteratorTypes}
    {ρ : Iteration}, allRegular es types → ρ.Typed types → σ.Types (allLeaves (allExpanded es)) →
      ∀ e ∈ es, e.PredictedAt lib σ ρ
  | [], _, _, _, _, _ => fun _ he => nomatch he
  | e :: es, _, _, ⟨he, hes⟩, hρ, hσ => List.forall_mem_cons.2
      ⟨e.predicted hlib he hρ hσ.left, all_predicted hlib es hes hρ hσ.right⟩

/-- Iterators have the types of their domains in every round. -/
theorem rounds_typed (hlib : lib.Typed) : ∀ (gs : List Generator) {types : IteratorTypes}
    {ρ : Iteration} {rounds : List Iteration}, generatorsRegular gs types → ρ.Typed types →
      σ.Types (generatorLeaves (generatorsExpanded gs)) →
        resultRounds lib σ gs ρ = some rounds →
          ∀ ρ' ∈ rounds, ρ'.Typed (types.inside gs)
  | [], _, ρ, rounds, _, hρ, _, hrounds => by
      cases hrounds
      intro ρ' hρ'
      rw [List.mem_singleton.1 hρ']
      exact hρ
  | .over id type domain :: gs, types, ρ, rounds, ⟨hdomain, ⟨n, n', hbind⟩, hgs⟩, hρ, hσ,
      hrounds => by
      obtain ⟨_, htype, ⟨⟩, -⟩ := generator_bind_eq_ok hbind
      simp only [resultRounds, Option.bind_eq_bind, Option.bind_eq_some_iff,
        Option.pure_def, Option.some.injEq] at hrounds
      obtain ⟨x, hx, members, hmembers, results, hresults, rfl⟩ := hrounds
      have hpredicts := domain.predicted hlib hdomain hρ hσ.left type x htype hx
      intro ρ' hρ'
      obtain ⟨result, hresult, hρ'⟩ := List.mem_flatten.1 hρ'
      obtain ⟨m, hm, hinner⟩ := exists_of_mem_mapM hresults hresult
      -- A round begins with a member of the first domain, and the domains inside see it.
      obtain ⟨l, rfl, hl⟩ := hpredicts.type.members hmembers m hm
      exact rounds_typed hlib gs hgs (hρ.cons _ hl) hσ.right hinner ρ' hρ'

end

/-! ## Results and values -/

/-- Whether a node comes to the value of what is in it: a derived parameter has the value that it comes
to, and a sum or product is not of floats. -/
def Expr.IsOrdinary (lib : Library) (σ : Assignment) : Expr → Prop
  | .derivedParam id value => ∀ ρ, value.result lib σ ρ = some (σ id)
  | .aggregate op args => op = .sum ∨ op = .product → firstType args ≠ .ok .float
  | .comprehension op _ body => op = .sum ∨ op = .product → body.elemType ≠ .ok .float
  | _ => True

theorem comesTo_eq {op : Aggregate} {type : Except ModelError ElemType}
    (h : op = .sum ∨ op = .product → type ≠ .ok .float) (members : Option (List Value))
    (value : Option Value) : op.comesTo type members value = value := by
  unfold Aggregate.comesTo
  split
  · exact absurd rfl (h (.inl rfl))
  · exact absurd rfl (h (.inr rfl))
  · rfl

theorem allResults_eq {es : List Expr} {ρ : Iteration}
    (h : ∀ e ∈ es, ∀ ρ, e.result lib σ ρ = e.value lib σ ρ) :
    allResults lib σ es ρ = allValues lib σ es ρ := by
  induction es with
  | nil => rfl
  | cons e es ih =>
      obtain ⟨he, hes⟩ := List.forall_mem_cons.1 h
      simp only [allResults, allValues, he, ih hes]

theorem resultChoices_eq {ps : List Position} {ρ : Iteration}
    (h : ∀ e ∈ ps.flatMap Position.operands, ∀ ρ, e.result lib σ ρ = e.value lib σ ρ) :
    resultChoices lib σ ps ρ = positionChoices lib σ ps ρ := by
  induction ps with
  | nil => rfl
  | cons p ps ih =>
      obtain ⟨hp, hps⟩ := List.forall_mem_append.1 (List.flatMap_cons ▸ h)
      cases p with
      | index i =>
          have hi := hp i (List.mem_singleton_self i)
          simp only [resultChoices, positionChoices, hi, ih hps]
      | slice start stop =>
          have hstart := hp start List.mem_cons_self
          have hstop := hp stop (List.mem_cons_of_mem _ List.mem_cons_self)
          simp only [resultChoices, positionChoices, hstart, hstop, ih hps]

theorem resultRounds_eq {gs : List Generator} {ρ : Iteration}
    (h : ∀ e ∈ gs.map Generator.domain, ∀ ρ, e.result lib σ ρ = e.value lib σ ρ) :
    resultRounds lib σ gs ρ = iterations lib σ gs ρ := by
  induction gs generalizing ρ with
  | nil => rfl
  | cons g gs ih =>
      obtain ⟨id, type, domain⟩ := g
      obtain ⟨hdomain, hgs⟩ := List.forall_mem_cons.1 h
      have hdomain : domain.result lib σ ρ = domain.value lib σ ρ := hdomain ρ
      simp only [resultRounds, iterations, hdomain, ih hgs]

/-- If all that an expression depends on is ordinary, then it comes to its value. -/
theorem result_eq_value {e : Expr} (h : ∀ s, e.Reaches s → s.IsOrdinary lib σ) (ρ : Iteration) :
    e.result lib σ ρ = e.value lib σ ρ := by
  induction e using Expr.operands_induction generalizing ρ with
  | step e ih =>
      have hparts (s : Expr) (hs : s ∈ e.operands) (ρ : Iteration) :
          s.result lib σ ρ = s.value lib σ ρ :=
        ih s hs (fun r hr => h r (.head hs hr)) ρ
      have hnode : e.IsOrdinary lib σ := h e .refl
      cases e with
      | derivedParam id value => exact hnode ρ
      | view array ps =>
          have hchoices : resultChoices lib σ ps ρ = positionChoices lib σ ps ρ :=
            resultChoices_eq fun s hs =>
              hparts s (List.mem_append_left _ (List.mem_append_right _ hs))
          simp only [Expr.result, Expr.value, hchoices]
      | range a b | binary op a b | power a b =>
          have ha := hparts a List.mem_cons_self ρ
          have hb := hparts b (List.mem_cons_of_mem _ List.mem_cons_self) ρ
          simp only [Expr.result, Expr.value, ha, hb]
      | unary op operand =>
          simp only [Expr.result, Expr.value, hparts operand List.mem_cons_self]
      | sequence es | global kind es =>
          have hes : allResults lib σ es ρ = allValues lib σ es ρ := allResults_eq fun s hs =>
            hparts s (List.mem_append_left _ (List.mem_append_left _ hs))
          simp only [Expr.result, Expr.value, hes]
      | aggregate op es =>
          have hes : allResults lib σ es ρ = allValues lib σ es ρ := allResults_eq fun s hs =>
            hparts s (List.mem_append_left _ (List.mem_append_left _ hs))
          simp only [Expr.result, Expr.value, hes, comesTo_eq hnode]
      | comprehension op gs body =>
          have hgs : resultRounds lib σ gs ρ = iterations lib σ gs ρ :=
            resultRounds_eq fun s hs => hparts s
              (List.mem_append_left _ (List.mem_append_left _ (List.mem_append_left _ hs)))
          have hbody := hparts body (List.mem_append_left _ (List.mem_append_left _
            (List.mem_append_right _ (List.mem_singleton_self body))))
          simp only [Expr.result, Expr.value, hgs, hbody, comesTo_eq hnode]
      | _ => simp only [Expr.result, Expr.value]

/-! ## Bound variables -/

/-- Whether a variable is declared with the type of a value, and everything of that type compares
with the value, but for floats that have no order. -/
def Expr.Admits (e : Expr) (x : Value) : Prop :=
  ∃ l, x = .scalar l ∧
    (∀ v name, ∃ s, e.declaration v name = .ok ⟨.scalar true (.type l.elemType), s, none⟩) ∧
    ∀ m : Literal, m.elemType = l.elemType →
      (∃ b, BinaryOp.eq.apply (.scalar m) x = some (.bool b)) ∨
        ∃ y z, m = .float y ∧ l = .float z ∧ floatOrder y z = none

theorem Expr.Predicts.admits {e : Expr} {t : ElemType} {x : Value} (h : e.Predicts t x)
    (hop : e.isOperation = true) (id : NodeId) : (Expr.boundVar id t e).Admits x := by
  obtain ⟨l, rfl, rfl⟩ := h.scalar (isCollection_of_isOperation hop)
  exact ⟨l, rfl, fun _ name => ⟨⟨id, name⟩, rfl⟩, fun _ hm => apply_eq_same hm⟩

theorem bindVar_operation {e e' : Expr} {n n' : Nat} (h : e.bindVar.run n = (.ok e', n')) :
    e.isOperation = true ∧ ∃ t, e.elemType = .ok t ∧ ∃ id, e' = .boundVar id t e := by
  have hrun := h
  simp only [Expr.bindVar, build_bind_eq_ok, build_lift_eq_ok] at h
  obtain ⟨_, _, ⟨hbinding, -⟩, -⟩ := h
  have hop := (bindingType_eq_ok hbinding).1
  cases bindVar_eq_ok hop hrun with
  | leaf hnone => simp [hop] at hnone
  | operation _ htype => exact ⟨hop, _, htype, _, rfl⟩

theorem mem_claimants {held : List NodeId} {attributes : List (String × Expr)} {name : String}
    {e : Expr} (h : (name, e) ∈ attributes) (hop : e.isOperation = true) :
    (name, e) ∈ claimants held attributes := by
  induction attributes generalizing held with
  | nil => cases h
  | cons entry attributes ih =>
      obtain ⟨name', e'⟩ := entry
      rcases List.mem_cons.1 h with heq | h
      · cases heq
        rw [claimants, if_pos hop]
        exact List.mem_cons_self
      · rw [claimants]
        split_ifs
        · exact List.mem_cons_of_mem _ (ih h)
        · split
          · exact ih h
          · split_ifs
            · exact ih h
            · exact List.mem_cons_of_mem _ (ih h)

/-- Every operation among the attributes of a model is declared as a variable of its type. -/
theorem resolve_operation {model : Model} {n n' : Nat} {r : ResolvedModel}
    (hids : ∀ id ∈ model.ids, id.number < n) (h : model.resolve.run n = (.ok r, n'))
    {name : String} {e : Expr} (he : (name, e) ∈ model.attributes) (hop : e.isOperation = true) :
    ∃ id t, e.elemType = .ok t ∧ (name, .boundVar id t e) ∈ r.decisions := by
  obtain ⟨entries, hentries, hr, -⟩ := resolve_entities hids h
  obtain ⟨entry, hentry, hdeclared⟩ := exists_of_mem_left hentries (mem_claimants he hop)
  have hdecisions : r.decisions = entries.filter fun entry => !entry.2.isParameter :=
    congrArg Entities.decisions hr
  rw [hdecisions]
  cases hdeclared with
  | leaf hnone _ => simp [hop] at hnone
  | operation _ htype _ =>
      exact ⟨_, _, htype, List.mem_filter.2 ⟨hentry, rfl⟩⟩

/-- Where leaves have values of their own types, an expression comes to what its type predicts: a
scalar of it, or members of it for a collection. So the variable that is made to equal an operation,
on its own or as an attribute of a model, is declared with the type of every value that the
operation comes to. -/
theorem types_predict_results {lib : Library} (hlib : lib.Typed) (σ : Assignment) :
    (∀ (e : Expr) (types : IteratorTypes) (ρ : Iteration) (t : ElemType) (x : Value),
      e.Regular types → ρ.Typed types → σ.Types e.expanded.leaves → e.elemType = .ok t →
        e.result lib σ ρ = some x → e.Predicts t x) ∧
    (∀ (e e' : Expr) (types : IteratorTypes) (ρ : Iteration) (n n' : Nat) (x : Value),
      e.bindVar.run n = (.ok e', n') → e.Regular types → ρ.Typed types →
        σ.Types e.expanded.leaves → e.result lib σ ρ = some x → e'.Admits x) ∧
    ∀ (model : Model) (n n' : Nat) (r : ResolvedModel), (∀ id ∈ model.ids, id.number < n) →
      model.resolve.run n = (.ok r, n') →
        ∀ name e, (name, e) ∈ model.attributes → e.isOperation = true →
          ∃ id t, (name, .boundVar id t e) ∈ r.decisions ∧
            ∀ x, e.Regular [] → σ.Types e.expanded.leaves → e.result lib σ [] = some x →
              (Expr.boundVar id t e).Admits x := by
  refine ⟨fun e types ρ t x hregular hρ hσ ht hx => ?_,
    fun e e' types ρ n n' x hbind hregular hρ hσ hx => ?_,
    fun model n n' r hids hresolve name e he hop => ?_⟩
  · exact e.predicted hlib hregular hρ hσ t x ht hx
  · obtain ⟨hop, t, ht, id, rfl⟩ := bindVar_operation hbind
    exact (e.predicted hlib hregular hρ hσ t x ht hx).admits hop id
  · obtain ⟨id, t, ht, hdecision⟩ := resolve_operation hids hresolve he hop
    refine ⟨id, t, hdecision, fun x hregular hσ hx => ?_⟩
    exact (e.predicted hlib hregular (.nil []) hσ t x ht hx).admits hop id

/-- How many distinct values three integers have, one half more, and that twice. -/
def distinctTotal : Expr :=
  .comprehension .sum [.over ⟨1⟩ .int (.range (.literal (.int 0)) (.literal (.int 2)))]
    (.binary .add (.global .distinctCount [.varArray ⟨0⟩ .int ⟨[3]⟩]) (.literal (.float 0.5)))

/-- A library that counts distinct integers and leaves all else undefined. -/
def distinctLibrary : Library
  | .distinctCount, [c] => do return .int ((← c.intMembers?).dedup.length : Nat)
  | _, _ => none

def distinctAssignment : Assignment := fun _ => .array (zeroBased [3]) [.int 4, .int 7, .int 4]

def distinctModel : Model where
  attributes := [("a", .varArray ⟨0⟩ .int ⟨[3]⟩), ("total", distinctTotal)]
  constraints := []
  objective := .satisfy

theorem distinctLibrary_typed : distinctLibrary.Typed where
  count xs x h := by
    unfold distinctLibrary at h
    split at h
    · simp only [Option.bind_eq_bind, Option.bind_eq_some_iff, Option.pure_def,
        Option.some.injEq] at h
      obtain ⟨_, -, rfl⟩ := h
      exact ⟨_, rfl⟩
    · cases h
  constraint kind xs x hkind h := by
    unfold distinctLibrary at h
    split at h
    · exact absurd rfl hkind
    · cases h

theorem distinctTotal_regular : distinctTotal.Regular [] :=
  ⟨⟨⟨trivial, trivial⟩, ⟨1, 2, rfl⟩, trivial⟩, ⟨trivial, trivial⟩, trivial⟩

theorem distinctAssignment_types : distinctAssignment.Types distinctTotal.expanded.leaves := by
  have hleaves : distinctTotal.expanded.leaves = [.varArray ⟨0⟩ .int ⟨[3]⟩] := rfl
  intro l hl id t hid ht
  rw [hleaves, List.mem_singleton] at hl
  subst hl
  cases ht
  refine ⟨?_, rfl⟩
  exact List.forall_mem_cons.2 ⟨⟨_, rfl, rfl⟩, List.forall_mem_cons.2
    ⟨⟨_, rfl, rfl⟩, List.forall_mem_singleton.2 ⟨_, rfl, rfl⟩⟩⟩

theorem types_predict_results_distinctTotal : ∃ r n' x,
    distinctModel.resolve.run 2 = (.ok r, n') ∧
    distinctTotal.result distinctLibrary distinctAssignment [] = some x ∧
    distinctTotal.Predicts .float x ∧
    (∃ id t, ("total", .boundVar id t distinctTotal) ∈ r.decisions ∧
      (Expr.boundVar id t distinctTotal).Admits x) ∧
    distinctTotal.bindVar.run 2 = (.ok (.boundVar ⟨2⟩ .float distinctTotal), 3) ∧
    (Expr.boundVar ⟨2⟩ .float distinctTotal).Admits x := by
  have hsome : (distinctTotal.result distinctLibrary distinctAssignment []).isSome = true := rfl
  obtain ⟨x, hx⟩ := Option.isSome_iff_exists.1 hsome
  obtain ⟨hpredicts, hbind, hresolve⟩ :=
    types_predict_results distinctLibrary_typed distinctAssignment
  refine ⟨_, _, x, rfl, hx, ?_, ?_, rfl, ?_⟩
  · exact hpredicts distinctTotal [] [] .float x distinctTotal_regular (.nil [])
      distinctAssignment_types rfl hx
  · obtain ⟨id, t, hdecision, hadmits⟩ := hresolve distinctModel 2 _ _ (by decide) rfl "total"
      distinctTotal (List.mem_cons_of_mem _ List.mem_cons_self) rfl
    exact ⟨id, t, hdecision, hadmits x distinctTotal_regular distinctAssignment_types hx⟩
  · exact hbind distinctTotal _ [] [] 2 3 x rfl distinctTotal_regular (.nil [])
      distinctAssignment_types hx

end ConstraintModel
