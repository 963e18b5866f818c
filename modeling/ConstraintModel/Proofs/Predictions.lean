import ConstraintModel.Proofs.Collections
import ConstraintModel.Proofs.Leaves
import ConstraintModel.Proofs.Results
import ConstraintModel.Proofs.TypedParts
import ConstraintModel.Proofs.TypedValues
import ConstraintModel.Proofs.WellMade

/-!
# Predictions of types

What the type of an expression says about its value, and what that takes: leaves with values of
their own types, iterators with scalars of theirs, and nodes as their constructors make them. For
each kind of node, the type predicts the value if the types of its parts do.
-/

namespace ConstraintModel

/-! ## What a type predicts -/

/-- Whether a value is what the type of an expression says: one scalar of it, or members of it for a
collection. -/
structure Expr.Predicts (e : Expr) (t : ElemType) (x : Value) : Prop where
  type : x.HasType t
  several : x.members?.isSome = e.isCollection

/-- Whether every leaf has a value of its own type. -/
def Assignment.Types (σ : Assignment) (leaves : List Expr) : Prop :=
  ∀ l ∈ leaves, ∀ id t, l.id? = some id → l.elemType = .ok t → l.Predicts t (σ id)

/-- Whether every iterator has a scalar value of its type. -/
def Iteration.Typed (types : IteratorTypes) (ρ : Iteration) : Prop :=
  ∀ id t x, types.lookup id = some t → ρ.lookup id = some x →
    ∃ l, x = .scalar l ∧ l.elemType = t

/-- Whether a library counts distinct values by an integer and decides all other constraints. -/
structure Library.Typed (lib : Library) : Prop where
  count : ∀ xs x, lib .distinctCount xs = some x → ∃ n, x = .int n
  constraint : ∀ kind xs x, kind ≠ .distinctCount → lib kind xs = some x → ∃ b, x = .bool b

mutual

/-- Whether literal sets, derived parameters and generators are as their constructors make them, and
the items of sequences are scalars, behind iterators of the given types. -/
def Expr.Regular : Expr → IteratorTypes → Prop
  | .setLiteral values, _ => Expr.setOf values = .ok (.setLiteral values)
  | .derivedParam id value, _ =>
    (∃ n n', value.bindParam.run n = (.ok (.derivedParam id value), n')) ∧ value.Regular []
  | .view _ positions, types => positionsRegular positions types
  | .range a b, types | .binary _ a b, types | .power a b, types =>
    a.Regular types ∧ b.Regular types
  | .sequence es, types => (∀ e ∈ es, e.isCollection = false) ∧ allRegular es types
  | .iterator id type, types => types.lookup id = some type
  | .unary _ e, types => e.Regular types
  | .aggregate _ es, types | .global _ es, types => allRegular es types
  | .comprehension _ generators body, types =>
    generatorsRegular generators types ∧ body.Regular (types.inside generators)
  | _, _ => True

def allRegular : List Expr → IteratorTypes → Prop
  | [], _ => True
  | e :: es, types => e.Regular types ∧ allRegular es types

def positionsRegular : List Position → IteratorTypes → Prop
  | [], _ => True
  | .index i :: ps, types => i.Regular types ∧ positionsRegular ps types
  | .slice a b :: ps, types => (a.Regular types ∧ b.Regular types) ∧ positionsRegular ps types

def generatorsRegular : List Generator → IteratorTypes → Prop
  | [], _ => True
  | .over id type domain :: gs, types =>
    domain.Regular types ∧
      (∃ n n', (Generator.bind domain).run n = (.ok (.over id type domain), n')) ∧
      generatorsRegular gs ((id, type) :: types)

end

theorem Library.Typed.global {lib : Library} (h : lib.Typed) {kind : GlobalKind} {xs : List Value}
    {x : Value} (hx : lib kind xs = some x) : ∃ l, x = .scalar l ∧ l.elemType = kind.elemType := by
  by_cases hkind : kind = .distinctCount
  · subst hkind
    obtain ⟨n, rfl⟩ := h.count xs x hx
    exact ⟨_, rfl, rfl⟩
  · obtain ⟨b, rfl⟩ := h.constraint kind xs x hkind hx
    refine ⟨_, rfl, ?_⟩
    cases kind <;> first | rfl | exact absurd rfl hkind

namespace Assignment.Types

variable {σ : Assignment} {leaves leaves' : List Expr}

theorem left (h : σ.Types (leaves ++ leaves')) : σ.Types leaves :=
  fun l hl => h l (List.mem_append_left _ hl)

theorem right (h : σ.Types (leaves ++ leaves')) : σ.Types leaves' :=
  fun l hl => h l (List.mem_append_right _ hl)

end Assignment.Types

namespace Expr.Predicts

variable {e : Expr} {t : ElemType} {x : Value}

theorem scalar (h : e.Predicts t x) (he : e.isCollection = false) :
    ∃ l, x = .scalar l ∧ l.elemType = t := by
  obtain ⟨htype, hseveral⟩ := h
  cases x with
  | scalar l => exact ⟨l, rfl, htype⟩
  | _ => rw [he] at hseveral; cases hseveral

theorem of_scalar (he : e.isCollection = false) {l : Literal} (hl : l.elemType = t) :
    e.Predicts t (.scalar l) :=
  ⟨hl, he.symm⟩

end Expr.Predicts

theorem Iteration.Typed.nil (ρ : Iteration) : ρ.Typed [] :=
  fun _ _ _ h => nomatch h

theorem Iteration.Typed.cons {types : IteratorTypes} {ρ : Iteration} (h : ρ.Typed types)
    (id : NodeId) {l : Literal} {t : ElemType} (hl : l.elemType = t) :
    Iteration.Typed ((id, t) :: types) ((id, .scalar l) :: ρ) := by
  intro id' t' x ht hx
  rw [List.lookup_cons] at ht hx
  by_cases hid : (id' == id) = true
  · simp only [hid] at ht hx
    cases ht
    cases hx
    exact ⟨l, rfl, hl⟩
  · simp only [hid] at ht hx
    exact h id' t' x ht hx

theorem isCollection_of_isOperation {e : Expr} (h : e.isOperation = true) :
    e.isCollection = false := by
  cases e with
  | view array positions => simpa [Expr.isOperation, Expr.isCollection] using h
  | _ => first | rfl | cases h

/-! ## Parts of arrays -/

theorem takenElements_subset {extents : List Nat} {xs : List Value} {choices : List Choice} :
    takenElements extents xs choices ⊆ xs := by
  intro x hx
  obtain ⟨⟨index, x⟩, hmem, rfl⟩ := List.mem_map.1 hx
  exact (List.of_mem_zip (List.mem_of_mem_filter hmem)).2

variable {lib : Library} {σ : Assignment}

/-- As many dimensions are kept as there are slices. -/
theorem length_kept {ps : List Position} {ρ : Iteration} {choices : List Choice}
    (h : resultChoices lib σ ps ρ = some choices) :
    (choices.filterMap Choice.extent?).length = sliceCount ps := by
  induction ps generalizing choices with
  | nil =>
      cases h
      rfl
  | cons p ps ih =>
      cases p with
      | index i =>
          simp only [resultChoices, Option.bind_eq_bind,
            Option.bind_eq_some_iff, Option.pure_def, Option.some.injEq] at h
          obtain ⟨_, -, _, -, cs, hcs, rfl⟩ := h
          rw [List.filterMap_cons_none rfl, sliceCount, List.countP_cons_of_neg Bool.false_ne_true]
          exact ih hcs
      | slice a b =>
          simp only [resultChoices, Option.bind_eq_bind,
            Option.bind_eq_some_iff, Option.pure_def, Option.some.injEq] at h
          obtain ⟨_, -, _, -, _, -, _, -, cs, hcs, rfl⟩ := h
          rw [List.filterMap_cons_some (f := Choice.extent?) rfl, sliceCount,
            List.countP_cons_of_pos rfl, List.length_cons]
          exact congrArg (· + 1) (ih hcs)

/-- A part of an array of scalars is one of them, or an array of some of them. -/
theorem partOf_predicts {array : Expr} {ps : List Position} {ρ : Iteration} {t : ElemType}
    {extents : List Nat} {xs : List Value} {choices : List Choice} {x : Value}
    (hxs : ∀ y ∈ xs, ∃ l, y = .scalar l ∧ l.elemType = t)
    (hchoices : resultChoices lib σ ps ρ = some choices)
    (h : partOf extents xs choices = some x) : (Expr.view array ps).Predicts t x := by
  have hkept := length_kept hchoices
  unfold partOf at h
  split_ifs at h
  split at h
  · next hnone =>
      obtain ⟨l, rfl, hl⟩ := hxs x (takenElements_subset (List.mem_of_mem_head? h))
      refine .of_scalar ?_ hl
      rw [hnone] at hkept
      simp [Expr.isCollection, ← hkept]
  · next kept hsome =>
      cases h
      refine ⟨fun y hy => hxs y (takenElements_subset hy), ?_⟩
      have hne : sliceCount ps ≠ 0 := by
        rw [← hkept]
        exact fun hlength => hsome (List.length_eq_zero_iff.1 hlength)
      simp [Value.members?, Expr.isCollection, hne]

/-! ## Aggregates -/

/-- An aggregate comes to a scalar of its type if its value is one, unless it is a total of no
floats. -/
theorem comesTo_type {op : Aggregate} {s t : ElemType} {members : Option (List Value)}
    {value : Option Value} {y : Value} (ht : aggregateType op s = .ok t)
    (hvalue : value = some y → (∀ ms, members = some ms → ¬op.IsEmptyTotal s ms) →
      ∃ l, y = .scalar l ∧ l.elemType = t)
    (h : op.comesTo (.ok s) members value = some y) : ∃ l, y = .scalar l ∧ l.elemType = t := by
  unfold Aggregate.comesTo at h
  split at h
  · next heq =>
      cases heq
      cases h
      cases ht
      exact ⟨_, rfl, rfl⟩
  · next heq =>
      cases heq
      cases h
      cases ht
      exact ⟨_, rfl, rfl⟩
  · next hsum hproduct =>
      refine hvalue h ?_
      rintro ms hms ⟨hop, rfl, rfl⟩
      rcases hop with rfl | rfl
      · exact hsum rfl rfl hms
      · exact hproduct rfl rfl hms

/-! ## One rule for each kind of node -/

/-- Whether the type of an expression, if it has one, predicts what it comes to, if it comes to
anything. -/
def Expr.PredictedAt (lib : Library) (σ : Assignment) (ρ : Iteration) (e : Expr) : Prop :=
  ∀ t x, e.elemType = .ok t → e.result lib σ ρ = some x → e.Predicts t x

theorem bindingType_eq_ok {e : Expr} {t : ElemType} (h : e.bindingType = .ok t) :
    e.isOperation = true ∧ e.elemType = .ok t := by
  unfold Expr.bindingType at h
  split_ifs at h with hop
  exact ⟨hop, h⟩

theorem bindParam_isCollection {e p : Expr} {n n' : Nat} (h : e.bindParam.run n = (.ok p, n')) :
    e.isCollection = false := by
  simp only [Expr.bindParam, build_bind_eq_ok, build_lift_eq_ok] at h
  obtain ⟨t, k, ⟨htype, -⟩, -⟩ := h
  exact isCollection_of_isOperation (bindingType_eq_ok htype).1

theorem setOf_type {values : List Literal} {e : Expr} {t : ElemType}
    (h : Expr.setOf values = .ok e) (ht : literalsType .set values = .ok t) :
    ∀ l ∈ values, l.elemType = t := by
  simp only [Expr.setOf, bind_eq_ok] at h
  obtain ⟨⟨⟩, hmembers, -⟩ := h
  obtain ⟨s, -, htype, htyped⟩ := requireMembers_eq_ok hmembers
  have hst : s = t := Except.ok.inj ((htype .set).symm.trans ht)
  exact hst ▸ htyped

section Steps

variable {ρ : Iteration}

theorem leaf_predicted {e : Expr} {id : NodeId} (hid : e.id? = some id) (hσ : σ.Types [e])
    (hvalue : e.result lib σ ρ = some (σ id)) : e.PredictedAt lib σ ρ := by
  intro t x ht hx
  rw [hvalue] at hx
  cases hx
  exact hσ e (List.mem_singleton_self e) id t hid ht

theorem derivedParam_predicted {id : NodeId} {value p : Expr} {n n' : Nat}
    (hbind : value.bindParam.run n = (.ok p, n')) (h : value.PredictedAt lib σ ρ) :
    (Expr.derivedParam id value).PredictedAt lib σ ρ := by
  intro t x ht hx
  obtain ⟨l, rfl, hl⟩ := (h t x ht hx).scalar (bindParam_isCollection hbind)
  exact .of_scalar rfl hl

theorem setLiteral_predicted {values : List Literal} {e : Expr} (h : Expr.setOf values = .ok e) :
    (Expr.setLiteral values).PredictedAt lib σ ρ := by
  intro t x ht hx
  cases hx
  exact ⟨fun l hl => setOf_type h ht l (mem_of_mem_membersOf hl), rfl⟩

theorem view_predicted {array : Expr} {ps : List Position} {leaves : List Expr}
    (hσ : σ.Types (array :: leaves)) : (Expr.view array ps).PredictedAt lib σ ρ := by
  intro t x ht hx
  simp only [Expr.result, Option.bind_eq_bind,
    Option.bind_eq_some_iff] at hx
  obtain ⟨id, hid, shape, -, xs, hxs, choices, hchoices, hx⟩ := hx
  have harray := (hσ array List.mem_cons_self id t hid ht).type
  apply partOf_predicts _ hchoices hx
  unfold Assignment.elements? at hxs
  split at hxs
  · next is xs' hid' =>
      cases hxs
      rw [hid'] at harray
      exact harray
  · cases hxs

/-- Bounds that have integer values are of type int, and so is a range that has a value. -/
theorem range_predicted {a b : Expr} (ha : a.PredictedAt lib σ ρ) (hb : b.PredictedAt lib σ ρ) :
    (Expr.range a b).PredictedAt lib σ ρ := by
  intro t x ht hx
  simp only [Expr.result, Option.bind_eq_bind, Option.bind_eq_some_iff,
    Option.pure_def, Option.some.injEq] at hx
  obtain ⟨y, hy, i, hi, z, hz, j, hj, rfl⟩ := hx
  simp only [Expr.elemType, bind_eq_ok] at ht
  obtain ⟨s, hs, u, hu, ht⟩ := ht
  have hint : s = .int := (ha s y hs hy).type.int? hi
  have hint' : u = .int := (hb u z hu hz).type.int? hj
  subst hint hint'
  cases ht
  refine ⟨fun l hl => ?_, rfl⟩
  obtain ⟨k, -, rfl⟩ := List.mem_map.1 hl
  rfl

theorem results_eq_some {es : List Expr} {xs : List Value}
    (h : allResults lib σ es ρ = some xs) :
    List.Forall₂ (fun e x => e.result lib σ ρ = some x) es xs := by
  induction es generalizing xs with
  | nil =>
      cases h
      exact .nil
  | cons e es ih =>
      simp only [allResults, Option.bind_eq_bind, Option.bind_eq_some_iff,
        Option.pure_def, Option.some.injEq] at h
      obtain ⟨x, hx, xs, hxs, rfl⟩ := h
      exact .cons hx (ih hxs)

theorem sequence_predicted {es : List Expr} (hscalar : ∀ e ∈ es, e.isCollection = false)
    (hes : ∀ e ∈ es, e.PredictedAt lib σ ρ) : (Expr.sequence es).PredictedAt lib σ ρ := by
  intro t x ht hx
  simp only [Expr.result, Option.bind_eq_bind, Option.bind_eq_some_iff,
    Option.pure_def, Option.some.injEq] at hx
  obtain ⟨xs, hxs, rfl⟩ := hx
  refine ⟨fun y hy => ?_, rfl⟩
  obtain ⟨e, he, hy⟩ := exists_of_mem_right (results_eq_some hxs) hy
  exact (hes e he t y (commonType_eq_ok ht e he) hy).scalar (hscalar e he)

theorem enumeration_predicted (e : Enumeration) : (Expr.enumeration e).PredictedAt lib σ ρ := by
  intro t x ht hx
  cases ht
  cases hx
  refine ⟨fun l hl => ?_, rfl⟩
  obtain ⟨v, hv, rfl⟩ := List.mem_map.1 hl
  obtain ⟨i, -, rfl⟩ := List.mem_map.1 hv
  rfl

theorem iterator_predicted {id : NodeId} {type : ElemType} {types : IteratorTypes}
    (hid : types.lookup id = some type) (hρ : ρ.Typed types) :
    (Expr.iterator id type).PredictedAt lib σ ρ := by
  intro t x ht hx
  cases ht
  obtain ⟨l, rfl, hl⟩ := hρ id type x hid hx
  exact .of_scalar rfl hl

theorem unary_predicted {op : UnaryOp} {e : Expr} (he : e.PredictedAt lib σ ρ) :
    (Expr.unary op e).PredictedAt lib σ ρ := by
  intro t x ht hx
  simp only [Expr.result, Option.bind_eq_bind,
    Option.bind_eq_some_iff] at hx
  obtain ⟨y, hy, hx⟩ := hx
  obtain ⟨s, hs, hst⟩ : ∃ s, e.elemType = .ok s ∧ (if op = .not then .bool else s) = t := by
    cases op with
    | not =>
        simp only [Expr.elemType, bind_eq_ok, pure_eq_ok] at ht
        obtain ⟨⟨⟩, he, rfl⟩ := ht
        exact ⟨.bool, (requireConstraint_eq_ok he).2, rfl⟩
    | negate | absolute =>
        simp only [Expr.elemType, bind_eq_ok] at ht
        obtain ⟨s, hs, ht⟩ := ht
        refine ⟨s, (scalarType_eq_ok hs).2, ?_⟩
        cases s <;> cases ht <;> rfl
  obtain ⟨l, rfl, hl⟩ := unary_type (he s y hs hy).type hx
  exact .of_scalar rfl (hl.trans hst)

theorem binary_predicted {op : BinaryOp} {a b : Expr} (ha : a.PredictedAt lib σ ρ)
    (hb : b.PredictedAt lib σ ρ) : (Expr.binary op a b).PredictedAt lib σ ρ := by
  intro t x ht hx
  simp only [Expr.result, Option.bind_eq_bind,
    Option.bind_eq_some_iff] at hx
  obtain ⟨y, hy, z, hz, hx⟩ := hx
  by_cases hop : op.isArithmetic = true
  · obtain ⟨k, m, l, rfl, rfl, rfl, hl⟩ := apply_arithmetic hop hx
    simp only [Expr.elemType, hop, if_true, bind_eq_ok] at ht
    obtain ⟨s, hs, u, hu, ht⟩ := ht
    have hk : k.elemType = s := (ha s _ (scalarType_eq_ok hs).2 hy).type
    have hm : m.elemType = u := (hb u _ (scalarType_eq_ok hu).2 hz).type
    subst hk hm
    exact .of_scalar rfl (arithmetic_type ht hl)
  · obtain ⟨c, rfl⟩ := apply_bool hop hx
    have hbool : t = .bool := by
      rw [Expr.elemType, if_neg hop] at ht
      split_ifs at ht
      all_goals
        simp only [bind_eq_ok, pure_eq_ok] at ht
        obtain ⟨_, -, _, -, rfl⟩ := ht
        rfl
    exact .of_scalar rfl hbool.symm

theorem power_predicted {a b : Expr} (ha : a.PredictedAt lib σ ρ) (hb : b.PredictedAt lib σ ρ) :
    (Expr.power a b).PredictedAt lib σ ρ := by
  intro t x ht hx
  simp only [Expr.result, Option.bind_eq_bind, Option.bind_eq_some_iff,
    Option.pure_def, Option.some.injEq] at hx
  obtain ⟨y, hy, k, hk, z, hz, m, hm, l, hl, rfl⟩ := hx
  simp only [Expr.elemType, bind_eq_ok] at ht
  obtain ⟨s, hs, u, hu, ht⟩ := ht
  have hk : k.elemType = s := (ha s y (scalarType_eq_ok hs).2 hy).type.scalar? hk
  have hm : m.elemType = u := (hb u z (scalarType_eq_ok hu).2 hz).type.scalar? hm
  subst hk hm
  exact .of_scalar rfl (combine_type ht hl)

theorem size_predicted (array : Expr) (dim : Nat) :
    (Expr.size array dim).PredictedAt lib σ ρ := by
  intro t x ht hx
  simp only [Expr.result, Option.bind_eq_bind, Option.bind_eq_some_iff,
    Option.pure_def, Option.some.injEq] at hx
  obtain ⟨_, -, _, -, rfl⟩ := hx
  cases ht
  exact .of_scalar rfl rfl

theorem aggregate_predicted {op : Aggregate} {es : List Expr}
    (hes : ∀ e ∈ es, e.PredictedAt lib σ ρ) : (Expr.aggregate op es).PredictedAt lib σ ρ := by
  intro t x ht hx
  simp only [Expr.elemType, bind_eq_ok] at ht
  obtain ⟨s, hs, ht⟩ := ht
  obtain ⟨hfirst, -⟩ := firstType_eq_ok hs
  simp only [Expr.result, hs, Option.bind_eq_bind, Option.bind_eq_some_iff] at hx
  obtain ⟨xs, hxs, hx⟩ := hx
  have htyped : ∀ z ∈ xs.head?, z.HasType s := by
    intro z hz
    -- The type is that of the first operand; a second one is only what is counted.
    cases results_eq_some hxs with
    | nil => cases hz
    | cons hvalue _ =>
        cases hz
        exact (hes _ List.mem_cons_self s _ (hfirst _ rfl) hvalue).type
  obtain ⟨l, rfl, hl⟩ := comesTo_type ht (fun hvalue hnone => apply_type htyped ht hvalue hnone) hx
  exact .of_scalar rfl hl

theorem comprehension_predicted {op : Aggregate} {gs : List Generator} {body : Expr}
    (hbody : ∀ rounds, resultRounds lib σ gs ρ = some rounds →
      ∀ ρ' ∈ rounds, body.PredictedAt lib σ ρ') :
    (Expr.comprehension op gs body).PredictedAt lib σ ρ := by
  intro t x ht hx
  obtain ⟨-, -, s, hs, ht⟩ := comprehension_eq_ok ht
  simp only [Expr.result, hs, Option.bind_eq_bind, Option.bind_eq_some_iff] at hx
  obtain ⟨rounds, hrounds, xs, hxs, hx⟩ := hx
  have htyped : ∀ z ∈ xs, z.HasType s := by
    intro z hz
    obtain ⟨ρ', hρ', hz⟩ := exists_of_mem_mapM hxs hz
    exact (hbody rounds hrounds ρ' hρ' s z hs hz).type
  obtain ⟨l, rfl, hl⟩ :=
    comesTo_type ht (fun hvalue hnone => ofValues_type htyped ht hvalue (hnone xs rfl)) hx
  exact .of_scalar rfl hl

theorem global_predicted (hlib : lib.Typed) (kind : GlobalKind) (es : List Expr) :
    (Expr.global kind es).PredictedAt lib σ ρ := by
  intro t x ht hx
  simp only [Expr.result, Option.bind_eq_bind,
    Option.bind_eq_some_iff] at hx
  obtain ⟨xs, -, hx⟩ := hx
  simp only [Expr.elemType, bind_eq_ok, pure_eq_ok] at ht
  obtain ⟨⟨⟩, -, rfl⟩ := ht
  obtain ⟨l, rfl, hl⟩ := hlib.global hx
  exact .of_scalar rfl hl

end Steps

end ConstraintModel
