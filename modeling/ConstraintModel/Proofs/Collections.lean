import ConstraintModel.Bindings
import ConstraintModel.Proofs.Partial
import Mathlib.Algebra.BigOperators.Group.List.Basic

/-!
# Collections of literals

What the constructors of arrays and sets let through. Rectangular data has as many
elements as the product of its extents, all of one type and none of them without a spelling; written
as data again, its elements are in lists that are nested by the extents. The members of a set are
integers or values of one enumeration.
-/

namespace ConstraintModel

/-! ## Shapes -/

/-- A valid shape has dimensions, and all of their extents are positive. -/
theorem Shape.isValid_iff {shape : Shape} :
    shape.isValid = true ↔ shape.extents ≠ [] ∧ ∀ n ∈ shape.extents, 0 < n := by
  simp only [Shape.isValid, Bool.and_eq_true, Bool.not_eq_true', List.isEmpty_eq_false_iff,
    List.contains_eq_mem, decide_eq_false_iff_not]
  refine and_congr_right fun _ => ⟨fun h n hn => Nat.pos_of_ne_zero ?_, fun h hzero => ?_⟩
  · rintro rfl
    exact h hn
  · exact absurd (h 0 hzero) (Nat.lt_irrefl 0)

theorem Shape.isValid_of_require {shape : Shape} (h : shape.require = .ok ()) : shape.isValid = true := by
  unfold Shape.require at h
  split_ifs at h with hvalid
  exact hvalid

/-! ## Rectangular data -/

namespace Nested

theorem length_of_leaves? {level : List Nested} {values : List Literal}
    (h : leaves? level = some values) : values.length = level.length := by
  induction level generalizing values with
  | nil =>
      cases h
      rfl
  | cons n ns ih =>
      cases n with
      | leaf v =>
          obtain ⟨vs, hvs, rfl⟩ := Option.map_eq_some_iff.1 h
          rw [List.length_cons, List.length_cons, ih hvs]
      | list items => cases h

theorem length_of_lists? {level : List Nested} {lists : List (List Nested)}
    (h : lists? level = some lists) : lists.length = level.length := by
  induction level generalizing lists with
  | nil =>
      cases h
      rfl
  | cons n ns ih =>
      cases n with
      | leaf v => cases h
      | list items =>
          obtain ⟨rest, hrest, rfl⟩ := Option.map_eq_some_iff.1 h
          rw [List.length_cons, List.length_cons, ih hrest]

theorem haveLength_eq_ok {level extent : Nat} {lists : List (List Nested)}
    (h : haveLength level extent lists = .ok ()) : ∀ items ∈ lists, items.length = extent := by
  induction lists with
  | nil => simp
  | cons items lists ih =>
      rw [haveLength] at h
      by_cases hempty : items.isEmpty = true
      · simp [hempty, bind_eq_ok, throw_ne_ok] at h
      · by_cases hlength : items.length = extent
        · simp only [hempty, hlength, ne_eq, not_true_eq_false, if_false] at h
          exact List.forall_mem_cons.2 ⟨hlength, ih h⟩
        · simp [hempty, hlength, bind_eq_ok, throw_ne_ok] at h

/-- What holds of every level of literals, and of a level of lists of one length if it holds of the
level inside it, holds of every level that is read. -/
@[elab_as_elim]
theorem extentsFrom_ok_induction {P : List Nested → List Nat → List Literal → Prop}
    (hleaf : ∀ level values, leaves? level = some values → P level [] values)
    (hlist : ∀ level first rest extents values, lists? level = some (first :: rest) →
      (∀ items ∈ first :: rest, items.length = first.length) →
      P (first :: rest).flatten extents values → P level (first.length :: extents) values)
    {depth : Nat} {level : List Nested} {extents : List Nat} {values : List Literal}
    (h : extentsFrom depth level = .ok (extents, values)) : P level extents values := by
  induction depth, level using extentsFrom.induct generalizing extents values with
  | case1 depth level leaves hleaves =>
      rw [extentsFrom, hleaves] at h
      cases h
      exact hleaf level leaves hleaves
  | case2 depth level hleaves first rest hlists ih =>
      rw [extentsFrom, hleaves] at h
      simp only at h
      split at h
      · next hlists' =>
          rw [hlists] at hlists'
          cases hlists'
          simp only [bind_eq_ok, pure_eq_ok] at h
          obtain ⟨⟨⟩, hlength, ⟨inner, values'⟩, hinner, h⟩ := h
          cases h
          exact hlist level first rest inner values' hlists (haveLength_eq_ok hlength) (ih hinner)
      · next hother => exact absurd h throw_ne_ok
  | case3 depth level hleaves hlists =>
      rw [extentsFrom, hleaves] at h
      simp only at h
      exact absurd h throw_ne_ok

/-- A level holds as many elements as its own length times the extents inside it. -/
theorem length_extentsFrom {depth : Nat} {level : List Nested} {extents : List Nat}
    {values : List Literal} (h : extentsFrom depth level = .ok (extents, values)) :
    values.length = level.length * extents.prod := by
  refine extentsFrom_ok_induction (fun level values hleaves => ?_) ?_ h
  · simp [length_of_leaves? hleaves]
  · intro level first rest extents values hlists hlength ih
    have hflatten : (first :: rest).flatten.length = (first :: rest).length * first.length := by
      rw [List.length_flatten, List.map_congr_left hlength, List.map_const', List.sum_replicate]
      rfl
    rw [ih, hflatten, length_of_lists? hlists, List.prod_cons, Nat.mul_assoc]

theorem ofOneType_eq_ok {values : List Literal} (h : ofOneType values = .ok ()) :
    ∃ t, (∀ kind, literalsType kind values = .ok t) ∧ ∀ l ∈ values, l.elemType = t := by
  cases values with
  | nil => exact absurd h throw_ne_ok
  | cons v vs =>
      refine ⟨v.elemType, fun _ => rfl, List.forall_mem_cons.2 ⟨rfl, ?_⟩⟩
      rw [ofOneType] at h
      cases hfind : vs.find? fun w => w.elemType != v.elemType with
      | some w => simp [hfind, throw_ne_ok] at h
      | none => simpa using List.find?_eq_none.1 hfind

theorem allFinite_eq_ok {values : List Literal} (h : allFinite values = .ok ()) :
    ∀ l ∈ values, l.requireFinite = .ok () := by
  induction values with
  | nil => simp
  | cons v vs ih =>
      simp only [allFinite, bind_eq_ok] at h
      obtain ⟨⟨⟩, hv, hvs⟩ := h
      exact List.forall_mem_cons.2 ⟨hv, ih hvs⟩

/-- What is known of the shape and the elements of rectangular data. -/
structure Rectangular (shape : Shape) (values : List Literal) : Prop where
  valid : shape.isValid = true
  length : values.length = shape.extents.prod
  typed : ∃ t, (∀ kind, literalsType kind values = .ok t) ∧ ∀ l ∈ values, l.elemType = t
  finite : ∀ l ∈ values, l.requireFinite = .ok ()

theorem shape_eq_ok {data : Nested} {shape : Shape} {values : List Literal}
    (h : data.shape = .ok (shape, values)) : Rectangular shape values := by
  simp only [Nested.shape, bind_eq_ok, pure_eq_ok] at h
  obtain ⟨⟨extents, values⟩, hextents, ⟨⟩, hvalid, ⟨⟩, htype, ⟨⟩, hfinite, heq⟩ := h
  cases heq
  exact ⟨Shape.isValid_of_require hvalid, by simpa using length_extentsFrom hextents,
    ofOneType_eq_ok htype, allFinite_eq_ok hfinite⟩

end Nested

theorem newVarArray_eq_ok {domain : Domain} {shape : Shape} {e : Expr} {n n' : Nat}
    (h : (Expr.newVarArray domain shape).run n = (.ok e, n')) : shape.isValid = true := by
  simp only [Expr.newVarArray, build_bind_eq_ok, build_lift_eq_ok] at h
  obtain ⟨⟨⟩, k, ⟨hshape, -⟩, -⟩ := h
  exact Shape.isValid_of_require hshape

theorem newParamArray_eq_ok {data : Nested} {id : NodeId} {shape : Shape} {values : List Literal}
    {n n' : Nat} (h : (Expr.newParamArray data).run n = (.ok (.paramArray id values shape), n')) :
    Nested.Rectangular shape values := by
  simp only [Expr.newParamArray, build_bind_eq_ok, build_lift_eq_ok, build_pure_eq_ok] at h
  obtain ⟨⟨shape', values'⟩, k, ⟨hshape, -⟩, id', k', -, heq, -⟩ := h
  cases heq
  exact Nested.shape_eq_ok hshape

/-! ## Sets -/

theorem requireMembers_eq_ok {values : List Literal} (h : Expr.requireMembers values = .ok ()) :
    ∃ t, t ≠ .float ∧ (∀ kind, literalsType kind values = .ok t) ∧
      ∀ l ∈ values, l.elemType = t := by
  cases values with
  | nil => exact absurd h throw_ne_ok
  | cons v vs =>
      rw [Expr.requireMembers] at h
      have hfloat : v.elemType ≠ .float := by
        intro hfloat
        simp [hfloat, bind_eq_ok, throw_ne_ok] at h
      have hone : Nested.ofOneType (v :: vs) = .ok () := by
        split at h
        · exact h
        · exact h
        · simp [bind_eq_ok, throw_ne_ok] at h
      obtain ⟨t, htype, htyped⟩ := Nested.ofOneType_eq_ok hone
      exact ⟨t, htyped v List.mem_cons_self ▸ hfloat, htype, htyped⟩

theorem newParamSet_eq_ok {values : List Literal} {e : Expr} {n n' : Nat}
    (h : (Expr.newParamSet values).run n = (.ok e, n')) : Expr.requireMembers values = .ok () := by
  simp only [Expr.newParamSet, build_bind_eq_ok, build_lift_eq_ok] at h
  obtain ⟨⟨⟩, k, ⟨hmembers, -⟩, -⟩ := h
  exact hmembers

theorem newParamInterval_eq_ok {start stop : Int} {e : Expr} {n n' : Nat}
    (h : (Expr.newParamInterval start stop).run n = (.ok e, n')) : start < stop := by
  simp only [Expr.newParamInterval, build_bind_eq_ok, build_lift_eq_ok] at h
  obtain ⟨⟨⟩, k, ⟨hrange, -⟩, -⟩ := h
  simp only [requireRange, Literal.isEmptyRange, decide_eq_true_eq] at hrange
  split_ifs at hrange with hempty
  omega

/-! ## Nested lists -/

/-- Whether data is in lists that are nested by the given extents, around leaves of some kind. -/
def Json.HasRows (leaf : Json → Prop) : List Nat → Json → Prop
  | [], j => leaf j
  | n :: extents, j =>
    ∃ items, j = .array items ∧ items.length = n ∧ ∀ x ∈ items, x.HasRows leaf extents

theorem shape_size (extents : List Nat) : (⟨extents⟩ : Shape).size = extents.prod := by
  rw [Shape.size, List.prod_eq_foldl]

/-- The elements of an array are nested by its extents. -/
theorem nestRows_hasRows {leaf : Json → Prop} {extents : List Nat} {values : List Literal}
    (hrank : extents ≠ []) (hlength : values.length = extents.prod)
    (hleaf : ∀ l ∈ values, leaf l.json) : (nestRows extents values).HasRows leaf extents := by
  induction extents, values using nestRows.induct with
  | case1 values => exact absurd rfl hrank
  | case2 extent values =>
      refine ⟨values.map Literal.json, rfl, by simpa using hlength, fun x hx => ?_⟩
      obtain ⟨l, hl, rfl⟩ := List.mem_map.1 hx
      exact hleaf l hl
  | case3 extent extents values hne stride ih =>
      rw [nestRows]
      · refine ⟨_, rfl, by simp, fun x hx => ?_⟩
        obtain ⟨i, hi, rfl⟩ := List.mem_map.1 hx
        refine ih i hne ?_ fun l hl => hleaf l (List.mem_of_mem_drop (List.mem_of_mem_take hl))
        -- Row `i` ends within the elements.
        have hrow : (i + 1) * stride ≤ extent * stride :=
          Nat.mul_le_mul_right _ (List.mem_range.1 hi)
        have hstride : stride = extents.prod := shape_size extents
        rw [List.prod_cons, ← hstride] at hlength
        rw [← hstride, List.length_take, List.length_drop, hlength]
        rw [Nat.add_mul, Nat.one_mul] at hrow
        omega
      · exact hne

end ConstraintModel
