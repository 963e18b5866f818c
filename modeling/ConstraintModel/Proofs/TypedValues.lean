import ConstraintModel.Proofs.Evaluation
import ConstraintModel.Proofs.Partial
import ConstraintModel.Typing

/-!
# Types of values

The type of a scalar, or of the members of a collection, and what operations make of it: the value
of an operation has the type that is inferred from those of its operands. Only a sum or product of
nothing is an integer whatever it is of.
-/

namespace ConstraintModel

/-! ## Typed values -/

/-- Whether a scalar, or every member of a collection, is of the given type. -/
def Value.HasType (t : ElemType) : Value → Prop
  | .scalar l => l.elemType = t
  | .set ms => ∀ l ∈ ms, l.elemType = t
  | .array _ xs => ∀ x ∈ xs, ∃ l, x = .scalar l ∧ l.elemType = t

namespace Value

theorem HasType.members {t : ElemType} {x : Value} {ms : List Value} (h : x.HasType t)
    (hms : x.members? = some ms) : ∀ m ∈ ms, ∃ l, m = .scalar l ∧ l.elemType = t := by
  intro m hm
  cases x with
  | scalar l => cases hms
  | set ls =>
      cases hms
      obtain ⟨l, hl, rfl⟩ := List.mem_map.1 hm
      exact ⟨l, rfl, h l hl⟩
  | array is xs =>
      cases hms
      exact h m hm

theorem HasType.scalar? {t : ElemType} {x : Value} {l : Literal} (h : x.HasType t)
    (hl : x.scalar? = some l) : l.elemType = t := by
  cases x with
  | scalar l' =>
      cases hl
      exact h
  | _ => cases hl

theorem HasType.int? {t : ElemType} {x : Value} {i : Int} (h : x.HasType t)
    (hi : x.int? = some i) : t = .int := by
  cases x with
  | scalar l =>
      cases l <;> cases hi
      exact h.symm
  | _ => cases hi

theorem scalar_of_scalar? {x : Value} {l : Literal} (h : x.scalar? = some l) : x = .scalar l := by
  cases x <;> cases h
  rfl

end Value

theorem mem_of_mem_membersOf {l : Literal} {ls : List Literal} (h : l ∈ Literal.membersOf ls) :
    l ∈ ls := by
  have hinsert : ∀ (v : Literal) (ws : List Literal), ∀ w ∈ Literal.insertMember v ws,
      w = v ∨ w ∈ ws := by
    intro v ws
    induction ws with
    | nil => exact fun w hw => .inl (List.mem_singleton.1 hw)
    | cons w' ws ih =>
        intro w hw
        rw [Literal.insertMember] at hw
        split at hw
        · exact .inr hw
        · rcases List.mem_cons.1 hw with rfl | hw
          · exact .inr List.mem_cons_self
          · exact (ih w hw).imp_right (List.mem_cons_of_mem _)
        · exact List.mem_cons.1 hw
  induction ls with
  | nil => cases h
  | cons v vs ih =>
      rcases hinsert v _ l h with rfl | h
      · exact List.mem_cons_self
      · exact List.mem_cons_of_mem _ (ih h)

/-! ## Operators -/

theorem floats_type {floats : Float → Float → Option Float} {a b l : Literal}
    (h : (do (floats (← a.float?) (← b.float?)).map Literal.float) = some l) :
    l.elemType = .float := by
  simp only [Option.bind_eq_bind, Option.bind_eq_some_iff, Option.map_eq_some_iff] at h
  obtain ⟨_, -, _, -, x, -, rfl⟩ := h
  rfl

/-- Two numbers combine to an integer if both are integers, and else to a float. -/
theorem combine_type {ints : Int → Int → Option Int} {floats : Float → Float → Option Float}
    {a b l : Literal} {t : ElemType} (ht : a.elemType.widen b.elemType = .ok t)
    (h : Literal.combine ints floats a b = some l) : l.elemType = t := by
  cases a <;> cases b
  case int.int i j =>
    obtain ⟨k, -, rfl⟩ := Option.map_eq_some_iff.1 h
    cases ht
    rfl
  case int.float | float.int | float.float =>
    cases ht
    exact floats_type h
  all_goals exact absurd ht throw_ne_ok

theorem divide_type {a b l : Literal} (h : BinaryOp.divide.arithmetic a b = some l) :
    l.elemType = .float := by
  simp only [BinaryOp.arithmetic, Option.bind_eq_bind, Option.bind_eq_some_iff] at h
  obtain ⟨x, -, y, -, h⟩ := h
  split_ifs at h
  cases h
  rfl

theorem arithmetic_type {op : BinaryOp} {a b l : Literal} {t : ElemType}
    (ht : arithmeticType op a.elemType b.elemType = .ok t) (h : op.arithmetic a b = some l) :
    l.elemType = t := by
  simp only [arithmeticType, bind_eq_ok, pure_eq_ok] at ht
  obtain ⟨s, hs, rfl⟩ := ht
  cases op with
  | add | sub | mul | quotient | remainder => exact combine_type hs h
  | divide => exact divide_type h
  | _ => cases h

/-- A negation is a truth value, and other operations keep the type of a number. -/
theorem unary_type {op : UnaryOp} {x y : Value} {s : ElemType} (hs : x.HasType s)
    (h : op.apply x = some y) :
    ∃ l, y = .scalar l ∧ l.elemType = if op = .not then .bool else s := by
  cases x with
  | scalar l =>
      cases op <;> cases l <;> cases h <;> first | exact ⟨_, rfl, rfl⟩ | exact ⟨_, rfl, hs⟩
  | _ => cases op <;> cases h

theorem apply_arithmetic {op : BinaryOp} {x y z : Value} (hop : op.isArithmetic = true)
    (h : op.apply x y = some z) :
    ∃ a b l, x = .scalar a ∧ y = .scalar b ∧ z = .scalar l ∧ op.arithmetic a b = some l := by
  rw [BinaryOp.apply, if_pos hop] at h
  simp only [Option.bind_eq_bind, Option.bind_eq_some_iff, Option.pure_def, Option.some.injEq] at h
  obtain ⟨a, ha, b, hb, l, hl, rfl⟩ := h
  exact ⟨a, b, l, Value.scalar_of_scalar? ha, Value.scalar_of_scalar? hb, rfl, hl⟩

theorem apply_bool {op : BinaryOp} {x y z : Value} (hop : ¬op.isArithmetic = true)
    (h : op.apply x y = some z) : ∃ b, z = .bool b := by
  rw [BinaryOp.apply, if_neg hop] at h
  split_ifs at h
  all_goals
    simp only [Option.bind_eq_bind, Option.bind_eq_some_iff, Option.pure_def,
      Option.some.injEq] at h
    obtain ⟨_, -, _, -, _, -, rfl⟩ := h
    exact ⟨_, rfl⟩

/-- Two scalars of one type can be told apart, but for floats that have no order. -/
theorem apply_eq_same {l m : Literal} (h : m.elemType = l.elemType) :
    (∃ b, BinaryOp.eq.apply (.scalar m) (.scalar l) = some (.bool b)) ∨
      ∃ x y, m = .float x ∧ l = .float y ∧ floatOrder x y = none := by
  have hordered {o : Ordering} (ho : m.compare? l = some o) :
      ∃ b, BinaryOp.eq.apply (.scalar m) (.scalar l) = some (.bool b) := by
    refine ⟨o == .eq, ?_⟩
    simp [BinaryOp.apply, BinaryOp.isArithmetic, BinaryOp.isLogical, Value.compare?, ho,
      BinaryOp.comparison]
  cases m <;> cases l
  case int.int a b => exact .inl (hordered rfl)
  case bool.bool a b => exact .inl (hordered rfl)
  case enumeration.enumeration a b =>
    have htype : a.type = b.type := ElemType.enumeration.inj h
    exact .inl (hordered (if_pos htype))
  case float.float x y =>
    cases horder : floatOrder x y with
    | none => exact .inr ⟨x, y, rfl, rfl, horder⟩
    | some o => exact .inl (hordered horder)
  all_goals cases h

/-! ## Aggregates -/

theorem arithmeticType_same {op : BinaryOp} {s : ElemType} (hop : op ≠ .divide)
    (hs : s.isNumeric = true) :
    arithmeticType op s s = .ok s ∧ arithmeticType op .int s = .ok s := by
  simp only [arithmeticType, if_neg hop]
  cases s <;> cases hs <;> exact ⟨rfl, rfl⟩

/-- Adding up, or multiplying, goes on with the type of the members. -/
theorem foldlM_type {op : BinaryOp} {s : ElemType} {acc l : Literal} {vs : List Literal}
    (hop : op ≠ .divide) (hs : s.isNumeric = true) (hacc : acc.elemType = s)
    (hvs : ∀ v ∈ vs, v.elemType = s) (h : vs.foldlM op.arithmetic acc = some l) :
    l.elemType = s := by
  induction vs generalizing acc with
  | nil =>
      cases h
      exact hacc
  | cons v vs ih =>
      obtain ⟨hv, hvs⟩ := List.forall_mem_cons.1 hvs
      simp only [List.foldlM_cons, Option.bind_eq_bind, Option.bind_eq_some_iff] at h
      obtain ⟨acc', hacc', h⟩ := h
      refine ih (arithmetic_type ?_ hacc') hvs h
      rw [hacc, hv]
      exact (arithmeticType_same hop hs).1

/-- Beginning with an integer, a total is of the type of its members once there is one. -/
theorem total_type {op : BinaryOp} {s : ElemType} {first : Int} {l : Literal} {vs : List Literal}
    (hop : op ≠ .divide) (hs : s.isNumeric = true) (hvs : ∀ v ∈ vs, v.elemType = s)
    (hnone : vs = [] → s = .int) (h : vs.foldlM op.arithmetic (.int first) = some l) :
    l.elemType = s := by
  cases vs with
  | nil =>
      cases h
      exact (hnone rfl).symm
  | cons v vs =>
      obtain ⟨hv, hvs⟩ := List.forall_mem_cons.1 hvs
      simp only [List.foldlM_cons, Option.bind_eq_bind, Option.bind_eq_some_iff] at h
      obtain ⟨acc, hacc, h⟩ := h
      refine foldlM_type hop hs (arithmetic_type ?_ hacc) hvs h
      rw [hv]
      exact (arithmeticType_same hop hs).2

theorem mem_of_extreme {direction : Ordering} {l : Literal} {vs : List Literal}
    (h : Aggregate.extreme direction vs = some l) : l ∈ vs := by
  have hfold : ∀ (ws : List Literal) (best : Literal),
      ws.foldlM (fun best w => (w.compare? best).map fun o => if o = direction then w else best)
        best = some l → l = best ∨ l ∈ ws := by
    intro ws
    induction ws with
    | nil =>
        intro best h
        cases h
        exact .inl rfl
    | cons w ws ih =>
        intro best h
        simp only [List.foldlM_cons, Option.bind_eq_bind, Option.bind_eq_some_iff,
          Option.map_eq_some_iff] at h
        obtain ⟨_, ⟨o, -, rfl⟩, h⟩ := h
        have hnext := ih _ h
        split_ifs at hnext
        · exact .inr (List.mem_cons.2 hnext)
        · exact hnext.imp_right (List.mem_cons_of_mem w)
  cases vs with
  | nil => cases h
  | cons v vs => exact List.mem_cons.2 (hfold vs v h)

/-- A sum or product of no floats, which is an integer. -/
def Aggregate.IsEmptyTotal (op : Aggregate) (type : ElemType) (members : List Value) : Prop :=
  (op = .sum ∨ op = .product) ∧ type = .float ∧ members = []

/-- An aggregate of literals has the type that is inferred from theirs. -/
theorem ofLiterals_type {op : Aggregate} {vs : List Literal} {s t : ElemType} {l : Literal}
    (hvs : ∀ v ∈ vs, v.elemType = s) (ht : aggregateType op s = .ok t)
    (h : op.ofLiterals vs = some l) (hnone : ¬op.IsEmptyTotal s (vs.map .scalar)) :
    l.elemType = t := by
  cases op with
  | sum | product =>
      have ht' : s.widen .int = .ok t := ht
      obtain ⟨hs, rfl⟩ : s.isNumeric = true ∧ s = t := by
        cases s <;> cases ht' <;> exact ⟨rfl, rfl⟩
      refine total_type (by decide) hs hvs (fun hnil => ?_) h
      cases s with
      | int => rfl
      | float => exact absurd ⟨by simp, rfl, by simp [hnil]⟩ hnone
      | _ => cases hs
  | count =>
      simp only [Aggregate.ofLiterals, Option.bind_eq_bind, Option.bind_eq_some_iff,
        Option.pure_def, Option.some.injEq] at h
      obtain ⟨_, -, rfl⟩ := h
      cases ht
      rfl
  | every | any =>
      simp only [Aggregate.ofLiterals, Option.bind_eq_bind, Option.bind_eq_some_iff,
        Option.pure_def, Option.some.injEq] at h
      obtain ⟨_, -, rfl⟩ := h
      rw [aggregateType] at ht
      split_ifs at ht
      cases ht
      rfl
  | least | greatest =>
      rw [aggregateType] at ht
      split_ifs at ht
      cases ht
      exact hvs l (mem_of_extreme h)

theorem ofValues_type {op : Aggregate} {xs : List Value} {s t : ElemType} {y : Value}
    (hxs : ∀ x ∈ xs, x.HasType s) (ht : aggregateType op s = .ok t)
    (h : op.ofValues xs = some y) (hnone : ¬op.IsEmptyTotal s xs) :
    ∃ l, y = .scalar l ∧ l.elemType = t := by
  simp only [Aggregate.ofValues, Option.bind_eq_bind, Option.bind_eq_some_iff, Option.pure_def,
    Option.some.injEq] at h
  obtain ⟨vs, hvs, l, hl, rfl⟩ := h
  have htyped : ∀ v ∈ vs, v.elemType = s := by
    intro v hv
    obtain ⟨x, hx, hscalar⟩ := exists_of_mem_mapM hvs hv
    exact (hxs x hx).scalar? hscalar
  refine ⟨l, rfl, ofLiterals_type htyped ht hl fun ⟨hop, hfloat, hnil⟩ => ?_⟩
  obtain rfl : vs = [] := List.map_eq_nil_iff.1 hnil
  exact hnone ⟨hop, hfloat, List.forall₂_nil_right_iff.1 (forall₂_of_mapM_eq_some hvs)⟩

/-- An aggregate of a whole collection. One that counts a scalar is an integer. -/
theorem apply_type {op : Aggregate} {xs : List Value} {s t : ElemType} {y : Value}
    (hxs : ∀ x ∈ xs.head?, x.HasType s) (ht : aggregateType op s = .ok t)
    (h : op.apply xs = some y)
    (hnone : ∀ ms, xs.head?.bind Value.members? = some ms → ¬op.IsEmptyTotal s ms) :
    ∃ l, y = .scalar l ∧ l.elemType = t := by
  unfold Aggregate.apply at h
  split at h
  · simp only [Option.bind_eq_bind, Option.bind_eq_some_iff, Option.pure_def,
      Option.some.injEq] at h
    obtain ⟨_, -, _, -, _, -, rfl⟩ := h
    cases ht
    exact ⟨_, rfl, rfl⟩
  · next c =>
      simp only [Option.bind_eq_bind, Option.bind_eq_some_iff] at h
      obtain ⟨ms, hms, h⟩ := h
      refine ofValues_type (fun m hm => ?_) ht h (hnone ms hms)
      obtain ⟨l, rfl, hl⟩ := (hxs c rfl).members hms m hm
      exact hl
  · cases h

end ConstraintModel
