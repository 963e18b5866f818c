import ConstraintModel.Proofs.Evaluation
import ConstraintModel.Proofs.Partial
import ConstraintModel.Typing

/-!
# Results

What an expression comes to under an assignment. A derived parameter comes to what it equals, and a sum
or product of no floats is a float; everything else comes to its value. A fixed expression comes to the
same under all assignments that agree on the parameters that are given.
-/

namespace ConstraintModel

/-! ## Evaluation with types -/

/-- What an aggregate of members of an inferred type comes to, given its value. A sum or product of no
floats is the float that makes no difference. -/
def Aggregate.comesTo (op : Aggregate) (type : Except ModelError ElemType)
    (members : Option (List Value)) (value : Option Value) : Option Value :=
  match op, type, members with
  | sum, .ok .float, some [] => some (.scalar (.float 0.0))
  | product, .ok .float, some [] => some (.scalar (.float 1.0))
  | _, _, _ => value

mutual

/-- What an expression comes to. -/
def Expr.result (lib : Library) (σ : Assignment) : Expr → Iteration → Option Value
  | .literal l, _ => some (.scalar l)
  | .var id _, _ | .boundVar id _ _, _ | .param id _, _ | .varArray id _ _, _
  | .paramArray id _ _, _ | .varSet id _, _ | .paramSet id _, _ => some (σ id)
  | .derivedParam _ value, ρ => value.result lib σ ρ
  | .setLiteral values, _ => some (.set (Literal.membersOf values))
  | .view array positions, ρ => do
    let id ← array.id?
    let shape ← array.shape?
    let elements ← σ.elements? id
    partOf shape.extents elements (← resultChoices lib σ positions ρ)
  | .range start stop, ρ => do
    let a ← (← start.result lib σ ρ).int?
    let b ← (← stop.result lib σ ρ).int?
    return .intSet (integers a b)
  | .sequence items, ρ => do return .list (← allResults lib σ items ρ)
  | .enumeration e, _ => some (.set (e.values.map .enumeration))
  | .iterator id _, ρ => ρ.lookup id
  | .unary op operand, ρ => do op.apply (← operand.result lib σ ρ)
  | .binary op left right, ρ => do op.apply (← left.result lib σ ρ) (← right.result lib σ ρ)
  | .power base exponent, ρ => do
    let a ← (← base.result lib σ ρ).scalar?
    let b ← (← exponent.result lib σ ρ).scalar?
    return .scalar (← a.power? b)
  | .size array dim, _ => do return .int (← (← array.shape?).extent? dim : Nat)
  | .aggregate op args, ρ => do
    let xs ← allResults lib σ args ρ
    op.comesTo (firstType args) (xs.head?.bind Value.members?) (op.apply xs)
  | .comprehension op generators body, ρ => do
    let rounds ← resultRounds lib σ generators ρ
    let xs ← rounds.mapM fun ρ => body.result lib σ ρ
    op.comesTo body.elemType (some xs) (op.ofValues xs)
  | .global kind args, ρ => do lib kind (← allResults lib σ args ρ)

def allResults (lib : Library) (σ : Assignment) : List Expr → Iteration → Option (List Value)
  | [], _ => some []
  | e :: es, ρ => do return (← e.result lib σ ρ) :: (← allResults lib σ es ρ)

def resultChoices (lib : Library) (σ : Assignment) :
    List Position → Iteration → Option (List Choice)
  | [], _ => some []
  | .index i :: ps, ρ => do
    let i ← (← i.result lib σ ρ).int?
    return .index i :: (← resultChoices lib σ ps ρ)
  | .slice start stop :: ps, ρ => do
    let a ← (← start.result lib σ ρ).int?
    let b ← (← stop.result lib σ ρ).int?
    return .slice a b :: (← resultChoices lib σ ps ρ)

/-- The values that iterators go through, with those around them. -/
def resultRounds (lib : Library) (σ : Assignment) :
    List Generator → Iteration → Option (List Iteration)
  | [], ρ => some [ρ]
  | .over id _ domain :: gs, ρ => do
    let members ← (← domain.result lib σ ρ).members?
    return (← members.mapM fun x => resultRounds lib σ gs ((id, x) :: ρ)).flatten

end

mutual

/-- The expression with every derived parameter replaced by what it equals. -/
def Expr.expanded : Expr → Expr
  | .derivedParam _ value => value.expanded
  | .view array positions => .view array (positionsExpanded positions)
  | .range start stop => .range start.expanded stop.expanded
  | .sequence items => .sequence (allExpanded items)
  | .unary op operand => .unary op operand.expanded
  | .binary op left right => .binary op left.expanded right.expanded
  | .power base exponent => .power base.expanded exponent.expanded
  | .aggregate op args => .aggregate op (allExpanded args)
  | .comprehension op generators body =>
    .comprehension op (generatorsExpanded generators) body.expanded
  | .global kind args => .global kind (allExpanded args)
  | e => e

def allExpanded : List Expr → List Expr
  | [] => []
  | e :: es => e.expanded :: allExpanded es

def positionsExpanded : List Position → List Position
  | [] => []
  | .index i :: ps => .index i.expanded :: positionsExpanded ps
  | .slice start stop :: ps => .slice start.expanded stop.expanded :: positionsExpanded ps

def generatorsExpanded : List Generator → List Generator
  | [] => []
  | .over id type domain :: gs => .over id type domain.expanded :: generatorsExpanded gs

end

/-! ## Inputs -/

mutual

/-- The parameters, parameter arrays and parameter sets whose values an expression uses, in derived
parameters too. -/
def Expr.inputs : Expr → List NodeId
  | .param id _ | .paramArray id _ _ | .paramSet id _ => [id]
  | .derivedParam _ e | .unary _ e => e.inputs
  | .view array positions => array.inputs ++ positionInputs positions
  | .range a b | .binary _ a b | .power a b => a.inputs ++ b.inputs
  | .sequence es | .aggregate _ es | .global _ es => allInputs es
  | .comprehension _ generators body => generatorInputs generators ++ body.inputs
  | _ => []

def allInputs : List Expr → List NodeId
  | [] => []
  | e :: es => e.inputs ++ allInputs es

def positionInputs : List Position → List NodeId
  | [] => []
  | .index i :: ps => i.inputs ++ positionInputs ps
  | .slice start stop :: ps => start.inputs ++ stop.inputs ++ positionInputs ps

def generatorInputs : List Generator → List NodeId
  | [] => []
  | .over _ _ domain :: gs => domain.inputs ++ generatorInputs gs

end

/-- Whether two assignments give the same values to some identities. -/
def Assignment.AgreeOn (σ τ : Assignment) (ids : List NodeId) : Prop :=
  ∀ id ∈ ids, σ id = τ id

namespace Assignment.AgreeOn

variable {σ τ : Assignment} {ids ids' : List NodeId}

theorem left (h : σ.AgreeOn τ (ids ++ ids')) : σ.AgreeOn τ ids :=
  fun id hid => h id (List.mem_append_left _ hid)

theorem right (h : σ.AgreeOn τ (ids ++ ids')) : σ.AgreeOn τ ids' :=
  fun id hid => h id (List.mem_append_right _ hid)

end Assignment.AgreeOn

/-! ## Fixed expressions -/

section Fixed

variable {lib : Library} {σ τ : Assignment}

theorem bindParam_eq_ok {e p : Expr} {n n' : Nat} (h : e.bindParam.run n = (.ok p, n')) :
    p = .derivedParam ⟨n⟩ e ∧ e.isFixed = true ∧ n' = n + 1 := by
  simp only [Expr.bindParam, build_bind_eq_ok, build_lift_eq_ok] at h
  obtain ⟨type, k, ⟨-, rfl⟩, h⟩ := h
  by_cases hfixed : e.isFixed = true
  · rw [if_pos hfixed, build_bind_eq_ok] at h
    obtain ⟨id, _, hfresh, heq⟩ := h
    obtain ⟨rfl, rfl⟩ := fresh_eq_ok.1 hfresh
    rw [build_pure_eq_ok] at heq
    exact ⟨heq.1.symm, hfixed, heq.2⟩
  · rw [if_neg hfixed, build_bind_eq_ok] at h
    obtain ⟨_, _, hthrow, -⟩ := h
    exact absurd hthrow build_throw_ne_ok

mutual

theorem Expr.result_congr : ∀ (e : Expr) (ρ : Iteration), e.isFixed = true →
    σ.AgreeOn τ e.inputs → e.result lib σ ρ = e.result lib τ ρ
  | .literal _, _, _, _ | .setLiteral _, _, _, _ | .enumeration _, _, _, _
  | .iterator .., _, _, _ | .size .., _, _, _ => by
      simp only [Expr.result]
  | .var .., _, hfixed, _ | .boundVar .., _, hfixed, _ | .varArray .., _, hfixed, _
  | .varSet .., _, hfixed, _ => nomatch hfixed
  | .param id _, _, _, hagree | .paramArray id _ _, _, _, hagree
  | .paramSet id _, _, _, hagree => by
      simp only [Expr.result, hagree id (List.mem_singleton_self id)]
  | .derivedParam _ e, ρ, hfixed, hagree => by
      simp only [Expr.result, e.result_congr ρ hfixed hagree]
  | .view array positions, ρ, hfixed, hagree => by
      obtain ⟨harray, hpositions⟩ := Bool.and_eq_true_iff.1 hfixed
      have hchoices := choices_congr positions ρ hpositions hagree.right
      simp only [Expr.result, hchoices]
      -- Only an array has a shape, and a fixed one is a parameter.
      cases array with
      | paramArray id values shape =>
          have hid : σ id = τ id := hagree.left id (List.mem_singleton_self id)
          simp only [Assignment.elements?, Expr.id?, hid, Option.bind_eq_bind, Option.bind_some]
      | varArray id domain shape => cases harray
      | _ => simp [Expr.shape?, Expr.id?]
  | .range a b, ρ, hfixed, hagree => by
      obtain ⟨ha, hb⟩ := Bool.and_eq_true_iff.1 hfixed
      simp only [Expr.result, a.result_congr ρ ha hagree.left, b.result_congr ρ hb hagree.right]
  | .sequence es, ρ, hfixed, hagree => by
      simp only [Expr.result, results_congr es ρ hfixed hagree]
  | .unary op e, ρ, hfixed, hagree => by
      simp only [Expr.result, e.result_congr ρ hfixed hagree]
  | .binary op a b, ρ, hfixed, hagree => by
      obtain ⟨ha, hb⟩ := Bool.and_eq_true_iff.1 hfixed
      simp only [Expr.result, a.result_congr ρ ha hagree.left, b.result_congr ρ hb hagree.right]
  | .power a b, ρ, hfixed, hagree => by
      obtain ⟨ha, hb⟩ := Bool.and_eq_true_iff.1 hfixed
      simp only [Expr.result, a.result_congr ρ ha hagree.left, b.result_congr ρ hb hagree.right]
  | .aggregate op es, ρ, hfixed, hagree => by
      simp only [Expr.result, results_congr es ρ hfixed hagree]
  | .comprehension op generators body, ρ, hfixed, hagree => by
      obtain ⟨hgenerators, hbody⟩ := Bool.and_eq_true_iff.1 hfixed
      simp only [Expr.result, rounds_congr generators ρ hgenerators hagree.left,
        fun ρ => body.result_congr ρ hbody hagree.right]
  | .global kind es, ρ, hfixed, hagree => by
      simp only [Expr.result, results_congr es ρ hfixed hagree]

theorem results_congr : ∀ (es : List Expr) (ρ : Iteration), allFixed es = true →
    σ.AgreeOn τ (allInputs es) → allResults lib σ es ρ = allResults lib τ es ρ
  | [], _, _, _ => rfl
  | e :: es, ρ, hfixed, hagree => by
      obtain ⟨he, hes⟩ := Bool.and_eq_true_iff.1 hfixed
      simp only [allResults, e.result_congr ρ he hagree.left, results_congr es ρ hes hagree.right]

theorem choices_congr : ∀ (ps : List Position) (ρ : Iteration), positionsFixed ps = true →
    σ.AgreeOn τ (positionInputs ps) → resultChoices lib σ ps ρ = resultChoices lib τ ps ρ
  | [], _, _, _ => rfl
  | .index i :: ps, ρ, hfixed, hagree => by
      obtain ⟨hi, hps⟩ := Bool.and_eq_true_iff.1 hfixed
      simp only [resultChoices, i.result_congr ρ hi hagree.left,
        choices_congr ps ρ hps hagree.right]
  | .slice a b :: ps, ρ, hfixed, hagree => by
      obtain ⟨hbounds, hps⟩ := Bool.and_eq_true_iff.1 hfixed
      obtain ⟨ha, hb⟩ := Bool.and_eq_true_iff.1 hbounds
      simp only [resultChoices, a.result_congr ρ ha hagree.left.left,
        b.result_congr ρ hb hagree.left.right, choices_congr ps ρ hps hagree.right]

/-- Iterators go through the same values, since the domains of generators are fixed. -/
theorem rounds_congr : ∀ (gs : List Generator) (ρ : Iteration), generatorsFixed gs = true →
    σ.AgreeOn τ (generatorInputs gs) → resultRounds lib σ gs ρ = resultRounds lib τ gs ρ
  | [], _, _, _ => rfl
  | .over id type domain :: gs, ρ, hfixed, hagree => by
      obtain ⟨hdomain, hgs⟩ := Bool.and_eq_true_iff.1 hfixed
      simp only [resultRounds, domain.result_congr ρ hdomain hagree.left,
        fun ρ => rounds_congr gs ρ hgs hagree.right]

end

/-- A fixed expression comes to the same, inside all iterators, whatever the values of anything but
the given parameters that it uses; so does every derived parameter that is made, and what it
equals. -/
theorem fixed_result (lib : Library) (σ τ : Assignment) :
    (∀ (e : Expr) (ρ : Iteration), e.isFixed = true → σ.AgreeOn τ e.inputs →
      e.result lib σ ρ = e.result lib τ ρ) ∧
    ∀ (e p : Expr) (n n' : Nat) (ρ : Iteration), e.bindParam.run n = (.ok p, n') →
      σ.AgreeOn τ p.inputs →
        p.result lib σ ρ = p.result lib τ ρ ∧ e.result lib σ ρ = e.result lib τ ρ := by
  refine ⟨fun e ρ hfixed hagree => e.result_congr ρ hfixed hagree,
    fun e p n n' ρ h hagree => ?_⟩
  obtain ⟨rfl, hfixed, -⟩ := bindParam_eq_ok h
  have heq : e.result lib σ ρ = e.result lib τ ρ := e.result_congr ρ hfixed hagree
  exact ⟨heq, heq⟩

/-- The sum of three costs, each times a derived parameter: twice their number. -/
def doubledCosts : Expr :=
  let count : Expr := .param ⟨0⟩ (.int 3)
  let costs : Expr := .paramArray ⟨1⟩ [.int 1, .int 2, .int 3] ⟨[3]⟩
  let double : Expr := .derivedParam ⟨2⟩ (.binary .mul count (.literal (.int 2)))
  .comprehension .sum [.over ⟨3⟩ .int (.range (.literal (.int 0)) count)]
    (.binary .mul (.view costs [.index (.iterator ⟨3⟩ .int)]) double)

/-- The given parameters have their values, and all else has another one. -/
def costsWith (other : Value) : Assignment
  | ⟨0⟩ => .int 3
  | ⟨1⟩ => .array (zeroBased [3]) [.int 1, .int 2, .int 3]
  | _ => other

theorem fixed_result_doubledCosts : ∃ p n', doubledCosts.bindParam.run 4 = (.ok p, n') ∧
    p.result (fun _ _ => none) (costsWith (.int 7)) [] = some (.int 36) ∧
    p.result (fun _ _ => none) (costsWith (.bool true)) [] = some (.int 36) ∧
    doubledCosts.result (fun _ _ => none) (costsWith (.bool true)) [] = some (.int 36) := by
  have hagree : (costsWith (.int 7)).AgreeOn (costsWith (.bool true)) doubledCosts.inputs := by
    intro id hid
    have hcases : id = ⟨0⟩ ∨ id = ⟨1⟩ := by
      revert id
      decide
    rcases hcases with rfl | rfl <;> rfl
  have hvalue : doubledCosts.result (fun _ _ => none) (costsWith (.int 7)) [] = some (.int 36) := by
    rfl
  obtain ⟨hfixed, hderived⟩ :=
    fixed_result (fun _ _ => none) (costsWith (.int 7)) (costsWith (.bool true))
  refine ⟨_, _, rfl, hvalue, ?_, ?_⟩
  · exact (hderived doubledCosts _ 4 _ [] rfl hagree).1.symm.trans hvalue
  · exact (hfixed doubledCosts [] rfl hagree).symm.trans hvalue

end Fixed

end ConstraintModel
