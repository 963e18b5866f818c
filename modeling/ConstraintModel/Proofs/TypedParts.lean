import ConstraintModel.Construct.Operation
import ConstraintModel.Construct.Selection
import ConstraintModel.Proofs.Naming
import Mathlib.Logic.Relation

/-!
# Types of parts

What is known of the parts of an expression once it has an element type. Every part that its text is
put together from has a type too, arithmetic is done on numbers and connectives join constraints, at
any depth; but the positions of a view are not looked at, so that all of this ends at them.
-/

namespace ConstraintModel

/-! ## Parts -/

def Generator.domain : Generator → Expr
  | .over _ _ domain => domain

/-- The index, or the bounds of the slice. -/
def Position.operands : Position → List Expr
  | .index i => [i]
  | .slice start stop => [start, stop]

namespace Expr

/-- The expressions whose texts are put together in that of an expression, without those that select
from an array. -/
def parts : Expr → List Expr
  | .range a b | .binary _ a b | .power a b => [a, b]
  | .unary _ e => [e]
  | .sequence es | .aggregate _ es | .global _ es => es
  | .comprehension _ generators body => generators.map Generator.domain ++ [body]
  | .view array _ => [array]
  | _ => []

/-- The indices and bounds that select from the array of a view. -/
def selectors : Expr → List Expr
  | .view _ positions => positions.flatMap Position.operands
  | _ => []

/-- The second expression is printed inside the first, at any depth but in no position of a view. -/
abbrev ShowsOutside : Expr → Expr → Prop :=
  Relation.ReflTransGen fun e s => s ∈ e.parts

/-- The second expression is printed inside the first, at any depth. -/
abbrev Shows : Expr → Expr → Prop :=
  Relation.ReflTransGen fun e s => s ∈ e.parts ++ e.selectors

/-- What is printed inside an expression is in every list that has the expression and, with an
expression, all that is directly inside it. -/
theorem mem_of_shows {es : List Expr}
    (hes : ∀ e ∈ es, ∀ s ∈ e.parts ++ e.selectors, s ∈ es) {e s : Expr} (he : e ∈ es)
    (h : e.Shows s) : s ∈ es := by
  induction h with
  | refl => exact he
  | tail _ hp ih => exact hes _ ih _ hp

/-! ## Types of operands -/

def IsTyped (e : Expr) : Prop :=
  ∃ t, e.elemType = .ok t

/-- A scalar of type bool. -/
def IsConstraint (e : Expr) : Prop :=
  e.isCollection = false ∧ e.elemType = .ok .bool

/-- Numbers, one or several. -/
def IsNumeric (e : Expr) : Prop :=
  ∃ t, e.elemType = .ok t ∧ t.isNumeric = true

/-- A scalar number. -/
def IsNumber (e : Expr) : Prop :=
  e.isCollection = false ∧ e.IsNumeric

theorem IsConstraint.isTyped {e : Expr} (h : e.IsConstraint) : e.IsTyped :=
  ⟨.bool, h.2⟩

theorem IsNumeric.isTyped {e : Expr} : e.IsNumeric → e.IsTyped
  | ⟨t, ht, _⟩ => ⟨t, ht⟩

theorem IsNumber.isTyped {e : Expr} (h : e.IsNumber) : e.IsTyped :=
  h.2.isTyped

end Expr

/-- Whether an aggregate may take its members from an expression: numbers are added and multiplied,
and truth values joined. -/
def Aggregate.Takes (op : Aggregate) (e : Expr) : Prop :=
  match op with
  | .sum | .product => e.IsNumeric
  | .every | .any => e.elemType = .ok .bool
  | .count | .least | .greatest => e.IsTyped

/-- Whether the operation at the root of an expression has operands of the types that it is for. -/
def Expr.OperandsFit : Expr → Prop
  | .unary .not e => e.IsConstraint
  | .unary _ e => e.IsNumber
  | .binary op a b =>
    (op.isArithmetic = true → a.IsNumber ∧ b.IsNumber) ∧
      (op.isLogical = true → a.IsConstraint ∧ b.IsConstraint)
  | .power a b => a.IsNumber ∧ b.IsNumber
  | .range a b => a.IsNumeric ∧ b.IsNumeric
  | .aggregate op args => ∀ e ∈ args.head?, op.Takes e
  | .comprehension op _ body => op.Takes body ∧ (op = .count → body.IsConstraint)
  | _ => True

/-! ## Steps of the inference -/

theorem widen_eq_ok {a b t : ElemType} (h : a.widen b = .ok t) :
    a.isNumeric = true ∧ b.isNumeric = true := by
  cases a <;> cases b <;> first | exact ⟨rfl, rfl⟩ | exact absurd h throw_ne_ok

theorem scalarType_eq_ok {e : Expr} {x : Except ModelError ElemType} {t : ElemType}
    (h : scalarType e x = .ok t) : e.isCollection = false ∧ x = .ok t := by
  unfold scalarType at h
  split_ifs at h with hcollection
  exact ⟨by simpa using hcollection, h⟩

theorem requireConstraint_eq_ok {use : ConstraintUse} {e : Expr}
    (h : requireConstraint use e e.elemType = .ok ()) : e.IsConstraint := by
  unfold requireConstraint at h
  split_ifs at h with hcollection
  · simp only [bind_eq_ok] at h
    obtain ⟨_, hthrow, -⟩ := h
    exact absurd hthrow throw_ne_ok
  · simp only [bind_eq_ok] at h
    obtain ⟨t, ht, h⟩ := h
    split_ifs at h with hbool
    exact ⟨by simpa using hcollection, by rwa [beq_iff_eq.1 hbool] at ht⟩

theorem arithmetic_numbers {a b : Expr} {s t u : ElemType}
    (ha : scalarType a a.elemType = .ok s) (hb : scalarType b b.elemType = .ok t)
    (h : s.widen t = .ok u) : a.IsNumber ∧ b.IsNumber := by
  obtain ⟨ha, hs⟩ := scalarType_eq_ok ha
  obtain ⟨hb, ht⟩ := scalarType_eq_ok hb
  obtain ⟨hsn, htn⟩ := widen_eq_ok h
  exact ⟨⟨ha, s, hs, hsn⟩, ⟨hb, t, ht, htn⟩⟩

theorem aggregateType_takes {op : Aggregate} {e : Expr} {s t : ElemType} (hs : e.elemType = .ok s)
    (h : aggregateType op s = .ok t) : op.Takes e := by
  cases op with
  | sum | product => exact ⟨s, hs, (widen_eq_ok h).1⟩
  | every | any =>
      rw [aggregateType] at h
      split_ifs at h with hbool
      rwa [hbool] at hs
  | count | least | greatest => exact ⟨s, hs⟩

theorem allTyped_eq_ok {es : List Expr} (h : allTyped es = .ok ()) : ∀ e ∈ es, e.IsTyped := by
  induction es with
  | nil => simp
  | cons e es ih =>
      simp only [allTyped, bind_eq_ok] at h
      obtain ⟨t, ht, h⟩ := h
      exact List.forall_mem_cons.2 ⟨⟨t, ht⟩, ih h⟩

theorem allOfType_eq_ok {t : ElemType} {es : List Expr} (h : allOfType t es = .ok ()) :
    ∀ e ∈ es, e.elemType = .ok t := by
  induction es with
  | nil => simp
  | cons e es ih =>
      simp only [allOfType, bind_eq_ok] at h
      obtain ⟨s, hs, h⟩ := h
      split_ifs at h with hst
      · rw [beq_iff_eq.1 hst] at hs
        exact List.forall_mem_cons.2 ⟨hs, ih h⟩
      · simp [bind_eq_ok, throw_ne_ok] at h

theorem commonType_eq_ok {es : List Expr} {t : ElemType} (h : commonType es = .ok t) :
    ∀ e ∈ es, e.elemType = .ok t := by
  cases es with
  | nil => exact absurd h throw_ne_ok
  | cons e es =>
      simp only [commonType, bind_eq_ok, pure_eq_ok] at h
      obtain ⟨s, hs, ⟨⟩, hes, rfl⟩ := h
      exact List.forall_mem_cons.2 ⟨hs, allOfType_eq_ok hes⟩

theorem firstType_eq_ok {es : List Expr} {t : ElemType} (h : firstType es = .ok t) :
    (∀ e ∈ es.head?, e.elemType = .ok t) ∧ ∀ e ∈ es, e.IsTyped := by
  cases es with
  | nil => exact absurd h throw_ne_ok
  | cons e es =>
      simp only [firstType, bind_eq_ok] at h
      obtain ⟨⟨⟩, hes, he⟩ := h
      exact ⟨by simpa using he, List.forall_mem_cons.2 ⟨⟨t, he⟩, allTyped_eq_ok hes⟩⟩

theorem domainsTyped_eq_ok {gs : List Generator} (h : domainsTyped gs = .ok ()) :
    ∀ e ∈ gs.map Generator.domain, e.IsTyped := by
  induction gs with
  | nil => simp
  | cons g gs ih =>
      obtain ⟨id, type, domain⟩ := g
      simp only [domainsTyped, bind_eq_ok] at h
      obtain ⟨t, ht, h⟩ := h
      exact List.forall_mem_cons.2 ⟨⟨t, ht⟩, ih h⟩

theorem typed_eq_ok {e e' : Expr} : e.typed = .ok e' ↔ (∃ t, e.elemType = .ok t) ∧ e' = e := by
  simp only [Expr.typed, bind_eq_ok, pure_eq_ok]
  constructor
  · rintro ⟨t, ht, rfl⟩
    exact ⟨⟨t, ht⟩, rfl⟩
  · rintro ⟨⟨t, ht⟩, rfl⟩
    exact ⟨t, ht, rfl⟩

/-- A generator takes the next number, and gets the type of its domain. -/
theorem generator_bind_eq_ok {domain : Expr} {generator : Generator} {n n' : Nat}
    (h : (Generator.bind domain).run n = (.ok generator, n')) :
    ∃ type, domain.elemType = .ok type ∧ generator = .over ⟨n⟩ type domain ∧ n' = n + 1 := by
  simp only [Generator.bind, build_bind_eq_ok, build_lift_eq_ok, build_pure_eq_ok,
    fresh_eq_ok] at h
  obtain ⟨-, _, ⟨-, rfl⟩, _, _, ⟨rfl, rfl⟩, type, _, ⟨htype, rfl⟩, rfl, rfl⟩ := h
  exact ⟨type, htype, rfl, rfl⟩

theorem rangeType_numeric {a b t : ElemType} (h : rangeType a b = .ok t) :
    a.isNumeric = true ∧ b.isNumeric = true := by
  cases a <;> cases b <;> first | exact ⟨rfl, rfl⟩ | cases h

theorem not_isLogical_of_isArithmetic {op : BinaryOp} (h : op.isArithmetic = true) :
    ¬op.isLogical = true := by
  cases op <;> first | exact Bool.false_ne_true | cases h

/-- The domains and the body of a comprehension are typed, and a count is of constraints. -/
theorem comprehension_eq_ok {op : Aggregate} {gs : List Generator} {body : Expr} {t : ElemType}
    (h : (Expr.comprehension op gs body).elemType = .ok t) :
    (∀ e ∈ gs.map Generator.domain, e.IsTyped) ∧ (op = .count → body.IsConstraint) ∧
      ∃ s, body.elemType = .ok s ∧ aggregateType op s = .ok t := by
  simp only [Expr.elemType, bind_eq_ok] at h
  obtain ⟨⟨⟩, hgs, h⟩ := h
  refine ⟨domainsTyped_eq_ok hgs, ?_⟩
  split_ifs at h with hcount
  · simp only [bind_eq_ok] at h
    obtain ⟨⟨⟩, hbody, h⟩ := h
    exact ⟨fun _ => requireConstraint_eq_ok hbody, h⟩
  · simp only [bind_eq_ok] at h
    exact ⟨fun h => absurd h hcount, h⟩

/-! ## One step down -/

namespace Expr

variable {e : Expr}

/-- The parts of a typed expression are typed, and its operands are what its operation is for. -/
theorem IsTyped.step (h : e.IsTyped) : (∀ p ∈ e.parts, p.IsTyped) ∧ e.OperandsFit := by
  obtain ⟨t, h⟩ := h
  cases e with
  | view array positions =>
      rw [elemType] at h
      exact ⟨by simpa [parts] using ⟨t, h⟩, trivial⟩
  | range a b =>
      simp only [elemType, bind_eq_ok] at h
      obtain ⟨s, hs, u, hu, h⟩ := h
      obtain ⟨hsn, hun⟩ := rangeType_numeric h
      exact ⟨by simpa [parts] using ⟨⟨s, hs⟩, u, hu⟩, ⟨s, hs, hsn⟩, u, hu, hun⟩
  | sequence es =>
      exact ⟨fun p hp => ⟨t, commonType_eq_ok h p hp⟩, trivial⟩
  | unary op a =>
      cases op with
      | not =>
          simp only [elemType, bind_eq_ok] at h
          obtain ⟨⟨⟩, ha, -⟩ := h
          have ha := requireConstraint_eq_ok ha
          exact ⟨by simpa [parts] using ha.isTyped, ha⟩
      | negate | absolute =>
          simp only [elemType, bind_eq_ok] at h
          obtain ⟨s, hs, h⟩ := h
          obtain ⟨hcollection, hs⟩ := scalarType_eq_ok hs
          exact ⟨by simpa [parts] using ⟨s, hs⟩, hcollection, s, hs, (widen_eq_ok h).1⟩
  | binary op a b =>
      rw [elemType] at h
      split_ifs at h with harith hlogical
      · simp only [bind_eq_ok, arithmeticType] at h
        obtain ⟨s, hs, u, hu, t, ht, -⟩ := h
        obtain ⟨ha, hb⟩ := arithmetic_numbers hs hu ht
        exact ⟨by simpa [parts] using ⟨ha.isTyped, hb.isTyped⟩, fun _ => ⟨ha, hb⟩,
          fun hl => absurd hl (not_isLogical_of_isArithmetic harith)⟩
      · simp only [bind_eq_ok] at h
        obtain ⟨⟨⟩, ha, ⟨⟩, hb, -⟩ := h
        have ha := requireConstraint_eq_ok ha
        have hb := requireConstraint_eq_ok hb
        exact ⟨by simpa [parts] using ⟨ha.isTyped, hb.isTyped⟩, fun ha' => absurd ha' harith,
          fun _ => ⟨ha, hb⟩⟩
      · simp only [bind_eq_ok] at h
        obtain ⟨s, hs, u, hu, -⟩ := h
        exact ⟨by simpa [parts] using ⟨⟨s, hs⟩, u, hu⟩, fun ha' => absurd ha' harith,
          fun hl => absurd hl hlogical⟩
  | power a b =>
      simp only [elemType, bind_eq_ok] at h
      obtain ⟨s, hs, u, hu, h⟩ := h
      obtain ⟨ha, hb⟩ := arithmetic_numbers hs hu h
      exact ⟨by simpa [parts] using ⟨ha.isTyped, hb.isTyped⟩, ha, hb⟩
  | aggregate op es =>
      simp only [elemType, bind_eq_ok] at h
      obtain ⟨s, hs, h⟩ := h
      obtain ⟨hfirst, hes⟩ := firstType_eq_ok hs
      exact ⟨hes, fun e he => aggregateType_takes (hfirst e he) h⟩
  | comprehension op gs body =>
      obtain ⟨hgs, hcount, s, hs, ht⟩ := comprehension_eq_ok h
      refine ⟨fun p hp => ?_, aggregateType_takes hs ht, hcount⟩
      rcases List.mem_append.1 hp with hp | hp
      · exact hgs p hp
      · rw [List.mem_singleton.1 hp]
        exact ⟨s, hs⟩
  | global kind es =>
      simp only [elemType, bind_eq_ok] at h
      obtain ⟨⟨⟩, hes, -⟩ := h
      exact ⟨allTyped_eq_ok hes, trivial⟩
  | _ => exact ⟨by simp [parts], trivial⟩

/-- All that is printed outside the positions of views is typed, at any depth. -/
theorem IsTyped.of_showsOutside {s : Expr} (h : e.IsTyped) (hs : e.ShowsOutside s) : s.IsTyped := by
  induction hs with
  | refl => exact h
  | tail _ hp ih => exact ih.step.1 _ hp

/-- What selects from arrays is all that can be untyped in a typed expression. -/
theorem IsTyped.of_shows {s : Expr} (h : e.IsTyped)
    (hselectors : ∀ v, e.Shows v → ∀ p ∈ v.selectors, p.IsTyped) (hs : e.Shows s) : s.IsTyped := by
  -- A selector of `v` is not among the parts of `v`, so its type cannot come from that of `v`.
  induction hs with
  | refl => exact h
  | @tail v p hv hp ih =>
      rcases List.mem_append.1 hp with hp | hp
      · exact ih.step.1 p hp
      · exact hselectors v hv p hp

end Expr

/-! ## Statements of a model -/

theorem requireStatement_isTyped {e : Expr} (h : e.requireStatement = .ok ()) : e.IsTyped :=
  (requireConstraint_eq_ok h).isTyped

theorem require_isTyped {o : Objective} {e : Expr} (h : o.require = .ok ())
    (he : o.value? = some e) : e.IsTyped := by
  rw [Objective.require, he] at h
  simp only at h
  split_ifs at h with hcollection
  · simp only [bind_eq_ok] at h
    obtain ⟨_, hthrow, -⟩ := h
    exact absurd hthrow throw_ne_ok
  · simp only [bind_eq_ok] at h
    obtain ⟨t, ht, -⟩ := h
    exact ⟨t, ht⟩

/-- Whether an expression is a constraint or the objective of a model that is resolved. -/
def Expr.IsAccepted (e : Expr) : Prop :=
  ∃ (model : Model) (n n' : Nat) (r : ResolvedModel), model.resolve.run n = (.ok r, n') ∧
    e ∈ model.constraints ++ model.objective.value?.toList

theorem Expr.IsAccepted.isTyped {e : Expr} (h : e.IsAccepted) : e.IsTyped := by
  obtain ⟨model, n, n', r, hrun, he⟩ := h
  obtain ⟨hconstraints, -, -, -, hobjective, -⟩ := resolve_eq_ok hrun
  rcases List.mem_append.1 he with he | he
  · exact requireStatement_isTyped (hconstraints e he)
  · exact require_isTyped hobjective (Option.mem_toList.1 he)

/-- Where an expression is typed, and so in every constraint and objective of a resolved model, all
that is printed outside the positions of views is typed, at any depth, and operands are what their
operations are for. All that is printed is so exactly if the indices and bounds in it are typed. -/
theorem operands_fit {e : Expr} (h : e.IsTyped ∨ e.IsAccepted) :
    (∀ s, e.ShowsOutside s → s.IsTyped ∧ s.OperandsFit) ∧
    ((∀ s, e.Shows s → s.IsTyped ∧ s.OperandsFit) ↔
      ∀ v, e.Shows v → ∀ p ∈ v.selectors, p.IsTyped) := by
  have htyped : e.IsTyped := h.elim id Expr.IsAccepted.isTyped
  refine ⟨fun s hs => ?_, fun hall v hv p hp => ?_, fun hselectors s hs => ?_⟩
  · have hs := htyped.of_showsOutside hs
    exact ⟨hs, hs.step.2⟩
  · exact (hall p (hv.tail (List.mem_append_right _ hp))).1
  · have hs := htyped.of_shows hselectors hs
    exact ⟨hs, hs.step.2⟩

/-- The sum of two and the element of an array behind the one at a variable index. -/
def successor : Expr :=
  .binary .add
    (.view (.varArray ⟨0⟩ .int ⟨[3]⟩) [.index (.binary .add (.var ⟨1⟩ .int) (.literal (.int 1)))])
    (.literal (.int 2))

def successorModel : Model where
  attributes := [("a", .varArray ⟨0⟩ .int ⟨[3]⟩), ("k", .var ⟨1⟩ .int)]
  constraints := []
  objective := .minimize successor

/-- Only one expression that the objective prints selects from an array, and its index is typed. -/
theorem successor_selectors {v p : Expr} (hv : successor.Shows v) (hp : p ∈ v.selectors) :
    p.IsTyped := by
  have hshown : v = successor ∨
      v = .view (.varArray ⟨0⟩ .int ⟨[3]⟩)
        [.index (.binary .add (.var ⟨1⟩ .int) (.literal (.int 1)))] ∨
      v = .binary .add (.var ⟨1⟩ .int) (.literal (.int 1)) ∨ v.parts ++ v.selectors = [] := by
    clear hp
    induction hv with
    | refl => exact .inl rfl
    | tail _ hp ih =>
        obtain rfl | rfl | rfl | hnone := ih
        · grind [successor, Expr.parts, Expr.selectors]
        · grind [Expr.parts, Expr.selectors, Position.operands]
        · grind [Expr.parts, Expr.selectors]
        · simp [hnone] at hp
  obtain rfl | rfl | rfl | hnone := hshown
  · cases hp
  · rw [List.mem_singleton.1 hp]
    exact ⟨.int, rfl⟩
  · cases hp
  · simp_all

theorem operands_fit_successorModel : ∃ r n', successorModel.resolve.run 2 = (.ok r, n') ∧
    ∀ s, successor.Shows s → s.IsTyped ∧ s.OperandsFit := by
  refine ⟨_, _, rfl, ?_⟩
  have haccepted : successor.IsAccepted :=
    ⟨successorModel, 2, _, _, rfl, List.mem_singleton_self successor⟩
  exact (operands_fit (.inr haccepted)).2.2 fun _ hv _ hp => successor_selectors hv hp

/-- An element of an array at one more than a truth value. -/
def boolIndex : Expr :=
  .view (.varArray ⟨0⟩ .int ⟨[3]⟩) [.index (.binary .add (.var ⟨1⟩ .bool) (.literal (.int 1)))]

def boolIndexModel : Model where
  attributes := [("a", .varArray ⟨0⟩ .int ⟨[3]⟩), ("b", .var ⟨1⟩ .bool)]
  constraints := [.binary .eq boolIndex (.literal (.int 0))]
  objective := .satisfy

/-- A typed constraint of a compiled model adds to a truth value, in an index of an element that the
selection has made. -/
theorem boolIndexModel_untyped :
    (Expr.varArray ⟨0⟩ .int ⟨[3]⟩).select
        [.index (.binary .add (.var ⟨1⟩ .bool) (.literal (.int 1)))] = .ok boolIndex ∧
    (∃ c n', boolIndexModel.compile.run 2 = (.ok c, n') ∧
      c.program.lines = ["array[0..2] of var int: a;", "var bool: b;",
        "constraint (a[(b + 1)] == 0);", "solve satisfy;"]) ∧
    (Expr.binary .eq boolIndex (.literal (.int 0))).elemType = .ok .bool ∧
    ∃ s, (Expr.binary .eq boolIndex (.literal (.int 0))).Shows s ∧
      s.elemType = .error (.ambiguousType .bool .int) :=
  ⟨rfl, ⟨_, _, rfl, by decide⟩, rfl, .binary .add (.var ⟨1⟩ .bool) (.literal (.int 1)),
    .tail (.tail .refl List.mem_cons_self) (List.mem_append_right _ List.mem_cons_self), rfl⟩

end ConstraintModel
