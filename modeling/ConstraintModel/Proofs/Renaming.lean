import ConstraintModel.Construct.Leaf
import ConstraintModel.Proofs.Leaves
import Mathlib.Logic.Function.Basic

/-!
# Renaming identities

The identities of a model say which nodes are the same entity and nothing else. `Expr.rename` puts
other identities in an expression. A renaming changes no type, no enumeration and none of the
questions that a compilation asks of a node, and an error only in the identities that it names. None
of this needs identities that differ to stay different.
-/

namespace ConstraintModel

/-! ## Renamed expressions -/

mutual

def Domain.rename (σ : NodeId → NodeId) : Domain → Domain
  | .range start stop => .range (start.rename σ) (stop.rename σ)
  | .int => .int
  | .float => .float
  | .bool => .bool
  | .enumeration e => .enumeration e

def Expr.rename (σ : NodeId → NodeId) : Expr → Expr
  | .literal value => .literal value
  | .var id domain => .var (σ id) (domain.rename σ)
  | .boundVar id type value => .boundVar (σ id) type (value.rename σ)
  | .param id value => .param (σ id) value
  | .derivedParam id value => .derivedParam (σ id) (value.rename σ)
  | .varArray id domain shape => .varArray (σ id) (domain.rename σ) shape
  | .paramArray id values shape => .paramArray (σ id) values shape
  | .varSet id domain => .varSet (σ id) (domain.rename σ)
  | .paramSet id members => .paramSet (σ id) members
  | .setLiteral values => .setLiteral values
  | .view array positions => .view (array.rename σ) (positionsRenamed σ positions)
  | .range start stop => .range (start.rename σ) (stop.rename σ)
  | .sequence items => .sequence (allRenamed σ items)
  | .enumeration e => .enumeration e
  | .iterator id type => .iterator (σ id) type
  | .unary op operand => .unary op (operand.rename σ)
  | .binary op left right => .binary op (left.rename σ) (right.rename σ)
  | .power base exponent => .power (base.rename σ) (exponent.rename σ)
  | .size array dim => .size (array.rename σ) dim
  | .aggregate op args => .aggregate op (allRenamed σ args)
  | .comprehension op generators body =>
    .comprehension op (generatorsRenamed σ generators) (body.rename σ)
  | .global kind args => .global kind (allRenamed σ args)

def allRenamed (σ : NodeId → NodeId) : List Expr → List Expr
  | [] => []
  | e :: es => e.rename σ :: allRenamed σ es

def positionsRenamed (σ : NodeId → NodeId) : List Position → List Position
  | [] => []
  | .index i :: ps => .index (i.rename σ) :: positionsRenamed σ ps
  | .slice start stop :: ps =>
    .slice (start.rename σ) (stop.rename σ) :: positionsRenamed σ ps

def generatorsRenamed (σ : NodeId → NodeId) : List Generator → List Generator
  | [] => []
  | .over id type domain :: gs =>
    .over (σ id) type (domain.rename σ) :: generatorsRenamed σ gs

end

variable {σ τ : NodeId → NodeId}

theorem allRenamed_eq_map (σ : NodeId → NodeId) (es : List Expr) :
    allRenamed σ es = es.map (Expr.rename σ) := by
  induction es with
  | nil => rfl
  | cons e es ih => rw [allRenamed, List.map_cons, ih]

mutual

theorem Domain.rename_congr : ∀ d : Domain, (∀ id ∈ d.ids, σ id = τ id) → d.rename σ = d.rename τ
  | .int, _ | .float, _ | .bool, _ | .enumeration _, _ => rfl
  | .range start stop, h => by
      simp only [Domain.ids, List.forall_mem_append] at h
      simp only [Domain.rename, start.rename_congr h.1, stop.rename_congr h.2]

/-- Renamings that agree on the identities of an expression rename it alike. -/
theorem Expr.rename_congr : ∀ e : Expr, (∀ id ∈ e.ids, σ id = τ id) → e.rename σ = e.rename τ
  | .literal _, _ | .setLiteral _, _ | .enumeration _, _ => rfl
  | .param id _, h | .paramArray id _ _, h | .paramSet id _, h | .iterator id _, h => by
      simp only [Expr.rename, h id (List.mem_singleton_self id)]
  | .var _ domain, h | .varArray _ domain _, h | .varSet _ domain, h => by
      simp only [Expr.ids, List.forall_mem_cons] at h
      simp only [Expr.rename, h.1, domain.rename_congr h.2]
  | .boundVar _ _ value, h | .derivedParam _ value, h => by
      simp only [Expr.ids, List.forall_mem_cons] at h
      simp only [Expr.rename, h.1, value.rename_congr h.2]
  | .view array positions, h => by
      simp only [Expr.ids, List.forall_mem_append] at h
      simp only [Expr.rename, array.rename_congr h.1, positionsRenamed_congr positions h.2]
  | .size array _, h => by
      simp only [Expr.rename, array.rename_congr h]
  | .unary _ operand, h => by
      simp only [Expr.rename, operand.rename_congr h]
  | .range left right, h | .binary _ left right, h | .power left right, h => by
      simp only [Expr.ids, List.forall_mem_append] at h
      simp only [Expr.rename, left.rename_congr h.1, right.rename_congr h.2]
  | .sequence items, h => by
      simp only [Expr.rename, allRenamed_congr items h]
  | .aggregate _ args, h | .global _ args, h => by
      simp only [Expr.rename, allRenamed_congr args h]
  | .comprehension _ generators body, h => by
      simp only [Expr.ids, List.forall_mem_append] at h
      simp only [Expr.rename, generatorsRenamed_congr generators h.1, body.rename_congr h.2]

theorem allRenamed_congr : ∀ es : List Expr, (∀ id ∈ allIds es, σ id = τ id) →
    allRenamed σ es = allRenamed τ es
  | [], _ => rfl
  | e :: es, h => by
      simp only [allIds, List.forall_mem_append] at h
      simp only [allRenamed, e.rename_congr h.1, allRenamed_congr es h.2]

theorem positionsRenamed_congr : ∀ ps : List Position, (∀ id ∈ positionIds ps, σ id = τ id) →
    positionsRenamed σ ps = positionsRenamed τ ps
  | [], _ => rfl
  | .index i :: ps, h => by
      simp only [positionIds, List.forall_mem_append] at h
      simp only [positionsRenamed, i.rename_congr h.1, positionsRenamed_congr ps h.2]
  | .slice start stop :: ps, h => by
      simp only [positionIds, List.forall_mem_append] at h
      simp only [positionsRenamed, start.rename_congr h.1.1, stop.rename_congr h.1.2,
        positionsRenamed_congr ps h.2]

theorem generatorsRenamed_congr : ∀ gs : List Generator,
    (∀ id ∈ generatorsIds gs, σ id = τ id) → generatorsRenamed σ gs = generatorsRenamed τ gs
  | [], _ => rfl
  | .over _ _ domain :: gs, h => by
      simp only [generatorsIds, List.forall_mem_cons, List.forall_mem_append] at h
      simp only [generatorsRenamed, h.1.1, domain.rename_congr h.1.2,
        generatorsRenamed_congr gs h.2]

end

mutual

theorem Domain.rename_id : ∀ d : Domain, d.rename id = d
  | .int | .float | .bool | .enumeration _ => rfl
  | .range start stop => by simp only [Domain.rename, start.rename_id, stop.rename_id]

theorem Expr.rename_id : ∀ e : Expr, e.rename id = e
  | .literal _ | .setLiteral _ | .enumeration _ | .param .. | .paramArray .. | .paramSet ..
  | .iterator .. => rfl
  | .var _ domain | .varArray _ domain _ | .varSet _ domain => by
      simp only [Expr.rename, domain.rename_id, id_eq]
  | .boundVar _ _ value | .derivedParam _ value => by
      simp only [Expr.rename, value.rename_id, id_eq]
  | .view array positions => by
      simp only [Expr.rename, array.rename_id, positionsRenamed_id positions]
  | .size array _ => by simp only [Expr.rename, array.rename_id]
  | .unary _ operand => by simp only [Expr.rename, operand.rename_id]
  | .range left right | .binary _ left right | .power left right => by
      simp only [Expr.rename, left.rename_id, right.rename_id]
  | .sequence items => by simp only [Expr.rename, allRenamed_id items]
  | .aggregate _ args | .global _ args => by simp only [Expr.rename, allRenamed_id args]
  | .comprehension _ generators body => by
      simp only [Expr.rename, generatorsRenamed_id generators, body.rename_id]

theorem allRenamed_id : ∀ es : List Expr, allRenamed id es = es
  | [] => rfl
  | e :: es => by simp only [allRenamed, e.rename_id, allRenamed_id es]

theorem positionsRenamed_id : ∀ ps : List Position, positionsRenamed id ps = ps
  | [] => rfl
  | .index i :: ps => by simp only [positionsRenamed, i.rename_id, positionsRenamed_id ps]
  | .slice start stop :: ps => by
      simp only [positionsRenamed, start.rename_id, stop.rename_id, positionsRenamed_id ps]

theorem generatorsRenamed_id : ∀ gs : List Generator, generatorsRenamed id gs = gs
  | [] => rfl
  | .over _ _ domain :: gs => by
      simp only [generatorsRenamed, domain.rename_id, generatorsRenamed_id gs, id_eq]

end

/-! ## Renamed errors -/

def Description.rename (σ : NodeId → NodeId) : Description → Description
  | var id => var (σ id)
  | param id => param (σ id)
  | array id shape => array (σ id) shape
  | set id => set (σ id)
  | d => d

def Subject.rename (σ : NodeId → NodeId) : Subject → Subject
  | node d => node (d.rename σ)
  | s => s

/-- The error with other identities for the nodes that it names. -/
def ModelError.rename (σ : NodeId → NodeId) : ModelError → ModelError
  | notAnArray found => notAnArray (found.rename σ)
  | mixedTypes expected found => mixedTypes (expected.rename σ) (found.rename σ)
  | unsupportedType found use => unsupportedType (found.rename σ) use
  | notAConstraint use found => notAConstraint use (found.rename σ)
  | invalidBinding found => invalidBinding (found.rename σ)
  | variableInParameter found => variableInParameter (found.rename σ)
  | unnamed found => unnamed (found.rename σ)
  | collectionObjective found => collectionObjective (found.rename σ)
  | nonNumericObjective found type => nonNumericObjective (found.rename σ) type
  | e => e

/-- A result as it is, or the error with other identities. -/
def renameError {α : Type} (σ : NodeId → NodeId) (x : Except ModelError α) :
    Except ModelError α :=
  x.mapError (ModelError.rename σ)

section

variable {α β : Type}

@[simp] theorem renameError_pure (a : α) : renameError σ (pure a) = pure a :=
  rfl

@[simp] theorem renameError_throw (e : ModelError) :
    renameError σ (throw e : Except ModelError α) = throw (e.rename σ) :=
  rfl

@[simp] theorem renameError_bind (x : Except ModelError α) (f : α → Except ModelError β) :
    renameError σ (x >>= f) = renameError σ x >>= fun a => renameError σ (f a) := by
  cases x <;> rfl

@[simp] theorem renameError_ite (p : Prop) [Decidable p] (x y : Except ModelError α) :
    renameError σ (if p then x else y) = if p then renameError σ x else renameError σ y := by
  split <;> rfl

@[simp] theorem renameError_map (f : α → β) (x : Except ModelError α) :
    renameError σ (f <$> x) = f <$> renameError σ x := by
  cases x <;> rfl

/-- Steps over renamed items fail alike if each does. -/
theorem forM_rename {f : β → Except ModelError Unit} {g : α → Except ModelError Unit} {r : α → β}
    {xs : List α} (h : ∀ x ∈ xs, f (r x) = renameError σ (g x)) :
    (xs.map r).forM f = renameError σ (xs.forM g) := by
  simp only [List.forM_eq_forM]
  induction xs with
  | nil => rfl
  | cons x xs ih =>
      obtain ⟨hx, hxs⟩ := List.forall_mem_cons.1 h
      simp only [List.map_cons, List.forM_cons, renameError_bind, hx, ih hxs]

/-- Where no item has an error that names a node, a renaming changes none. -/
theorem renameError_forM {f : α → Except ModelError Unit} (h : ∀ x, renameError σ (f x) = f x)
    (xs : List α) : renameError σ (xs.forM f) = xs.forM f := by
  have hforM : (xs.map id).forM f = renameError σ (xs.forM f) :=
    forM_rename fun x _ => (h x).symm
  rw [List.map_id] at hforM
  exact hforM.symm

theorem mapM_rename {γ δ : Type} {f : β → Except ModelError δ} {g : α → Except ModelError γ}
    {r : α → β} {q : γ → δ} {xs : List α}
    (h : ∀ x ∈ xs, f (r x) = q <$> renameError σ (g x)) :
    (xs.map r).mapM f = List.map q <$> renameError σ (xs.mapM g) := by
  induction xs with
  | nil => rfl
  | cons x xs ih =>
      obtain ⟨hx, hxs⟩ := List.forall_mem_cons.1 h
      simp only [List.map_cons, List.mapM_cons, hx, ih hxs, renameError_bind, renameError_pure,
        bind_map_left, map_bind, map_pure]

end

/-! ## Questions asked of a node -/

theorem sliceCount_renamed (ps : List Position) :
    sliceCount (positionsRenamed σ ps) = sliceCount ps := by
  induction ps with
  | nil => rfl
  | cons p ps ih =>
      unfold sliceCount at ih ⊢
      cases p <;> simp [positionsRenamed, List.countP_cons, ih, Position.isSlice]

namespace Expr

variable (e : Expr)

@[simp] theorem id?_rename : (e.rename σ).id? = e.id?.map σ := by
  cases e <;> rfl

@[simp] theorem literalInt?_rename : (e.rename σ).literalInt? = e.literalInt? := by
  cases e <;> rfl

@[simp] theorem isZero_rename : (e.rename σ).isZero = e.isZero := by
  cases e <;> rfl

@[simp] theorem isOperation_rename : (e.rename σ).isOperation = e.isOperation := by
  cases e <;> simp [rename, isOperation, sliceCount_renamed]

@[simp] theorem isCollection_rename : (e.rename σ).isCollection = e.isCollection := by
  cases e <;> simp [rename, isCollection, sliceCount_renamed]

@[simp] theorem isParameter_rename : (e.rename σ).isParameter = e.isParameter := by
  cases e <;> rfl

@[simp] theorem shape?_rename : (e.rename σ).shape? = e.shape? := by
  cases e <;> rfl

@[simp] theorem description_rename :
    (e.rename σ).description = e.description.rename σ := by
  cases e <;> rfl

@[simp] theorem subject_rename : (e.rename σ).subject = e.subject.rename σ := by
  simp [subject, Subject.rename]

end Expr

/-! ## Types -/

@[simp] theorem renameError_widen (a b : ElemType) : renameError σ (a.widen b) = a.widen b := by
  cases a <;> cases b <;> rfl

@[simp] theorem renameError_rangeType (a b : ElemType) :
    renameError σ (rangeType a b) = rangeType a b := by
  cases a <;> cases b <;> rfl

@[simp] theorem renameError_literalsType (kind : CollectionKind) (vs : List Literal) :
    renameError σ (literalsType kind vs) = literalsType kind vs := by
  cases vs <;> rfl

@[simp] theorem renameError_arithmeticType (op : BinaryOp) (a b : ElemType) :
    renameError σ (arithmeticType op a b) = arithmeticType op a b := by
  simp only [arithmeticType, renameError_bind, renameError_widen, renameError_pure]

@[simp] theorem renameError_aggregateType (op : Aggregate) (t : ElemType) :
    renameError σ (aggregateType op t) = aggregateType op t := by
  cases op <;> simp [aggregateType, ModelError.rename, Subject.rename]

theorem scalarType_rename (e : Expr) (type : Except ModelError ElemType) :
    scalarType (e.rename σ) (renameError σ type) = renameError σ (scalarType e type) := by
  simp only [scalarType, Expr.isCollection_rename, Expr.subject_rename, renameError_ite,
    renameError_throw, ModelError.rename]

theorem requireConstraint_rename (use : ConstraintUse) (e : Expr)
    (type : Except ModelError ElemType) :
    requireConstraint use (e.rename σ) (renameError σ type) =
      renameError σ (requireConstraint use e type) := by
  simp only [requireConstraint, Expr.isCollection_rename, Expr.subject_rename, renameError_bind,
    renameError_ite, renameError_throw, renameError_pure, ModelError.rename]

mutual

theorem Domain.elemType_rename (σ : NodeId → NodeId) :
    ∀ d : Domain, (d.rename σ).elemType = renameError σ d.elemType
  | .int | .float | .bool | .enumeration _ => rfl
  | .range start stop => by
      simp only [Domain.rename, Domain.elemType, start.elemType_rename σ, stop.elemType_rename σ,
        renameError_bind, renameError_rangeType]

/-- Renaming leaves the type of an expression as it is, and why it has none up to identities. -/
theorem Expr.elemType_rename (σ : NodeId → NodeId) :
    ∀ e : Expr, (e.rename σ).elemType = renameError σ e.elemType
  | .literal _ | .param .. | .boundVar .. | .enumeration _ | .iterator .. | .size ..
  | .paramSet _ (.interval ..) => rfl
  | .var _ domain | .varArray _ domain _ | .varSet _ domain => by
      simp only [Expr.rename, Expr.elemType, domain.elemType_rename σ]
  | .derivedParam _ value => by
      simp only [Expr.rename, Expr.elemType, value.elemType_rename σ]
  | .paramArray _ values _ | .paramSet _ (.listed values) | .setLiteral values => by
      simp only [Expr.rename, Expr.elemType, renameError_literalsType]
  | .view array _ => by
      simp only [Expr.rename, Expr.elemType, array.elemType_rename σ]
  | .range start stop => by
      simp only [Expr.rename, Expr.elemType, start.elemType_rename σ, stop.elemType_rename σ,
        renameError_bind, renameError_rangeType]
  | .sequence items => by
      simp only [Expr.rename, Expr.elemType, commonType_rename σ items]
  | .unary op operand => by
      cases op <;> simp only [Expr.rename, Expr.elemType, operand.elemType_rename σ,
        requireConstraint_rename, scalarType_rename, renameError_bind, renameError_pure,
        renameError_widen]
  | .binary op left right => by
      simp only [Expr.rename, Expr.elemType, left.elemType_rename σ, right.elemType_rename σ,
        requireConstraint_rename, scalarType_rename, renameError_ite, renameError_bind,
        renameError_pure, renameError_arithmeticType]
  | .power base exponent => by
      simp only [Expr.rename, Expr.elemType, base.elemType_rename σ, exponent.elemType_rename σ,
        scalarType_rename, renameError_bind, renameError_widen]
  | .aggregate op args => by
      simp only [Expr.rename, Expr.elemType, firstType_rename σ args, renameError_bind,
        renameError_aggregateType]
  | .comprehension op generators body => by
      simp only [Expr.rename, Expr.elemType, domainsTyped_rename σ generators,
        body.elemType_rename σ, requireConstraint_rename, renameError_bind, renameError_ite,
        renameError_aggregateType]
  | .global kind args => by
      simp only [Expr.rename, Expr.elemType, allTyped_rename σ args, renameError_bind,
        renameError_pure]

theorem commonType_rename (σ : NodeId → NodeId) :
    ∀ es : List Expr, commonType (allRenamed σ es) = renameError σ (commonType es)
  | [] => rfl
  | e :: es => by
      simp only [allRenamed, commonType, e.elemType_rename σ, allOfType_rename σ es,
        renameError_bind, renameError_pure]

theorem allOfType_rename (σ : NodeId → NodeId) : ∀ (es : List Expr) (type : ElemType),
    allOfType type (allRenamed σ es) = renameError σ (allOfType type es)
  | [], _ => rfl
  | e :: es, type => by
      simp only [allRenamed, allOfType, e.elemType_rename σ, allOfType_rename σ es,
        renameError_bind, renameError_ite, renameError_throw, ModelError.rename, Subject.rename]

theorem firstType_rename (σ : NodeId → NodeId) :
    ∀ es : List Expr, firstType (allRenamed σ es) = renameError σ (firstType es)
  | [] => rfl
  | e :: es => by
      simp only [allRenamed, firstType, e.elemType_rename σ, allTyped_rename σ es,
        renameError_bind]

theorem allTyped_rename (σ : NodeId → NodeId) :
    ∀ es : List Expr, allTyped (allRenamed σ es) = renameError σ (allTyped es)
  | [] => rfl
  | e :: es => by
      simp only [allRenamed, allTyped, e.elemType_rename σ, allTyped_rename σ es,
        renameError_bind]

theorem domainsTyped_rename (σ : NodeId → NodeId) :
    ∀ gs : List Generator, domainsTyped (generatorsRenamed σ gs) = renameError σ (domainsTyped gs)
  | [] => rfl
  | .over _ _ domain :: gs => by
      simp only [generatorsRenamed, domainsTyped, domain.elemType_rename σ,
        domainsTyped_rename σ gs, renameError_bind]

end

/-! ## Enumerations -/

theorem Domain.enumerations_rename (d : Domain) : (d.rename σ).enumerations = d.enumerations := by
  cases d <;> rfl

mutual

theorem Expr.enumerations_rename (σ : NodeId → NodeId) :
    ∀ e : Expr, (e.rename σ).enumerations = e.enumerations
  | .literal _ | .setLiteral _ | .enumeration _ | .param .. | .paramArray .. | .iterator ..
  | .paramSet _ (.listed _) | .paramSet _ (.interval ..) => rfl
  | .var _ domain | .varArray _ domain _ | .varSet _ domain => by
      simp only [Expr.rename, Expr.enumerations, domain.enumerations_rename]
  | .boundVar _ _ value | .derivedParam _ value => by
      simp only [Expr.rename, Expr.enumerations, value.enumerations_rename σ]
  | .view array positions => by
      simp only [Expr.rename, Expr.enumerations, array.enumerations_rename σ,
        positionEnumerations_rename σ positions]
  | .size array _ => by simp only [Expr.rename, Expr.enumerations, array.enumerations_rename σ]
  | .unary _ operand => by
      simp only [Expr.rename, Expr.enumerations, operand.enumerations_rename σ]
  | .range left right | .binary _ left right | .power left right => by
      simp only [Expr.rename, Expr.enumerations, left.enumerations_rename σ,
        right.enumerations_rename σ]
  | .sequence items => by
      simp only [Expr.rename, Expr.enumerations, allEnumerations_rename σ items]
  | .aggregate _ args | .global _ args => by
      simp only [Expr.rename, Expr.enumerations, allEnumerations_rename σ args]
  | .comprehension _ generators body => by
      simp only [Expr.rename, Expr.enumerations, generatorEnumerations_rename σ generators,
        body.enumerations_rename σ]

theorem allEnumerations_rename (σ : NodeId → NodeId) :
    ∀ es : List Expr, allEnumerations (allRenamed σ es) = allEnumerations es
  | [] => rfl
  | e :: es => by
      simp only [allRenamed, allEnumerations, e.enumerations_rename σ, allEnumerations_rename σ es]

theorem positionEnumerations_rename (σ : NodeId → NodeId) :
    ∀ ps : List Position, positionEnumerations (positionsRenamed σ ps) = positionEnumerations ps
  | [] => rfl
  | .index i :: ps => by
      simp only [positionsRenamed, positionEnumerations, i.enumerations_rename σ,
        positionEnumerations_rename σ ps]
  | .slice start stop :: ps => by
      simp only [positionsRenamed, positionEnumerations, start.enumerations_rename σ,
        stop.enumerations_rename σ, positionEnumerations_rename σ ps]

theorem generatorEnumerations_rename (σ : NodeId → NodeId) : ∀ gs : List Generator,
    generatorEnumerations (generatorsRenamed σ gs) = generatorEnumerations gs
  | [] => rfl
  | .over _ _ domain :: gs => by
      simp only [generatorsRenamed, generatorEnumerations, domain.enumerations_rename σ,
        generatorEnumerations_rename σ gs]

end

end ConstraintModel
