import ConstraintModel.Bindings
import ConstraintModel.Proofs.Partial
import ConstraintModel.Proofs.RenamedTerms

/-!
# Compilations that differ in identities

Identities come from a counter that all models share, so two compilations of one model see different
ones: those of the nodes may be others, and those of the variables that attributes are bound to are
taken later. The two runs go in lockstep under a renaming of identities, and end with the same program
text or with the same error up to it.
-/

namespace ConstraintModel

open Source

variable {σ : NodeId → NodeId}

namespace Source

/-! ## Renamed programs -/

def Base.rename (σ : NodeId → NodeId) : Base → Base
  | type t => type t
  | span t => span (t.rename σ)

def DeclaredType.rename (σ : NodeId → NodeId) : DeclaredType → DeclaredType
  | scalar search base => scalar search (base.rename σ)
  | array shape search base => array shape search (base.rename σ)
  | set search base => set search (base.rename σ)

def Declaration.rename (σ : NodeId → NodeId) (d : Declaration) : Declaration :=
  ⟨d.type.rename σ, d.symbol.rename σ, d.definition.map (Term.rename σ)⟩

def VariableDeclaration.rename (σ : NodeId → NodeId) (d : VariableDeclaration) :
    VariableDeclaration :=
  ⟨d.declaration.rename σ, d.value.map (Term.rename σ)⟩

def Goal.rename (σ : NodeId → NodeId) : Goal → Goal
  | satisfy => satisfy
  | minimize t => minimize (t.rename σ)
  | maximize t => maximize (t.rename σ)

def Program.rename (σ : NodeId → NodeId) (p : Program) : Program where
  enumerations := p.enumerations
  parameters := p.parameters.map (Declaration.rename σ)
  decisions := p.decisions.map (VariableDeclaration.rename σ)
  constraints := p.constraints.map (Term.rename σ)
  goal := p.goal.rename σ

theorem DeclaredType.text_rename (t : DeclaredType) : (t.rename σ).text = t.text := by
  cases t <;> rename_i base <;> cases base <;>
    simp [rename, Base.rename, DeclaredType.text, Base.text]

theorem DeclaredType.features_rename (t : DeclaredType) : (t.rename σ).features = t.features := by
  cases t <;> rename_i base <;> cases base <;>
    simp [rename, Base.rename, DeclaredType.features, Base.features]

theorem Declaration.text_rename (d : Declaration) : (d.rename σ).text = d.text := by
  cases h : d.definition <;>
    simp [Declaration.text, rename, h, DeclaredType.text_rename, Symbol.rename]

theorem Declaration.features_rename (d : Declaration) : (d.rename σ).features = d.features := by
  cases h : d.definition <;>
    simp [Declaration.features, rename, h, DeclaredType.features_rename]

theorem VariableDeclaration.lines_rename (d : VariableDeclaration) :
    (d.rename σ).lines = d.lines := by
  have hword : (d.declaration.rename σ).symbol.word = d.declaration.symbol.word := rfl
  cases h : d.value <;>
    simp [VariableDeclaration.lines, equation?, rename, h, Declaration.text_rename, constraintText,
      Term.text, hword]

theorem VariableDeclaration.features_rename (d : VariableDeclaration) :
    (d.rename σ).features = d.features := by
  cases h : d.value <;>
    simp [VariableDeclaration.features, equation?, rename, h, Declaration.features_rename,
      Term.features]

theorem Goal.text_rename (g : Goal) : (g.rename σ).text = g.text := by
  cases g with
  | satisfy => rfl
  | minimize t | maximize t =>
      -- Equations of `Goal.text` are slow to derive, so it is unfolded.
      simp only [rename]
      unfold Goal.text
      simp only [Term.text_rename]

theorem Goal.features_rename (g : Goal) : (g.rename σ).features = g.features := by
  cases g <;> simp [rename, Goal.features]

theorem Program.features_rename (p : Program) : (p.rename σ).features = p.features := by
  simp only [Program.features, rename, List.flatMap_map, Declaration.features_rename,
    VariableDeclaration.features_rename, Term.features_rename, Goal.features_rename]

theorem Program.text_rename (p : Program) : (p.rename σ).text = p.text := by
  have hconstraint : ∀ t : Term, constraintText (t.rename σ) = constraintText t := fun t => by
    rw [constraintText, Term.text_rename, constraintText]
  have hstatements : (p.rename σ).statements = p.statements := by
    simp only [statements, rename, List.map_map, List.flatMap_map, Function.comp_def,
      Declaration.text_rename, VariableDeclaration.lines_rename, hconstraint, Goal.text_rename]
  rw [Program.text, Program.text, lines, lines, hstatements, p.features_rename]

end Source

/-! ## Renamed models -/

def renameEntry (σ : NodeId → NodeId) (entry : String × Expr) : String × Expr :=
  (entry.1, entry.2.rename σ)

def Objective.rename (σ : NodeId → NodeId) : Objective → Objective
  | satisfy => satisfy
  | minimize e => minimize (e.rename σ)
  | maximize e => maximize (e.rename σ)

/-- The model with other identities for its nodes and iterators. -/
def Model.rename (σ : NodeId → NodeId) (m : Model) : Model where
  attributes := m.attributes.map (renameEntry σ)
  constraints := m.constraints.map (Expr.rename σ)
  objective := m.objective.rename σ

def Entities.rename (σ : NodeId → NodeId) (s : Entities) : Entities where
  symbols := s.symbols.map (Symbol.rename σ)
  parameters := s.parameters.map (renameEntry σ)
  decisions := s.decisions.map (renameEntry σ)

def ResolvedModel.rename (σ : NodeId → NodeId) (m : ResolvedModel) : ResolvedModel where
  toEntities := m.toEntities.rename σ
  enumerations := m.enumerations
  constraints := m.constraints.map (Expr.rename σ)
  objective := m.objective.rename σ

def CompiledModel.rename (σ : NodeId → NodeId) (m : CompiledModel) : CompiledModel :=
  ⟨m.resolved.rename σ, m.program.rename σ⟩

theorem Objective.value?_rename (o : Objective) :
    (o.rename σ).value? = o.value?.map (Expr.rename σ) := by
  cases o <;> rfl

theorem Objective.require_rename (o : Objective) :
    (o.rename σ).require = renameError σ o.require := by
  simp only [Objective.require, Objective.value?_rename]
  cases o.value? with
  | none => rfl
  | some e =>
      simp only [Option.map_some, Expr.isCollection_rename, Expr.description_rename,
        e.elemType_rename, renameError_bind, renameError_ite, renameError_throw, renameError_pure,
        ModelError.rename]

theorem Model.rename_congr {τ : NodeId → NodeId} {m : Model} (h : ∀ id ∈ m.ids, σ id = τ id) :
    m.rename σ = m.rename τ := by
  simp only [Model.ids, List.forall_mem_append] at h
  obtain ⟨⟨hattributes, hconstraints⟩, hobjective⟩ := h
  have hentries : m.attributes.map (renameEntry σ) = m.attributes.map (renameEntry τ) := by
    refine List.map_congr_left fun entry hentry => ?_
    have he : entry.2.rename σ = entry.2.rename τ :=
      entry.2.rename_congr fun id hid =>
        hattributes id (List.mem_flatMap.2 ⟨entry, hentry, hid⟩)
    rw [renameEntry, he, renameEntry]
  have hobj : m.objective.rename σ = m.objective.rename τ := by
    cases ho : m.objective with
    | satisfy => rfl
    | minimize e | maximize e =>
        have he : e.rename σ = e.rename τ := e.rename_congr fun id hid =>
          hobjective id (by simpa [ho, Objective.value?, allIds] using hid)
        rw [Objective.rename, he, Objective.rename]
  rw [Model.rename, hentries, ← allRenamed_eq_map, allRenamed_congr _ hconstraints, hobj,
    allRenamed_eq_map, Model.rename]

theorem Model.rename_id (m : Model) : m.rename id = m := by
  have hentry : renameEntry id = id := by
    funext entry
    rw [renameEntry, entry.2.rename_id, id_eq]
  have hobjective : m.objective.rename id = m.objective := by
    cases h : m.objective <;> simp [Objective.rename, Expr.rename_id]
  rw [Model.rename, hentry, ← allRenamed_eq_map, allRenamed_id, hobjective, List.map_id]

/-! ## Renamed resolved models -/

theorem Domain.base_rename (hσ : Function.Injective σ) (v : Vocabulary) (d : Domain) :
    (d.rename σ).base (v.rename σ) = Base.rename σ <$> renameError σ (d.base v) := by
  cases d with
  | range start stop =>
      have hstart := start.term_rename hσ v []
      have hstop := stop.term_rename hσ v []
      simp only [List.map_nil] at hstart hstop
      simp [Domain.rename, Domain.base, hstart, hstop, rangeSpan_rename, Base.rename]
  | int => rfl
  | float => rfl
  | bool => rfl
  | enumeration e => rfl

/-- A map over a failure is the failure. -/
theorem map_throw {α β : Type} (f : α → β) (e : ModelError) :
    f <$> (throw e : Except ModelError α) = throw e :=
  rfl

theorem Expr.declaration_rename (hσ : Function.Injective σ) (v : Vocabulary) (name : String)
    (e : Expr) : (e.rename σ).declaration (v.rename σ) name =
      Declaration.rename σ <$> renameError σ (e.declaration v name) := by
  cases e with
  | derivedParam id value =>
      have hvalue := value.term_rename hσ v []
      simp only [List.map_nil] at hvalue
      simp [Expr.rename, Expr.declaration, value.elemType_rename, hvalue, Declaration.rename,
        DeclaredType.rename, Base.rename, Symbol.rename]
  | paramSet id members =>
      cases members <;> simp [Expr.rename, Expr.declaration, SetMembers.base, Declaration.rename,
        DeclaredType.rename, Base.rename, Term.rename, Term.int, Symbol.rename]
  | _ =>
      simp [Expr.rename, Expr.declaration, Domain.base_rename hσ, Declaration.rename,
        DeclaredType.rename, Base.rename, Symbol.rename, ModelError.rename, Expr.subject,
        Expr.description, Subject.rename, Description.rename, map_throw]

theorem Expr.variableDeclaration_rename (hσ : Function.Injective σ) (v : Vocabulary)
    (name : String) (e : Expr) : (e.rename σ).variableDeclaration (v.rename σ) name =
      VariableDeclaration.rename σ <$> renameError σ (e.variableDeclaration v name) := by
  simp only [Expr.variableDeclaration, e.declaration_rename hσ, renameError_bind, map_bind,
    bind_map_left]
  refine congrArg _ (funext fun d => ?_)
  cases e with
  | boundVar id type value =>
      have hvalue := value.term_rename hσ v []
      simp only [List.map_nil] at hvalue
      simp [Expr.rename, hvalue, VariableDeclaration.rename]
  | _ => rfl

theorem Objective.goal_rename (hσ : Function.Injective σ) (v : Vocabulary) (o : Objective) :
    (o.rename σ).goal (v.rename σ) = Goal.rename σ <$> renameError σ (o.goal v) := by
  cases o with
  | satisfy => rfl
  | minimize e | maximize e =>
      have he := e.term_rename hσ v []
      simp only [List.map_nil] at he
      simp [Objective.rename, Objective.goal, he, Goal.rename]

theorem ResolvedModel.program_rename (hσ : Function.Injective σ) (m : ResolvedModel) :
    (m.rename σ).program = Program.rename σ <$> renameError σ m.program := by
  let v := Vocabulary.ofModel m
  have hparameters : ((m.parameters.map (renameEntry σ)).mapM fun entry =>
      entry.2.declaration (v.rename σ) entry.1) = List.map (Declaration.rename σ) <$>
        renameError σ (m.parameters.mapM fun entry => entry.2.declaration v entry.1) :=
    mapM_rename fun entry _ => entry.2.declaration_rename hσ v entry.1
  have hdecisions : ((m.decisions.map (renameEntry σ)).mapM fun entry =>
      entry.2.variableDeclaration (v.rename σ) entry.1) = List.map (VariableDeclaration.rename σ) <$>
        renameError σ (m.decisions.mapM fun entry => entry.2.variableDeclaration v entry.1) :=
    mapM_rename fun entry _ => entry.2.variableDeclaration_rename hσ v entry.1
  have hconstraints : ((m.constraints.map (Expr.rename σ)).mapM fun e => e.term (v.rename σ) []) =
      List.map (Term.rename σ) <$> renameError σ (m.constraints.mapM fun e => e.term v []) :=
    mapM_rename fun e _ => e.term_rename hσ v []
  have hgoal := m.objective.goal_rename hσ v
  have hv : Vocabulary.ofModel (m.rename σ) = v.rename σ := rfl
  simp only [ResolvedModel.program, hv]
  simp [ResolvedModel.rename, Entities.rename, hparameters, hdecisions, hconstraints, hgoal,
    Program.rename, v]

/-! ## Builds in lockstep -/

/-- From the counters `n` and `n'`, two builds take equally many identities, at most `k`, and the
second has the result of the first with other identities. -/
def Lockstep {α β : Type} (σ : NodeId → NodeId) (r : α → β) (k n n' : Nat) (x : Build α)
    (y : Build β) : Prop :=
  ∃ i ≤ k, ∃ result, x.run n = (result, n + i) ∧ y.run n' = (r <$> renameError σ result, n' + i)

namespace Lockstep

variable {α β γ δ : Type} {r : α → β} {q : γ → δ} {k l n n' : Nat}

theorem lift {x : Except ModelError α} {y : Except ModelError β} (h : y = r <$> renameError σ x) :
    Lockstep σ r 0 n n' (liftM x) (liftM y) :=
  ⟨0, Nat.le_refl 0, x, rfl, by rw [h]; rfl⟩

theorem pure (a : α) : Lockstep σ r 0 n n' (Pure.pure a) (Pure.pure (r a)) :=
  ⟨0, Nat.le_refl 0, .ok a, rfl, rfl⟩

theorem throw_bind (e : ModelError) (f : α → Build γ) (g : β → Build δ) :
    Lockstep σ q k n n' (throw e >>= f) (throw (e.rename σ) >>= g) :=
  ⟨0, Nat.zero_le k, .error e, rfl, rfl⟩

theorem fresh (h : σ ⟨n⟩ = ⟨n'⟩) : Lockstep σ σ 1 n n' Build.fresh Build.fresh :=
  ⟨1, Nat.le_refl 1, .ok ⟨n⟩, rfl, by
    change _ = (Except.ok (σ ⟨n⟩), n' + 1)
    rw [h]
    rfl⟩

theorem mono {x : Build α} {y : Build β} (h : Lockstep σ r k n n' x y) (hle : k ≤ l) :
    Lockstep σ r l n n' x y := by
  obtain ⟨i, hi, hrun⟩ := h
  exact ⟨i, Nat.le_trans hi hle, hrun⟩

theorem bind {x : Build α} {y : Build β} {f : α → Build γ} {g : β → Build δ}
    (h : Lockstep σ r k n n' x y)
    (hnext : ∀ i ≤ k, ∀ a, Lockstep σ q l (n + i) (n' + i) (f a) (g (r a))) :
    Lockstep σ q (l + k) n n' (x >>= f) (y >>= g) := by
  obtain ⟨i, hi, result, hx, hy⟩ := h
  cases result with
  | error e =>
      refine ⟨i, by omega, .error e, ?_, ?_⟩
      · rw [build_bind_run, hx]
      · rw [build_bind_run, hy]
        rfl
  | ok a =>
      obtain ⟨j, hj, result', hf, hg⟩ := hnext i hi a
      refine ⟨i + j, by omega, result', ?_, ?_⟩
      · rw [build_bind_run, hx, ← Nat.add_assoc]
        exact hf
      · rw [build_bind_run, hy, ← Nat.add_assoc]
        exact hg

theorem lift_bind {x : Except ModelError α} {y : Except ModelError β} {f : α → Build γ}
    {g : β → Build δ} (h : y = r <$> renameError σ x)
    (hnext : ∀ a, Lockstep σ q l n n' (f a) (g (r a))) :
    Lockstep σ q l n n' (liftM x >>= f) (liftM y >>= g) :=
  (lift h).bind fun i hi a => by
    obtain rfl : i = 0 := Nat.le_zero.1 hi
    exact hnext a

/-- A step that names no node in its result, and the same step over renamed nodes. -/
theorem check_bind {x y : Except ModelError α} {f : α → Build γ} {g : α → Build δ}
    (h : y = renameError σ x) (hnext : ∀ a, Lockstep σ q l n n' (f a) (g a)) :
    Lockstep σ q l n n' (liftM x >>= f) (liftM y >>= g) :=
  lift_bind (r := id) (h.trans (id_map _).symm) hnext

end Lockstep

/-! ## Compilations in lockstep -/

theorem Entities.declare_rename (hσ : Function.Injective σ) (s : Entities) (name : String)
    (e : Expr) : (s.rename σ).declare name (e.rename σ) =
      Entities.rename σ <$> renameError σ (s.declare name e) := by
  have hname : ∀ id, (s.rename σ).nameOf? (σ id) = s.nameOf? id := by
    intro id
    simp only [Entities.nameOf?, Entities.rename, Symbol.lookup_rename hσ, Option.map_map]
    rfl
  have hfinite : (e.rename σ).requireFiniteValue = renameError σ e.requireFiniteValue := by
    cases e <;> simp [Expr.rename, Expr.requireFiniteValue, Literal.renameError_requireFinite]
  simp only [Entities.declare, Expr.id?_rename]
  cases e.id? with
  | none => rfl
  | some id =>
      simp only [Option.map_some, hname, hfinite, Expr.isParameter_rename]
      split
      · rfl
      · simp only [renameError_bind, map_bind]
        refine congrArg _ (funext fun _ => ?_)
        split <;> simp [Entities.rename, Symbol.rename, renameEntry]

theorem bindVar_lockstep {n n' : Nat} (hnext : σ ⟨n⟩ = ⟨n'⟩) (e : Expr) :
    Lockstep σ (Expr.rename σ) 1 n n' e.bindVar (e.rename σ).bindVar := by
  have htype : (e.rename σ).bindingType = renameError σ e.bindingType := by
    simp only [Expr.bindingType, Expr.isOperation_rename, e.elemType_rename,
      Expr.description_rename, renameError_ite, renameError_throw, ModelError.rename]
  refine Lockstep.check_bind htype fun type => ?_
  exact (Lockstep.fresh hnext).bind fun _ _ id => Lockstep.pure (Expr.boundVar id type e)

theorem renameError_require (name : String) :
    renameError σ (Identifier.require name) = Identifier.require name := by
  simp only [Identifier.require, renameError_bind, renameError_ite, renameError_throw,
    renameError_pure, ModelError.rename]

theorem renameError_requireAll (e : Enumeration) :
    renameError σ (Identifier.requireAll e) = Identifier.requireAll e := by
  simp only [Identifier.requireAll, renameError_bind, renameError_require,
    renameError_forM renameError_require]

theorem declareAll_lockstep (hσ : Function.Injective σ) : ∀ (attributes : List (String × Expr))
    (s : Entities) (used : List String) (n n' : Nat),
    (∀ i < attributes.length, σ ⟨n + i⟩ = ⟨n' + i⟩) →
    Lockstep σ (Entities.rename σ) attributes.length n n' (s.declareAll used attributes)
      ((s.rename σ).declareAll used (attributes.map (renameEntry σ)))
  | [], s, _, _, _, _ => Lockstep.pure s
  | (name, e) :: attributes, s, used, n, n', hnext => by
      have hrest : ∀ i ≤ 1, ∀ e', Lockstep σ (Entities.rename σ) attributes.length (n + i) (n' + i)
          (do let s ← s.declare name e'; s.declareAll (name :: used) attributes)
          (do
            let s ← (s.rename σ).declare name (e'.rename σ)
            s.declareAll (name :: used) (attributes.map (renameEntry σ))) := by
        intro i hi e'
        refine Lockstep.lift_bind (s.declare_rename hσ name e') fun s' => ?_
        refine declareAll_lockstep hσ attributes s' (name :: used) (n + i) (n' + i) fun j hj => ?_
        rw [Nat.add_assoc, Nat.add_assoc]
        exact hnext (i + j) (by rw [List.length_cons]; omega)
      rw [List.map_cons]
      refine Lockstep.check_bind (renameError_require name).symm fun _ => ?_
      by_cases hused : name ∈ used
      · simp only [if_pos hused]
        exact Lockstep.throw_bind _ _ _
      · simp only [if_neg hused, Expr.isOperation_rename]
        split
        · exact Lockstep.bind (bindVar_lockstep (hnext 0 (Nat.zero_lt_succ _)) e) hrest
        · exact (hrest 0 (Nat.zero_le 1) e).mono (Nat.le_succ _)

theorem liftM_forM {α : Type} (f : α → Except ModelError Unit) (xs : List α) :
    (xs.forM fun x => (liftM (f x) : Build Unit)) = liftM (xs.forM f) := by
  simp only [List.forM_eq_forM]
  induction xs with
  | nil => rfl
  | cons x xs ih =>
      rw [List.forM_cons, List.forM_cons, ih]
      cases f x <;> rfl

/-- The expressions whose enumerations are declared are renamed with the model. -/
theorem enumerations_rename (m : Model) (s : Entities) :
    allEnumerations (((s.rename σ).parameters ++ (s.rename σ).decisions).map Prod.snd ++
        (m.rename σ).constraints ++ (m.rename σ).objective.value?.toList) =
      allEnumerations ((s.parameters ++ s.decisions).map Prod.snd ++ m.constraints ++
        m.objective.value?.toList) := by
  rw [← allEnumerations_rename σ (_ ++ m.objective.value?.toList), allRenamed_eq_map]
  congr 1
  have hsnd : Prod.snd ∘ renameEntry σ = Expr.rename σ ∘ Prod.snd := rfl
  have hobjective : (m.objective.rename σ).value?.toList =
      m.objective.value?.toList.map (Expr.rename σ) := by
    rw [Objective.value?_rename]
    cases m.objective.value? <;> rfl
  simp only [Entities.rename, Model.rename, hobjective, List.map_append, List.map_map, hsnd]

theorem resolve_lockstep (hσ : Function.Injective σ) {n n' : Nat} (m : Model)
    (hnext : ∀ i < m.attributes.length, σ ⟨n + i⟩ = ⟨n' + i⟩) :
    Lockstep σ (ResolvedModel.rename σ) m.attributes.length n n' m.resolve
      (m.rename σ).resolve := by
  have hconstraints : (m.rename σ).constraints.forM Expr.requireStatement =
      renameError σ (m.constraints.forM Expr.requireStatement) := by
    refine forM_rename fun c _ => ?_
    simp only [Expr.requireStatement, c.elemType_rename, requireConstraint_rename]
  simp only [Model.resolve, liftM_forM]
  refine Lockstep.check_bind hconstraints fun _ => ?_
  refine Lockstep.mono (Lockstep.bind (declareAll_lockstep hσ m.attributes .empty [] n n' hnext)
    (l := 0) fun i _ s => ?_) (Nat.le_of_eq (Nat.zero_add _))
  simp only [enumerations_rename]
  refine Lockstep.check_bind (renameError_forM renameError_requireAll _).symm fun _ => ?_
  refine Lockstep.check_bind m.objective.require_rename fun _ => ?_
  exact Lockstep.pure (ResolvedModel.mk s _ m.constraints m.objective)

theorem compile_lockstep (hσ : Function.Injective σ) {n n' : Nat} (m : Model)
    (hnext : ∀ i < m.attributes.length, σ ⟨n + i⟩ = ⟨n' + i⟩) :
    Lockstep σ (CompiledModel.rename σ) m.attributes.length n n' m.compile
      (m.rename σ).compile := by
  refine Lockstep.mono (Lockstep.bind (resolve_lockstep hσ m hnext) (l := 0) fun i _ resolved => ?_)
    (Nat.le_of_eq (Nat.zero_add _))
  exact Lockstep.lift_bind (resolved.program_rename hσ) fun p =>
    Lockstep.pure (CompiledModel.mk resolved p)

/-! ## Renamings of all identities -/

/-- A renaming of some identities, continued to all of them: the next `k` identities from `n` become
those from `n'`, and any others come after. -/
def extendRenaming (ids : List NodeId) (ρ : NodeId → NodeId) (n n' k : Nat) (id : NodeId) : NodeId :=
  if id ∈ ids then ρ id
  else if n ≤ id.number ∧ id.number < n + k then ⟨n' + (id.number - n)⟩
  else ⟨n' + k + id.number⟩

section Extension

variable {ids : List NodeId} {ρ : NodeId → NodeId} {n n' k : Nat}

theorem extendRenaming_of_mem {id : NodeId} (h : id ∈ ids) :
    extendRenaming ids ρ n n' k id = ρ id :=
  if_pos h

theorem extendRenaming_next (hn : ∀ id ∈ ids, id.number < n) {i : Nat} (hi : i < k) :
    extendRenaming ids ρ n n' k ⟨n + i⟩ = ⟨n' + i⟩ := by
  have hmem : (⟨n + i⟩ : NodeId) ∉ ids := fun hmem =>
    Nat.not_lt.2 (Nat.le_add_right n i) (hn _ hmem)
  rw [extendRenaming, if_neg hmem, if_pos ⟨Nat.le_add_right n i, Nat.add_lt_add_left hi n⟩,
    Nat.add_sub_cancel_left]

theorem extendRenaming_injective (hρ : ∀ a ∈ ids, ∀ b ∈ ids, ρ a = ρ b → a = b)
    (hn' : ∀ id ∈ ids, (ρ id).number < n') :
    Function.Injective (extendRenaming ids ρ n n' k) := by
  have hnumber : ∀ {a b : NodeId}, a.number = b.number → a = b := fun {a b} h => by
    cases a
    cases b
    exact congrArg _ h
  intro a b h
  have heq := congrArg NodeId.number h
  -- the three images are below `n'`, below `n' + k`, and from there on
  by_cases ha : a ∈ ids <;> by_cases hb : b ∈ ids
  · rw [extendRenaming_of_mem ha, extendRenaming_of_mem hb] at h
    exact hρ a ha b hb h
  · have hlt := hn' a ha
    rw [extendRenaming_of_mem ha, extendRenaming, if_neg hb] at heq
    split at heq <;> simp only at heq <;> omega
  · have hlt := hn' b hb
    rw [extendRenaming_of_mem hb, extendRenaming, if_neg ha] at heq
    split at heq <;> simp only at heq <;> omega
  · rw [extendRenaming, extendRenaming, if_neg ha, if_neg hb] at heq
    refine hnumber ?_
    split at heq <;> split at heq <;> simp only at heq <;> omega

end Extension

/-! ## Outcomes -/

/-- What a compiled model gives out. No identity is in it. -/
structure Artifact where
  source : String
  features : List Feature
  data : List (String × Json)
  enumerations : List Enumeration
  parameterNames : List String
  decisionNames : List String

def CompiledModel.artifact (c : CompiledModel) : Artifact where
  source := c.program.text
  features := c.program.features
  data := c.resolved.bindings
  enumerations := c.resolved.enumerations
  parameterNames := c.resolved.parameters.map Prod.fst
  decisionNames := c.resolved.decisions.map Prod.fst

/-- What comes of compiling a model when the counter of identities is at `n`. -/
def Model.outcome (m : Model) (n : Nat) : Except ModelError Artifact :=
  CompiledModel.artifact <$> (m.compile.run n).1

theorem ResolvedModel.bindings_rename (m : ResolvedModel) :
    (m.rename σ).bindings = m.bindings := by
  have hdata : ∀ e : Expr, (e.rename σ).data? = e.data? := fun e => by cases e <;> rfl
  simp only [ResolvedModel.bindings, rename, Entities.rename, List.filterMap_map,
    Function.comp_def, renameEntry, hdata]

theorem CompiledModel.artifact_rename (c : CompiledModel) :
    (c.rename σ).artifact = c.artifact := by
  simp only [artifact, rename, Program.text_rename, Program.features_rename,
    ResolvedModel.bindings_rename]
  simp [ResolvedModel.rename, Entities.rename, renameEntry, Function.comp_def]

theorem outcome_rename (hσ : Function.Injective σ) {n n' : Nat} {m : Model}
    (hnext : ∀ i < m.attributes.length, σ ⟨n + i⟩ = ⟨n' + i⟩) :
    (m.rename σ).outcome n' = renameError σ (m.outcome n) := by
  obtain ⟨i, -, result, hrun, hrun'⟩ := compile_lockstep hσ m hnext
  rw [Model.outcome, Model.outcome, hrun, hrun']
  cases result with
  | error e => rfl
  | ok c => exact congrArg Except.ok c.artifact_rename

/-- A compilation puts the counter of identities nowhere below where it was. -/
theorem le_compile (m : Model) (n : Nat) : n ≤ (m.compile.run n).2 := by
  have hnext : ∀ i < m.attributes.length, id (⟨n + i⟩ : NodeId) = ⟨n + i⟩ := fun _ _ => rfl
  obtain ⟨i, -, result, hrun, -⟩ := compile_lockstep Function.injective_id m hnext
  rw [hrun]
  exact Nat.le_add_right n i

/-- A renaming of the identities in a model goes on to those that are taken for it. -/
theorem exists_outcome_rename (m : Model) (ρ : NodeId → NodeId) {n k : Nat}
    (hn : ∀ id ∈ m.ids, id.number < n) (hρ : ∀ a ∈ m.ids, ∀ b ∈ m.ids, ρ a = ρ b → a = b)
    (hk : ∀ id ∈ m.ids, (ρ id).number < k) :
    ∃ σ : NodeId → NodeId, Function.Injective σ ∧ (∀ id ∈ m.ids, σ id = ρ id) ∧
      (m.rename ρ).outcome k = renameError σ (m.outcome n) := by
  let σ := extendRenaming m.ids ρ n k m.attributes.length
  have hσ : Function.Injective σ := extendRenaming_injective hρ hk
  have hids : ∀ id ∈ m.ids, σ id = ρ id := fun id hid => extendRenaming_of_mem hid
  refine ⟨σ, hσ, hids, ?_⟩
  rw [← Model.rename_congr hids]
  exact outcome_rename hσ fun i hi => extendRenaming_next hn hi

/-- A model gives out the same whenever it is compiled. -/
theorem exists_outcome_again (m : Model) {n k : Nat} (hn : ∀ id ∈ m.ids, id.number < n)
    (hk : ∀ id ∈ m.ids, id.number < k) :
    ∃ σ : NodeId → NodeId, Function.Injective σ ∧ (∀ id ∈ m.ids, σ id = id) ∧
      m.outcome k = renameError σ (m.outcome n) := by
  have hself := exists_outcome_rename m id hn (fun _ _ _ _ h => h) hk
  rwa [m.rename_id] at hself

/-- What comes of a compilation does not depend on identities. If those in a model are renamed and no
two become one, and each counter is above all identities of its model, then the two compilations give
out the same artifact, or the same error with other identities in it. So does a compilation of the
same model at any other time, as after one that failed. -/
theorem outcome_independent_of_ids (m : Model) (ρ : NodeId → NodeId) (n n' : Nat)
    (hρ : ∀ a ∈ m.ids, ∀ b ∈ m.ids, ρ a = ρ b → a = b) (hn : ∀ id ∈ m.ids, id.number < n)
    (hn' : ∀ id ∈ m.ids, (ρ id).number < n') :
    (∃ σ : NodeId → NodeId, Function.Injective σ ∧ (∀ id ∈ m.ids, σ id = ρ id) ∧
      (m.rename ρ).outcome n' = renameError σ (m.outcome n)) ∧
    (∀ k, (∀ id ∈ m.ids, id.number < k) → ∃ σ : NodeId → NodeId, Function.Injective σ ∧
      (∀ id ∈ m.ids, σ id = id) ∧ m.outcome k = renameError σ (m.outcome n)) ∧
    n ≤ (m.compile.run n).2 :=
  ⟨exists_outcome_rename m ρ hn hρ hn', fun _ hk => exists_outcome_again m hn hk, le_compile m n⟩

/-- A sum over an iterator as an attribute, so that a variable is bound to it. -/
def talliedModel : Model :=
  let x : Expr := .var ⟨0⟩ .int
  { attributes := [("x", x), ("total", .comprehension .sum
      [.over ⟨1⟩ .int (.range (.literal (.int 0)) x)] (.iterator ⟨1⟩ .int))]
    constraints := [.binary .lt x (.literal (.int 9))]
    objective := .satisfy }

theorem outcome_independent_of_ids_talliedModel :
    (∃ c n', talliedModel.compile.run 2 = (.ok c, n') ∧
      c.resolved.symbols = [⟨⟨0⟩, "x"⟩, ⟨⟨2⟩, "total"⟩]) ∧
    (∃ c n', (talliedModel.rename fun id => ⟨7 - id.number⟩).compile.run 9 = (.ok c, n') ∧
      c.resolved.symbols = [⟨⟨7⟩, "x"⟩, ⟨⟨9⟩, "total"⟩]) ∧
    ∃ σ : NodeId → NodeId, Function.Injective σ ∧
      (talliedModel.rename fun id => ⟨7 - id.number⟩).outcome 9 =
        renameError σ (talliedModel.outcome 2) := by
  refine ⟨⟨_, _, rfl, rfl⟩, ⟨_, _, rfl, rfl⟩, ?_⟩
  obtain ⟨σ, hσ, -, houtcome⟩ := (outcome_independent_of_ids talliedModel
    (fun id => ⟨7 - id.number⟩) 2 9 (by decide) (by decide) (by decide)).1
  exact ⟨σ, hσ, houtcome⟩

end ConstraintModel
