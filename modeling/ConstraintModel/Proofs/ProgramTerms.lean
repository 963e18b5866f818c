import ConstraintModel.Proofs.Spelling
import ConstraintModel.Source.Program

/-!
# Terms of programs

Where the terms of a program come from. Each is the term of an expression that the model spells,
outside any generator: a range that bounds a domain, a value that a variable or parameter equals, a
constraint or the objective. The others are the intervals of parameter sets and the equations of
bound variables.
-/

namespace ConstraintModel

open Source

namespace Source

/-! ## Terms -/

def Base.terms : Base → List Term
  | type _ => []
  | span t => [t]

def DeclaredType.terms : DeclaredType → List Term
  | scalar _ base | array _ _ base | set _ base => base.terms

def Declaration.terms (d : Declaration) : List Term :=
  d.type.terms ++ d.definition.toList

def VariableDeclaration.terms (d : VariableDeclaration) : List Term :=
  d.declaration.terms ++ d.equation?.toList

def Goal.terms : Goal → List Term
  | satisfy => []
  | minimize t | maximize t => [t]

/-- Every term that a program shows. -/
def Program.terms (p : Program) : List Term :=
  p.parameters.flatMap Declaration.terms ++ p.decisions.flatMap VariableDeclaration.terms ++
    p.constraints ++ p.goal.terms

/-- What a program declares, without its enumerations. -/
def Program.declarations (p : Program) : List Declaration :=
  p.parameters ++ p.decisions.map VariableDeclaration.declaration

/-- The terms of a program are in its declarations, or else in equations, constraints and what is asked
of the solutions. -/
theorem Program.mem_terms {p : Program} {t : Term} :
    t ∈ p.terms ↔ (∃ d ∈ p.declarations, t ∈ d.terms) ∨
      (∃ d ∈ p.decisions, t ∈ d.equation?.toList) ∨ t ∈ p.constraints ∨ t ∈ p.goal.terms := by
  simp only [terms, declarations, VariableDeclaration.terms, List.mem_append, List.mem_flatMap,
    List.mem_map]
  grind

end Source

/-! ## Spelled expressions -/

def Domain.ranges : Domain → List Expr
  | .range start stop => [.range start stop]
  | _ => []

/-- What the declaration of an entity spells: the range of its domain, or the value that it has. -/
def Expr.declared : Expr → List Expr
  | .var _ domain | .varArray _ domain _ | .varSet _ domain => domain.ranges
  | .derivedParam _ value => [value]
  | _ => []

def Expr.boundValue? : Expr → Option Expr
  | .boundVar _ _ value => some value
  | _ => none

/-- The expressions whose terms a program shows. -/
def ResolvedModel.spelled (m : ResolvedModel) : List Expr :=
  (m.parameters ++ m.decisions).flatMap (fun entry => entry.2.declared) ++
    m.decisions.filterMap (fun entry => entry.2.boundValue?) ++ m.constraints ++
    m.objective.value?.toList

/-- Where a term of a program comes from. -/
inductive ResolvedModel.Shows (m : ResolvedModel) : Term → Prop
  | spelled {e t} : e ∈ m.spelled → e.term (.ofModel m) [] = .ok t → m.Shows t
  | interval {entry id a stop} : entry ∈ m.parameters ++ m.decisions →
      entry.2 = .paramSet id (.interval a stop) → m.Shows (.span false (.int a) (.int (stop - 1)))
  | equation {name id type value t} : (name, .boundVar id type value) ∈ m.decisions →
      value.term (.ofModel m) [] = .ok t → m.Shows (.binary .eq (.entity ⟨id, name⟩) t)

/-! ## Declarations -/

variable {v : Vocabulary}

theorem range_term {scope : Scope} {start stop : Expr} :
    (Expr.range start stop).term v scope =
      rangeSpan start stop (start.term v scope) (stop.term v scope) := by
  rw [Expr.term]

theorem Domain.base_terms {domain : Domain} {b : Base} (h : domain.base v = .ok b) :
    List.Forall₂ (fun e t => e.term v [] = .ok t) domain.ranges b.terms := by
  cases domain with
  | range start stop =>
      simp only [base, bind_eq_ok, pure_eq_ok] at h
      obtain ⟨_, ht, rfl⟩ := h
      exact .cons (range_term.trans ht) .nil
  | _ =>
      simp only [base, pure_eq_ok] at h
      subst h
      exact .nil

/-- A declaration is that of the entity, and shows what the entity spells, but for the interval of a
parameter set. -/
theorem declaration_eq_ok {e : Expr} {name : String} {d : Declaration}
    (h : e.declaration v name = .ok d) :
    ∃ id, e.id? = some id ∧ d.symbol = ⟨id, name⟩ ∧
      (List.Forall₂ (fun e t => e.term v [] = .ok t) e.declared d.terms ∨
        ∃ a stop, e = .paramSet id (.interval a stop) ∧
          d.terms = [.span false (.int a) (.int (stop - 1))]) := by
  cases e with
  | var id domain =>
      simp only [Expr.declaration, bind_eq_ok, pure_eq_ok] at h
      obtain ⟨b, hb, rfl⟩ := h
      refine ⟨id, rfl, rfl, .inl ?_⟩
      simpa [Expr.declared, Declaration.terms, DeclaredType.terms] using Domain.base_terms hb
  | varArray id domain shape =>
      simp only [Expr.declaration, bind_eq_ok, pure_eq_ok] at h
      obtain ⟨b, hb, rfl⟩ := h
      refine ⟨id, rfl, rfl, .inl ?_⟩
      simpa [Expr.declared, Declaration.terms, DeclaredType.terms] using Domain.base_terms hb
  | varSet id domain =>
      simp only [Expr.declaration, bind_eq_ok, pure_eq_ok] at h
      obtain ⟨b, hb, rfl⟩ := h
      refine ⟨id, rfl, rfl, .inl ?_⟩
      simpa [Expr.declared, Declaration.terms, DeclaredType.terms] using Domain.base_terms hb
  | boundVar id type value =>
      simp only [Expr.declaration, pure_eq_ok] at h
      subst h
      exact ⟨id, rfl, rfl, .inl .nil⟩
  | param id value =>
      simp only [Expr.declaration, pure_eq_ok] at h
      subst h
      exact ⟨id, rfl, rfl, .inl .nil⟩
  | derivedParam id value =>
      simp only [Expr.declaration, bind_eq_ok, pure_eq_ok] at h
      obtain ⟨type, -, t, ht, rfl⟩ := h
      exact ⟨id, rfl, rfl, .inl (.cons ht .nil)⟩
  | paramArray id values shape =>
      simp only [Expr.declaration, bind_eq_ok, pure_eq_ok] at h
      obtain ⟨type, -, rfl⟩ := h
      exact ⟨id, rfl, rfl, .inl .nil⟩
  | paramSet id members =>
      simp only [Expr.declaration, bind_eq_ok, pure_eq_ok] at h
      obtain ⟨b, hb, rfl⟩ := h
      refine ⟨id, rfl, rfl, ?_⟩
      cases members with
      | listed values =>
          simp only [SetMembers.base, bind_eq_ok, pure_eq_ok] at hb
          obtain ⟨type, -, rfl⟩ := hb
          exact .inl .nil
      | interval a stop =>
          simp only [SetMembers.base, pure_eq_ok] at hb
          subst hb
          exact .inr ⟨a, stop, rfl, rfl⟩
  | _ => exact absurd h throw_ne_ok

theorem variableDeclaration_eq_ok {e : Expr} {name : String} {d : VariableDeclaration}
    (h : e.variableDeclaration v name = .ok d) :
    e.declaration v name = .ok d.declaration ∧
      Option.Rel (fun e t => e.term v [] = .ok t) e.boundValue? d.value := by
  simp only [Expr.variableDeclaration, bind_eq_ok] at h
  obtain ⟨declaration, hdeclaration, h⟩ := h
  cases e with
  | boundVar id type value =>
      simp only [bind_eq_ok, pure_eq_ok] at h
      obtain ⟨t, ht, rfl⟩ := h
      exact ⟨hdeclaration, .some ht⟩
  | _ =>
      simp only [pure_eq_ok] at h
      subst h
      exact ⟨hdeclaration, .none⟩

/-! ## Programs -/

variable {m : ResolvedModel} {p : Program}

theorem program_eq_ok (h : m.program = .ok p) :
    List.Forall₂ (fun entry d => Expr.declaration (.ofModel m) entry.1 entry.2 = .ok d)
        m.parameters p.parameters ∧
      List.Forall₂ (fun entry d => Expr.variableDeclaration (.ofModel m) entry.1 entry.2 = .ok d)
        m.decisions p.decisions ∧
      List.Forall₂ (fun e t => e.term (.ofModel m) [] = .ok t) m.constraints p.constraints ∧
      m.objective.goal (.ofModel m) = .ok p.goal := by
  simp only [ResolvedModel.program, bind_eq_ok, pure_eq_ok] at h
  obtain ⟨parameters, hparameters, decisions, hdecisions, constraints, hconstraints, goal, hgoal,
    rfl⟩ := h
  exact ⟨mapM_eq_ok.1 hparameters, mapM_eq_ok.1 hdecisions, mapM_eq_ok.1 hconstraints, hgoal⟩

theorem program_of_terms {parameters : List Declaration} {decisions : List VariableDeclaration}
    {constraints : List Term} {goal : Goal}
    (hparameters : List.Forall₂
      (fun entry d => Expr.declaration (.ofModel m) entry.1 entry.2 = .ok d) m.parameters parameters)
    (hdecisions : List.Forall₂
      (fun entry d => Expr.variableDeclaration (.ofModel m) entry.1 entry.2 = .ok d)
      m.decisions decisions)
    (hconstraints : List.Forall₂ (fun e t => e.term (.ofModel m) [] = .ok t) m.constraints
      constraints)
    (hgoal : m.objective.goal (.ofModel m) = .ok goal) :
    m.program = .ok ⟨m.enumerations, parameters, decisions, constraints, goal⟩ := by
  simp only [ResolvedModel.program, bind_eq_ok, pure_eq_ok]
  exact ⟨_, mapM_eq_ok.2 hparameters, _, mapM_eq_ok.2 hdecisions, _, mapM_eq_ok.2 hconstraints, _,
    hgoal, rfl⟩

theorem goal_eq_ok {o : Objective} {g : Goal} (h : o.goal v = .ok g) :
    List.Forall₂ (fun e t => e.term v [] = .ok t) o.value?.toList g.terms := by
  cases o with
  | satisfy =>
      simp only [Objective.goal, pure_eq_ok] at h
      subst h
      exact .nil
  | _ =>
      simp only [Objective.goal, bind_eq_ok, pure_eq_ok] at h
      obtain ⟨t, ht, rfl⟩ := h
      exact .cons ht .nil

theorem mem_spelled {e : Expr} : e ∈ m.spelled ↔
    (∃ entry ∈ m.parameters ++ m.decisions, e ∈ entry.2.declared) ∨
      (∃ entry ∈ m.decisions, entry.2.boundValue? = some e) ∨ e ∈ m.constraints ∨
      e ∈ m.objective.value?.toList := by
  simp only [ResolvedModel.spelled, List.mem_append, List.mem_flatMap, List.mem_filterMap, or_assoc]

theorem shows_of_mem_declaration {entry : String × Expr} {d : Declaration} {t : Term}
    (hentry : entry ∈ m.parameters ++ m.decisions)
    (hd : entry.2.declaration (.ofModel m) entry.1 = .ok d) (ht : t ∈ d.terms) : m.Shows t := by
  obtain ⟨id, -, -, hterms | ⟨a, stop, hset, hterms⟩⟩ := declaration_eq_ok hd
  · obtain ⟨e, he, heq⟩ := exists_of_mem_right hterms ht
    exact .spelled (mem_spelled.2 (.inl ⟨entry, hentry, he⟩)) heq
  · rw [hterms, List.mem_singleton] at ht
    exact ht ▸ .interval hentry hset

theorem shows_of_mem_terms (h : m.program = .ok p) {t : Term} (ht : t ∈ p.terms) : m.Shows t := by
  obtain ⟨hparameters, hdecisions, hconstraints, hgoal⟩ := program_eq_ok h
  simp only [Program.terms, List.mem_append, List.mem_flatMap] at ht
  rcases ht with ((⟨d, hd, ht⟩ | ⟨d, hd, ht⟩) | ht) | ht
  · obtain ⟨entry, hentry, heq⟩ := exists_of_mem_right hparameters hd
    exact shows_of_mem_declaration (List.mem_append_left _ hentry) heq ht
  · obtain ⟨⟨name, e⟩, hentry, heq⟩ := exists_of_mem_right hdecisions hd
    obtain ⟨hdeclaration, hvalue⟩ := variableDeclaration_eq_ok heq
    rcases List.mem_append.1 ht with ht | ht
    · exact shows_of_mem_declaration (List.mem_append_right _ hentry) hdeclaration ht
    · obtain ⟨id, hid, hsymbol, -⟩ := declaration_eq_ok hdeclaration
      cases e with
      | boundVar id' type value =>
          cases hid
          generalize hw : d.value = w at hvalue
          cases hvalue with
          | some hterm =>
              simp only [VariableDeclaration.equation?, hw, hsymbol, Option.map_some,
                Option.toList_some, List.mem_singleton] at ht
              exact ht ▸ .equation hentry hterm
      | _ =>
          generalize hw : d.value = w at hvalue
          cases hvalue with
          | none => simp [VariableDeclaration.equation?, hw] at ht
  · obtain ⟨e, he, heq⟩ := exists_of_mem_right hconstraints ht
    exact .spelled (mem_spelled.2 (.inr (.inr (.inl he)))) heq
  · obtain ⟨e, he, heq⟩ := exists_of_mem_right (goal_eq_ok hgoal) ht
    exact .spelled (mem_spelled.2 (.inr (.inr (.inr he)))) heq

theorem exists_term_of_declared {e e' : Expr} {name : String} {d : Declaration}
    (hd : e.declaration v name = .ok d) (he : e' ∈ e.declared) :
    ∃ t ∈ d.terms, e'.term v [] = .ok t := by
  obtain ⟨id, -, -, hterms | ⟨_, _, rfl, -⟩⟩ := declaration_eq_ok hd
  · exact exists_of_mem_left hterms he
  · cases he

/-- Every spelled expression has its term in the program, on its own or in an equation. -/
theorem exists_term_of_spelled (h : m.program = .ok p) {e : Expr} (he : e ∈ m.spelled) :
    ∃ t, e.term (.ofModel m) [] = .ok t ∧
      (t ∈ p.terms ∨ ∃ s, Term.binary .eq (.entity s) t ∈ p.terms) := by
  obtain ⟨hparameters, hdecisions, hconstraints, hgoal⟩ := program_eq_ok h
  simp only [Program.terms, List.mem_append, List.mem_flatMap]
  rcases mem_spelled.1 he with ⟨entry, hentry, he⟩ | ⟨entry, hentry, he⟩ | he | he
  · rcases List.mem_append.1 hentry with hentry | hentry
    · obtain ⟨d, hd, heq⟩ := exists_of_mem_left hparameters hentry
      obtain ⟨t, ht, hterm⟩ := exists_term_of_declared heq he
      exact ⟨t, hterm, .inl (.inl (.inl (.inl ⟨d, hd, ht⟩)))⟩
    · obtain ⟨d, hd, heq⟩ := exists_of_mem_left hdecisions hentry
      obtain ⟨t, ht, hterm⟩ := exists_term_of_declared (variableDeclaration_eq_ok heq).1 he
      exact ⟨t, hterm, .inl (.inl (.inl (.inr ⟨d, hd, List.mem_append_left _ ht⟩)))⟩
  · obtain ⟨d, hd, heq⟩ := exists_of_mem_left hdecisions hentry
    have hvalue := (variableDeclaration_eq_ok heq).2
    rw [he] at hvalue
    generalize hw : d.value = w at hvalue
    cases hvalue with
    | some hterm =>
        refine ⟨_, hterm, .inr ⟨d.declaration.symbol, .inl (.inl (.inr ⟨d, hd, ?_⟩))⟩⟩
        simp [VariableDeclaration.terms, VariableDeclaration.equation?, hw]
  · obtain ⟨t, ht, heq⟩ := exists_of_mem_left hconstraints he
    exact ⟨t, heq, .inl (.inl (.inr ht))⟩
  · obtain ⟨t, ht, heq⟩ := exists_of_mem_left (goal_eq_ok hgoal) he
    exact ⟨t, heq, .inl (.inr ht)⟩

/-! ## Compiled models -/

theorem compile_eq_ok {model : Model} {n n' : Nat} {c : CompiledModel}
    (h : model.compile.run n = (.ok c, n')) :
    model.resolve.run n = (.ok c.resolved, n') ∧ c.resolved.program = .ok c.program := by
  simp only [Model.compile, build_bind_eq_ok, build_lift_eq_ok, build_pure_eq_ok] at h
  obtain ⟨resolved, k, hresolve, program, k', ⟨hprogram, hk'⟩, rfl, hk⟩ := h
  rw [hk, hk']
  exact ⟨hresolve, hprogram⟩

theorem compile_of_program {model : Model} {n n' : Nat} {r : ResolvedModel} {p : Program}
    (hresolve : model.resolve.run n = (.ok r, n')) (hprogram : r.program = .ok p) :
    model.compile.run n = (.ok ⟨r, p⟩, n') := by
  simp only [Model.compile, build_bind_eq_ok, build_lift_eq_ok, build_pure_eq_ok]
  exact ⟨r, n', hresolve, p, n', ⟨hprogram, rfl⟩, rfl, rfl⟩

end ConstraintModel
