import ConstraintModel.Proofs.Naming
import ConstraintModel.Proofs.Origins
import ConstraintModel.Proofs.Results

/-!
# Domains of declared variables

A range that is declared as a domain is printed with the bounds that it was made with. What a bound
depends on is what it reaches: what it prints, and what the derived parameters equal that it prints.
A bound is fixed exactly if it reaches no variable that the program declares. Derived parameters are
asked for that when they are made. Domains are not, so a bound may depend on what is searched for.
-/

namespace ConstraintModel

open Source

/-! ## Reached expressions -/

namespace Expr

/-- Whether the value is searched for. -/
def isDecision : Expr → Bool
  | var .. | boundVar .. | varArray .. | varSet .. => true
  | _ => false

theorem exists_id_of_isDecision {e : Expr} (h : e.isDecision = true) : ∃ id, e.id? = some id := by
  cases e <;> first | exact ⟨_, rfl⟩ | cases h

theorem isDecision_eq {e : Expr} {id : NodeId} (h : e.id? = some id) :
    e.isDecision = !e.isParameter := by
  cases e <;> cases h <;> rfl

/-- What a derived parameter equals. -/
def definition : Expr → List Expr
  | derivedParam _ value => [value]
  | _ => []

/-- The expressions whose values the value of an expression is made of. -/
def operands (e : Expr) : List Expr :=
  e.parts ++ e.selectors ++ e.definition

/-- The value of the first expression depends on that of the second one. The extents of an array are
known without its value. -/
abbrev Reaches : Expr → Expr → Prop :=
  Relation.ReflTransGen fun e s => s ∈ e.operands

theorem sizeOf_lt_of_mem_positions {ps : List Position} {s : Expr}
    (h : s ∈ ps.flatMap Position.operands) : sizeOf s < sizeOf ps := by
  obtain ⟨p, hp, hs⟩ := List.mem_flatMap.1 h
  have hlt := List.sizeOf_lt_of_mem hp
  cases p with
  | index i =>
      rw [List.mem_singleton.1 hs]
      simp only [Position.index.sizeOf_spec] at hlt
      omega
  | slice start stop =>
      simp only [Position.operands, List.mem_cons, List.not_mem_nil, or_false] at hs
      simp only [Position.slice.sizeOf_spec] at hlt
      rcases hs with rfl | rfl <;> omega

theorem sizeOf_lt_of_mem_operands {e s : Expr} (h : s ∈ e.operands) : sizeOf s < sizeOf e := by
  cases e with
  | derivedParam id value =>
      rw [List.mem_singleton.1 h, derivedParam.sizeOf_spec]
      omega
  | view array positions =>
      simp only [operands, parts, selectors, definition, List.append_nil, List.singleton_append,
        List.mem_cons] at h
      rw [view.sizeOf_spec]
      rcases h with rfl | h
      · omega
      · have hlt := sizeOf_lt_of_mem_positions h
        omega
  | range a b | binary _ a b | power a b =>
      simp only [operands, parts, selectors, definition, List.append_nil, List.mem_cons,
        List.not_mem_nil, or_false] at h
      simp only [range.sizeOf_spec, binary.sizeOf_spec, power.sizeOf_spec]
      rcases h with rfl | rfl <;> omega
  | unary op e =>
      rw [List.mem_singleton.1 h, unary.sizeOf_spec]
      omega
  | sequence es | aggregate _ es | global _ es =>
      simp only [operands, parts, selectors, definition, List.append_nil] at h
      have hlt := List.sizeOf_lt_of_mem h
      simp only [sequence.sizeOf_spec, aggregate.sizeOf_spec, global.sizeOf_spec]
      omega
  | comprehension op generators body =>
      simp only [operands, parts, selectors, definition, List.append_nil, List.mem_append,
        List.mem_map, List.mem_singleton] at h
      rw [comprehension.sizeOf_spec]
      rcases h with ⟨⟨id, type, domain⟩, hg, rfl⟩ | rfl
      · have hlt := List.sizeOf_lt_of_mem hg
        rw [Generator.over.sizeOf_spec] at hlt
        simp only [Generator.domain]
        omega
      · omega
  | _ => cases h

/-- What holds of an expression once it holds of its operands holds of all expressions. -/
theorem operands_induction {P : Expr → Prop} (step : ∀ e, (∀ s ∈ e.operands, P s) → P e)
    (e : Expr) : P e :=
  step e fun s _ => operands_induction step s
termination_by sizeOf e
decreasing_by exact sizeOf_lt_of_mem_operands ‹_›

end Expr

/-! ## Fixed expressions -/

theorem allFixed_iff {es : List Expr} : allFixed es = true ↔ ∀ e ∈ es, e.isFixed = true := by
  induction es with
  | nil => simp [allFixed]
  | cons e es ih => simp [allFixed, ih]

theorem positionsFixed_iff {ps : List Position} :
    positionsFixed ps = true ↔ ∀ e ∈ ps.flatMap Position.operands, e.isFixed = true := by
  induction ps with
  | nil => simp [positionsFixed]
  | cons p ps ih => cases p <;> simp [positionsFixed, Position.operands, ih, and_assoc]

theorem generatorsFixed_iff {gs : List Generator} :
    generatorsFixed gs = true ↔ ∀ e ∈ gs.map Generator.domain, e.isFixed = true := by
  induction gs with
  | nil => simp [generatorsFixed]
  | cons g gs ih =>
      obtain ⟨id, type, domain⟩ := g
      simp [generatorsFixed, Generator.domain, ih]

/-- An expression is fixed if it is no decision and its operands are fixed. -/
theorem Expr.isFixed_iff {e : Expr} :
    e.isFixed = true ↔ e.isDecision = false ∧ ∀ s ∈ e.operands, s.isFixed = true := by
  cases e with
  | comprehension op generators body =>
      simp [isFixed, isDecision, operands, parts, selectors, definition, generatorsFixed_iff,
        or_imp, forall_and]
  | _ =>
      simp [isFixed, isDecision, operands, parts, selectors, definition, allFixed_iff,
        positionsFixed_iff]

/-- An expression is fixed exactly if no decision is reached from it. -/
theorem Expr.isFixed_iff_reaches {e : Expr} :
    e.isFixed = true ↔ ∀ d, e.Reaches d → d.isDecision = false := by
  constructor
  · intro hfixed d hd
    have hd : d.isFixed = true := by
      induction hd with
      | refl => exact hfixed
      | tail _ hs ih => exact (isFixed_iff.1 ih).2 _ hs
    exact (isFixed_iff.1 hd).1
  · induction e using operands_induction with
    | step e ih =>
        intro h
        exact isFixed_iff.2 ⟨h e .refl, fun s hs => ih s hs fun d hd => h d (.head hs hd)⟩

/-- Whether the value comes with the model. -/
def Expr.isGiven : Expr → Bool
  | .param .. | .paramArray .. | .paramSet .. => true
  | _ => false

theorem Expr.isParameter_of_isGiven {e : Expr} (h : e.isGiven = true) : e.isParameter = true := by
  cases e <;> first | rfl | cases h

theorem mem_allInputs {id : NodeId} {es : List Expr} :
    id ∈ allInputs es ↔ ∃ e ∈ es, id ∈ e.inputs := by
  induction es with
  | nil => simp [allInputs]
  | cons e es ih => simp [allInputs, ih]

theorem mem_positionInputs {id : NodeId} {ps : List Position} :
    id ∈ positionInputs ps ↔ ∃ e ∈ ps.flatMap Position.operands, id ∈ e.inputs := by
  induction ps with
  | nil => simp [positionInputs]
  | cons p ps ih =>
      cases p <;> simp [positionInputs, Position.operands, ih, or_and_right, exists_or]

theorem mem_generatorInputs {id : NodeId} {gs : List Generator} :
    id ∈ generatorInputs gs ↔ ∃ e ∈ gs.map Generator.domain, id ∈ e.inputs := by
  induction gs with
  | nil => simp [generatorInputs]
  | cons g gs ih =>
      obtain ⟨_, type, domain⟩ := g
      simp [generatorInputs, Generator.domain, ih]

theorem Expr.mem_inputs {e : Expr} {id : NodeId} :
    id ∈ e.inputs ↔ (e.isGiven = true ∧ e.id? = some id) ∨ ∃ s ∈ e.operands, id ∈ s.inputs := by
  cases e with
  | comprehension op generators body =>
      simp [inputs, isGiven, operands, parts, selectors, definition, mem_generatorInputs,
        or_and_right, exists_or]
  | _ =>
      simp [inputs, isGiven, id?, operands, parts, selectors, definition, mem_allInputs,
        mem_positionInputs, eq_comm]

/-- The inputs of an expression are the given parameters that it reaches. -/
theorem Expr.exists_reaches_of_mem_inputs {e : Expr} {id : NodeId} (h : id ∈ e.inputs) :
    ∃ l, e.Reaches l ∧ l.isGiven = true ∧ l.id? = some id := by
  induction e using operands_induction with
  | step e ih =>
      rcases mem_inputs.1 h with ⟨hgiven, hid⟩ | ⟨s, hs, hinput⟩
      · exact ⟨e, .refl, hgiven, hid⟩
      · obtain ⟨l, hl, hgiven⟩ := ih s hs hinput
        exact ⟨l, .head hs hl, hgiven⟩

/-! ## Declared entities -/

section Spelled

variable {v : Vocabulary}

/-- Nothing is printed inside an entity. -/
theorem Expr.parts_of_id {e : Expr} {id : NodeId} (h : e.id? = some id) :
    e.parts ++ e.selectors = [] := by
  cases e <;> cases h <;> rfl

/-- What an expression prints directly inside it has a term, behind some iterators. -/
theorem exists_term_of_mem {scope : Scope} {e s : Expr} {t : Term} (h : e.term v scope = .ok t)
    (hs : s ∈ e.parts ++ e.selectors) : ∃ inner u, s.term v inner = .ok u := by
  cases spells_of_term h with
  | @view array positions symbol shape cs hsymbol hshape hcuts =>
      rcases List.mem_cons.1 hs with rfl | hs
      · obtain ⟨id, hid, -⟩ := symbolOf_eq_ok.1 hsymbol
        exact ⟨scope, .entity symbol, by rw [term_of_id hid, hsymbol]; rfl⟩
      · obtain ⟨p, hp, hs⟩ := List.mem_flatMap.1 hs
        obtain ⟨cut, -, hcut⟩ := exists_of_mem_left hcuts hp
        cases hcut with
        | index hi =>
            rw [List.mem_singleton.1 hs]
            exact ⟨scope, _, hi⟩
        | slice hstart hstop =>
            simp only [Position.operands, List.mem_cons, List.not_mem_nil, or_false] at hs
            rcases hs with rfl | rfl
            · exact ⟨scope, _, hstart⟩
            · exact ⟨scope, _, hstop⟩
  | range _ _ hfirst hlast | power hfirst hlast | binary _ hfirst hlast =>
      simp only [Expr.parts, Expr.selectors, List.append_nil, List.mem_cons, List.not_mem_nil,
        or_false] at hs
      rcases hs with rfl | rfl
      · exact ⟨scope, _, hfirst⟩
      · exact ⟨scope, _, hlast⟩
  | unary ht =>
      rw [List.mem_singleton.1 hs]
      exact ⟨scope, _, ht⟩
  | sequence hts =>
      simp only [Expr.parts, Expr.selectors, List.append_nil] at hs
      obtain ⟨u, -, hu⟩ := exists_of_mem_left hts hs
      exact ⟨scope, u, hu⟩
  | aggregate hus | global hus =>
      simp only [Expr.parts, Expr.selectors, List.append_nil] at hs
      obtain ⟨_, -, u, hu, -⟩ := exists_of_mem_left hus hs
      exact ⟨scope, u, hu⟩
  | @comprehension op gs hds inner body t hheads hbody =>
      simp only [Expr.parts, Expr.selectors, List.append_nil, List.mem_append,
        List.mem_singleton] at hs
      rcases hs with hs | rfl
      · clear hbody h
        induction hheads with
        | nil => cases hs
        | @cons scope id type domain u gs hds inner hu _ ih =>
            rcases List.mem_cons.1 hs with rfl | hs
            · exact ⟨scope, u, hu⟩
            · exact ih hs
      · exact ⟨inner, t, hbody⟩
  | entity hsymbol =>
      obtain ⟨id, hid, -⟩ := symbolOf_eq_ok.1 hsymbol
      rw [Expr.parts_of_id hid] at hs
      cases hs
  | _ => cases hs

theorem exists_term_of_shows {scope : Scope} {e s : Expr} {t : Term} (h : e.term v scope = .ok t)
    (hs : e.Shows s) : ∃ inner u, s.term v inner = .ok u := by
  induction hs with
  | refl => exact ⟨scope, t, h⟩
  | tail _ hs ih =>
      obtain ⟨inner, u, hu⟩ := ih
      exact exists_term_of_mem hu hs

end Spelled

section Resolved

variable {model : Model} {n n' : Nat} {r : ResolvedModel} {p : Program}

/-- An entity that is printed is declared. -/
theorem declared_of_shows (h : model.resolve.run n = (.ok r, n')) (hp : r.program = .ok p)
    (hr : r.Identifies (r.parameters ++ r.decisions)) {e l : Expr} (he : e ∈ r.spelled)
    (hl : e.Shows l) {id : NodeId}
    (hid : l.id? = some id) : ∃ name, (name, l) ∈ r.parameters ++ r.decisions := by
  obtain ⟨t, ht, -⟩ := exists_term_of_spelled hp he
  obtain ⟨inner, u, hu⟩ := exists_term_of_shows ht hl
  simp only [term_of_id hid, bind_eq_ok] at hu
  obtain ⟨s, hs, -⟩ := hu
  obtain ⟨entries, hentries, -⟩ := declareAll_entries (resolve_eq_ok h).2.1
  obtain ⟨id', hid', hlookup⟩ := symbolOf_eq_ok.1 hs
  have hmem : s ∈ r.symbols := List.mem_of_find?_eq_some hlookup
  rw [← (perm_symbols hentries).mem_iff] at hmem
  obtain ⟨⟨name, x⟩, hentry, hsymbol⟩ := List.mem_filterMap.1 hmem
  obtain ⟨id'', hx, rfl⟩ := Option.map_eq_some_iff.1 hsymbol
  have heq : l = x := hr _ hentry e he l hl (by rw [symbolOf_id hs, hx])
  exact ⟨name, heq ▸ hentry⟩

/-- What is reached from something printed is printed too, by a definition if not where one starts. -/
theorem shown_of_reaches (h : model.resolve.run n = (.ok r, n')) (hp : r.program = .ok p)
    (hr : r.Identifies (r.parameters ++ r.decisions)) {e l : Expr} (he : e ∈ r.spelled)
    (hl : e.Reaches l) :
    ∃ root ∈ r.spelled, root.Shows l := by
  induction hl with
  | refl => exact ⟨e, he, .refl⟩
  | @tail l s _ hs ih =>
      obtain ⟨root, hroot, hshows⟩ := ih
      rcases List.mem_append.1 hs with hs | hs
      · exact ⟨root, hroot, hshows.tail hs⟩
      · cases l with
        | derivedParam id value =>
            rw [List.mem_singleton.1 hs]
            obtain ⟨name, hentry⟩ := declared_of_shows h hp hr hroot hshows rfl
            exact ⟨value, mem_spelled.2 (.inl ⟨_, hentry, List.mem_singleton_self value⟩), .refl⟩
        | _ => cases hs

theorem declared_of_reaches (h : model.resolve.run n = (.ok r, n')) (hp : r.program = .ok p)
    (hr : r.Identifies (r.parameters ++ r.decisions)) {e l : Expr} (he : e ∈ r.spelled)
    (hl : e.Reaches l) {id : NodeId}
    (hid : l.id? = some id) : ∃ name, (name, l) ∈ r.parameters ++ r.decisions := by
  obtain ⟨root, hroot, hshows⟩ := shown_of_reaches h hp hr he hl
  exact declared_of_shows h hp hr hroot hshows hid

theorem isParameter_of_mem (h : model.resolve.run n = (.ok r, n')) :
    (∀ entry ∈ r.parameters, entry.2.isParameter = true) ∧
      ∀ entry ∈ r.decisions, entry.2.isParameter = false := by
  obtain ⟨entries, hentries, -⟩ := declareAll_entries (resolve_eq_ok h).2.1
  have hparameters := congrArg Entities.parameters hentries
  have hdecisions := congrArg Entities.decisions hentries
  simp only [Entities.adding, Entities.empty, List.nil_append] at hparameters hdecisions
  rw [hparameters, hdecisions]
  simp [List.mem_filter]

theorem isDecision_of_mem (h : model.resolve.run n = (.ok r, n')) (hp : r.program = .ok p) :
    ∀ entry ∈ r.decisions, entry.2.isDecision = true := by
  intro entry hentry
  obtain ⟨d, -, hd⟩ := exists_of_mem_left (declarations_eq hp) (List.mem_append_right _ hentry)
  obtain ⟨id, hid, -⟩ := declaration_eq_ok hd
  rw [Expr.isDecision_eq hid, (isParameter_of_mem h).2 entry hentry, Bool.not_false]

/-- Nothing fixed reaches a decision that is declared. -/
theorem not_reaches_of_isFixed (h : model.resolve.run n = (.ok r, n')) (hp : r.program = .ok p)
    {e : Expr} (he : e.isFixed = true) : ∀ entry ∈ r.decisions, ¬ e.Reaches entry.2 := by
  intro entry hentry hreaches
  have hdecision := isDecision_of_mem h hp entry hentry
  rw [Expr.isFixed_iff_reaches.1 he _ hreaches] at hdecision
  cases hdecision

theorem isFixed_of_not_reaches (h : model.resolve.run n = (.ok r, n')) {e : Expr}
    (he : ∀ l id, e.Reaches l → l.id? = some id →
      ∃ name, (name, l) ∈ r.parameters ++ r.decisions)
    (hnone : ∀ entry ∈ r.decisions, ¬ e.Reaches entry.2) : e.isFixed = true := by
  refine Expr.isFixed_iff_reaches.2 fun d hd => ?_
  by_contra hdecision
  rw [Bool.not_eq_false] at hdecision
  obtain ⟨id, hid⟩ := Expr.exists_id_of_isDecision hdecision
  obtain ⟨name, hentry⟩ := he d id hd hid
  rcases List.mem_append.1 hentry with hentry | hentry
  · rw [Expr.isDecision_eq hid, (isParameter_of_mem h).1 _ hentry] at hdecision
    cases hdecision
  · exact hnone _ hentry hd

/-- The inputs of what reaches declared entities only are declared parameters. -/
theorem agreeOn_inputs (h : model.resolve.run n = (.ok r, n')) {e : Expr}
    (he : ∀ l id, e.Reaches l → l.id? = some id →
      ∃ name, (name, l) ∈ r.parameters ++ r.decisions)
    {σ τ : Assignment}
    (hagree : ∀ entry ∈ r.parameters, ∀ id, entry.2.id? = some id → σ id = τ id) :
    σ.AgreeOn τ e.inputs := by
  intro id hid
  obtain ⟨l, hl, hgiven, hid⟩ := Expr.exists_reaches_of_mem_inputs hid
  obtain ⟨name, hentry⟩ := he l id hl hid
  rcases List.mem_append.1 hentry with hentry | hentry
  · exact hagree _ hentry id hid
  · have hsearched := (isParameter_of_mem h).2 _ hentry
    rw [Expr.isParameter_of_isGiven hgiven] at hsearched
    cases hsearched

end Resolved

/-! ## Declared domains -/

def Domain.bounds : Domain → List Expr
  | .range start stop => [start, stop]
  | _ => []

/-- The bounds in the domain of a variable, variable array or variable set. What is bound to an
operation has a type as its domain. -/
def Expr.bounds : Expr → List Expr
  | .var _ domain | .varArray _ domain _ | .varSet _ domain => domain.bounds
  | _ => []

/-- Whether the terms of a declaration are one span between the given bounds, or none without bounds. -/
inductive PrintsBounds (v : Vocabulary) : List Expr → List Term → Prop
  | none : PrintsBounds v [] []
  | span {start stop type first last} : start.term v [] = .ok first → stop.term v [] = .ok last →
      PrintsBounds v [start, stop] [spanOf type stop first last]

/-- A range is a domain if its bounds have terms and make a range, whatever else they are. -/
theorem base_range_eq_ok {v : Vocabulary} {start stop : Expr} {b : Base} :
    (Domain.range start stop).base v = .ok b ↔ ∃ type first last,
      requireRange start stop = .ok () ∧ (Expr.range start stop).elemType = .ok type ∧
        start.term v [] = .ok first ∧ stop.term v [] = .ok last ∧
          b = .span (spanOf type stop first last) := by
  simp only [Domain.base, bind_eq_ok, pure_eq_ok, rangeSpan_eq_ok]
  constructor
  · rintro ⟨_, ⟨type, first, last, hrange, htype, hfirst, hlast, rfl⟩, rfl⟩
    exact ⟨type, first, last, hrange, htype, hfirst, hlast, rfl⟩
  · rintro ⟨type, first, last, hrange, htype, hfirst, hlast, rfl⟩
    exact ⟨_, ⟨type, first, last, hrange, htype, hfirst, hlast, rfl⟩, rfl⟩

theorem Domain.printsBounds {v : Vocabulary} {domain : Domain} {b : Base}
    (h : domain.base v = .ok b) : PrintsBounds v domain.bounds b.terms := by
  cases domain with
  | range start stop =>
      obtain ⟨type, first, last, -, -, hfirst, hlast, rfl⟩ := base_range_eq_ok.1 h
      exact .span hfirst hlast
  | _ =>
      simp only [base, pure_eq_ok] at h
      subst h
      exact .none

theorem declaration_printsBounds {v : Vocabulary} {e : Expr} {name : String} {d : Declaration}
    (h : e.declaration v name = .ok d) (hsearched : e.isParameter = false) :
    PrintsBounds v e.bounds d.terms := by
  cases e with
  | var id domain | varArray id domain shape | varSet id domain =>
      simp only [Expr.declaration, bind_eq_ok, pure_eq_ok] at h
      obtain ⟨b, hb, rfl⟩ := h
      simpa [Expr.bounds, Declaration.terms, DeclaredType.terms] using Domain.printsBounds hb
  | boundVar id type value =>
      simp only [Expr.declaration, pure_eq_ok] at h
      subst h
      exact .none
  | param _ _ | derivedParam _ _ | paramArray _ _ _ | paramSet _ _ => cases hsearched
  | _ => exact absurd h throw_ne_ok

theorem exists_declared_of_mem_bounds {e bound : Expr} (h : bound ∈ e.bounds) :
    ∃ range ∈ e.declared, bound ∈ range.operands := by
  cases e with
  | var _ domain | varArray _ domain _ | varSet _ domain =>
      cases domain with
      | range start stop => exact ⟨.range start stop, List.mem_singleton_self _, h⟩
      | _ => cases h
  | _ => cases h

/-- What the domains of a compiled model depend on. Every variable, array and set is declared with the
bounds of its domain and no other term. Each entity that a bound reaches is declared. A bound is fixed
exactly if it reaches no decision that the program declares, and then it comes to the same wherever the
declared parameters have the same values. A derived parameter reaches no decision, since that is checked
when it is made. A domain is not checked: any bounds that have terms and make a range are accepted. -/
theorem compile_domains {model : Model} {n n' : Nat} {c : CompiledModel}
    (h : model.compile.run n = (.ok c, n'))
    (hc : c.resolved.Identifies (c.resolved.parameters ++ c.resolved.decisions)) :
    List.Forall₂ (fun entry d =>
        PrintsBounds (.ofModel c.resolved) entry.2.bounds d.declaration.terms)
      c.resolved.decisions c.program.decisions ∧
    (∀ entry ∈ c.resolved.decisions, ∀ bound ∈ entry.2.bounds,
      (∀ l id, bound.Reaches l → l.id? = some id →
        ∃ name, (name, l) ∈ c.resolved.parameters ++ c.resolved.decisions) ∧
      (bound.isFixed = true ↔ ∀ other ∈ c.resolved.decisions, ¬ bound.Reaches other.2) ∧
      (bound.isFixed = true → ∀ (lib : Library) (σ τ : Assignment) (ρ : Iteration),
        (∀ other ∈ c.resolved.parameters, ∀ id, other.2.id? = some id → σ id = τ id) →
          bound.result lib σ ρ = bound.result lib τ ρ)) ∧
    (∀ (value p : Expr) (k k' : Nat), value.bindParam.run k = (.ok p, k') →
      ∀ other ∈ c.resolved.decisions, ¬ p.Reaches other.2) ∧
    ∀ start stop, (∃ b, (Domain.range start stop).base (.ofModel c.resolved) = .ok b) ↔
      requireRange start stop = .ok () ∧ (Expr.range start stop).IsTyped ∧
        (∃ t, start.term (.ofModel c.resolved) [] = .ok t) ∧
          ∃ t, stop.term (.ofModel c.resolved) [] = .ok t := by
  obtain ⟨hresolve, hprogram⟩ := compile_eq_ok h
  obtain ⟨-, hdeclarations, -, -⟩ := program_eq_ok hprogram
  refine ⟨?_, fun entry hentry bound hbound => ?_, fun value p k k' hp => ?_, fun start stop => ?_⟩
  · have hdecisions := (isParameter_of_mem hresolve).2
    exact ((List.forall₂_and_left _ _).2 ⟨hdecisions, hdeclarations⟩).imp fun entry d hd =>
      declaration_printsBounds (variableDeclaration_eq_ok hd.2).1 hd.1
  · obtain ⟨range, hrange, hoperand⟩ := exists_declared_of_mem_bounds hbound
    have hspelled : range ∈ c.resolved.spelled :=
      mem_spelled.2 (.inl ⟨entry, List.mem_append_right _ hentry, hrange⟩)
    have hdeclared (l : Expr) (id : NodeId) (hl : bound.Reaches l) (hid : l.id? = some id) :
        ∃ name, (name, l) ∈ c.resolved.parameters ++ c.resolved.decisions :=
      declared_of_reaches hresolve hprogram hc hspelled (.head hoperand hl) hid
    refine ⟨hdeclared, ⟨not_reaches_of_isFixed hresolve hprogram,
      isFixed_of_not_reaches hresolve hdeclared⟩, fun hfixed lib σ τ ρ hagree => ?_⟩
    exact bound.result_congr ρ hfixed (agreeOn_inputs hresolve hdeclared hagree)
  · obtain ⟨rfl, hfixed, -⟩ := bindParam_eq_ok hp
    exact not_reaches_of_isFixed hresolve hprogram hfixed
  · simp only [base_range_eq_ok, Expr.IsTyped]
    constructor
    · rintro ⟨_, type, first, last, hrange, htype, hfirst, hlast, -⟩
      exact ⟨hrange, ⟨type, htype⟩, ⟨first, hfirst⟩, last, hlast⟩
    · rintro ⟨hrange, ⟨type, htype⟩, ⟨first, hfirst⟩, last, hlast⟩
      exact ⟨_, type, first, last, hrange, htype, hfirst, hlast, rfl⟩

def horizon : Expr :=
  .param ⟨0⟩ (.int 4)

/-- Twice the horizon. -/
def deadline : Expr :=
  .derivedParam ⟨1⟩ (.binary .mul horizon (.literal (.int 2)))

def starts : Expr :=
  .varArray ⟨2⟩ (.range (.literal (.int 0)) deadline) ⟨[3]⟩

/-- An array up to a derived parameter, a variable up to the extent of the array, and a sum. -/
def plannedModel : Model where
  attributes := [("horizon", horizon), ("deadline", deadline), ("starts", starts),
    ("last", .var ⟨3⟩ (.range (.literal (.int 0)) (.size starts 0))),
    ("total", .aggregate .sum [starts])]
  constraints := []
  objective := .satisfy

/-- What the model prints, at any depth. -/
def plannedParts : List Expr :=
  [.binary .mul horizon (.literal (.int 2)), horizon, .literal (.int 2),
    .range (.literal (.int 0)) deadline, .literal (.int 0), deadline,
    .range (.literal (.int 0)) (.size starts 0), .size starts 0, .aggregate .sum [starts], starts]

def plannedEntries : List (String × Expr) :=
  [("horizon", horizon), ("deadline", deadline), ("starts", starts),
    ("last", .var ⟨3⟩ (.range (.literal (.int 0)) (.size starts 0))),
    ("total", .boundVar ⟨4⟩ .int (.aggregate .sum [starts]))]

theorem compile_domains_plannedModel : ∃ c n', plannedModel.compile.run 4 = (.ok c, n') ∧
    c.program.lines = ["int: horizon;", "int: deadline = (horizon * 2);",
      "array[0..2] of var 0..(deadline - 1): starts;",
      "var 0..((max(index_set(starts)) + 1) - 1): last;", "var int: total;",
      "constraint (total == sum(starts));", "solve satisfy;"] ∧
    ∀ entry ∈ c.resolved.decisions, ∀ bound ∈ entry.2.bounds,
      ∀ other ∈ c.resolved.decisions, ¬ bound.Reaches other.2 := by
  refine ⟨_, _, rfl, by decide, fun entry hentry bound hbound => ?_⟩
  have hclosed : ∀ e ∈ plannedParts, ∀ s ∈ e.parts ++ e.selectors, s ∈ plannedParts := by
    simp [plannedParts, Expr.parts, Expr.selectors, horizon, deadline, starts]
  have hspelled : [.binary .mul horizon (.literal (.int 2)), .range (.literal (.int 0)) deadline,
      .range (.literal (.int 0)) (.size starts 0), .aggregate .sum [starts]] ⊆ plannedParts := by
    simp [plannedParts]
  have hsame : ∀ l ∈ plannedParts, ∀ entry ∈ plannedEntries, l.id? = entry.2.id? →
      l = entry.2 := by
    simp [plannedParts, plannedEntries, Expr.id?, horizon, deadline, starts]
  obtain ⟨-, hbounds, -⟩ := compile_domains (rfl : plannedModel.compile.run 4 = (.ok _, _))
    fun entry hentry e he l hl => hsame l (Expr.mem_of_shows hclosed (hspelled he) hl) entry hentry
  have hfixed : ∀ entry ∈ plannedEntries, ∀ bound ∈ entry.2.bounds, bound.isFixed = true := by
    simp [plannedEntries, Expr.bounds, Domain.bounds, Expr.isFixed, horizon, deadline, starts]
  exact (hbounds entry hentry bound hbound).2.1.1
    (hfixed entry (List.mem_cons_of_mem _ (List.mem_cons_of_mem _ hentry)) bound hbound)

/-- A variable up to another variable. -/
def dependentModel : Model where
  attributes := [("x", .var ⟨0⟩ .int), ("y", .var ⟨1⟩ (.range (.literal (.int 0)) (.var ⟨0⟩ .int)))]
  constraints := []
  objective := .satisfy

/-- A domain up to a decision variable is made, and compiles, though a parameter that the variable
enters is refused. -/
theorem dependentModel_unfixed :
    (Expr.newVar (.range (.literal (.int 0)) (.var ⟨0⟩ .int))).run 1 =
      (.ok (.var ⟨1⟩ (.range (.literal (.int 0)) (.var ⟨0⟩ .int))), 2) ∧
    (∃ c n', dependentModel.compile.run 2 = (.ok c, n') ∧
      c.program.lines = ["var int: x;", "var 0..(x - 1): y;", "solve satisfy;"] ∧
      ∃ entry ∈ c.resolved.decisions, ∃ bound ∈ entry.2.bounds, bound.isFixed = false ∧
        ∃ other ∈ c.resolved.decisions, bound.Reaches other.2) ∧
    (Expr.bindParam (.binary .add (.var ⟨0⟩ .int) (.literal (.int 1)))).run 2 =
      (.error (.variableInParameter (.binary .add)), 2) := by
  refine ⟨rfl, ⟨_, _, rfl, by decide, ?_⟩, rfl⟩
  exact ⟨_, List.mem_cons_of_mem _ List.mem_cons_self, .var ⟨0⟩ .int,
    List.mem_cons_of_mem _ List.mem_cons_self, rfl, _, List.mem_cons_self, .refl⟩

end ConstraintModel
