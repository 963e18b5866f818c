import ConstraintModel.Bindings
import ConstraintModel.Proofs.RewordedPrograms

/-!
# Order of constraints

The constraints of a model can be given in any order. The order decides in which order enumerations
are found, but not which ones are; so the words at the top level stay, and with them the words of
iterators and the term of every expression.
-/

namespace ConstraintModel

open Source

/-! ## Reordered models -/

/-- The model with other constraints. -/
def Model.withConstraints (m : Model) (constraints : List Expr) : Model :=
  { m with constraints }

/-- The enumerations that the attributes, constraints and objective of a model mention. -/
def Model.mentioned (m : Model) : List Enumeration :=
  allEnumerations (m.attributes.map Prod.snd ++ m.constraints ++ m.objective.value?.toList)

section Found

variable {model : Model} {constraints : List Expr}

theorem Bound.enumerations_subset {n k : Nat} {e e' : Expr} (h : Bound n e e' k) :
    e'.enumerations ⊆ e.enumerations := by
  cases h with
  | leaf _ => exact List.Subset.refl _
  | operation _ htype =>
      refine List.append_subset.2 ⟨fun x hx => ?_, List.Subset.refl _⟩
      rw [ElemType.mem_enumerations.1 hx] at htype
      exact e.mem_enumerations_of_elemType htype

/-- What the entities of a model mention is mentioned by its attributes. -/
theorem Model.reach_subset {s : Entities} {n n' : Nat}
    (h : (Entities.empty.declareAll [] model.attributes).run n = (.ok s, n')) :
    model.reach s ⊆ model.mentioned := by
  obtain ⟨entries, rfl, hentries⟩ := declareAll_entries h
  intro x hx
  obtain ⟨e, he, hx⟩ := mem_allEnumerations.1 hx
  rw [List.append_assoc] at he
  rw [Model.mentioned, mem_allEnumerations, List.append_assoc]
  rcases List.mem_append.1 he with he | he
  · obtain ⟨entry, hentry, rfl⟩ := List.mem_map.1 he
    have hentry : entry ∈ entries := by
      have hperm := List.filter_append_perm (fun entry : String × Expr => entry.2.isParameter)
        entries
      exact hperm.mem_iff.1 hentry
    obtain ⟨e, k, k', hattribute, hbound⟩ := hentries entry hentry
    exact ⟨e, List.mem_append_left _ (List.mem_map_of_mem hattribute),
      hbound.enumerations_subset hx⟩
  · exact ⟨e, List.mem_append_right _ he, hx⟩

theorem Model.mem_reach_withConstraints (hperm : constraints.Perm model.constraints) (s : Entities)
    (x : Enumeration) : x ∈ (model.withConstraints constraints).reach s ↔ x ∈ model.reach s := by
  have hroots := ((hperm.append_left ((s.parameters ++ s.decisions).map Prod.snd)).append_right
    model.objective.value?.toList)
  rw [Model.reach, Model.reach, mem_allEnumerations, mem_allEnumerations]
  exact exists_congr fun e => and_congr_left fun _ => hroots.mem_iff

theorem Model.mem_mentioned_withConstraints (hperm : constraints.Perm model.constraints)
    (x : Enumeration) :
    x ∈ (model.withConstraints constraints).mentioned ↔ x ∈ model.mentioned := by
  have hroots := ((hperm.append_left (model.attributes.map Prod.snd)).append_right
    model.objective.value?.toList)
  rw [Model.mentioned, Model.mentioned, mem_allEnumerations, mem_allEnumerations]
  exact exists_congr fun e => and_congr_left fun _ => hroots.mem_iff

end Found

/-! ## Reordered programs -/

namespace Source

/-- Two lists of features have the same ones in order if they have the same ones. -/
theorem Feature.ordered_congr {fs gs : List Feature} (h : ∀ f, f ∈ fs ↔ f ∈ gs) :
    Feature.ordered fs = Feature.ordered gs := by
  refine List.filter_congr fun f _ => ?_
  rw [Bool.eq_iff_iff, List.contains_iff_mem, List.contains_iff_mem, h f]

/-- The second program differs from the first in the order of its enumerations and in that of its
constraints, which are the terms of the given expressions. -/
structure Program.Reordered (constraints constraints' : List Expr) (p p' : Program) : Prop where
  features : Feature.ordered p'.features = Feature.ordered p.features
  includes : Feature.includeLines p'.features = Feature.includeLines p.features
  enumerations : p'.enumerations.Perm p.enumerations
  parameters : p'.parameters = p.parameters
  decisions : p'.decisions = p.decisions
  goal : p'.goal = p.goal
  constraints : ∃ term : Expr → Term,
    p.constraints = constraints.map term ∧ p'.constraints = constraints'.map term

/-- Expressions with a term each have terms that do not depend on where they stand. -/
theorem exists_terms {v : Vocabulary} {es : List Expr} {ts : List Term}
    (h : List.Forall₂ (fun e t => e.term v [] = .ok t) es ts) :
    ∃ term : Expr → Term, ts = es.map term ∧ ∀ e ∈ es, e.term v [] = .ok (term e) := by
  refine ⟨fun e => (e.term v []).toOption.getD (.int 0), ?_, ?_⟩
  · induction h with
    | nil => rfl
    | cons he _ ih => rw [List.map_cons, ← ih, he]; rfl
  · intro e he
    obtain ⟨t, -, ht⟩ := exists_of_mem_left h he
    simp only [ht]
    rfl

end Source

/-- A resolved model has a program if it has one with its constraints and enumerations in another
order. -/
theorem program_reordered {r r' : ResolvedModel} {p : Program}
    (hentities : r'.toEntities = r.toEntities) (hobjective : r'.objective = r.objective)
    (hconstraints : r'.constraints.Perm r.constraints)
    (henumerations : r'.enumerations.Perm r.enumerations) (hp : r.program = .ok p) :
    ∃ p', r'.program = .ok p' ∧ p.Reordered r.constraints r'.constraints p' := by
  obtain ⟨hparameters, hdecisions, hterms, hgoal⟩ := program_eq_ok hp
  -- The same words are at the top level, so every term is the same.
  have hsame : Respelled (.ofModel r) (.ofModel r') id := by
    have hsymbols : r.symbols = r'.symbols := congrArg Entities.symbols hentities.symm
    refine Respelled.same hsymbols fun w => ?_
    have hwords := henumerations.flatMap_right fun e => e.name :: e.variants
    have htop := hwords.append_left (Symbol.words r'.symbols)
    rw [Vocabulary.topWords, Vocabulary.topWords, Vocabulary.ofModel, hsymbols]
    exact htop.mem_iff.symm
  obtain ⟨term, hmap, hterm⟩ := exists_terms hterms
  have hterms' : List.Forall₂ (fun e t => e.term (.ofModel r') [] = .ok t) r'.constraints
      (r'.constraints.map term) := by
    rw [List.forall₂_map_right_iff, List.forall₂_same]
    exact fun e he => hsame.term e _ (hterm e (hconstraints.mem_iff.1 he))
  have hparameters' := hparameters.imp fun _ d hd => d.map_id ▸ hsame.declaration hd
  have hdecisions' := hdecisions.imp fun _ d hd => d.map_id ▸ hsame.variableDeclaration hd
  have hgoal' := p.goal.map_id ▸ hsame.goal hgoal
  rw [← congrArg Entities.parameters hentities] at hparameters'
  rw [← congrArg Entities.decisions hentities] at hdecisions'
  rw [← hobjective] at hgoal'
  refine ⟨_, program_of_terms hparameters' hdecisions' hterms' hgoal', ?_⟩
  have hused := (hconstraints.map term).flatMap_right Term.features
  rw [← hmap] at hused
  have hfeatures : Feature.ordered (Program.features ⟨r'.enumerations, p.parameters, p.decisions,
      r'.constraints.map term, p.goal⟩) = Feature.ordered p.features := by
    refine Feature.ordered_congr fun f => ?_
    simp only [Program.features, List.mem_append, hused.mem_iff]
  refine ⟨hfeatures, ?_, ?_, rfl, rfl, rfl, term, hmap, rfl⟩
  · rw [Feature.includeLines, hfeatures, Feature.includeLines]
  · rw [program_enumerations hp]
    exact henumerations

section Compiled

variable {model : Model} {constraints : List Expr} {n n' : Nat} {c : CompiledModel}

/-- A model that compiles does so with its constraints in another order. -/
theorem exists_compile_reordered (hperm : constraints.Perm model.constraints)
    (hsame : ∀ x ∈ model.mentioned, ∀ y ∈ model.mentioned, x.name = y.name → x = y)
    (h : model.compile.run n = (.ok c, n')) :
    ∃ c', (model.withConstraints constraints).compile.run n = (.ok c', n') ∧
      c.program.Reordered model.constraints constraints c'.program ∧
      c'.resolved.bindings = c.resolved.bindings := by
  obtain ⟨hresolve, hprogram⟩ := compile_eq_ok h
  obtain ⟨hstatements, hentities, henumerations, hvalid, hobjective, hconstraints, hgoal⟩ :=
    resolve_eq_ok hresolve
  rw [hconstraints, hgoal] at henumerations
  let model' := model.withConstraints constraints
  have hreach := Model.mem_reach_withConstraints hperm c.resolved.toEntities
  have hmentioned : ∀ x ∈ model'.reach c.resolved.toEntities, x ∈ model.mentioned := fun x hx =>
    Model.reach_subset hentities ((hreach x).1 hx)
  have hfound : (distinctByName (model'.reach c.resolved.toEntities)).Perm
      c.resolved.enumerations := by
    rw [henumerations]
    exact distinctByName_perm
      (fun x hx y hy => hsame x (hmentioned x hx) y (hmentioned y hy)) hreach
  let r' : ResolvedModel := ⟨c.resolved.toEntities,
    distinctByName (model'.reach c.resolved.toEntities), constraints, model.objective⟩
  have hresolve' : model'.resolve.run n = (.ok r', n') :=
    resolve_of_parts (fun e he => hstatements e (hperm.mem_iff.1 he)) hentities
      (fun e he => hvalid e (hfound.mem_iff.1 he)) hobjective
  have hr : r'.constraints.Perm c.resolved.constraints := by
    rw [hconstraints]
    exact hperm
  have hr' : r'.toEntities = c.resolved.toEntities ∧ r'.objective = c.resolved.objective :=
    ⟨rfl, hgoal.symm⟩
  obtain ⟨p', hprogram', hreordered⟩ := program_reordered hr'.1 hr'.2 hr hfound hprogram
  rw [hconstraints] at hreordered
  exact ⟨⟨r', p'⟩, compile_of_program hresolve' hprogram', hreordered, rfl⟩

/-- A model whose enumerations of one name are equal compiles or not whatever the order of its
constraints is. In any order the features, the parameters, the variables with what they equal, the
objective and the data are the same, the same enumerations are declared, and every constraint has
one and the same term, down to the words of its iterators. -/
theorem compile_reordered (hperm : constraints.Perm model.constraints)
    (hsame : ∀ x ∈ model.mentioned, ∀ y ∈ model.mentioned, x.name = y.name → x = y) (n : Nat) :
    ((∃ c n', model.compile.run n = (.ok c, n')) ↔
      ∃ c n', (model.withConstraints constraints).compile.run n = (.ok c, n')) ∧
    ∀ c k c' k', model.compile.run n = (.ok c, k) →
      (model.withConstraints constraints).compile.run n = (.ok c', k') →
      c.program.Reordered model.constraints constraints c'.program ∧
      c'.resolved.bindings = c.resolved.bindings := by
  refine ⟨⟨?_, ?_⟩, fun c k c' k' h h' => ?_⟩
  · rintro ⟨c, n', h⟩
    obtain ⟨c', h', -⟩ := exists_compile_reordered hperm hsame h
    exact ⟨c', n', h'⟩
  · rintro ⟨c, n', h⟩
    have hmentioned := Model.mem_mentioned_withConstraints hperm
    have hsame' : ∀ x ∈ (model.withConstraints constraints).mentioned,
        ∀ y ∈ (model.withConstraints constraints).mentioned, x.name = y.name → x = y :=
      fun x hx y hy => hsame x ((hmentioned x).1 hx) y ((hmentioned y).1 hy)
    obtain ⟨c', h', -⟩ := exists_compile_reordered hperm.symm hsame' h
    exact ⟨c', n', h'⟩
  · obtain ⟨c'', h'', hreordered, hbindings⟩ := exists_compile_reordered hperm hsame h
    rw [h''] at h'
    cases h'
    exact ⟨hreordered, hbindings⟩

abbrev sizes : Enumeration :=
  ⟨"Size", ["i", "Large"], by decide⟩

/-- The statement that every value of an enumeration equals itself. -/
def reflexive (id : NodeId) (e : Enumeration) : Expr :=
  let value : Expr := .iterator id (.enumeration e)
  .comprehension .every [.over id (.enumeration e) (.enumeration e)] (.binary .eq value value)

/-- Two statements, of which each has an enumeration that the other has not; one of these has the
word of the first iterator as a variant. -/
def surveyedModel : Model where
  attributes := [("x", .var ⟨0⟩ .int)]
  constraints := [reflexive ⟨1⟩ colors, reflexive ⟨2⟩ sizes]
  objective := .minimize (.var ⟨0⟩ .int)

theorem compile_reordered_surveyedModel :
    let constraints := [reflexive ⟨2⟩ sizes, reflexive ⟨1⟩ colors]
    ∃ c c' n', surveyedModel.compile.run 3 = (.ok c, n') ∧
      (surveyedModel.withConstraints constraints).compile.run 3 = (.ok c', n') ∧
      c.program.statements =
        ["enum Color = {Red, Green};", "enum Size = {i, Large};", "var int: x;",
          "constraint forall(i_ in Color)((i_ == i_));",
          "constraint forall(i_ in Size)((i_ == i_));", "solve minimize x;"] ∧
      c'.program.statements =
        ["enum Size = {i, Large};", "enum Color = {Red, Green};", "var int: x;",
          "constraint forall(i_ in Size)((i_ == i_));",
          "constraint forall(i_ in Color)((i_ == i_));", "solve minimize x;"] ∧
      c.program.Reordered surveyedModel.constraints constraints c'.program := by
  refine ⟨_, _, _, rfl, rfl, by decide, by decide, ?_⟩
  have hperm : [reflexive ⟨2⟩ sizes, reflexive ⟨1⟩ colors].Perm surveyedModel.constraints :=
    .swap _ _ _
  exact ((compile_reordered hperm (by decide) 3).2 _ _ _ _ rfl rfl).1

end Compiled

end ConstraintModel
