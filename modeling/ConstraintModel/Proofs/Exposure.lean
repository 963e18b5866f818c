import ConstraintModel.Bindings
import ConstraintModel.Proofs.Inclusions
import ConstraintModel.Proofs.Reordering
import Mathlib.Data.List.Sublists

/-!
# Exposed operations

A model can give a name to an operation, to see its value in solutions. That adds a variable and its
equation, and the inclusions and enumerations that they need. What was declared and stated before
stays, but for the words of iterators: a new word at the top level may be one that an iterator had.
-/

namespace ConstraintModel

open Source

/-! ## One more attribute -/

/-- The model with one more attribute, after all others. -/
def Model.exposing (m : Model) (name : String) (e : Expr) : Model :=
  { m with attributes := m.attributes ++ [(name, e)] }

theorem declareAll_append (s : Entities) (used : List String)
    (attributes rest : List (String × Expr)) :
    s.declareAll used (attributes ++ rest) = s.declareAll used attributes >>= fun s =>
      s.declareAll ((attributes.map Prod.fst).reverse ++ used) rest := by
  induction attributes generalizing s used with
  | nil => simp [Entities.declareAll]
  | cons first attributes ih =>
      obtain ⟨name, e⟩ := first
      simp only [List.cons_append, Entities.declareAll, ih]
      split_ifs <;> simp

section Entities

variable {attributes : List (String × Expr)} {name : String} {e : Expr} {n k k' : Nat}
  {s s' : Entities}

/-- An operation after all attributes becomes one more variable, with an identity that is new. -/
theorem declareAll_exposing (hop : e.isOperation = true)
    (hbelow : ∀ entry ∈ attributes, ∀ id, entry.2.id? = some id → id.number < n)
    (h : (Entities.empty.declareAll [] attributes).run n = (.ok s, k))
    (h' : (Entities.empty.declareAll [] (attributes ++ [(name, e)])).run n = (.ok s', k')) :
    ∃ type, e.elemType = .ok type ∧ (⟨k⟩ : NodeId) ∉ s.symbols.map Symbol.id ∧
      s' = s.adding [(name, .boundVar ⟨k⟩ type e)] := by
  rw [declareAll_append, build_bind_eq_ok] at h'
  obtain ⟨s₁, k₁, hrun, hlast⟩ := h'
  rw [h] at hrun
  cases hrun
  obtain ⟨entries, -, rfl, held, used, hconsistent⟩ :=
    declareAll_eq_ok hbelow (.empty n) (Nat.le_refl n) h
  have hnew : (⟨k⟩ : NodeId) ∉ (Entities.empty.adding entries).symbols.map Symbol.id := by
    intro hmem
    exact absurd (hconsistent.ids_below _ hmem) (Nat.lt_irrefl k)
  obtain ⟨-, -, e', k₂, s₂, hbound, hdeclare, hend⟩ := declareAll_cons_eq_ok hlast
  rw [Entities.declareAll, build_pure_eq_ok] at hend
  obtain ⟨rfl, -⟩ := hend
  cases hbound with
  | leaf hleaf => simp [hop] at hleaf
  | @operation type _ htype =>
      rcases declare_eq_ok hdeclare with ⟨-, hnamed⟩ | ⟨_, -, -, hadded⟩
      · exact absurd (hnamed _ rfl) hnew
      · exact ⟨type, htype, hnew, hadded⟩

end Entities

/-! ## Bound words -/

namespace Source

/-- Whether an iterator in a program has the word. -/
def Program.Binds (p : Program) (w : String) : Prop :=
  ∃ t ∈ p.terms, t.Has (w ∈ ·.headWords)

theorem Vocabulary.extends_append {v v' : Vocabulary} {new : List Symbol}
    (h : v'.symbols = v.symbols ++ new) : v.Extends v' := by
  intro id s hs
  have hfound : (v.symbols.find? (·.id == id)) = some s := hs
  rw [h, Symbol.lookup, List.find?_append, hfound]
  rfl

end Source

/-- The iterators of a program have the words of their depths. -/
theorem exists_iteratorAt {r : ResolvedModel} {p : Program} (hp : r.program = .ok p)
    (hentries : ∀ s ∈ (r.parameters ++ r.decisions).filterMap entrySymbol?, s ∈ r.symbols)
    {w : String} (hw : p.Binds w) : ∃ depth, (Vocabulary.ofModel r).iteratorAt depth = w := by
  obtain ⟨t, ht, s, hs, hw⟩ := hw
  refine program_nodes (nodeRules_headWords _) (Scope.ByDepth.nil _) hp ?_ t ht s hs w hw
  intro name id type value hentry
  exact hentries _ (List.mem_filterMap.2 ⟨_, List.mem_append_right _ hentry, rfl⟩)

/-- Respelling in a vocabulary keeps the words of iterators apart, and apart from those at the top
level. -/
theorem respelling_iterators (v v' : Vocabulary) {w w' : String}
    (hw : ∃ depth, v.iteratorAt depth = w) (hw' : ∃ depth, v.iteratorAt depth = w') :
    (v.respelling v' w = v.respelling v' w' → w = w') ∧ v.respelling v' w ∉ v'.topWords := by
  obtain ⟨depth, rfl⟩ := hw
  obtain ⟨depth', rfl⟩ := hw'
  rw [Vocabulary.respelling_iteratorAt, Vocabulary.respelling_iteratorAt]
  refine ⟨fun h => ?_, (v'.iteratorAt_not_mem depth).1⟩
  rw [v'.iteratorAt_injective h]

/-! ## Extended programs -/

namespace Source

/-- Another program has what the first one has, with the iterators reworded so that none takes the
word of another one or of the top level, and one more variable after the other ones. Beyond that it
has only the inclusions and the enumerations that the variable needs. -/
structure Program.Extended (ρ : String → String) (d : VariableDeclaration)
    (needed : List Enumeration) (p p' : Program) : Prop where
  injective : ∀ w w', p.Binds w → p.Binds w' → ρ w = ρ w' → w = w'
  free : ∀ w, p.Binds w → ρ w ∉ p'.identifiers
  parameters : p'.parameters = p.parameters.map (Declaration.map (Term.reword ρ))
  decisions : p'.decisions = p.decisions.map (VariableDeclaration.map (Term.reword ρ)) ++ [d]
  constraints : p'.constraints = p.constraints.map (Term.reword ρ)
  goal : p'.goal = p.goal.map (Term.reword ρ)
  inclusions : p.required.Sublist p'.required
  new_inclusions : ∀ kind ∈ p'.required, kind ∈ p.required ∨ .global kind ∈ d.features
  enumerations : ∀ x ∈ p.enumerations, x ∈ p'.enumerations
  new_enumerations : ∀ x ∈ p'.enumerations, x ∈ p.enumerations ∨ x ∈ needed

theorem Program.mem_features_extended {ρ : String → String} {d : VariableDeclaration}
    {enumerations : List Enumeration} {p : Program} {f : Feature} :
    f ∈ Program.features ⟨enumerations, p.parameters.map (Declaration.map (Term.reword ρ)),
      p.decisions.map (VariableDeclaration.map (Term.reword ρ)) ++ [d],
      p.constraints.map (Term.reword ρ), p.goal.map (Term.reword ρ)⟩ ↔
      f ∈ p.features ∨ f ∈ d.features := by
  have hterm := Term.features_reword (ρ := ρ)
  have hdeclaration := Declaration.features_map hterm
  have hvariable := fun d => VariableDeclaration.features_map hterm (d := d)
  simp only [features, List.flatMap_map, List.flatMap_append, List.flatMap_singleton,
    hdeclaration, hvariable, hterm, Goal.features_map hterm, List.mem_append]
  grind

theorem Program.required_sublist {p p' : Program} (h : ∀ f ∈ p.features, f ∈ p'.features) :
    p.required.Sublist p'.required := by
  refine List.monotone_filter_right _ fun kind hkind => ?_
  rw [List.contains_iff_mem] at hkind ⊢
  exact h _ hkind

/-- A variable of a type that equals a term. -/
def equalTo (id : NodeId) (name : String) (type : ElemType) (t : Term) : VariableDeclaration :=
  ⟨⟨.scalar true (.type type), ⟨id, name⟩, none⟩, some t⟩

theorem equalTo_lines (id : NodeId) (name : String) (type : ElemType) (t : Term) :
    (equalTo id name type t).lines =
      ["var " ++ type.text ++ ": " ++ name ++ ";",
        "constraint (" ++ name ++ " == " ++ t.text ++ ");"] := by
  have hdeclaration : (equalTo id name type t).declaration.text =
      "var " ++ type.text ++ ": " ++ name ++ ";" := by
    simp [equalTo, Declaration.text, DeclaredType.text, searchMark, Base.text]
  have hequation : constraintText (.binary .eq (.entity ⟨id, name⟩) t) =
      "constraint (" ++ name ++ " == " ++ t.text ++ ");" := by
    simp only [constraintText, Term.text, BinaryOp.symbol, ← String.toList_inj,
      String.toList_append, List.append_assoc]
    rfl
  rw [VariableDeclaration.lines, hdeclaration, ← hequation]
  rfl

end Source

/-- With one more bound variable among its entities, a program has one more variable, and its terms
are reworded. -/
theorem program_exposing {r r' : ResolvedModel} {p p' : Program} {id : NodeId} {name : String}
    {type : ElemType} {e : Expr}
    (hentities : r'.toEntities = r.toEntities.adding [(name, .boundVar id type e)])
    (hconstraints : r'.constraints = r.constraints) (hobjective : r'.objective = r.objective)
    (hp : r.program = .ok p) (hp' : r'.program = .ok p') :
    let φ := Term.reword ((Vocabulary.ofModel r).respelling (.ofModel r'))
    ∃ t, e.term (.ofModel r') [] = .ok t ∧
      p' = ⟨r'.enumerations, p.parameters.map (Declaration.map φ),
        p.decisions.map (VariableDeclaration.map φ) ++ [equalTo id name type t],
        p.constraints.map φ, p.goal.map φ⟩ := by
  intro φ
  obtain ⟨hparameters, hdecisions, hterms, hgoal⟩ := program_eq_ok hp
  have hnew : r'.parameters = r.parameters ∧
      r'.decisions = r.decisions ++ [(name, .boundVar id type e)] := by
    rw [hentities]
    simp [Entities.adding, Expr.isParameter]
  have hsymbols : r'.symbols = r.symbols ++ [⟨id, name⟩] := by
    rw [hentities]
    rfl
  have hspelled : Respelled (.ofModel r) (.ofModel r') φ :=
    .reworded (Vocabulary.extends_append hsymbols)
  -- The equation of the new variable has a term, since the extended model has a program.
  obtain ⟨d, -, hd⟩ := exists_of_mem_left (program_eq_ok hp').2.1
    (hnew.2 ▸ List.mem_append_right _ (List.mem_singleton_self _))
  obtain ⟨t, ht⟩ : ∃ t, e.term (.ofModel r') [] = .ok t := by
    have hvalue := (variableDeclaration_eq_ok hd).2
    generalize d.value = w at hvalue
    cases hvalue with
    | some ht => exact ⟨_, ht⟩
  have hvariable : Expr.variableDeclaration (.ofModel r') name (.boundVar id type e) =
      .ok (equalTo id name type t) := by
    rw [Expr.variableDeclaration, Expr.declaration]
    simp only [bind_eq_ok, pure_eq_ok]
    exact ⟨_, rfl, t, ht, rfl⟩
  have hparameters' := hspelled.declarations hparameters
  have hdecisions' : List.Forall₂
      (fun entry d => Expr.variableDeclaration (.ofModel r') entry.1 entry.2 = .ok d)
      (r.decisions ++ [(name, .boundVar id type e)])
      (p.decisions.map (VariableDeclaration.map φ) ++ [equalTo id name type t]) :=
    List.rel_append (hspelled.variableDeclarations hdecisions) (.cons hvariable .nil)
  have hterms' := hspelled.terms hterms
  have hgoal' := hspelled.goal hgoal
  rw [← hnew.1] at hparameters'
  rw [← hnew.2] at hdecisions'
  rw [← hconstraints] at hterms'
  rw [← hobjective] at hgoal'
  have hprogram := program_of_terms hparameters' hdecisions' hterms' hgoal'
  rw [hp'] at hprogram
  exact ⟨t, ht, Except.ok.inj hprogram⟩

section Compiled

variable {model : Model} {name : String} {e : Expr} {n k k' : Nat} {c c' : CompiledModel}

/-- With one more bound variable among the entities, what is found is what was found before and what
the variable mentions. -/
theorem Model.mem_reach_exposing {s s' : Entities} {id : NodeId} {type : ElemType}
    (hs : s' = s.adding [(name, .boundVar id type e)]) (htype : e.elemType = .ok type)
    (x : Enumeration) :
    x ∈ (model.exposing name e).reach s' ↔ x ∈ model.reach s ∨ x ∈ e.enumerations := by
  have hbound : (Expr.boundVar id type e).enumerations ⊆ e.enumerations :=
    List.append_subset.2 ⟨fun y hy => e.mem_enumerations_of_elemType
      (ElemType.mem_enumerations.1 hy ▸ htype), List.Subset.refl _⟩
  have hvalue : x ∈ (Expr.boundVar id type e).enumerations ↔ x ∈ e.enumerations :=
    ⟨fun hx => hbound hx, fun hx => List.mem_append_right _ hx⟩
  have hparameters : s'.parameters = s.parameters := by simp [hs, Entities.adding, Expr.isParameter]
  have hdecisions : s'.decisions = s.decisions ++ [(name, .boundVar id type e)] := by
    simp [hs, Entities.adding, Expr.isParameter]
  simp only [Model.reach, hparameters, hdecisions, mem_allEnumerations, List.map_append,
    List.map_cons, List.map_nil, List.mem_append, List.mem_singleton, or_and_right, exists_or,
    exists_eq_left, hvalue, Model.exposing]
  grind

/-- The enumerations of the extended program are those of the first one and those of the operation.
-/
theorem mem_enumerations_exposing
    (hsame : ∀ x ∈ (model.exposing name e).mentioned, ∀ y ∈ (model.exposing name e).mentioned,
      x.name = y.name → x = y)
    (h : model.compile.run n = (.ok c, k))
    (h' : (model.exposing name e).compile.run n = (.ok c', k')) {id : NodeId} {type : ElemType}
    (hadded : c'.resolved.toEntities = c.resolved.toEntities.adding [(name, .boundVar id type e)])
    (htype : e.elemType = .ok type) (x : Enumeration) :
    x ∈ c'.program.enumerations ↔ x ∈ c.program.enumerations ∨ x ∈ e.enumerations := by
  obtain ⟨hresolve, -⟩ := compile_eq_ok h
  obtain ⟨hresolve', -⟩ := compile_eq_ok h'
  have hreach : ∀ y, y ∈ (model.exposing name e).reach c'.resolved.toEntities ↔
      y ∈ model.reach c.resolved.toEntities ∨ y ∈ e.enumerations :=
    Model.mem_reach_exposing hadded htype
  rw [← reach_eq hresolve', ← reach_eq hresolve] at hreach
  have hmentioned : ∀ y ∈ c'.resolved.reach, y ∈ (model.exposing name e).mentioned := by
    rw [reach_eq hresolve']
    exact fun y hy => Model.reach_subset (resolve_eq_ok hresolve').2.1 hy
  have hsame' : ∀ y ∈ c'.resolved.reach, ∀ z ∈ c'.resolved.reach, y.name = z.name → y = z :=
    fun y hy z hz => hsame y (hmentioned y hy) z (hmentioned z hz)
  have hle : ∀ y ∈ c.resolved.reach, y ∈ c'.resolved.reach := fun y hy => (hreach y).2 (.inl hy)
  rw [compile_enumerations h, compile_enumerations h', mem_distinctByName hsame',
    mem_distinctByName fun y hy z hz => hsame' y (hle y hy) z (hle z hz), hreach]

/-- A name for an operation leaves the rest of a model alone. All parameters, variables with what
they equal, constraints and the objective stay in their order, but for iterators, which are reworded
in the same way everywhere; so do the inclusions, the enumerations and the data. What comes in
addition is the declaration of a variable of the type of the operation, its equation right after it,
and the inclusions and enumerations that the operation needs. -/
theorem compile_exposing (hop : e.isOperation = true) (hids : ∀ id ∈ model.ids, id.number < n)
    (hsame : ∀ x ∈ (model.exposing name e).mentioned, ∀ y ∈ (model.exposing name e).mentioned,
      x.name = y.name → x = y)
    (h : model.compile.run n = (.ok c, k))
    (h' : (model.exposing name e).compile.run n = (.ok c', k')) :
    ∃ ρ type t d, e.elemType = .ok type ∧ e.term (.ofModel c'.resolved) [] = .ok t ∧
      d.lines = ["var " ++ type.text ++ ": " ++ name ++ ";",
        "constraint (" ++ name ++ " == " ++ t.text ++ ");"] ∧
      c.program.Extended ρ d e.enumerations c'.program ∧
      c'.resolved.bindings = c.resolved.bindings := by
  obtain ⟨hresolve, hprogram⟩ := compile_eq_ok h
  obtain ⟨hresolve', hprogram'⟩ := compile_eq_ok h'
  obtain ⟨-, hentities, -, -, -, hconstraints, hobjective⟩ := resolve_eq_ok hresolve
  obtain ⟨-, hentities', -, -, -, hconstraints', hobjective'⟩ := resolve_eq_ok hresolve'
  have hbelow : ∀ entry ∈ model.attributes, ∀ id, entry.2.id? = some id → id.number < n := by
    intro entry hentry id hid
    refine hids id (List.mem_append_left _ (List.mem_append_left _ ?_))
    exact List.mem_flatMap.2 ⟨entry, hentry, Expr.mem_ids_of_id hid⟩
  obtain ⟨type, htype, -, hadded⟩ := declareAll_exposing hop hbelow hentities hentities'
  obtain ⟨t, ht, hp'⟩ := program_exposing hadded (hconstraints'.trans hconstraints.symm)
    (hobjective'.trans hobjective.symm) hprogram hprogram'
  let v := Vocabulary.ofModel c.resolved
  let v' := Vocabulary.ofModel c'.resolved
  refine ⟨v.respelling v', type, t, equalTo ⟨k⟩ name type t, htype, ht, equalTo_lines _ _ _ _,
    ?_, ?_⟩
  · have hbound : ∀ w, c.program.Binds w → ∃ depth, v.iteratorAt depth = w := fun w hw =>
      exists_iteratorAt hprogram (fun s hs => (resolve_words hresolve).2.1.mem_iff.1 hs) hw
    have hfound := mem_enumerations_exposing hsame h h' hadded htype
    have hfeatures (f : Feature) : f ∈ c'.program.features ↔
        f ∈ c.program.features ∨ f ∈ (equalTo ⟨k⟩ name type t).features := by
      rw [hp', Program.mem_features_extended]
    constructor
    · exact fun w w' hw hw' => (respelling_iterators v v' (hbound w hw) (hbound w' hw')).1
    · intro w hw hmem
      exact (respelling_iterators v v' (hbound w hw) (hbound w hw)).2 ((mem_topWords h').2 hmem)
    · rw [hp']
    · rw [hp']
    · rw [hp']
    · rw [hp']
    · exact Program.required_sublist fun f hf => (hfeatures f).2 (.inl hf)
    · intro kind hkind
      rw [Program.mem_required] at hkind ⊢
      exact (hfeatures _).1 hkind
    · exact fun x hx => (hfound x).2 (.inl hx)
    · exact fun x hx => (hfound x).1 hx
  · have hparameters : c'.resolved.parameters = c.resolved.parameters := by
      simp [hadded, Entities.adding, Expr.isParameter]
    rw [ResolvedModel.bindings, hparameters, ResolvedModel.bindings]

/-- A variable above all values of an iterator. -/
def boundedModel : Model where
  attributes := [("p", .param ⟨0⟩ (.int 4)), ("x", .var ⟨1⟩ .int)]
  constraints := [.comprehension .every
    [.over ⟨2⟩ .int (.range (.literal (.int 0)) (.param ⟨0⟩ (.int 4)))]
    (.binary .lt (.iterator ⟨2⟩ .int) (.var ⟨1⟩ .int))]
  objective := .minimize (.var ⟨1⟩ .int)

/-- The variable, as often as an enumeration has values. -/
def repeated : Expr :=
  .comprehension .sum [.over ⟨3⟩ (.enumeration colors) (.enumeration colors)] (.var ⟨1⟩ .int)

/-- The name takes the word of an iterator. -/
theorem compile_exposing_boundedModel : ∃ c c' k k', boundedModel.compile.run 4 = (.ok c, k) ∧
    (boundedModel.exposing "i" repeated).compile.run 4 = (.ok c', k') ∧
    c.program.statements = ["int: p;", "var int: x;",
      "constraint forall(i in 0..(p - 1))((i < x));", "solve minimize x;"] ∧
    c'.program.statements = ["enum Color = {Red, Green};", "int: p;", "var int: x;", "var int: i;",
      "constraint (i == sum(i_ in Color)(x));",
      "constraint forall(i_ in 0..(p - 1))((i_ < x));", "solve minimize x;"] ∧
    ∃ ρ d, c.program.Extended ρ d repeated.enumerations c'.program := by
  refine ⟨_, _, _, _, rfl, rfl, by decide, by decide, ?_⟩
  have hids : ∀ id ∈ boundedModel.ids, id.number < 4 := by decide
  have hsame : ∀ x ∈ (boundedModel.exposing "i" repeated).mentioned,
      ∀ y ∈ (boundedModel.exposing "i" repeated).mentioned, x.name = y.name → x = y := by decide
  obtain ⟨ρ, type, t, d, -, -, -, hextended, -⟩ := compile_exposing rfl hids hsame rfl rfl
  exact ⟨ρ, d, hextended⟩

end Compiled

end ConstraintModel
