import ConstraintModel.Proofs.Constants
import ConstraintModel.Proofs.Naming

/-!
# Declared enumerations

A program declares one enumeration of each name, the first one that is found in the model. All that
its declarations and statements show is found, so its name is declared; the bounds of a domain are
not searched.
-/

namespace ConstraintModel

open Source

/-! ## One of each name -/

/-- Keeps an enumeration unless one of its name is there. -/
def register (found : List Enumeration) (e : Enumeration) : List Enumeration :=
  if found.any (·.name == e.name) then found else found ++ [e]

theorem register_nodup {found : List Enumeration} (h : (found.map Enumeration.name).Nodup)
    (e : Enumeration) : ((register found e).map Enumeration.name).Nodup := by
  unfold register
  split_ifs with hany
  · exact h
  · rw [List.map_append]
    refine List.nodup_append.2 ⟨h, List.nodup_singleton _, ?_⟩
    simpa [List.any_eq_true] using hany

theorem find?_register (found : List Enumeration) (e : Enumeration) (w : String) :
    (register found e).find? (·.name == w) = (found ++ [e]).find? (·.name == w) := by
  unfold register
  split_ifs with hany
  · rw [List.find?_append]
    cases hfind : found.find? (·.name == w) with
    | some x => rfl
    | none =>
        -- Nothing found has the name, while something has that of the new one.
        obtain ⟨x, hx, hname⟩ := List.any_eq_true.1 hany
        have hw : x.name ≠ w := by simpa using List.find?_eq_none.1 hfind x hx
        have hne : e.name ≠ w := beq_iff_eq.1 hname ▸ hw
        simp [hne]
  · rfl

theorem foldl_register_nodup {found : List Enumeration} (h : (found.map Enumeration.name).Nodup)
    (es : List Enumeration) : ((es.foldl register found).map Enumeration.name).Nodup := by
  induction es generalizing found with
  | nil => exact h
  | cons e es ih => exact ih (register_nodup h e)

theorem find?_foldl_register (found es : List Enumeration) (w : String) :
    (es.foldl register found).find? (·.name == w) = (found ++ es).find? (·.name == w) := by
  induction es generalizing found with
  | nil => rw [List.foldl_nil, List.append_nil]
  | cons e es ih =>
      rw [List.foldl_cons, ih, List.find?_append, find?_register, ← List.find?_append,
        List.append_assoc]
      rfl

theorem distinctByName_nodup (es : List Enumeration) :
    ((distinctByName es).map Enumeration.name).Nodup := by
  have hnil : (([] : List Enumeration).map Enumeration.name).Nodup := List.nodup_nil
  exact foldl_register_nodup hnil es

/-- The enumeration of a name is the first one. -/
theorem find?_distinctByName (es : List Enumeration) (w : String) :
    (distinctByName es).find? (·.name == w) = es.find? (·.name == w) :=
  find?_foldl_register [] es w

/-- Where no two enumerations of one name differ, all of them are kept. -/
theorem mem_distinctByName {es : List Enumeration}
    (hsame : ∀ x ∈ es, ∀ y ∈ es, x.name = y.name → x = y) {x : Enumeration} :
    x ∈ distinctByName es ↔ x ∈ es := by
  constructor
  · intro hx
    have hfind := find?_key_eq (distinctByName_nodup es) hx
    rw [find?_distinctByName] at hfind
    exact List.mem_of_find?_eq_some hfind
  · intro hx
    cases hfind : es.find? (·.name == x.name) with
    | none => exact absurd (List.find?_eq_none.1 hfind x hx) (by simp)
    | some y =>
        have hname : y.name = x.name := by simpa using List.find?_some hfind
        obtain rfl : y = x := hsame y (List.mem_of_find?_eq_some hfind) x hx hname
        rw [← find?_distinctByName] at hfind
        exact List.mem_of_find?_eq_some hfind

/-- Which enumerations are declared does not depend on the order in which they are found. -/
theorem distinctByName_perm {es es' : List Enumeration}
    (hsame : ∀ x ∈ es, ∀ y ∈ es, x.name = y.name → x = y) (h : ∀ x, x ∈ es ↔ x ∈ es') :
    (distinctByName es).Perm (distinctByName es') := by
  have hsame' : ∀ x ∈ es', ∀ y ∈ es', x.name = y.name → x = y :=
    fun x hx y hy => hsame x ((h x).2 hx) y ((h y).2 hy)
  refine (List.perm_ext_iff_of_nodup ?_ ?_).2 fun x => ?_
  · exact (distinctByName_nodup es).of_map _
  · exact (distinctByName_nodup es').of_map _
  · rw [mem_distinctByName hsame, mem_distinctByName hsame', h x]

/-! ## What a program shows -/

namespace Source

/-- What the elements of a declared entity are. -/
def DeclaredType.base : DeclaredType → Base
  | scalar _ base | array _ _ base | set _ base => base

def Base.enumerations : Base → List Enumeration
  | type t => t.enumerations
  | span _ => []

namespace Program

/-- The terms outside the types of declarations: what entities equal, constraints and the
objective. -/
def bodies (p : Program) : List Term :=
  p.parameters.flatMap (fun d => d.definition.toList) ++
    p.decisions.flatMap (fun d => d.declaration.definition.toList ++ d.equation?.toList) ++
    p.constraints ++ p.goal.terms

/-- The enumerations that a program shows outside the bounds of domains. -/
def mentioned (p : Program) : List Enumeration :=
  p.declarations.flatMap (fun d => d.type.base.enumerations) ++ p.bodies.flatMap Term.enumerations

end Program

end Source

/-! ## What is found in a model -/

/-- The enumerations that are found in a model, in order and with repetitions. -/
def ResolvedModel.reach (m : ResolvedModel) : List Enumeration :=
  allEnumerations ((m.parameters ++ m.decisions).map Prod.snd ++ m.constraints ++
    m.objective.value?.toList)

/-- What is found in a resolved model is what the model finds with its entities. -/
theorem reach_eq {model : Model} {n n' : Nat} {r : ResolvedModel}
    (h : model.resolve.run n = (.ok r, n')) : r.reach = model.reach r.toEntities := by
  obtain ⟨-, -, -, -, -, hconstraints, hobjective⟩ := resolve_eq_ok h
  rw [ResolvedModel.reach, hconstraints, hobjective, Model.reach]

section Reach

variable {v : Vocabulary} {m : ResolvedModel} {p : Program}

theorem ResolvedModel.subset_reach_of_entry {entry : String × Expr}
    (h : entry ∈ m.parameters ++ m.decisions) : entry.2.enumerations ⊆ m.reach := by
  intro x hx
  refine mem_allEnumerations.2 ⟨entry.2, ?_, hx⟩
  exact List.mem_append_left _ (List.mem_append_left _ (List.mem_map_of_mem h))

theorem ResolvedModel.subset_reach_of_statement {e : Expr}
    (h : e ∈ m.constraints ++ m.objective.value?.toList) : e.enumerations ⊆ m.reach := by
  intro x hx
  refine mem_allEnumerations.2 ⟨e, ?_, hx⟩
  rw [List.append_assoc]
  exact List.mem_append_right _ h

theorem Domain.base_enumerations {domain : Domain} {b : Base} (h : domain.base v = .ok b) :
    b.enumerations ⊆ domain.enumerations := by
  cases domain with
  | range start stop =>
      simp only [base, bind_eq_ok, pure_eq_ok] at h
      obtain ⟨_, -, rfl⟩ := h
      exact List.nil_subset _
  | _ =>
      simp only [base, pure_eq_ok] at h
      subst h
      exact List.Subset.refl _

/-- The types of a declaration and the term that it defines are in reach of the entity. -/
theorem declaration_within {e : Expr} {name : String} {d : Declaration}
    (h : e.declaration v name = .ok d) :
    d.type.base.enumerations ⊆ e.enumerations ∧
      ∀ t ∈ d.definition.toList, t.Within e.enumerations := by
  cases e with
  | var id domain | varArray id domain shape | varSet id domain =>
      simp only [Expr.declaration, bind_eq_ok, pure_eq_ok] at h
      obtain ⟨b, hb, rfl⟩ := h
      exact ⟨Domain.base_enumerations hb, by simp⟩
  | boundVar id type value =>
      simp only [Expr.declaration, pure_eq_ok] at h
      subst h
      exact ⟨List.subset_append_left _ _, by simp⟩
  | param id value =>
      simp only [Expr.declaration, pure_eq_ok] at h
      subst h
      refine ⟨fun x hx => ?_, by simp⟩
      cases value <;> exact hx
  | derivedParam id value =>
      simp only [Expr.declaration, bind_eq_ok, pure_eq_ok] at h
      obtain ⟨type, htype, t, ht, rfl⟩ := h
      have hwithin : t.Within value.enumerations := term_within ht
      refine ⟨fun x hx => ?_, List.forall_mem_singleton.2 hwithin⟩
      rw [ElemType.mem_enumerations.1 hx] at htype
      exact value.mem_enumerations_of_elemType htype
  | paramArray id values shape =>
      simp only [Expr.declaration, bind_eq_ok, pure_eq_ok] at h
      obtain ⟨type, htype, rfl⟩ := h
      refine ⟨fun x hx => ?_, by simp⟩
      exact mem_of_literalsType (ElemType.mem_enumerations.1 hx ▸ htype)
  | paramSet id members =>
      simp only [Expr.declaration, bind_eq_ok, pure_eq_ok] at h
      obtain ⟨b, hb, rfl⟩ := h
      refine ⟨fun x hx => ?_, by simp⟩
      cases members with
      | listed values =>
          simp only [SetMembers.base, bind_eq_ok, pure_eq_ok] at hb
          obtain ⟨type, htype, rfl⟩ := hb
          exact mem_of_literalsType (ElemType.mem_enumerations.1 hx ▸ htype)
      | interval a stop =>
          simp only [SetMembers.base, pure_eq_ok] at hb
          subst hb
          cases hx
  | _ => exact absurd h throw_ne_ok

theorem equation_within {e : Expr} {name : String} {d : VariableDeclaration}
    (h : e.variableDeclaration v name = .ok d) :
    ∀ t ∈ d.equation?.toList, t.Within e.enumerations := by
  have hvalue := (variableDeclaration_eq_ok h).2
  unfold VariableDeclaration.equation?
  generalize d.value = w at hvalue ⊢
  cases hvalue' : e.boundValue? with
  | none =>
      rw [hvalue'] at hvalue
      cases hvalue
      simp
  | some value =>
      rw [hvalue'] at hvalue
      cases hvalue with
      | some ht =>
          have hsub : value.enumerations ⊆ e.enumerations := by
            cases e <;> cases hvalue'
            exact List.subset_append_right _ _
          simpa using (compositional_within _).binary _ _ _ (List.nil_subset _)
            ((term_within ht).mono hsub)

theorem within_of_mem_bodies (h : m.program = .ok p) {t : Term} (ht : t ∈ p.bodies) :
    t.Within m.reach := by
  obtain ⟨hparameters, hdecisions, hconstraints, hgoal⟩ := program_eq_ok h
  simp only [Program.bodies, List.mem_append, List.mem_flatMap] at ht
  rcases ht with ((⟨d, hd, ht⟩ | ⟨d, hd, ht⟩) | ht) | ht
  · obtain ⟨entry, hentry, heq⟩ := exists_of_mem_right hparameters hd
    exact ((declaration_within heq).2 t ht).mono
      (m.subset_reach_of_entry (List.mem_append_left _ hentry))
  · obtain ⟨entry, hentry, heq⟩ := exists_of_mem_right hdecisions hd
    refine Term.Within.mono ?_ (m.subset_reach_of_entry (List.mem_append_right _ hentry))
    rcases ht with ht | ht
    · exact (declaration_within (variableDeclaration_eq_ok heq).1).2 t ht
    · exact equation_within heq t ht
  · obtain ⟨e, he, heq⟩ := exists_of_mem_right hconstraints ht
    exact (term_within heq).mono (m.subset_reach_of_statement (List.mem_append_left _ he))
  · obtain ⟨e, he, heq⟩ := exists_of_mem_right (goal_eq_ok hgoal) ht
    exact (term_within heq).mono (m.subset_reach_of_statement (List.mem_append_right _ he))

theorem mentioned_subset_reach (h : m.program = .ok p) : p.mentioned ⊆ m.reach := by
  intro x hx
  rcases List.mem_append.1 hx with hx | hx
  · obtain ⟨d, hd, hx⟩ := List.mem_flatMap.1 hx
    obtain ⟨entry, hentry, heq⟩ := exists_of_mem_right (declarations_eq h) hd
    exact m.subset_reach_of_entry hentry ((declaration_within heq).1 hx)
  · obtain ⟨t, ht, hx⟩ := List.mem_flatMap.1 hx
    exact within_of_mem_bodies h ht hx

theorem program_enumerations (h : m.program = .ok p) : p.enumerations = m.enumerations := by
  simp only [ResolvedModel.program, bind_eq_ok, pure_eq_ok] at h
  obtain ⟨_, -, _, -, _, -, _, -, rfl⟩ := h
  rfl

end Reach

/-! ## Declared names -/

section Declared

variable {model : Model} {n n' : Nat} {c : CompiledModel}

theorem compile_enumerations (h : model.compile.run n = (.ok c, n')) :
    c.program.enumerations = distinctByName c.resolved.reach := by
  obtain ⟨hresolve, hprogram⟩ := compile_eq_ok h
  rw [program_enumerations hprogram]
  exact (resolve_eq_ok hresolve).2.2.1

theorem mem_lines {p : Program} {e : Enumeration} (h : e ∈ p.enumerations) :
    enumerationText e ∈ p.lines := by
  simp only [Program.lines, Program.statements, List.mem_append, List.mem_map]
  exact .inr (.inl (.inl (.inl (.inl ⟨e, h, rfl⟩))))

/-- Of an enumeration in reach, the first one with its name is declared, and nothing else is
declared under this name. -/
theorem declared_of_mem_reach (h : model.compile.run n = (.ok c, n')) {x : Enumeration}
    (hx : x ∈ c.resolved.reach) : ∃ e, c.resolved.reach.find? (·.name == x.name) = some e ∧
      c.program.enumerations.filter (·.name == x.name) = [e] ∧
      enumerationText e ∈ c.program.lines := by
  cases hfind : c.resolved.reach.find? (·.name == x.name) with
  | none => exact absurd (List.find?_eq_none.1 hfind x hx) (by simp)
  | some e =>
      have hname : e.name = x.name := by simpa using List.find?_some hfind
      have hmem : e ∈ c.program.enumerations := by
        rw [compile_enumerations h]
        rw [← find?_distinctByName] at hfind
        exact List.mem_of_find?_eq_some hfind
      refine ⟨e, rfl, ?_, mem_lines hmem⟩
      have hnodup : (c.program.enumerations.map Enumeration.name).Nodup := by
        rw [compile_enumerations h]
        exact distinctByName_nodup _
      rw [← hname]
      exact filter_key_eq hnodup hmem

/-- Every enumeration that a program shows outside the bounds of domains is declared: one line of
the source declares an enumeration with its name. -/
theorem compile_declares_mentioned (h : model.compile.run n = (.ok c, n')) :
    ∀ x ∈ c.program.mentioned, ∃ e, c.program.enumerations.filter (·.name == x.name) = [e] ∧
      enumerationText e ∈ c.program.lines := by
  intro x hx
  obtain ⟨e, -, hfilter, hline⟩ :=
    declared_of_mem_reach h (mentioned_subset_reach (compile_eq_ok h).2 hx)
  exact ⟨e, hfilter, hline⟩

abbrev colors : Enumeration :=
  ⟨"Color", ["Red", "Green"], by decide⟩

def red : EnumValue :=
  ⟨colors, 0⟩

def green : EnumValue :=
  ⟨colors, 1⟩

/-- Variables over an enumeration, values of it in a constraint, and it as a collection. -/
def paintedModel : Model :=
  let x : Expr := .var ⟨0⟩ (.enumeration colors)
  { attributes := [("x", x)]
    constraints := [.binary .ne x (.literal (.enumeration green)),
      .comprehension .every [.over ⟨1⟩ (.enumeration colors) (.enumeration colors)]
        (.binary .eq x (.iterator ⟨1⟩ (.enumeration colors)))]
    objective := .satisfy }

theorem compile_declares_mentioned_paintedModel : ∃ c n', paintedModel.compile.run 2 = (.ok c, n') ∧
    c.program.statements = ["enum Color = {Red, Green};", "var Color: x;",
      "constraint (x != Green);", "constraint forall(i in Color)((x == i));", "solve satisfy;"] ∧
    ∀ x ∈ c.program.mentioned, ∃ e, c.program.enumerations.filter (·.name == x.name) = [e] ∧
      enumerationText e ∈ c.program.lines :=
  ⟨_, _, rfl, by decide, compile_declares_mentioned (rfl : paintedModel.compile.run 2 = (.ok _, _))⟩

/-- A variable below the number of values of an enumeration. -/
def countedModel : Model :=
  let count : Expr := .comprehension .sum [.over ⟨0⟩ (.enumeration colors) (.enumeration colors)]
    (.literal (.int 1))
  { attributes := [("x", .var ⟨1⟩ (.range (.literal (.int 0)) count))]
    constraints := []
    objective := .satisfy }

/-- A bound of a domain shows an enumeration that is not declared. -/
theorem countedModel_undeclared : ∃ c n', countedModel.compile.run 2 = (.ok c, n') ∧
    c.program.lines = ["var 0..(sum(i in Color)(1) - 1): x;", "solve satisfy;"] ∧
    (∃ t ∈ c.program.terms, ∃ x ∈ t.enumerations, x.name = "Color" ∧
      ∀ e ∈ c.program.enumerations, e.name ≠ x.name) := by
  refine ⟨_, _, rfl, by decide, _, List.mem_singleton_self _, colors, ?_, rfl, ?_⟩
  · decide
  · decide

end Declared

end ConstraintModel
