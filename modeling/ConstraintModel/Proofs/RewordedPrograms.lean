import ConstraintModel.Proofs.Identifiers
import ConstraintModel.Proofs.Rewording

/-!
# Reworded programs

A program is made of terms, so a map of terms maps programs. If the terms of one vocabulary are
those of another up to a map that goes into parts, then so are declarations and objectives. What is
left to compare are the words that two programs have at their top level, since the words of
iterators depend on nothing else.
-/

namespace ConstraintModel

open Source

/-! ## Maps of programs -/

namespace Source

def Base.map (φ : Term → Term) : Base → Base
  | type t => type t
  | span t => span (φ t)

def DeclaredType.map (φ : Term → Term) : DeclaredType → DeclaredType
  | scalar search base => scalar search (base.map φ)
  | array shape search base => array shape search (base.map φ)
  | set search base => set search (base.map φ)

def Declaration.map (φ : Term → Term) (d : Declaration) : Declaration :=
  ⟨d.type.map φ, d.symbol, d.definition.map φ⟩

def VariableDeclaration.map (φ : Term → Term) (d : VariableDeclaration) : VariableDeclaration :=
  ⟨d.declaration.map φ, d.value.map φ⟩

def Goal.map (φ : Term → Term) : Goal → Goal
  | satisfy => satisfy
  | minimize t => minimize (φ t)
  | maximize t => maximize (φ t)

theorem Base.map_id (b : Base) : b.map id = b := by
  cases b <;> rfl

theorem Declaration.map_id (d : Declaration) : d.map id = d := by
  have htype : d.type.map id = d.type := by
    cases d.type <;> simp [DeclaredType.map, Base.map_id]
  rw [map, htype, Option.map_id_apply]

theorem VariableDeclaration.map_id (d : VariableDeclaration) : d.map id = d := by
  rw [map, Declaration.map_id, Option.map_id_apply]

theorem Goal.map_id (g : Goal) : g.map id = g := by
  cases g <;> rfl

section Features

variable {φ : Term → Term} (hφ : ∀ t, (φ t).features = t.features)

include hφ

theorem Declaration.features_map (d : Declaration) : (d.map φ).features = d.features := by
  have htype : (d.type.map φ).features = d.type.features := by
    cases d.type <;> rename_i base <;> cases base <;>
      simp [DeclaredType.map, Base.map, DeclaredType.features, Base.features, hφ]
  rw [features, map, htype, features]
  cases d.definition <;> simp [hφ]

theorem VariableDeclaration.features_map {d : VariableDeclaration} :
    (d.map φ).features = d.features := by
  rw [features, features, map, Declaration.features_map hφ]
  cases h : d.value <;> simp [equation?, h, Term.features, hφ]

theorem Goal.features_map (g : Goal) : (g.map φ).features = g.features := by
  cases g <;> simp [map, features, hφ]

end Features

end Source

/-! ## Declarations in another vocabulary -/

section Vocabularies

variable {v v' : Vocabulary} {φ : Term → Term}

/-- What has a term in the first vocabulary has it in the second, up to a map of terms. -/
structure Source.Respelled (v v' : Vocabulary) (φ : Term → Term) : Prop where
  structural : Structural id φ
  term : ∀ (e : Expr) (t : Term), e.term v [] = .ok t → e.term v' [] = .ok (φ t)

namespace Source.Respelled

theorem reworded (hv : v.Extends v') : Respelled v v' (Term.reword (v.respelling v')) :=
  ⟨structural_reword _, fun _ _ h => term_reworded hv h⟩

/-- Vocabularies with the same symbols that have the same words at the top level have the same
terms. -/
theorem same (hsymbols : v.symbols = v'.symbols) (hwords : ∀ w, w ∈ v.topWords ↔ w ∈ v'.topWords) :
    Respelled v v' id := by
  have hextends : v.Extends v' := fun id s hs => hsymbols ▸ hs
  have hid : v.respelling v' = id :=
    Vocabulary.respelling_eq_id (Vocabulary.iteratorAt_congr hwords)
  have hreword : Term.reword id = id := funext Term.reword_id
  have h := reworded hextends
  rwa [hid, hreword] at h

variable (h : Respelled v v' φ)

include h

theorem base {domain : Domain} {b : Base} (hb : domain.base v = .ok b) :
    domain.base v' = .ok (b.map φ) := by
  cases domain with
  | range start stop =>
      simp only [Domain.base, bind_eq_ok, pure_eq_ok] at hb
      obtain ⟨t, ht, rfl⟩ := hb
      have hterm := h.term (.range start stop) t (range_term.trans ht)
      rw [Domain.base, ← range_term, hterm]
      rfl
  | _ =>
      simp only [Domain.base, pure_eq_ok] at hb
      subst hb
      rfl

theorem setBase {members : SetMembers} {b : Base} (hb : members.base = .ok b) : b.map φ = b := by
  cases members with
  | listed values =>
      simp only [SetMembers.base, bind_eq_ok, pure_eq_ok] at hb
      obtain ⟨type, -, rfl⟩ := hb
      rfl
  | interval a stop =>
      simp only [SetMembers.base, pure_eq_ok] at hb
      subst hb
      rw [Base.map, h.structural.span, h.structural.int, h.structural.int]

theorem declaration {e : Expr} {name : String} {d : Declaration}
    (hd : e.declaration v name = .ok d) : e.declaration v' name = .ok (d.map φ) := by
  cases e with
  | var id domain | varArray id domain shape | varSet id domain =>
      simp only [Expr.declaration, bind_eq_ok, pure_eq_ok] at hd
      obtain ⟨b, hb, rfl⟩ := hd
      rw [Expr.declaration, h.base hb]
      rfl
  | boundVar id type value | param id value =>
      simp only [Expr.declaration, pure_eq_ok] at hd
      subst hd
      rfl
  | derivedParam id value =>
      simp only [Expr.declaration, bind_eq_ok, pure_eq_ok] at hd
      obtain ⟨type, htype, t, ht, rfl⟩ := hd
      rw [Expr.declaration, htype, h.term _ _ ht]
      rfl
  | paramArray id values shape =>
      simp only [Expr.declaration, bind_eq_ok, pure_eq_ok] at hd
      obtain ⟨type, htype, rfl⟩ := hd
      rw [Expr.declaration, htype]
      rfl
  | paramSet id members =>
      simp only [Expr.declaration, bind_eq_ok, pure_eq_ok] at hd
      obtain ⟨b, hb, rfl⟩ := hd
      rw [Expr.declaration, hb, Declaration.map, DeclaredType.map, h.setBase hb]
      rfl
  | _ => exact absurd hd throw_ne_ok

theorem variableDeclaration {e : Expr} {name : String} {d : VariableDeclaration}
    (hd : e.variableDeclaration v name = .ok d) :
    e.variableDeclaration v' name = .ok (d.map φ) := by
  simp only [Expr.variableDeclaration, bind_eq_ok] at hd
  obtain ⟨declaration, hdeclaration, hd⟩ := hd
  rw [Expr.variableDeclaration, h.declaration hdeclaration]
  cases e with
  | boundVar id type value =>
      simp only [bind_eq_ok, pure_eq_ok] at hd
      obtain ⟨t, ht, rfl⟩ := hd
      simp only [bind_eq_ok, pure_eq_ok]
      exact ⟨_, rfl, _, h.term _ _ ht, rfl⟩
  | _ =>
      simp only [pure_eq_ok] at hd
      subst hd
      rfl

theorem goal {o : Objective} {g : Goal} (hg : o.goal v = .ok g) : o.goal v' = .ok (g.map φ) := by
  cases o with
  | satisfy =>
      simp only [Objective.goal, pure_eq_ok] at hg
      subst hg
      rfl
  | minimize e | maximize e =>
      simp only [Objective.goal, bind_eq_ok, pure_eq_ok] at hg
      obtain ⟨t, ht, rfl⟩ := hg
      rw [Objective.goal, h.term _ _ ht]
      rfl

theorem declarations {entries : List (String × Expr)} {ds : List Declaration}
    (hds : List.Forall₂ (fun entry d => Expr.declaration v entry.1 entry.2 = .ok d) entries ds) :
    List.Forall₂ (fun entry d => Expr.declaration v' entry.1 entry.2 = .ok d) entries
      (ds.map (Declaration.map φ)) :=
  List.forall₂_map_right_iff.2 (hds.imp fun _ _ => h.declaration)

theorem variableDeclarations {entries : List (String × Expr)} {ds : List VariableDeclaration}
    (hds : List.Forall₂ (fun entry d => Expr.variableDeclaration v entry.1 entry.2 = .ok d)
      entries ds) :
    List.Forall₂ (fun entry d => Expr.variableDeclaration v' entry.1 entry.2 = .ok d) entries
      (ds.map (VariableDeclaration.map φ)) :=
  List.forall₂_map_right_iff.2 (hds.imp fun _ _ => h.variableDeclaration)

theorem terms {es : List Expr} {ts : List Term}
    (hts : List.Forall₂ (fun e t => e.term v [] = .ok t) es ts) :
    List.Forall₂ (fun e t => e.term v' [] = .ok t) es (ts.map φ) :=
  List.forall₂_map_right_iff.2 (hts.imp h.term)

end Source.Respelled

end Vocabularies

/-! ## Words at the top level -/

section TopWords

variable {model : Model} {n n' : Nat} {c : CompiledModel}

/-- The words that no iterator of a compiled model may have are those that its program declares. -/
theorem mem_topWords (h : model.compile.run n = (.ok c, n')) {w : String} :
    w ∈ (Vocabulary.ofModel c.resolved).topWords ↔ w ∈ c.program.identifiers := by
  obtain ⟨hresolve, hprogram⟩ := compile_eq_ok h
  obtain ⟨-, hperm, -⟩ := resolve_words hresolve
  have hwords : c.program.entityWords.Perm (Symbol.words c.resolved.symbols) := by
    rw [Program.entityWords, symbols_declarations (declarations_eq hprogram)]
    exact hperm.map _
  rw [Program.identifiers, program_enumerations hprogram]
  exact (hwords.append_right _).mem_iff.symm

end TopWords

end ConstraintModel
