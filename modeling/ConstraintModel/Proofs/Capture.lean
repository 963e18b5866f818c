import ConstraintModel.Proofs.Composition
import ConstraintModel.Proofs.ProgramTerms
import ConstraintModel.Proofs.Scope

/-!
# Capture

No iterator is captured and none escapes. In a scoped term the word of every iterator is read as
that iterator, by the heads around it, and no head has a word that is in use where it stands. The
terms of a program are scoped, and the expressions that they spell mention iterators under their
generators only.
-/

namespace ConstraintModel

open Source

/-! ## Scoped terms -/

namespace Source

mutual

/-- Whether the innermost iterator in scope with the word of an iterator is that iterator, wherever
one is mentioned, and every head has a word of its own. -/
def Term.Scoped (v : Vocabulary) : Term → Scope → Prop
  | .literal _, _ | .entity _, _ | .enumeration _, _ | .set _, _ => True
  | .iterator s, scope => ∃ g, scope.find? (·.word == s.word) = some g ∧ g.id = s.id
  | .list ts, scope | .element _ ts, scope | .call _ ts, scope => allScoped v ts scope
  | .unary _ t, scope => t.Scoped v scope
  | .span _ a b, scope | .binary _ a b, scope => a.Scoped v scope ∧ b.Scoped v scope
  | .comprehension _ heads body, scope =>
    headsScoped v heads scope ∧ body.Scoped v ((heads.map Prod.fst).reverse ++ scope)

def allScoped (v : Vocabulary) : List Term → Scope → Prop
  | [], _ => True
  | t :: ts, scope => t.Scoped v scope ∧ allScoped v ts scope

/-- Whether the domains of iterators are scoped behind the iterators before them, and each iterator
has a word that no entity, no enumeration and no iterator around it has. -/
def headsScoped (v : Vocabulary) : List (Symbol × Term) → Scope → Prop
  | [], _ => True
  | (s, domain) :: heads, scope =>
    domain.Scoped v scope ∧ s.word ∉ v.used scope ∧ headsScoped v heads (s :: scope)

end

end Source

/-! ## Closed expressions -/

/-- The iterators that generators bind, innermost first. -/
def generatorIds : List Generator → List NodeId
  | [] => []
  | .over id _ _ :: gs => generatorIds gs ++ [id]

mutual

/-- Whether every iterator that an expression mentions is bound around it. A leaf is not looked
into. -/
def Expr.Closed : Expr → List NodeId → Prop
  | .var .., _ | .boundVar .., _ | .param .., _ | .derivedParam .., _ | .varArray .., _
  | .paramArray .., _ | .varSet .., _ | .paramSet .., _ | .literal _, _ | .setLiteral _, _
  | .enumeration _, _ | .size .., _ => True
  | .iterator id _, bound => id ∈ bound
  | .view _ positions, bound => positionsClosed positions bound
  | .sequence es, bound | .aggregate _ es, bound | .global _ es, bound => allClosed es bound
  | .unary _ e, bound => e.Closed bound
  | .range a b, bound | .binary _ a b, bound | .power a b, bound => a.Closed bound ∧ b.Closed bound
  | .comprehension _ generators body, bound =>
    generatorsClosed generators bound ∧ body.Closed (generatorIds generators ++ bound)

def allClosed : List Expr → List NodeId → Prop
  | [], _ => True
  | e :: es, bound => e.Closed bound ∧ allClosed es bound

def positionsClosed : List Position → List NodeId → Prop
  | [], _ => True
  | .index i :: ps, bound => i.Closed bound ∧ positionsClosed ps bound
  | .slice a b :: ps, bound => (a.Closed bound ∧ b.Closed bound) ∧ positionsClosed ps bound

/-- Whether the domains of generators are closed behind the generators before them. -/
def generatorsClosed : List Generator → List NodeId → Prop
  | [], _ => True
  | .over id _ domain :: gs, bound => domain.Closed bound ∧ generatorsClosed gs (id :: bound)

end

/-! ## Spelling -/

variable {v : Vocabulary}

@[simp] theorem allScoped_iff {ts : List Term} {scope : Scope} :
    allScoped v ts scope ↔ ∀ t ∈ ts, t.Scoped v scope := by
  induction ts with
  | nil => simp [allScoped]
  | cons t ts ih => simp [allScoped, ih]

@[simp] theorem allClosed_iff {es : List Expr} {bound : List NodeId} :
    allClosed es bound ↔ ∀ e ∈ es, e.Closed bound := by
  induction es with
  | nil => simp [allClosed]
  | cons e es ih => simp [allClosed, ih]

/-- In a free scope a term is scoped, and the expression that it spells is closed. -/
def ScopedAt (v : Vocabulary) (scope : Scope) (e : Expr) (t : Term) : Prop :=
  Scope.Free v scope → t.Scoped v scope ∧ e.Closed (scope.map Symbol.id)

theorem compositional_scoped (v : Vocabulary) (scope : Scope) :
    Compositional (Term.Scoped v · scope) where
  int _ := trivial
  list _ h := allScoped_iff.2 h
  call _ _ h := allScoped_iff.2 h
  element _ _ _ h := allScoped_iff.2 h
  span _ _ _ ha hb := ⟨ha, hb⟩
  binary _ _ _ ha hb := ⟨ha, hb⟩

theorem Source.CutSpelled.scoped {scope : Scope} {p : Position} {c : Cut}
    (h : CutSpelled (ScopedAt v scope) p c) (hfree : Scope.Free v scope) :
    c.All (Term.Scoped v · scope) := by
  cases h with
  | index ht => exact (ht hfree).1
  | slice hfirst hlast =>
      exact (compositional_scoped v scope).ofSlice (hfirst hfree).1 (hlast hfree).1

theorem positions_closed {scope : Scope} {ps : List Position} {cs : List Cut}
    (h : List.Forall₂ (CutSpelled (ScopedAt v scope)) ps cs) (hfree : Scope.Free v scope) :
    positionsClosed ps (scope.map Symbol.id) := by
  induction h with
  | nil => trivial
  | cons hp _ ih =>
      cases hp with
      | index hi => exact ⟨(hi hfree).2, ih⟩
      | slice hstart hstop => exact ⟨⟨(hstart hfree).2, (hstop hfree).2⟩, ih⟩

theorem Source.HeadsSpelled.scoped {scope inner : Scope} {gs : List Generator}
    {hs : List (Symbol × Term)} (h : HeadsSpelled v (ScopedAt v) scope gs hs inner)
    (hfree : Scope.Free v scope) :
    headsScoped v hs scope ∧ generatorsClosed gs (scope.map Symbol.id) ∧
      inner.map Symbol.id = generatorIds gs ++ scope.map Symbol.id := by
  induction h with
  | nil => exact ⟨trivial, trivial, rfl⟩
  | @cons scope id type domain t gs hs inner ht _ ih =>
      obtain ⟨hheads, hgenerators, hids⟩ := ih (hfree.cons id)
      obtain ⟨hscoped, hclosed⟩ := ht hfree
      refine ⟨⟨hscoped, ?_, hheads⟩, ⟨hclosed, hgenerators⟩, ?_⟩
      · exact freeWord_not_mem _ _
      · rw [hids, generatorIds, List.append_assoc]
        rfl

theorem args_scoped {scope : Scope} {flatten : Bool} {es : List Expr} {ts : List Term}
    (h : List.Forall₂ (ArgSpelled flatten (ScopedAt v scope)) es ts) (hfree : Scope.Free v scope) :
    (∀ t ∈ ts, t.Scoped v scope) ∧ ∀ e ∈ es, e.Closed (scope.map Symbol.id) := by
  constructor
  · intro u hu
    obtain ⟨e, -, t, ht, rfl⟩ := exists_of_mem_right h hu
    exact (compositional_scoped v scope).argTerm (ht hfree).1
  · intro e he
    obtain ⟨u, -, t, ht, -⟩ := exists_of_mem_left h he
    exact (ht hfree).2

theorem spellingRules_scopedAt (v : Vocabulary) : SpellingRules v (ScopedAt v) where
  literal _ _ _ _ := ⟨trivial, trivial⟩
  setLiteral _ _ _ _ := ⟨trivial, trivial⟩
  entity _ e _ _ hid _ _ := by
    cases e <;> first | exact ⟨trivial, trivial⟩ | cases hid
  view scope array shape positions s cs _ _ hcuts hfree := by
    refine ⟨(compositional_scoped v scope).viewTerm trivial fun c hc => ?_,
      positions_closed hcuts hfree⟩
    obtain ⟨p, -, hp⟩ := exists_of_mem_right hcuts hc
    exact hp.scoped hfree
  range scope start stop type first last _ _ hfirst hlast hfree := by
    obtain ⟨hfirst, hstart⟩ := hfirst hfree
    obtain ⟨hlast, hstop⟩ := hlast hfree
    exact ⟨(compositional_scoped v scope).spanOf hfirst hlast, hstart, hstop⟩
  sequence scope items ts hts hfree := by
    rw [Term.Scoped, Expr.Closed, allScoped_iff, allClosed_iff]
    constructor
    · intro t ht
      obtain ⟨e, -, h⟩ := exists_of_mem_right hts ht
      exact (h hfree).1
    · intro e he
      obtain ⟨t, -, h⟩ := exists_of_mem_left hts he
      exact (h hfree).2
  enumeration _ _ _ := ⟨trivial, trivial⟩
  iterator scope id type s hs hfree := by
    have hid : s.id = id := by simpa using List.find?_some hs
    refine ⟨⟨s, hfree.find?_word hs, rfl⟩, ?_⟩
    exact List.mem_map.2 ⟨s, List.mem_of_find?_eq_some hs, hid⟩
  unary _ _ _ _ ht hfree := ht hfree
  binary _ _ _ _ _ _ _ h₁ h₂ hfree :=
    ⟨⟨(h₁ hfree).1, (h₂ hfree).1⟩, (h₁ hfree).2, (h₂ hfree).2⟩
  power _ _ _ _ _ h₁ h₂ hfree :=
    ⟨⟨(h₁ hfree).1, (h₂ hfree).1, trivial⟩, (h₁ hfree).2, (h₂ hfree).2⟩
  size scope _ _ _ _ _ _ _ := ⟨(compositional_scoped v scope).sizeTerm trivial, trivial⟩
  aggregate scope op args ts hts hfree := by
    rw [Term.Scoped, Expr.Closed, allScoped_iff, allClosed_iff]
    exact args_scoped hts hfree
  comprehension scope op gs body hs inner t hheads hbody hfree := by
    obtain ⟨hscoped, hclosed, hids⟩ := hheads.scoped hfree
    obtain ⟨ht, hbody⟩ := hbody (hheads.free hfree)
    rw [hheads.inner_eq] at ht
    rw [hids] at hbody
    exact ⟨⟨hscoped, ht⟩, hclosed, hbody⟩
  global scope kind args ts hts hfree := by
    rw [Term.Scoped, Expr.Closed, allScoped_iff, allClosed_iff]
    exact args_scoped hts hfree

/-- In the program of a compiled model every iterator is read as the one that it was, under a head
of its own word, and no iterator is spelled outside its generator. -/
theorem compile_scoped {model : Model} {n n' : Nat} {c : CompiledModel}
    (h : model.compile.run n = (.ok c, n')) :
    (∀ t ∈ c.program.terms, t.Scoped (.ofModel c.resolved) []) ∧
      ∀ e ∈ c.resolved.spelled, e.Closed [] := by
  obtain ⟨-, hprogram⟩ := compile_eq_ok h
  have hscoped {e : Expr} {t : Term} (ht : e.term (.ofModel c.resolved) [] = .ok t) :
      t.Scoped (.ofModel c.resolved) [] ∧ e.Closed [] :=
    Expr.term_induction (spellingRules_scopedAt _) ht (.nil _)
  constructor
  · intro t ht
    cases shows_of_mem_terms hprogram ht with
    | spelled _ heq => exact (hscoped heq).1
    | interval _ _ => exact ⟨trivial, trivial⟩
    | equation _ heq => exact ⟨trivial, (hscoped heq).1⟩
  · intro e he
    obtain ⟨t, heq, -⟩ := exists_term_of_spelled hprogram he
    exact (hscoped heq).2

/-- A variable with the word of the first iterator, and a sum with a domain that uses the iterator
before it. -/
def nestedModel : Model where
  attributes := [("i", .var ⟨0⟩ .int)]
  constraints := [.binary .lt (.var ⟨0⟩ .int) (.comprehension .sum
    [.over ⟨1⟩ .int (.range (.literal (.int 0)) (.literal (.int 3))),
      .over ⟨2⟩ .int (.range (.iterator ⟨1⟩ .int) (.literal (.int 3)))]
    (.binary .mul (.iterator ⟨1⟩ .int) (.iterator ⟨2⟩ .int)))]
  objective := .minimize (.var ⟨0⟩ .int)

theorem compile_scoped_nestedModel : ∃ c n', nestedModel.compile.run 3 = (.ok c, n') ∧
    c.program.constraints.map Term.text = ["(i < sum(i_ in 0..2, j in i_..2)((i_ * j)))"] ∧
    (∀ t ∈ c.program.terms, t.Scoped (.ofModel c.resolved) []) ∧
    ∀ e ∈ c.resolved.spelled, e.Closed [] :=
  ⟨_, _, rfl, by decide, compile_scoped (rfl : nestedModel.compile.run 3 = (.ok _, _))⟩

end ConstraintModel
