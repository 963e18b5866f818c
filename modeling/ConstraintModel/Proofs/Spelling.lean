import ConstraintModel.Proofs.Partial
import ConstraintModel.Source.OfExpr

/-!
# Spelling of expressions

What it takes for an expression to have a term, one rule for each kind of node. `Expr.term_induction`
turns these rules into an induction principle: whatever holds of every node once it holds of the
expressions that are spelled inside it holds of every expression that has a term.
-/

namespace ConstraintModel

open Source

/-! ## Rules -/

namespace Source

/-- The cut of a position, given how expressions are spelled. -/
inductive CutSpelled (R : Expr → Term → Prop) : Position → Cut → Prop
  | index {i t} : R i t → CutSpelled R (.index i) (.index t)
  | slice {start stop first last} : R start first → R stop last →
      CutSpelled R (.slice start stop) (Cut.ofSlice start stop first last)

/-- The heads of generators and the scope inside them, given how domains are spelled in a scope. -/
inductive HeadsSpelled (v : Vocabulary) (R : Scope → Expr → Term → Prop) :
    Scope → List Generator → List (Symbol × Term) → Scope → Prop
  | nil {scope} : HeadsSpelled v R scope [] [] scope
  | cons {scope id type domain t gs hs inner} : R scope domain t →
      HeadsSpelled v R (⟨id, v.nextIterator scope⟩ :: scope) gs hs inner →
      HeadsSpelled v R scope (.over id type domain :: gs)
        ((⟨id, v.nextIterator scope⟩, t) :: hs) inner

/-- An argument that is passed on, flattened if that is asked for. -/
def ArgSpelled (flatten : Bool) (R : Expr → Term → Prop) (e : Expr) (u : Term) : Prop :=
  ∃ t, R e t ∧ u = argTerm flatten e t

/-- A view that is cut by indices only is an element. -/
theorem viewTerm_indices (s : Symbol) (rank : Nat) (ts : List Term) :
    viewTerm s rank (ts.map .index) = .element s ts := by
  have hkept : (ts.map Cut.index).filterMap Cut.keptIndexSet? = [] := by
    simp [List.filterMap_map, Function.comp_def, Cut.keptIndexSet?]
  have hindices : (ts.map Cut.index).filterMap Cut.index? = ts := by
    simp [List.filterMap_map, Function.comp_def, Cut.index?]
  rw [viewTerm, hkept, hindices]
  rfl

/-- The span of a range between bounds with the given terms. -/
def spanOf (type : ElemType) (stop : Expr) (first last : Term) : Term :=
  if type = .float then .span true first last else .span false first (lastBelow stop last)

/-- A relation of expressions and terms holds at every node that is spelled, once it holds inside the
node. -/
structure SpellingRules (v : Vocabulary) (R : Scope → Expr → Term → Prop) : Prop where
  literal : ∀ scope l, l.requireFinite = .ok () → R scope (.literal l) (.literal l)
  setLiteral : ∀ scope ls, (∀ l ∈ ls, l.requireFinite = .ok ()) →
    R scope (.setLiteral ls) (.set ls)
  entity : ∀ scope e id s, e.id? = some id → Symbol.lookup id v.symbols = some s →
    R scope e (.entity s)
  view : ∀ scope array shape positions s cuts, v.symbolOf array = .ok s →
    array.shape? = some shape → List.Forall₂ (CutSpelled (R scope)) positions cuts →
    R scope (.view array positions) (viewTerm s shape.rank cuts)
  range : ∀ scope start stop type first last, requireRange start stop = .ok () →
    (Expr.range start stop).elemType = .ok type → R scope start first → R scope stop last →
    R scope (.range start stop) (spanOf type stop first last)
  sequence : ∀ scope items ts, List.Forall₂ (R scope) items ts →
    R scope (.sequence items) (.list ts)
  enumeration : ∀ scope e, R scope (.enumeration e) (.enumeration e)
  iterator : ∀ scope id type s, Symbol.lookup id scope = some s →
    R scope (.iterator id type) (.iterator s)
  unary : ∀ scope op e t, R scope e t → R scope (.unary op e) (.unary op t)
  binary : ∀ scope op e₁ e₂ t₁ t₂, ¬ (op.isIntegerDivision && e₂.isZero) → R scope e₁ t₁ →
    R scope e₂ t₂ → R scope (.binary op e₁ e₂) (.binary op t₁ t₂)
  power : ∀ scope e₁ e₂ t₁ t₂, R scope e₁ t₁ → R scope e₂ t₂ →
    R scope (.power e₁ e₂) (.call .power [t₁, t₂])
  size : ∀ scope array shape dim s, v.symbolOf array = .ok s → array.shape? = some shape →
    R scope (.size array dim) (sizeTerm s shape.rank dim)
  aggregate : ∀ scope op args ts,
    List.Forall₂ (ArgSpelled (op == .count) (R scope)) args ts →
    R scope (.aggregate op args) (.call (.aggregate op) ts)
  comprehension : ∀ scope op gs body hs inner t, HeadsSpelled v R scope gs hs inner →
    R inner body t → R scope (.comprehension op gs body) (.comprehension op hs t)
  global : ∀ scope kind args ts,
    List.Forall₂ (ArgSpelled kind.flattens (R scope)) args ts →
    R scope (.global kind args) (.call (.global kind) ts)

theorem literalInt?_eq_some {e : Expr} {w : Int} :
    e.literalInt? = some w ↔ e = .literal (.int w) := by
  unfold Expr.literalInt?
  split <;> simp_all

theorem symbolOf_eq_ok {v : Vocabulary} {e : Expr} {s : Symbol} :
    v.symbolOf e = .ok s ↔ ∃ id, e.id? = some id ∧ Symbol.lookup id v.symbols = some s := by
  unfold Vocabulary.symbolOf
  cases hid : e.id? with
  | none => simp [throw_ne_ok]
  | some id =>
      cases hs : Symbol.lookup id v.symbols with
      | none => simp [hs, throw_ne_ok]
      | some s' => simp [hs, pure_eq_ok]

/-- The term of an entity is its symbol, whatever the entity holds. -/
theorem term_of_id {e : Expr} {id : NodeId} (h : e.id? = some id) (v : Vocabulary)
    (scope : Scope) : e.term v scope = do return .entity (← v.symbolOf e) := by
  cases e <;> first | rfl | cases h

theorem scope_symbolOf_eq_ok {scope : Scope} {id : NodeId} {s : Symbol} :
    scope.symbolOf id = .ok s ↔ Symbol.lookup id scope = some s := by
  unfold Scope.symbolOf
  cases hs : Symbol.lookup id scope <;> simp [throw_ne_ok, pure_eq_ok]

theorem arrayShape_eq_ok {array : Expr} {shape : Shape} :
    arrayShape array = .ok shape ↔ array.shape? = some shape := by
  unfold arrayShape
  cases hs : array.shape? <;> simp [throw_ne_ok, pure_eq_ok]

theorem rangeSpan_eq_ok {start stop : Expr} {first last : Except ModelError Term} {t : Term} :
    rangeSpan start stop first last = .ok t ↔ ∃ type a b,
      requireRange start stop = .ok () ∧ (Expr.range start stop).elemType = .ok type ∧
        first = .ok a ∧ last = .ok b ∧ t = spanOf type stop a b := by
  simp only [rangeSpan, bind_eq_ok, spanOf]
  constructor
  · rintro ⟨⟨⟩, hrange, type, htype, h⟩
    by_cases hf : type = .float
    · simp only [hf, if_true, bind_eq_ok, pure_eq_ok] at h
      obtain ⟨a, ha, b, hb, rfl⟩ := h
      exact ⟨type, a, b, hrange, htype, ha, hb, by simp [hf]⟩
    · simp only [hf, if_false, bind_eq_ok, pure_eq_ok] at h
      obtain ⟨b, hb, a, ha, rfl⟩ := h
      exact ⟨type, a, b, hrange, htype, ha, hb, by simp [hf]⟩
  · rintro ⟨type, a, b, hrange, htype, ha, hb, rfl⟩
    refine ⟨(), hrange, type, htype, ?_⟩
    by_cases hf : type = .float <;> simp [hf, ha, hb, bind_eq_ok]

section Induction

variable {v : Vocabulary} {R : Scope → Expr → Term → Prop}

mutual

private theorem term_rel (rules : SpellingRules v R) :
    ∀ (e : Expr) (scope : Scope) (t : Term), e.term v scope = .ok t → R scope e t
  | .literal l, scope, t, h => by
      simp only [Expr.term, bind_eq_ok, pure_eq_ok] at h
      obtain ⟨⟨⟩, hl, rfl⟩ := h
      exact rules.literal scope l hl
  | .setLiteral ls, scope, t, h => by
      simp only [Expr.term, bind_eq_ok, pure_eq_ok] at h
      obtain ⟨⟨⟩, hls, rfl⟩ := h
      exact rules.setLiteral scope ls (forM_eq_ok.1 hls)
  | .view array positions, scope, t, h => by
      simp only [Expr.term, bind_eq_ok, pure_eq_ok, arrayShape_eq_ok] at h
      obtain ⟨s, hs, shape, hshape, cs, hcuts, rfl⟩ := h
      exact rules.view scope array shape positions s cs hs hshape (cuts_rel rules _ _ _ hcuts)
  | .range start stop, scope, t, h => by
      simp only [Expr.term, rangeSpan_eq_ok] at h
      obtain ⟨type, a, b, hrange, htype, ha, hb, rfl⟩ := h
      exact rules.range scope start stop type a b hrange htype (term_rel rules _ _ _ ha)
        (term_rel rules _ _ _ hb)
  | .sequence items, scope, t, h => by
      simp only [Expr.term, bind_eq_ok, pure_eq_ok] at h
      obtain ⟨ts, hts, rfl⟩ := h
      exact rules.sequence scope items ts (terms_rel rules _ _ _ hts)
  | .enumeration e, scope, t, h => by
      simp only [Expr.term, pure_eq_ok] at h
      exact h ▸ rules.enumeration scope e
  | .iterator id type, scope, t, h => by
      simp only [Expr.term, bind_eq_ok, pure_eq_ok, scope_symbolOf_eq_ok] at h
      obtain ⟨s, hs, rfl⟩ := h
      exact rules.iterator scope id type s hs
  | .unary op e, scope, t, h => by
      simp only [Expr.term, bind_eq_ok, pure_eq_ok] at h
      obtain ⟨t, ht, rfl⟩ := h
      exact rules.unary scope op e t (term_rel rules _ _ _ ht)
  | .binary op e₁ e₂, scope, t, h => by
      rw [Expr.term] at h
      by_cases hz : (op.isIntegerDivision && e₂.isZero) = true
      · rw [if_pos hz] at h
        exact absurd h throw_ne_ok
      · rw [if_neg hz] at h
        simp only [bind_eq_ok, pure_eq_ok] at h
        obtain ⟨t₁, h₁, t₂, h₂, rfl⟩ := h
        exact rules.binary scope op e₁ e₂ t₁ t₂ hz (term_rel rules _ _ _ h₁)
          (term_rel rules _ _ _ h₂)
  | .power e₁ e₂, scope, t, h => by
      simp only [Expr.term, bind_eq_ok, pure_eq_ok] at h
      obtain ⟨t₁, h₁, t₂, h₂, rfl⟩ := h
      exact rules.power scope e₁ e₂ t₁ t₂ (term_rel rules _ _ _ h₁) (term_rel rules _ _ _ h₂)
  | .size array dim, scope, t, h => by
      simp only [Expr.term, bind_eq_ok, pure_eq_ok, arrayShape_eq_ok] at h
      obtain ⟨s, hs, shape, hshape, rfl⟩ := h
      exact rules.size scope array shape dim s hs hshape
  | .aggregate op args, scope, t, h => by
      simp only [Expr.term, bind_eq_ok, pure_eq_ok] at h
      obtain ⟨ts, hts, rfl⟩ := h
      exact rules.aggregate scope op args ts (argTerms_rel rules _ _ _ _ hts)
  | .comprehension op gs body, scope, t, h => by
      simp only [Expr.term, bind_eq_ok, pure_eq_ok] at h
      obtain ⟨⟨hs, inner⟩, hhs, t, ht, rfl⟩ := h
      exact rules.comprehension scope op gs body hs inner t (heads_rel rules _ _ _ _ hhs)
        (term_rel rules _ _ _ ht)
  | .global kind args, scope, t, h => by
      simp only [Expr.term, bind_eq_ok, pure_eq_ok] at h
      obtain ⟨ts, hts, rfl⟩ := h
      exact rules.global scope kind args ts (argTerms_rel rules _ _ _ _ hts)
  | .var id _, scope, t, h | .boundVar id _ _, scope, t, h | .param id _, scope, t, h
  | .derivedParam id _, scope, t, h | .varArray id _ _, scope, t, h
  | .paramArray id _ _, scope, t, h | .varSet id _, scope, t, h | .paramSet id _, scope, t, h => by
      simp only [Expr.term, bind_eq_ok, pure_eq_ok, symbolOf_eq_ok] at h
      obtain ⟨s, ⟨id, hid, hs⟩, rfl⟩ := h
      exact rules.entity scope _ id s hid hs

private theorem terms_rel (rules : SpellingRules v R) :
    ∀ (es : List Expr) (scope : Scope) (ts : List Term), terms v scope es = .ok ts →
      List.Forall₂ (R scope) es ts
  | [], scope, ts, h => by
      simp only [terms, pure_eq_ok] at h
      exact h ▸ .nil
  | e :: es, scope, ts, h => by
      simp only [terms, bind_eq_ok, pure_eq_ok] at h
      obtain ⟨t, ht, ts, hts, rfl⟩ := h
      exact .cons (term_rel rules _ _ _ ht) (terms_rel rules _ _ _ hts)

private theorem argTerms_rel (rules : SpellingRules v R) :
    ∀ (es : List Expr) (scope : Scope) (flatten : Bool) (ts : List Term),
      argTerms v scope flatten es = .ok ts →
      List.Forall₂ (ArgSpelled flatten (R scope)) es ts
  | [], scope, flatten, ts, h => by
      simp only [argTerms, pure_eq_ok] at h
      exact h ▸ .nil
  | e :: es, scope, flatten, ts, h => by
      simp only [argTerms, bind_eq_ok, pure_eq_ok] at h
      obtain ⟨t, ht, ts, hts, rfl⟩ := h
      exact .cons ⟨t, term_rel rules _ _ _ ht, rfl⟩ (argTerms_rel rules _ _ _ _ hts)

private theorem cuts_rel (rules : SpellingRules v R) :
    ∀ (ps : List Position) (scope : Scope) (cs : List Cut), cuts v scope ps = .ok cs →
      List.Forall₂ (CutSpelled (R scope)) ps cs
  | [], scope, cs, h => by
      simp only [cuts, pure_eq_ok] at h
      exact h ▸ .nil
  | .index i :: ps, scope, cs, h => by
      simp only [cuts, bind_eq_ok, pure_eq_ok] at h
      obtain ⟨t, ht, cs, hcs, rfl⟩ := h
      exact .cons (.index (term_rel rules _ _ _ ht)) (cuts_rel rules _ _ _ hcs)
  | .slice start stop :: ps, scope, cs, h => by
      simp only [cuts, bind_eq_ok, pure_eq_ok] at h
      obtain ⟨last, hlast, first, hfirst, cs, hcs, rfl⟩ := h
      exact .cons (.slice (term_rel rules _ _ _ hfirst) (term_rel rules _ _ _ hlast))
        (cuts_rel rules _ _ _ hcs)

private theorem heads_rel (rules : SpellingRules v R) :
    ∀ (gs : List Generator) (scope : Scope) (hs : List (Symbol × Term)) (inner : Scope),
      heads v scope gs = .ok (hs, inner) → HeadsSpelled v R scope gs hs inner
  | [], scope, hs, inner, h => by
      simp only [heads, pure_eq_ok, Prod.mk.injEq] at h
      obtain ⟨rfl, rfl⟩ := h
      exact .nil
  | .over id type domain :: gs, scope, hs, inner, h => by
      simp only [heads, bind_eq_ok, pure_eq_ok, Prod.mk.injEq] at h
      obtain ⟨t, ht, ⟨hs, inner⟩, hrest, rfl, rfl⟩ := h
      exact .cons (term_rel rules _ _ _ ht) (heads_rel rules _ _ _ _ hrest)

end

theorem Expr.term_induction (rules : SpellingRules v R) {scope : Scope} {e : Expr} {t : Term}
    (h : e.term v scope = .ok t) : R scope e t :=
  term_rel rules e scope t h

end Induction

end Source

/-! ## Spelled lists -/

section Lists

variable {v : Vocabulary} {scope : Scope}

theorem terms_spelled {es : List Expr} {ts : List Term} (h : terms v scope es = .ok ts) :
    List.Forall₂ (fun e t => e.term v scope = .ok t) es ts := by
  induction es generalizing ts with
  | nil =>
      simp only [terms, pure_eq_ok] at h
      exact h ▸ .nil
  | cons e es ih =>
      simp only [terms, bind_eq_ok, pure_eq_ok] at h
      obtain ⟨t, ht, ts, hts, rfl⟩ := h
      exact .cons ht (ih hts)

theorem argTerms_spelled {flatten : Bool} {es : List Expr} {us : List Term}
    (h : argTerms v scope flatten es = .ok us) :
    List.Forall₂ (ArgSpelled flatten fun e t => e.term v scope = .ok t) es us := by
  induction es generalizing us with
  | nil =>
      simp only [argTerms, pure_eq_ok] at h
      exact h ▸ .nil
  | cons e es ih =>
      simp only [argTerms, bind_eq_ok, pure_eq_ok] at h
      obtain ⟨t, ht, us, hus, rfl⟩ := h
      exact .cons ⟨t, ht, rfl⟩ (ih hus)

theorem cuts_spelled {ps : List Position} {cs : List Cut} (h : cuts v scope ps = .ok cs) :
    List.Forall₂ (CutSpelled fun e t => e.term v scope = .ok t) ps cs := by
  induction ps generalizing cs with
  | nil =>
      simp only [cuts, pure_eq_ok] at h
      exact h ▸ .nil
  | cons p ps ih =>
      cases p with
      | index i =>
          simp only [cuts, bind_eq_ok, pure_eq_ok] at h
          obtain ⟨t, ht, cs, hcs, rfl⟩ := h
          exact .cons (.index ht) (ih hcs)
      | slice start stop =>
          simp only [cuts, bind_eq_ok, pure_eq_ok] at h
          obtain ⟨last, hlast, first, hfirst, cs, hcs, rfl⟩ := h
          exact .cons (.slice hfirst hlast) (ih hcs)

theorem heads_spelled {gs : List Generator} {hs : List (Symbol × Term)} {inner : Scope}
    (h : heads v scope gs = .ok (hs, inner)) :
    HeadsSpelled v (fun scope e t => e.term v scope = .ok t) scope gs hs inner := by
  induction gs generalizing scope hs with
  | nil =>
      simp only [heads, pure_eq_ok, Prod.mk.injEq] at h
      obtain ⟨rfl, rfl⟩ := h
      exact .nil
  | cons g gs ih =>
      obtain ⟨id, type, domain⟩ := g
      simp only [heads, bind_eq_ok, pure_eq_ok, Prod.mk.injEq] at h
      obtain ⟨t, ht, ⟨hs, inner⟩, hrest, rfl, rfl⟩ := h
      exact .cons ht (ih hrest)

end Lists

end ConstraintModel
