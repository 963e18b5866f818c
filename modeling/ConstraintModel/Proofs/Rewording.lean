import ConstraintModel.Proofs.Composition
import ConstraintModel.Proofs.Scope
import ConstraintModel.Proofs.Shown
import Mathlib.Logic.Function.Basic

/-!
# Rewording of iterators

The word of an iterator depends on the words of the top level and on its depth, and on nothing that
was spelled before. So if a vocabulary is extended, the terms that were spelled with it are spelled
as before up to one renaming of the words of iterators, the same for all of them: `term_reworded`.
-/

namespace ConstraintModel

open Source

namespace Source

/-! ## Words by depth -/

theorem exists_freeWord (word : String) (used : List String) : ∃ k, freeWord word used =
    underscored word k ∧ underscored word k ∉ used ∧ ∀ j < k, underscored word j ∈ used := by
  have hfree := freeWord_not_mem word used
  unfold freeWord at hfree ⊢
  cases hfind : (List.range (used.length + 1)).find? fun n =>
      !used.contains (underscored word n) with
  | none =>
      rw [hfind] at hfree
      exact ⟨0, rfl, hfree, fun j hj => absurd hj (Nat.not_lt_zero j)⟩
  | some k =>
      rw [hfind] at hfree
      refine ⟨k, rfl, hfree, fun j hj => ?_⟩
      have hbefore := (List.find?_range_eq_some.1 hfind).2.2 j hj
      simpa using hbefore

/-- Which word is free depends on the set of words that are used only. -/
theorem freeWord_congr {used used' : List String} (h : ∀ w, w ∈ used ↔ w ∈ used')
    (word : String) : freeWord word used = freeWord word used' := by
  obtain ⟨k, heq, hfree, hbefore⟩ := exists_freeWord word used
  obtain ⟨k', heq', hfree', hbefore'⟩ := exists_freeWord word used'
  -- Both counts are the least one that is free, and the same ones are free.
  have hle : k' ≤ k := Nat.le_of_not_lt fun hlt => hfree ((h _).2 (hbefore' k hlt))
  have hge : k ≤ k' := Nat.le_of_not_lt fun hlt => hfree' ((h _).1 (hbefore k' hlt))
  rw [heq, heq', Nat.le_antisymm hle hge]

namespace Vocabulary

/-- The words of the top level: those of entities, and the names and variants of enumerations. -/
def topWords (v : Vocabulary) : List String :=
  Symbol.words v.symbols ++ v.enumerationWords

/-- The words of the iterators in scope at a depth, innermost first. -/
def iterators (v : Vocabulary) : Nat → List String
  | 0 => []
  | depth + 1 =>
    freeWord (iteratorWord depth) (v.topWords ++ v.iterators depth) :: v.iterators depth

/-- The word of an iterator at a depth. -/
def iteratorAt (v : Vocabulary) (depth : Nat) : String :=
  freeWord (iteratorWord depth) (v.topWords ++ v.iterators depth)

variable (v : Vocabulary)

theorem iterators_succ (depth : Nat) :
    v.iterators (depth + 1) = v.iteratorAt depth :: v.iterators depth :=
  rfl

theorem iteratorAt_not_mem (depth : Nat) :
    v.iteratorAt depth ∉ v.topWords ∧ v.iteratorAt depth ∉ v.iterators depth := by
  have h := freeWord_not_mem (iteratorWord depth) (v.topWords ++ v.iterators depth)
  exact not_or.1 (List.mem_append.not.1 h)

theorem iteratorAt_mem {d depth : Nat} (h : d < depth) : v.iteratorAt d ∈ v.iterators depth := by
  induction depth with
  | zero => omega
  | succ depth ih =>
      rw [iterators_succ, List.mem_cons]
      by_cases hd : d = depth
      · exact .inl (hd ▸ rfl)
      · exact .inr (ih (by omega))

/-- Iterators at different depths have different words. -/
theorem iteratorAt_injective : Function.Injective v.iteratorAt := by
  have hne {d depth : Nat} (hlt : d < depth) : v.iteratorAt d ≠ v.iteratorAt depth := by
    intro heq
    exact (v.iteratorAt_not_mem depth).2 (heq ▸ v.iteratorAt_mem hlt)
  intro d depth heq
  rcases Nat.lt_trichotomy d depth with hlt | rfl | hlt
  · exact absurd heq (hne hlt)
  · rfl
  · exact absurd heq.symm (hne hlt)

theorem iterators_congr {v v' : Vocabulary} (h : ∀ w, w ∈ v.topWords ↔ w ∈ v'.topWords)
    (depth : Nat) : v.iterators depth = v'.iterators depth := by
  induction depth with
  | zero => rfl
  | succ depth ih =>
      have hword : freeWord (iteratorWord depth) (v.topWords ++ v.iterators depth) =
          freeWord (iteratorWord depth) (v'.topWords ++ v'.iterators depth) := by
        refine freeWord_congr (fun w => ?_) _
        rw [List.mem_append, List.mem_append, h w, ih]
      rw [iterators, iterators, hword, ih]

/-- Vocabularies with the same words at the top level have the same words for iterators. -/
theorem iteratorAt_congr {v v' : Vocabulary} (h : ∀ w, w ∈ v.topWords ↔ w ∈ v'.topWords) :
    v.iteratorAt = v'.iteratorAt := by
  funext depth
  have hwords := iterators_congr h (depth + 1)
  rw [iterators_succ, iterators_succ] at hwords
  exact List.head_eq_of_cons_eq hwords

end Vocabulary

/-- Whether the iterators in scope have the words of their depths. -/
def Scope.ByDepth (v : Vocabulary) (scope : Scope) : Prop :=
  Symbol.words scope = v.iterators scope.length

namespace Scope.ByDepth

variable {v : Vocabulary} {scope : Scope}

theorem nil (v : Vocabulary) : Scope.ByDepth v [] :=
  rfl

theorem nextIterator_eq (h : Scope.ByDepth v scope) :
    v.nextIterator scope = v.iteratorAt scope.length := by
  rw [Vocabulary.nextIterator, Vocabulary.used, h]
  rfl

theorem cons (h : Scope.ByDepth v scope) (id : NodeId) :
    Scope.ByDepth v (⟨id, v.nextIterator scope⟩ :: scope) := by
  have hwords : Symbol.words (⟨id, v.nextIterator scope⟩ :: scope) =
      v.nextIterator scope :: Symbol.words scope := rfl
  rw [Scope.ByDepth, hwords, h.nextIterator_eq, h]
  rfl

end Scope.ByDepth

/-! ## Reworded terms -/

end Source

/-- The symbol of the same identity with another word. -/
def Symbol.reword (ρ : String → String) (s : Symbol) : Symbol :=
  ⟨s.id, ρ s.word⟩

theorem Symbol.lookup_reword (ρ : String → String) (id : NodeId) (table : List Symbol) :
    Symbol.lookup id (table.map (Symbol.reword ρ)) =
      (Symbol.lookup id table).map (Symbol.reword ρ) :=
  List.find?_map

namespace Source

namespace Term

mutual

/-- The term with other words for its iterators. The words of the top level stay. -/
def reword (ρ : String → String) : Term → Term
  | literal value => literal value
  | entity s => entity s
  | iterator s => iterator (s.reword ρ)
  | enumeration e => enumeration e
  | set members => set members
  | list items => list (rewordAll ρ items)
  | span float first last => span float (first.reword ρ) (last.reword ρ)
  | unary op operand => unary op (operand.reword ρ)
  | binary op left right => binary op (left.reword ρ) (right.reword ρ)
  | element array indices => element array (rewordAll ρ indices)
  | call function args => call function (rewordAll ρ args)
  | comprehension op heads body => comprehension op (rewordHeads ρ heads) (body.reword ρ)

def rewordAll (ρ : String → String) : List Term → List Term
  | [] => []
  | t :: ts => t.reword ρ :: rewordAll ρ ts

def rewordHeads (ρ : String → String) : List (Symbol × Term) → List (Symbol × Term)
  | [] => []
  | (s, domain) :: heads => (s.reword ρ, domain.reword ρ) :: rewordHeads ρ heads

end

variable {ρ : String → String}

theorem rewordAll_eq (ts : List Term) : rewordAll ρ ts = ts.map (reword ρ) := by
  induction ts with
  | nil => rfl
  | cons t ts ih => rw [rewordAll, List.map_cons, ih]

theorem rewordHeads_eq (heads : List (Symbol × Term)) :
    rewordHeads ρ heads = heads.map (Prod.map (Symbol.reword ρ) (reword ρ)) := by
  induction heads with
  | nil => rfl
  | cons head heads ih =>
      rw [rewordHeads, List.map_cons, ih]
      rfl

/-- The parts of a reworded term are those of the term, reworded. -/
theorem parts_reword (t : Term) : (t.reword ρ).parts = t.parts.map (reword ρ) := by
  cases t <;> simp [reword, parts, rewordAll_eq, rewordHeads_eq, Function.comp_def]

/-- What a term uses does not depend on the words of its iterators. -/
theorem features_reword (t : Term) : (t.reword ρ).features = t.features := by
  induction t using parts_induction with
  | step t ih =>
      have hown : (t.reword ρ).ownFeatures = t.ownFeatures := by cases t <;> rfl
      have hparts : t.parts.flatMap (features ∘ reword ρ) = t.parts.flatMap features :=
        List.flatMap_congr ih
      rw [features_eq, features_eq t, hown, parts_reword, List.flatMap_map]
      exact congrArg _ hparts

theorem reword_id (t : Term) : t.reword id = t := by
  induction t using parts_induction with
  | step t ih =>
      have hall (ts : List Term) (h : ∀ s ∈ ts, s.reword id = s) : rewordAll id ts = ts := by
        rw [rewordAll_eq, List.map_congr_left h, List.map_id']
      cases t with
      | literal _ | entity _ | iterator _ | enumeration _ | set _ => rfl
      | list ts | element _ ts | call _ ts => rw [reword, hall ts ih]
      | unary op a => rw [reword, ih a (List.mem_singleton_self a)]
      | span _ a b | binary _ a b =>
          rw [reword, ih a (by simp [parts]), ih b (by simp [parts])]
      | comprehension op heads body =>
          have hbody : body.reword id = body := ih body (by simp [parts])
          have hheads : rewordHeads id heads = heads := by
            rw [rewordHeads_eq]
            refine (List.map_congr_left fun head hhead => ?_).trans (List.map_id' _)
            have hdomain : head.2.reword id = head.2 :=
              ih head.2 (List.mem_append_left _ (List.mem_map_of_mem hhead))
            rw [Prod.map, hdomain]
            rfl
          rw [reword, hheads, hbody]

end Term

/-- The words of the iterators that a node binds. -/
def Term.headWords : Term → List String
  | .comprehension _ heads _ => heads.map fun head => head.1.word
  | _ => []

theorem structural_reword (ρ : String → String) : Structural id (Term.reword ρ) where
  int _ := rfl
  entity _ := rfl
  list _ := congrArg Term.list (Term.rewordAll_eq _)
  call f _ := congrArg (Term.call f) (Term.rewordAll_eq _)
  element s _ := congrArg (Term.element s) (Term.rewordAll_eq _)
  span _ _ _ := rfl
  binary _ _ _ := rfl

/-- The iterators in scope with other words. -/
def Scope.reword (ρ : String → String) (scope : Scope) : Scope :=
  scope.map (Symbol.reword ρ)

/-! ## Extended vocabularies -/

namespace Vocabulary

/-- Whether the entities of the first vocabulary have the same symbols in the second. -/
def Extends (v v' : Vocabulary) : Prop :=
  ∀ id s, Symbol.lookup id v.symbols = some s → Symbol.lookup id v'.symbols = some s

/-- The words that the second vocabulary has for the iterators of the first, at the same depths. -/
noncomputable def respelling (v v' : Vocabulary) : String → String :=
  Function.extend v.iteratorAt v'.iteratorAt id

variable {v v' : Vocabulary}

theorem respelling_iteratorAt (v v' : Vocabulary) (depth : Nat) :
    v.respelling v' (v.iteratorAt depth) = v'.iteratorAt depth :=
  v.iteratorAt_injective.extend_apply _ _ depth

theorem respelling_eq_id (h : v.iteratorAt = v'.iteratorAt) : v.respelling v' = id := by
  funext w
  rw [respelling, ← h]
  by_cases hw : ∃ depth, v.iteratorAt depth = w
  · obtain ⟨depth, rfl⟩ := hw
    exact v.iteratorAt_injective.extend_apply _ _ depth
  · exact Function.extend_apply' _ _ _ hw

theorem map_iterators (v v' : Vocabulary) (depth : Nat) :
    (v.iterators depth).map (v.respelling v') = v'.iterators depth := by
  induction depth with
  | zero => rfl
  | succ depth ih =>
      rw [iterators_succ, iterators_succ, List.map_cons, ih, respelling_iteratorAt]

/-- The next iterator in a scope is respelled like those in it. -/
theorem nextIterator_reword {scope : Scope} (h : Scope.ByDepth v scope) :
    v'.nextIterator (scope.reword (v.respelling v')) = v.respelling v' (v.nextIterator scope) := by
  have hlength : (scope.reword (v.respelling v')).length = scope.length := List.length_map _
  have hdepth : Scope.ByDepth v' (scope.reword (v.respelling v')) := by
    have hwords : Symbol.words (scope.reword (v.respelling v')) =
        (Symbol.words scope).map (v.respelling v') := by
      simp [Symbol.words, Scope.reword, Symbol.reword, Function.comp_def]
    rw [Scope.ByDepth, hwords, h, map_iterators, hlength]
  rw [hdepth.nextIterator_eq, h.nextIterator_eq, hlength, respelling_iteratorAt]

theorem Extends.symbolOf (h : v.Extends v') {e : Expr} {s : Symbol} (hs : v.symbolOf e = .ok s) :
    v'.symbolOf e = .ok s := by
  obtain ⟨id, hid, hlookup⟩ := symbolOf_eq_ok.1 hs
  exact symbolOf_eq_ok.2 ⟨id, hid, h id s hlookup⟩

end Vocabulary

end Source

/-! ## Reworded spelling -/

section Spelling

variable {v v' : Vocabulary}

/-- Behind iterators with the words of their depths, an expression has the same term in another
vocabulary, with the iterators respelled. -/
def RewordedAt (v v' : Vocabulary) (scope : Scope) (e : Expr) (t : Term) : Prop :=
  Scope.ByDepth v scope →
    e.term v' (scope.reword (v.respelling v')) = .ok (t.reword (v.respelling v'))

theorem cuts_reworded {scope : Scope} {ps : List Position} {cs : List Cut}
    (h : List.Forall₂ (CutSpelled (RewordedAt v v' scope)) ps cs) (hscope : Scope.ByDepth v scope) :
    cuts v' (scope.reword (v.respelling v')) ps =
      .ok (cs.map (Cut.map (Term.reword (v.respelling v')))) := by
  induction h with
  | nil => rfl
  | cons hp _ ih =>
      cases hp with
      | index hi =>
          rw [cuts, hi hscope, ih]
          rfl
      | slice hfirst hlast =>
          rw [cuts, hlast hscope, hfirst hscope, ih, List.map_cons,
            (structural_reword _).ofSlice]
          rfl

theorem terms_reworded {scope : Scope} {es : List Expr} {ts : List Term}
    (h : List.Forall₂ (RewordedAt v v' scope) es ts) (hscope : Scope.ByDepth v scope) :
    terms v' (scope.reword (v.respelling v')) es =
      .ok (ts.map (Term.reword (v.respelling v'))) := by
  induction h with
  | nil => rfl
  | cons he _ ih =>
      rw [terms, he hscope, ih]
      rfl

theorem args_reworded {scope : Scope} {flatten : Bool} {es : List Expr} {ts : List Term}
    (h : List.Forall₂ (ArgSpelled flatten (RewordedAt v v' scope)) es ts)
    (hscope : Scope.ByDepth v scope) :
    argTerms v' (scope.reword (v.respelling v')) flatten es =
      .ok (ts.map (Term.reword (v.respelling v'))) := by
  induction h with
  | nil => rfl
  | cons he _ ih =>
      obtain ⟨t, ht, rfl⟩ := he
      rw [argTerms, ht hscope, ih, List.map_cons, (structural_reword _).argTerm]
      rfl

theorem Source.HeadsSpelled.reworded {scope inner : Scope} {gs : List Generator}
    {hs : List (Symbol × Term)} (h : HeadsSpelled v (RewordedAt v v') scope gs hs inner)
    (hscope : Scope.ByDepth v scope) :
    heads v' (scope.reword (v.respelling v')) gs =
        .ok (Term.rewordHeads (v.respelling v') hs, inner.reword (v.respelling v')) ∧
      Scope.ByDepth v inner := by
  induction h with
  | nil => exact ⟨rfl, hscope⟩
  | @cons scope id type domain t gs hs inner ht _ ih =>
      obtain ⟨hheads, hinner⟩ := ih (hscope.cons id)
      refine ⟨?_, hinner⟩
      -- The generators that follow see this iterator in scope, so with its word in the second one.
      have hnext : (⟨id, v'.nextIterator (scope.reword (v.respelling v'))⟩ : Symbol) ::
          scope.reword (v.respelling v') =
            Scope.reword (v.respelling v') (⟨id, v.nextIterator scope⟩ :: scope) := by
        rw [Vocabulary.nextIterator_reword hscope]
        rfl
      rw [← hnext] at hheads
      rw [heads, ht hscope]
      simp only [bind_eq_ok, pure_eq_ok]
      refine ⟨_, rfl, _, hheads, ?_⟩
      rw [Vocabulary.nextIterator_reword hscope]
      rfl

theorem spellingRules_reworded (hv : v.Extends v') : SpellingRules v (RewordedAt v v') where
  literal scope l hl _ := by
    rw [Expr.term, hl]
    rfl
  setLiteral scope ls hls _ := by
    rw [Expr.term, forM_eq_ok.2 hls]
    rfl
  entity scope e id s hid hs _ := by
    rw [term_of_id hid, symbolOf_eq_ok.2 ⟨id, hid, hv id s hs⟩]
    rfl
  view scope array shape positions s cs hs hshape hcuts hscope := by
    rw [Expr.term, hv.symbolOf hs, arrayShape_eq_ok.2 hshape, cuts_reworded hcuts hscope,
      (structural_reword _).viewTerm]
    rfl
  range scope start stop type first last hrange htype hfirst hlast hscope := by
    rw [Expr.term, hfirst hscope, hlast hscope, (structural_reword _).spanOf]
    exact rangeSpan_eq_ok.2 ⟨type, _, _, hrange, htype, rfl, rfl, rfl⟩
  sequence scope items ts hts hscope := by
    rw [Expr.term, terms_reworded hts hscope, (structural_reword _).list]
    rfl
  enumeration _ _ _ := rfl
  iterator scope id type s hs _ := by
    have hlookup : Symbol.lookup id (Scope.reword (v.respelling v') scope) =
        some (s.reword (v.respelling v')) := by
      rw [Scope.reword, Symbol.lookup_reword, hs]
      rfl
    rw [Expr.term, scope_symbolOf_eq_ok.2 hlookup]
    rfl
  unary scope op e t ht hscope := by
    rw [Expr.term, ht hscope]
    rfl
  binary scope op e₁ e₂ t₁ t₂ hzero h₁ h₂ hscope := by
    rw [Expr.term, if_neg hzero, h₁ hscope, h₂ hscope]
    rfl
  power scope e₁ e₂ t₁ t₂ h₁ h₂ hscope := by
    rw [Expr.term, h₁ hscope, h₂ hscope]
    rfl
  size scope array shape dim s hs hshape _ := by
    rw [Expr.term, hv.symbolOf hs, arrayShape_eq_ok.2 hshape, (structural_reword _).sizeTerm]
    rfl
  aggregate scope op args ts hts hscope := by
    rw [Expr.term, args_reworded hts hscope, (structural_reword _).call]
    rfl
  comprehension scope op gs body hs inner t hheads hbody hscope := by
    obtain ⟨hheads, hinner⟩ := hheads.reworded hscope
    rw [Expr.term, hheads]
    simp only [bind_eq_ok, pure_eq_ok]
    exact ⟨_, rfl, _, hbody hinner, rfl⟩
  global scope kind args ts hts hscope := by
    rw [Expr.term, args_reworded hts hscope, (structural_reword _).call]
    rfl

/-- An expression that has a term in a vocabulary has it in every extension, with the iterators
respelled. -/
theorem term_reworded (hv : v.Extends v') {e : Expr} {t : Term} (h : e.term v [] = .ok t) :
    e.term v' [] = .ok (t.reword (v.respelling v')) :=
  Expr.term_induction (spellingRules_reworded hv) h (Scope.ByDepth.nil v)

/-- The iterators of a term have the words of their depths. -/
theorem nodeRules_headWords (v : Vocabulary) : NodeRules v (Scope.ByDepth v)
    fun t => ∀ w ∈ t.headWords, ∃ depth, v.iteratorAt depth = w where
  cons _ id hscope := hscope.cons id
  literal _ _ := by simp [Term.headWords]
  set _ _ := by simp [Term.headWords]
  entity _ _ := by simp [Term.headWords]
  iterator _ _ _ _ := by simp [Term.headWords]
  enumeration _ := by simp [Term.headWords]
  list _ := by simp [Term.headWords]
  span _ _ _ := by simp [Term.headWords]
  unary _ _ := by simp [Term.headWords]
  binary _ _ _ := by simp [Term.headWords]
  element _ _ _ := by simp [Term.headWords]
  call _ _ := by simp [Term.headWords]
  comprehension _ hs _ hheads w hw := by
    obtain ⟨head, hhead, rfl⟩ := List.mem_map.1 hw
    obtain ⟨scope, hscope, hword⟩ := hheads head hhead
    exact ⟨scope.length, by rw [hword, hscope.nextIterator_eq]⟩

end Spelling

end ConstraintModel
