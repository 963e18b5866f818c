import ConstraintModel.Proofs.Composition
import ConstraintModel.Proofs.Leaves

/-!
# Mentions

The entities that a term mentions are the leaves of the expression that it spells, each by its symbol.
A leaf may be mentioned more often than it occurs, since a slice writes its bounds twice.
-/

namespace ConstraintModel

open Source

namespace Source

mutual

/-- The symbols of the entities that a term mentions. -/
def Term.entities : Term → List Symbol
  | .literal _ | .iterator _ | .enumeration _ | .set _ => []
  | .entity s => [s]
  | .element s ts => s :: allEntities ts
  | .list ts | .call _ ts => allEntities ts
  | .unary _ t => t.entities
  | .span _ a b | .binary _ a b => a.entities ++ b.entities
  | .comprehension _ heads body => headEntities heads ++ body.entities

def allEntities : List Term → List Symbol
  | [] => []
  | t :: ts => t.entities ++ allEntities ts

def headEntities : List (Symbol × Term) → List Symbol
  | [] => []
  | (_, domain) :: heads => domain.entities ++ headEntities heads

end

@[simp] theorem mem_allEntities {s : Symbol} {ts : List Term} :
    s ∈ allEntities ts ↔ ∃ t ∈ ts, s ∈ t.entities := by
  induction ts with
  | nil => simp [allEntities]
  | cons t ts ih => simp [allEntities, ih]

end Source

/-! ## Leaves by their symbols -/

/-- Every leaf has its symbol among the given ones, and every one of these is the symbol of a leaf. -/
structure Names (v : Vocabulary) (leaves : List Expr) (symbols : List Symbol) : Prop where
  named : ∀ l ∈ leaves, ∃ s ∈ symbols, v.symbolOf l = .ok s
  leaf : ∀ s ∈ symbols, ∃ l ∈ leaves, v.symbolOf l = .ok s

namespace Names

variable {v : Vocabulary} {leaves leaves' : List Expr} {symbols symbols' : List Symbol}

theorem nil : Names v [] [] :=
  ⟨by simp, by simp⟩

theorem singleton {l : Expr} {s : Symbol} (h : v.symbolOf l = .ok s) : Names v [l] [s] :=
  ⟨by simpa using h, by simpa using h⟩

theorem append (h : Names v leaves symbols) (h' : Names v leaves' symbols') :
    Names v (leaves ++ leaves') (symbols ++ symbols') := by
  constructor
  · intro l hl
    rcases List.mem_append.1 hl with hl | hl
    · obtain ⟨s, hs, heq⟩ := h.named l hl
      exact ⟨s, List.mem_append_left _ hs, heq⟩
    · obtain ⟨s, hs, heq⟩ := h'.named l hl
      exact ⟨s, List.mem_append_right _ hs, heq⟩
  · intro s hs
    rcases List.mem_append.1 hs with hs | hs
    · obtain ⟨l, hl, heq⟩ := h.leaf s hs
      exact ⟨l, List.mem_append_left _ hl, heq⟩
    · obtain ⟨l, hl, heq⟩ := h'.leaf s hs
      exact ⟨l, List.mem_append_right _ hl, heq⟩

theorem congr (h : Names v leaves symbols) (hmem : ∀ s, s ∈ symbols' ↔ s ∈ symbols) :
    Names v leaves symbols' := by
  constructor
  · intro l hl
    obtain ⟨s, hs, heq⟩ := h.named l hl
    exact ⟨s, (hmem s).2 hs, heq⟩
  · intro s hs
    exact h.leaf s ((hmem s).1 hs)

theorem all {es : List Expr} {ts : List Term}
    (h : List.Forall₂ (fun e t => Names v e.leaves (Term.entities t)) es ts) :
    Names v (allLeaves es) (allEntities ts) := by
  induction h with
  | nil => exact nil
  | cons h _ ih => exact h.append ih

end Names

/-! ## Spelling -/

variable {v : Vocabulary}

theorem collects_entities (s : Symbol) : Collects (s ∈ ·.entities) where
  int _ := by simp [Term.int, Term.entities]
  list _ := mem_allEntities
  call _ _ := mem_allEntities
  element _ _ := by simp [Term.entities]
  span _ _ := List.mem_append
  binary _ _ _ := List.mem_append

/-- A literal stop mentions nothing. -/
theorem Names.not_mem_of_literalInt? {stop : Expr} {last : Term} {s : Symbol}
    (h : Names v stop.leaves last.entities) (hstop : stop.literalInt? ≠ none) :
    s ∉ last.entities := by
  intro hs
  obtain ⟨w, hw⟩ := Option.ne_none_iff_exists'.1 hstop
  obtain ⟨l, hl, -⟩ := h.leaf s hs
  rw [literalInt?_eq_some.1 hw] at hl
  cases hl

def Source.Cut.entities (c : Cut) : List Symbol :=
  c.span.entities ++ c.indexSet.entities

theorem cuts_names {ps : List Position} {cs : List Cut}
    (h : List.Forall₂ (CutSpelled fun e t => Names v e.leaves t.entities) ps cs) :
    Names v (positionLeaves ps) (cs.flatMap Cut.entities) := by
  induction h with
  | nil => exact .nil
  | cons hp _ ih =>
      rw [List.flatMap_cons]
      cases hp with
      | index hi =>
          refine (hi.congr fun s => ?_).append ih
          exact List.mem_append.trans (collects_entities s).index
      | slice hstart hstop =>
          refine ((hstart.append hstop).congr fun s => ?_).append ih
          refine List.mem_append.trans (Iff.trans ?_ List.mem_append.symm)
          exact (collects_entities s).ofSlice hstop.not_mem_of_literalInt?

theorem heads_names {scope inner : Scope} {gs : List Generator} {hs : List (Symbol × Term)}
    (h : HeadsSpelled v (fun _ e t => Names v e.leaves t.entities) scope gs hs inner) :
    Names v (generatorLeaves gs) (headEntities hs) := by
  induction h with
  | nil => exact .nil
  | cons ht _ ih => exact ht.append ih

theorem args_names {flatten : Bool} {es : List Expr} {us : List Term}
    (h : List.Forall₂ (ArgSpelled flatten fun e t => Names v e.leaves t.entities) es us) :
    Names v (allLeaves es) (allEntities us) := by
  refine Names.all (h.imp ?_)
  rintro e _ ⟨t, ht, rfl⟩
  unfold argTerm
  split_ifs
  · rw [Term.entities, allEntities, allEntities, List.append_nil]
    exact ht
  · exact ht

theorem spellingRules_names (v : Vocabulary) :
    SpellingRules v fun _ e t => Names v e.leaves t.entities where
  literal _ _ _ := .nil
  setLiteral _ _ _ := .nil
  entity scope e id s hid hs := by
    rw [Expr.leaves_of_id hid]
    exact .singleton (symbolOf_eq_ok.2 ⟨id, hid, hs⟩)
  view scope array shape positions s cs hs _ hcuts := by
    refine ((Names.singleton hs).append (cuts_names hcuts)).congr fun s' => ?_
    rw [(collects_entities s').viewTerm, List.mem_append, List.mem_flatMap]
    simp only [Term.entities, Cut.Any, Cut.entities, List.mem_append]
  range scope start stop type first last _ _ hfirst hlast := by
    refine (hfirst.append hlast).congr fun s => ?_
    by_cases htype : type = .float
    · rw [spanOf, if_pos htype, Term.entities]
    · rw [(collects_entities s).spanOf htype hlast.not_mem_of_literalInt?, List.mem_append]
  sequence _ _ _ hts := .all hts
  enumeration _ _ := .nil
  iterator _ _ _ _ _ := .nil
  unary _ _ _ _ ht := ht
  binary _ _ _ _ _ _ _ h₁ h₂ := h₁.append h₂
  power scope e₁ e₂ t₁ t₂ h₁ h₂ := by
    rw [Term.entities, allEntities, allEntities, allEntities, List.append_nil]
    exact h₁.append h₂
  size _ _ _ _ _ hs _ := .singleton hs
  aggregate _ _ _ _ hts := args_names hts
  comprehension _ _ _ _ _ _ _ hheads ht := (heads_names hheads).append ht
  global _ _ _ _ hts := args_names hts

/-- The entities that the term of an expression mentions are its leaves. -/
theorem term_names {scope : Scope} {e : Expr} {t : Term} (h : e.term v scope = .ok t) :
    Names v e.leaves t.entities :=
  Expr.term_induction (spellingRules_names v) h

end ConstraintModel
