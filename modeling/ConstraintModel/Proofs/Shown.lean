import ConstraintModel.Proofs.Constants
import ConstraintModel.Source.Feature
import Mathlib.Logic.Relation

/-!
# Shown terms

A term shows those that its text is put together from, at any depth. What a term uses is what the
nodes that it shows use, and its constants are all that are in what it shows. Whatever holds of
every node that an expression can be spelled with holds of all nodes that its term shows.
-/

namespace ConstraintModel

open Source

/-- Along a relation something with a property is reached if it is where one starts, or reached from
the next place. -/
theorem exists_reflTransGen_iff {α : Type} {r : α → α → Prop} {P : α → Prop} {a : α} :
    (∃ c, Relation.ReflTransGen r a c ∧ P c) ↔
      P a ∨ ∃ b, r a b ∧ ∃ c, Relation.ReflTransGen r b c ∧ P c := by
  constructor
  · rintro ⟨c, hc, hP⟩
    rcases hc.cases_head with rfl | ⟨b, hb, hc⟩
    · exact .inl hP
    · exact .inr ⟨b, hb, c, hc, hP⟩
  · rintro (hP | ⟨b, hb, c, hc, hP⟩)
    · exact ⟨a, .refl, hP⟩
    · exact ⟨c, .head hb hc, hP⟩

namespace Source.Term

/-! ## Parts -/

/-- The terms whose texts are put together in that of a term. -/
def parts : Term → List Term
  | literal _ | entity _ | iterator _ | enumeration _ | set _ => []
  | list ts | element _ ts | call _ ts => ts
  | unary _ t => [t]
  | span _ a b | binary _ a b => [a, b]
  | comprehension _ heads body => heads.map Prod.snd ++ [body]

/-- The second term is printed inside the first, at any depth. -/
abbrev Shows : Term → Term → Prop :=
  Relation.ReflTransGen fun t s => s ∈ t.parts

/-- Whether a term shows one with a property. -/
def Has (P : Term → Prop) (t : Term) : Prop :=
  ∃ s, t.Shows s ∧ P s

theorem has_iff {P : Term → Prop} {t : Term} : t.Has P ↔ P t ∨ ∃ s ∈ t.parts, s.Has P :=
  exists_reflTransGen_iff

theorem has_congr {P Q : Term → Prop} (h : ∀ s, P s ↔ Q s) {t : Term} : t.Has P ↔ t.Has Q :=
  exists_congr fun s => and_congr_right fun _ => h s

theorem has_or {P Q : Term → Prop} {t : Term} :
    t.Has (fun s => P s ∨ Q s) ↔ t.Has P ∨ t.Has Q := by
  simp only [Has, and_or_left, exists_or]

theorem forall_shows_iff {P : Term → Prop} {t : Term} :
    (∀ s, t.Shows s → P s) ↔ P t ∧ ∀ s ∈ t.parts, ∀ u, s.Shows u → P u := by
  have h := (has_iff (P := fun s => ¬ P s) (t := t)).not
  simpa [Has] using h

theorem sizeOf_lt_of_mem_parts {s t : Term} (h : s ∈ t.parts) : sizeOf s < sizeOf t := by
  cases t with
  | literal _ | entity _ | iterator _ | enumeration _ | set _ => cases h
  | list ts | element _ ts | call _ ts =>
      have hlt : sizeOf s < sizeOf ts := List.sizeOf_lt_of_mem h
      simp only [list.sizeOf_spec, element.sizeOf_spec, call.sizeOf_spec]
      omega
  | unary op t =>
      rw [List.mem_singleton.1 h, unary.sizeOf_spec]
      omega
  | span _ a b | binary _ a b =>
      simp only [parts, List.mem_cons, List.not_mem_nil, or_false] at h
      simp only [span.sizeOf_spec, binary.sizeOf_spec]
      rcases h with rfl | rfl <;> omega
  | comprehension op heads body =>
      rw [comprehension.sizeOf_spec]
      rcases List.mem_append.1 h with h | h
      · obtain ⟨⟨v, s⟩, hhead, rfl⟩ := List.mem_map.1 h
        have hlt := List.sizeOf_lt_of_mem hhead
        rw [Prod.mk.sizeOf_spec] at hlt
        simp only
        omega
      · rw [List.mem_singleton.1 h]
        omega

/-- What holds of a term once it holds of its parts holds of all terms. -/
theorem parts_induction {P : Term → Prop} (step : ∀ t, (∀ s ∈ t.parts, P s) → P t) (t : Term) :
    P t :=
  step t fun s _ => parts_induction step s
termination_by sizeOf t
decreasing_by exact sizeOf_lt_of_mem_parts ‹_›

/-- A property that passes from parts to terms holds if the term has it at a node. -/
theorem iff_has {P N : Term → Prop} {t : Term}
    (step : ∀ s, t.Shows s → (P s ↔ N s ∨ ∃ p ∈ s.parts, P p)) : P t ↔ t.Has N := by
  induction t using parts_induction with
  | step t ih =>
      rw [step t .refl, has_iff]
      refine or_congr_right (exists_congr fun p => and_congr_right fun hp => ih p hp ?_)
      exact fun s hs => step s (.head hp hs)

/-! ## Features -/

/-- What the node of a term uses, apart from its parts. -/
def ownFeatures : Term → List Feature
  | literal v => literalFeatures v
  | span float _ _ => if float then [.floats] else []
  | call function _ => function.features
  | _ => []

theorem allFeatures_eq (ts : List Term) : allFeatures ts = ts.flatMap features := by
  induction ts with
  | nil => rfl
  | cons t ts ih => rw [allFeatures, ih, List.flatMap_cons]

theorem headFeatures_eq (heads : List (Symbol × Term)) :
    headFeatures heads = (heads.map Prod.snd).flatMap features := by
  induction heads with
  | nil => rfl
  | cons head heads ih => rw [headFeatures, ih, List.map_cons, List.flatMap_cons]

theorem features_eq (t : Term) : t.features = t.ownFeatures ++ t.parts.flatMap features := by
  cases t <;> simp [features, ownFeatures, parts, allFeatures_eq, headFeatures_eq]

/-- A term uses what the nodes that it shows use. -/
theorem mem_features {f : Feature} {t : Term} : f ∈ t.features ↔ t.Has (f ∈ ·.ownFeatures) :=
  iff_has (P := (f ∈ ·.features)) fun s _ => by
    rw [features_eq, List.mem_append, List.mem_flatMap]

/-! ## Constants -/

theorem headConstants_eq (heads : List (Symbol × Term)) :
    headConstants heads = allConstants (heads.map Prod.snd) := by
  induction heads with
  | nil => rfl
  | cons head heads ih => rw [headConstants, ih, List.map_cons, allConstants]

theorem constants_of_mem_parts {s t : Term} (h : s ∈ t.parts) : s.constants ⊆ t.constants := by
  have hall {ts : List Term} (hs : s ∈ ts) : s.constants ⊆ allConstants ts :=
    fun k hk => mem_allConstants.2 ⟨s, hs, hk⟩
  cases t with
  | literal _ | entity _ | iterator _ | enumeration _ | set _ => cases h
  | list ts | element _ ts | call _ ts => exact hall h
  | unary op t =>
      rw [List.mem_singleton.1 h]
      exact List.Subset.refl _
  | span _ a b | binary _ a b =>
      simp only [parts, List.mem_cons, List.not_mem_nil, or_false] at h
      rcases h with rfl | rfl
      · exact List.subset_append_left _ _
      · exact List.subset_append_right _ _
  | comprehension op heads body =>
      rw [constants, headConstants_eq]
      rcases List.mem_append.1 h with h | h
      · exact fun k hk => List.mem_append_left _ (hall h hk)
      · rw [List.mem_singleton.1 h]
        exact List.subset_append_right _ _

theorem enumerations_of_mem_parts {s t : Term} (h : s ∈ t.parts) :
    s.enumerations ⊆ t.enumerations := by
  intro x hx
  obtain ⟨k, hk, hx⟩ := mem_enumerations.1 hx
  exact mem_enumerations.2 ⟨k, constants_of_mem_parts h hk, hx⟩

theorem enumerations_of_shows {s t : Term} (h : t.Shows s) : s.enumerations ⊆ t.enumerations := by
  induction h with
  | refl => exact List.Subset.refl _
  | tail _ hp ih => exact List.Subset.trans (enumerations_of_mem_parts hp) ih

end Source.Term

/-! ## Spelled nodes -/

namespace Source

/-- A property of nodes, for what stands in a term, holds of every node that is spelled behind
iterators with a property of scopes. -/
structure NodeRules (v : Vocabulary) (I : Scope → Prop) (N : Term → Prop) : Prop where
  cons : ∀ scope id, I scope → I (⟨id, v.nextIterator scope⟩ :: scope)
  literal : ∀ l, l.requireFinite = .ok () → N (.literal l)
  set : ∀ ls, (∀ l ∈ ls, l.requireFinite = .ok ()) → N (.set ls)
  entity : ∀ s ∈ v.symbols, N (.entity s)
  iterator : ∀ scope, I scope → ∀ s ∈ scope, N (.iterator s)
  enumeration : ∀ e, N (.enumeration e)
  list : ∀ ts, N (.list ts)
  span : ∀ float a b, N (.span float a b)
  unary : ∀ op t, N (.unary op t)
  binary : ∀ op a b, N (.binary op a b)
  element : ∀ s ts, N (.entity s) → N (.element s ts)
  call : ∀ f ts, N (.call f ts)
  comprehension : ∀ op hs body,
    (∀ head ∈ hs, ∃ scope, I scope ∧ head.1.word = v.nextIterator scope) →
      N (.comprehension op hs body)

namespace NodeRules

variable {v : Vocabulary} {I : Scope → Prop} {N : Term → Prop}

theorem compositional (rules : NodeRules v I N) : Compositional fun t => ∀ s, t.Shows s → N s where
  int _ := Term.forall_shows_iff.2 ⟨rules.literal _ rfl, by simp [Term.int, Term.parts]⟩
  list _ h := Term.forall_shows_iff.2 ⟨rules.list _, h⟩
  call _ _ h := Term.forall_shows_iff.2 ⟨rules.call _ _, h⟩
  element s ts hs h :=
    Term.forall_shows_iff.2 ⟨rules.element s ts (Term.forall_shows_iff.1 hs).1, h⟩
  span _ _ _ ha hb :=
    Term.forall_shows_iff.2 ⟨rules.span _ _ _, by simpa [Term.parts] using ⟨ha, hb⟩⟩
  binary _ _ _ ha hb :=
    Term.forall_shows_iff.2 ⟨rules.binary _ _ _, by simpa [Term.parts] using ⟨ha, hb⟩⟩

/-- All nodes of a term have the property, if it is spelled in a scope that has its own. -/
def HoldsAt (I : Scope → Prop) (N : Term → Prop) (scope : Scope) (_ : Expr) (t : Term) : Prop :=
  I scope → ∀ s, t.Shows s → N s

theorem of_entity (rules : NodeRules v I N) {id : NodeId} {s : Symbol}
    (hs : Symbol.lookup id v.symbols = some s) : ∀ t, (Term.entity s).Shows t → N t :=
  Term.forall_shows_iff.2
    ⟨rules.entity s (List.mem_of_find?_eq_some hs), by simp [Term.parts]⟩

theorem of_symbolOf (rules : NodeRules v I N) {e : Expr} {s : Symbol} (hs : v.symbolOf e = .ok s) :
    ∀ t, (Term.entity s).Shows t → N t := by
  obtain ⟨id, -, hlookup⟩ := symbolOf_eq_ok.1 hs
  exact rules.of_entity hlookup

theorem of_heads (rules : NodeRules v I N) {scope inner : Scope} {gs : List Generator}
    {hs : List (Symbol × Term)} (h : HeadsSpelled v (HoldsAt I N) scope gs hs inner)
    (hscope : I scope) :
    (∀ head ∈ hs, ∃ scope, I scope ∧ head.1.word = v.nextIterator scope) ∧
      (∀ t ∈ hs.map Prod.snd, ∀ s, t.Shows s → N s) ∧ I inner := by
  induction h with
  | nil => exact ⟨by simp, by simp, hscope⟩
  | @cons scope id type domain t gs hs inner ht _ ih =>
      obtain ⟨hheads, hterms, hinner⟩ := ih (rules.cons scope id hscope)
      exact ⟨List.forall_mem_cons.2 ⟨⟨scope, hscope, rfl⟩, hheads⟩,
        List.forall_mem_cons.2 ⟨ht hscope, hterms⟩, hinner⟩

theorem of_args (rules : NodeRules v I N) {scope : Scope} {flatten : Bool} {es : List Expr}
    {us : List Term} (h : List.Forall₂ (ArgSpelled flatten (HoldsAt I N scope)) es us)
    (hscope : I scope) : ∀ u ∈ us, ∀ s, u.Shows s → N s := by
  intro u hu
  obtain ⟨e, -, t, ht, rfl⟩ := exists_of_mem_right h hu
  exact rules.compositional.argTerm (ht hscope)

theorem spellingRules (rules : NodeRules v I N) : SpellingRules v (HoldsAt I N) where
  literal _ _ hl _ := Term.forall_shows_iff.2 ⟨rules.literal _ hl, by simp [Term.parts]⟩
  setLiteral _ _ hls _ := Term.forall_shows_iff.2 ⟨rules.set _ hls, by simp [Term.parts]⟩
  entity _ _ _ _ _ hs _ := rules.of_entity hs
  view scope array shape positions s cs hs _ hcuts hscope := by
    refine rules.compositional.viewTerm (rules.of_symbolOf hs) fun c hc => ?_
    obtain ⟨p, -, hp⟩ := exists_of_mem_right hcuts hc
    cases hp with
    | index ht => exact ht hscope
    | slice hfirst hlast => exact rules.compositional.ofSlice (hfirst hscope) (hlast hscope)
  range _ _ _ _ _ _ _ _ hfirst hlast hscope :=
    rules.compositional.spanOf (hfirst hscope) (hlast hscope)
  sequence _ _ _ hts hscope := by
    refine rules.compositional.list _ fun t ht => ?_
    obtain ⟨e, -, h⟩ := exists_of_mem_right hts ht
    exact h hscope
  enumeration _ _ _ := Term.forall_shows_iff.2 ⟨rules.enumeration _, by simp [Term.parts]⟩
  iterator scope _ _ s hs hscope := Term.forall_shows_iff.2
    ⟨rules.iterator scope hscope s (List.mem_of_find?_eq_some hs), by simp [Term.parts]⟩
  unary _ _ _ _ ht hscope :=
    Term.forall_shows_iff.2 ⟨rules.unary _ _, List.forall_mem_singleton.2 (ht hscope)⟩
  binary _ _ _ _ _ _ _ h₁ h₂ hscope :=
    rules.compositional.binary _ _ _ (h₁ hscope) (h₂ hscope)
  power _ _ _ _ _ h₁ h₂ hscope := by
    refine rules.compositional.call _ _ (List.forall_mem_cons.2 ⟨h₁ hscope, ?_⟩)
    exact List.forall_mem_singleton.2 (h₂ hscope)
  size _ _ _ _ _ hs _ _ := rules.compositional.sizeTerm (rules.of_symbolOf hs)
  aggregate _ _ _ _ hts hscope := rules.compositional.call _ _ (rules.of_args hts hscope)
  comprehension _ _ _ _ _ _ _ hheads hbody hscope := by
    obtain ⟨hwords, hdomains, hinner⟩ := rules.of_heads hheads hscope
    refine Term.forall_shows_iff.2
      ⟨rules.comprehension _ _ _ hwords, List.forall_mem_append.2 ⟨hdomains, ?_⟩⟩
    exact List.forall_mem_singleton.2 (hbody hinner)
  global _ _ _ _ hts hscope := rules.compositional.call _ _ (rules.of_args hts hscope)

/-- All nodes that the term of an expression shows have the property. -/
theorem of_term (rules : NodeRules v I N) {e : Expr} {t : Term} {scope : Scope}
    (h : e.term v scope = .ok t) (hscope : I scope) : ∀ s, t.Shows s → N s :=
  Expr.term_induction rules.spellingRules h hscope

end NodeRules

/-! ## Words of nodes -/

/-- Whether the literals of the node are finite and the words of its symbols have a property. -/
def Term.Worded (W : String → Prop) : Term → Prop
  | literal v => v.requireFinite = .ok ()
  | set members => ∀ v ∈ members, v.requireFinite = .ok ()
  | entity s | iterator s | element s _ => W s.word
  | comprehension _ heads _ => ∀ head ∈ heads, W head.1.word
  | _ => True

/-- The words of spelled nodes are those of entities and iterators. -/
theorem nodeRules_worded {v : Vocabulary} {W : String → Prop}
    (hentities : ∀ s ∈ v.symbols, W s.word) (hiterators : ∀ scope, W (v.nextIterator scope)) :
    NodeRules v (fun scope => ∀ s ∈ scope, W s.word) (Term.Worded W) where
  cons scope _ hscope := List.forall_mem_cons.2 ⟨hiterators scope, hscope⟩
  literal _ hl := hl
  set _ hls := hls
  entity s hs := hentities s hs
  iterator _ hscope s hs := hscope s hs
  enumeration _ := trivial
  list _ := trivial
  span _ _ _ := trivial
  unary _ _ := trivial
  binary _ _ _ := trivial
  element _ _ hs := hs
  call _ _ := trivial
  comprehension _ _ _ hheads head hhead := by
    obtain ⟨scope, -, hword⟩ := hheads head hhead
    rw [hword]
    exact hiterators scope

end Source

/-- All nodes that the terms of a program show have the property, if the variables that it declares
with an equation are entities of the model. -/
theorem program_nodes {r : ResolvedModel} {p : Program} {I : Scope → Prop} {N : Term → Prop}
    (rules : NodeRules (.ofModel r) I N) (hnil : I []) (hp : r.program = .ok p)
    (hbound : ∀ name id type value, (name, .boundVar id type value) ∈ r.decisions →
      (⟨id, name⟩ : Symbol) ∈ r.symbols) : ∀ t ∈ p.terms, ∀ s, t.Shows s → N s := by
  intro t ht
  have hparts := rules.compositional
  cases shows_of_mem_terms hp ht with
  | spelled he heq => exact rules.of_term heq hnil
  | interval _ _ => exact hparts.span _ _ _ (hparts.int _) (hparts.int _)
  | equation hentry heq =>
      refine hparts.binary _ _ _ ?_ (rules.of_term heq hnil)
      exact Term.forall_shows_iff.2
        ⟨rules.entity _ (hbound _ _ _ _ hentry), by simp [Term.parts]⟩

end ConstraintModel
