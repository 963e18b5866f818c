import ConstraintModel.Proofs.Collections
import ConstraintModel.Proofs.Composition
import ConstraintModel.Proofs.Shown
import ConstraintModel.Proofs.TypedParts

/-!
# Floats in terms

A float gets into a term as a literal, as a member of a set or as a range of floats. In each of these
ways the term of an expression has floats exactly if the expression has. The bounds of slices are no
ranges: their spans are those of integers, whatever the bounds are.
-/

namespace ConstraintModel

open Source

/-- A way in which floats get into a source. -/
inductive FloatForm
  | literal
  | member
  | range

/-- Whether a term is a literal, a set or a span with floats. -/
def Source.Term.IsFloat (form : FloatForm) : Term → Prop
  | .literal l => form = .literal ∧ l.elemType = .float
  | .set members => form = .member ∧ ∃ l ∈ members, l.elemType = .float
  | .span float _ _ => form = .range ∧ float = true
  | _ => False

/-- Whether an expression is a literal, a set or a range with floats. -/
def Expr.IsFloat (form : FloatForm) : Expr → Prop
  | .literal l => form = .literal ∧ l.elemType = .float
  | .setLiteral values => form = .member ∧ ∃ l ∈ values, l.elemType = .float
  | .range start stop => form = .range ∧ (Expr.range start stop).elemType = .ok .float
  | _ => False

/-- Whether floats are printed inside a term, at any depth. -/
def Source.Term.HasFloat (form : FloatForm) (t : Term) : Prop :=
  t.Has (IsFloat form)

/-- Whether floats are printed inside an expression, at any depth. -/
def Expr.HasFloat (form : FloatForm) (e : Expr) : Prop :=
  ∃ s, e.Shows s ∧ s.IsFloat form

variable {form : FloatForm}

/-! ## Parts -/

theorem Source.Term.hasFloat_iff {t : Term} :
    t.HasFloat form ↔ t.IsFloat form ∨ ∃ s ∈ t.parts, s.HasFloat form :=
  exists_reflTransGen_iff

/-- What is no float itself has those of its parts. -/
theorem Source.Term.hasFloat_parts {t : Term} (h : ¬ t.IsFloat form) :
    t.HasFloat form ↔ ∃ s ∈ t.parts, s.HasFloat form := by
  rw [hasFloat_iff, or_iff_right h]

theorem Expr.hasFloat_iff {e : Expr} :
    e.HasFloat form ↔ e.IsFloat form ∨ ∃ s ∈ e.parts ++ e.selectors, s.HasFloat form :=
  exists_reflTransGen_iff

theorem Expr.hasFloat_parts {e : Expr} (h : ¬ e.IsFloat form) :
    e.HasFloat form ↔ ∃ s ∈ e.parts ++ e.selectors, s.HasFloat form := by
  rw [hasFloat_iff, or_iff_right h]

theorem Expr.hasFloat_range {e : Expr} : e.HasFloat .range ↔
    ∃ start stop, e.Shows (.range start stop) ∧ (Expr.range start stop).elemType = .ok .float := by
  constructor
  · rintro ⟨s, hs, hfloat⟩
    cases s with
    | range start stop => exact ⟨start, stop, hs, hfloat.2⟩
    | _ => simp [IsFloat] at hfloat
  · rintro ⟨start, stop, hs, hfloat⟩
    exact ⟨_, hs, rfl, hfloat⟩

/-- The constructor of sets takes no floats. -/
theorem not_hasFloat_member {e : Expr} (h : ∀ values, e.Shows (.setLiteral values) →
    Expr.setOf values = .ok (.setLiteral values)) : ¬ e.HasFloat .member := by
  rintro ⟨s, hs, hfloat⟩
  cases s with
  | setLiteral values =>
      obtain ⟨-, l, hl, hfloat⟩ := hfloat
      obtain ⟨⟨⟩, hmembers, -⟩ := bind_eq_ok.1 (h values hs)
      obtain ⟨type, htype, -, htyped⟩ := requireMembers_eq_ok hmembers
      exact htype (htyped l hl ▸ hfloat)
  | _ => simp [Expr.IsFloat] at hfloat

theorem collects_hasFloat (form : FloatForm) : Collects (Term.HasFloat form) where
  int v := by
    rw [Term.hasFloat_iff]
    simp [Term.int, Term.IsFloat, Term.parts, Literal.elemType]
  list _ := Term.hasFloat_parts id
  call _ _ := Term.hasFloat_parts id
  element s _ := by
    have hentity : ¬ (Term.entity s).HasFloat form := by
      rw [Term.hasFloat_parts id]
      simp [Term.parts]
    rw [or_iff_right hentity, Term.hasFloat_parts id]
    rfl
  span _ _ := by
    rw [Term.hasFloat_parts (by simp [Term.IsFloat])]
    simp [Term.parts]
  binary _ _ _ := by
    rw [Term.hasFloat_parts id]
    simp [Term.parts]

/-! ## Spelling -/

theorem exists_mem_iff_of_forall₂ {α β : Type} {P : α → Prop} {Q : β → Prop} {as : List α}
    {bs : List β} (h : List.Forall₂ (fun a b => Q b ↔ P a) as bs) :
    (∃ b ∈ bs, Q b) ↔ ∃ a ∈ as, P a := by
  induction h with
  | nil => simp
  | cons h _ ih => simp [h, ih]

/-- Whether a term has the floats of an expression. -/
def FloatsAgree (form : FloatForm) (e : Expr) (t : Term) : Prop :=
  t.HasFloat form ↔ e.HasFloat form

theorem FloatsAgree.iff {e : Expr} {t : Term} (h : FloatsAgree form e t) :
    t.HasFloat form ↔ e.HasFloat form :=
  h

/-- Where neither is a float itself, a term and an expression agree if their parts do. -/
theorem FloatsAgree.of_parts {e : Expr} {t : Term} (ht : ¬ t.IsFloat form)
    (he : ¬ e.IsFloat form)
    (h : (∃ s ∈ t.parts, s.HasFloat form) ↔ ∃ s ∈ e.parts ++ e.selectors, s.HasFloat form) :
    FloatsAgree form e t :=
  (Term.hasFloat_parts ht).trans (h.trans (Expr.hasFloat_parts he).symm)

/-- A literal stop is no float. -/
theorem FloatsAgree.of_literalInt? {stop : Expr} {last : Term} (h : FloatsAgree form stop last)
    (hstop : stop.literalInt? ≠ none) : ¬ last.HasFloat form := by
  obtain ⟨w, hw⟩ := Option.ne_none_iff_exists'.1 hstop
  rw [h.iff, literalInt?_eq_some.1 hw, Expr.hasFloat_iff]
  simp [Expr.IsFloat, Expr.parts, Expr.selectors, Literal.elemType]

theorem leaf_hasFloat {e : Expr} {id : NodeId} (h : e.id? = some id) : ¬ e.HasFloat form := by
  rw [Expr.hasFloat_iff]
  cases e <;> cases h <;> simp [Expr.IsFloat, Expr.parts, Expr.selectors]

theorem cuts_floats {ps : List Position} {cs : List Cut}
    (h : List.Forall₂ (CutSpelled (FloatsAgree form)) ps cs) :
    (∃ c ∈ cs, c.Any (Term.HasFloat form)) ↔
      ∃ e ∈ ps.flatMap Position.operands, e.HasFloat form := by
  induction h with
  | nil => simp
  | @cons p c ps cs hp _ ih =>
      have hcut : c.Any (Term.HasFloat form) ↔ ∃ e ∈ p.operands, e.HasFloat form := by
        cases hp with
        | index hi =>
            rw [(collects_hasFloat form).index, hi.iff]
            simp [Position.operands]
        | slice hstart hstop =>
            rw [(collects_hasFloat form).ofSlice hstop.of_literalInt?, hstart.iff, hstop.iff]
            simp [Position.operands]
      rw [List.flatMap_cons]
      simp only [List.mem_cons, List.mem_append, or_and_right, exists_or, exists_eq_left, hcut, ih]

theorem heads_floats {v : Vocabulary} {scope inner : Scope} {gs : List Generator}
    {hs : List (Symbol × Term)}
    (h : HeadsSpelled v (fun _ => FloatsAgree form) scope gs hs inner) :
    (∃ t ∈ hs.map Prod.snd, t.HasFloat form) ↔
      ∃ e ∈ gs.map Generator.domain, e.HasFloat form := by
  induction h with
  | nil => simp
  | cons ht _ ih =>
      simp only [List.map_cons, List.mem_cons, exists_eq_or_imp, ih, Generator.domain]
      exact or_congr_left ht

theorem args_floats {flatten : Bool} {es : List Expr} {us : List Term}
    (h : List.Forall₂ (ArgSpelled flatten (FloatsAgree form)) es us) :
    (∃ u ∈ us, u.HasFloat form) ↔ ∃ e ∈ es, e.HasFloat form := by
  refine exists_mem_iff_of_forall₂ (h.imp ?_)
  rintro e _ ⟨t, ht, rfl⟩
  exact (collects_hasFloat form).argTerm.trans ht

theorem spellingRules_floats (v : Vocabulary) (form : FloatForm) :
    SpellingRules v fun _ => FloatsAgree form where
  literal _ _ _ := by
    rw [FloatsAgree, Term.hasFloat_iff, Expr.hasFloat_iff]
    simp [Term.IsFloat, Expr.IsFloat, Term.parts, Expr.parts, Expr.selectors]
  setLiteral _ _ _ := by
    rw [FloatsAgree, Term.hasFloat_iff, Expr.hasFloat_iff]
    simp [Term.IsFloat, Expr.IsFloat, Term.parts, Expr.parts, Expr.selectors]
  entity _ _ _ _ hid _ := by
    refine iff_of_false ?_ (leaf_hasFloat hid)
    rw [Term.hasFloat_parts id]
    simp [Term.parts]
  view _ array _ positions s cs hs _ hcuts := by
    obtain ⟨_, hid, -⟩ := symbolOf_eq_ok.1 hs
    have hsymbol : ¬ (Term.entity s).HasFloat form := by
      rw [Term.hasFloat_parts id]
      simp [Term.parts]
    rw [FloatsAgree, (collects_hasFloat form).viewTerm, or_iff_right hsymbol, cuts_floats hcuts,
      Expr.hasFloat_parts id]
    simp [Expr.parts, Expr.selectors, leaf_hasFloat hid]
  range _ start stop type first last _ htype hfirst hlast := by
    have hrange : (Expr.range start stop).IsFloat form ↔ form = .range ∧ type = .float := by
      rw [Expr.IsFloat, htype, Except.ok.injEq]
    rw [FloatsAgree, Expr.hasFloat_iff, hrange]
    by_cases hfloat : type = .float
    · rw [spanOf, if_pos hfloat, Term.hasFloat_iff]
      simp [Term.IsFloat, Term.parts, Expr.parts, Expr.selectors, hfirst.iff, hlast.iff, hfloat]
    · rw [(collects_hasFloat form).spanOf hfloat hlast.of_literalInt?, hfirst.iff, hlast.iff]
      simp [Expr.parts, Expr.selectors, hfloat]
  sequence _ _ _ hts := by
    refine .of_parts id id ?_
    simpa [Term.parts, Expr.parts, Expr.selectors] using exists_mem_iff_of_forall₂ hts
  enumeration _ _ := .of_parts id id (by simp [Term.parts, Expr.parts, Expr.selectors])
  iterator _ _ _ _ _ := .of_parts id id (by simp [Term.parts, Expr.parts, Expr.selectors])
  unary _ _ _ _ ht := by
    refine .of_parts id id ?_
    simpa [Term.parts, Expr.parts, Expr.selectors] using ht.iff
  binary _ _ _ _ _ _ _ h₁ h₂ := by
    refine .of_parts id id ?_
    simp [Term.parts, Expr.parts, Expr.selectors, h₁.iff, h₂.iff]
  power _ _ _ _ _ h₁ h₂ := by
    refine .of_parts id id ?_
    simp [Term.parts, Expr.parts, Expr.selectors, h₁.iff, h₂.iff]
  size _ _ _ _ _ _ _ := by
    rw [FloatsAgree, (collects_hasFloat form).sizeTerm, Term.hasFloat_parts id,
      Expr.hasFloat_parts id]
    simp [Term.parts, Expr.parts, Expr.selectors]
  aggregate _ _ _ _ hts := by
    refine .of_parts id id ?_
    simpa [Term.parts, Expr.parts, Expr.selectors] using args_floats hts
  comprehension _ _ _ _ _ _ _ hheads ht := by
    have hdomains := heads_floats hheads
    refine .of_parts id id ?_
    simp only [Term.parts, Expr.parts, Expr.selectors, List.append_nil, List.mem_append,
      List.mem_singleton, or_and_right, exists_or, exists_eq_left, hdomains]
    exact or_congr_right ht.iff
  global _ _ _ _ hts := by
    refine .of_parts id id ?_
    simpa [Term.parts, Expr.parts, Expr.selectors] using args_floats hts

/-- The term of an expression has floats in the ways in which the expression has them. -/
theorem term_floats {v : Vocabulary} {scope : Scope} {e : Expr} {t : Term}
    (h : e.term v scope = .ok t) : t.HasFloat form ↔ e.HasFloat form :=
  Expr.term_induction (spellingRules_floats v form) h

end ConstraintModel
