import ConstraintModel.Proofs.Shown
import ConstraintModel.Proofs.TypedParts

/-!
# Origins of terms

Where each term that is printed inside the term of an expression comes from. Most are the terms of
expressions that are printed there; the others are put in where a view, a size or a range is spelled.
What is divided, and what a span reaches from and to, is read off the origins: every division is one
of an expression, and every span is a range or a dimension of a view.
-/

namespace ConstraintModel

open Source

variable {v : Vocabulary} {scope : Scope} {root : Expr}

/-! ## Spelled nodes -/

/-- How the term of an expression is put together from the terms of what is directly inside it. -/
inductive Spells (v : Vocabulary) (scope : Scope) : Expr → Term → Prop
  | literal {l} : l.requireFinite = .ok () → Spells v scope (.literal l) (.literal l)
  | setLiteral {ls} : Spells v scope (.setLiteral ls) (.set ls)
  | entity {e s} : v.symbolOf e = .ok s → Spells v scope e (.entity s)
  | view {array positions s shape cs} : v.symbolOf array = .ok s → array.shape? = some shape →
      List.Forall₂ (CutSpelled fun e t => e.term v scope = .ok t) positions cs →
      Spells v scope (.view array positions) (viewTerm s shape.rank cs)
  | range {start stop type first last} : requireRange start stop = .ok () →
      (Expr.range start stop).elemType = .ok type → start.term v scope = .ok first →
      stop.term v scope = .ok last →
      Spells v scope (.range start stop) (spanOf type stop first last)
  | sequence {es ts} : List.Forall₂ (fun e t => e.term v scope = .ok t) es ts →
      Spells v scope (.sequence es) (.list ts)
  | enumeration {x} : Spells v scope (.enumeration x) (.enumeration x)
  | iterator {id type s} : scope.symbolOf id = .ok s → Spells v scope (.iterator id type) (.iterator s)
  | unary {op e t} : e.term v scope = .ok t → Spells v scope (.unary op e) (.unary op t)
  | binary {op e₁ e₂ t₁ t₂} : ¬(op.isIntegerDivision && e₂.isZero) → e₁.term v scope = .ok t₁ →
      e₂.term v scope = .ok t₂ → Spells v scope (.binary op e₁ e₂) (.binary op t₁ t₂)
  | power {e₁ e₂ t₁ t₂} : e₁.term v scope = .ok t₁ → e₂.term v scope = .ok t₂ →
      Spells v scope (.power e₁ e₂) (.call .power [t₁, t₂])
  | size {array dim s rank} : v.symbolOf array = .ok s →
      Spells v scope (.size array dim) (sizeTerm s rank dim)
  | aggregate {op es us} :
      List.Forall₂ (ArgSpelled (op == .count) fun e t => e.term v scope = .ok t) es us →
      Spells v scope (.aggregate op es) (.call (.aggregate op) us)
  | comprehension {op gs hs inner body t} :
      HeadsSpelled v (fun scope e t => e.term v scope = .ok t) scope gs hs inner →
      body.term v inner = .ok t →
      Spells v scope (.comprehension op gs body) (.comprehension op hs t)
  | global {kind es us} :
      List.Forall₂ (ArgSpelled kind.flattens fun e t => e.term v scope = .ok t) es us →
      Spells v scope (.global kind es) (.call (.global kind) us)

theorem spells_of_term {e : Expr} {t : Term} (h : e.term v scope = .ok t) : Spells v scope e t := by
  cases e with
  | literal l =>
      simp only [Expr.term, bind_eq_ok, pure_eq_ok] at h
      obtain ⟨⟨⟩, hl, rfl⟩ := h
      exact .literal hl
  | setLiteral ls =>
      simp only [Expr.term, bind_eq_ok, pure_eq_ok] at h
      obtain ⟨-, -, rfl⟩ := h
      exact .setLiteral
  | view array positions =>
      simp only [Expr.term, bind_eq_ok, pure_eq_ok, arrayShape_eq_ok] at h
      obtain ⟨s, hs, shape, hshape, cs, hcs, rfl⟩ := h
      exact .view hs hshape (cuts_spelled hcs)
  | range start stop =>
      simp only [Expr.term, rangeSpan_eq_ok] at h
      obtain ⟨type, a, b, hrange, htype, ha, hb, rfl⟩ := h
      exact .range hrange htype ha hb
  | sequence es =>
      simp only [Expr.term, bind_eq_ok, pure_eq_ok] at h
      obtain ⟨ts, hts, rfl⟩ := h
      exact .sequence (terms_spelled hts)
  | enumeration x =>
      simp only [Expr.term, pure_eq_ok] at h
      exact h ▸ .enumeration
  | iterator id type =>
      simp only [Expr.term, bind_eq_ok, pure_eq_ok] at h
      obtain ⟨s, hs, rfl⟩ := h
      exact .iterator hs
  | unary op e =>
      simp only [Expr.term, bind_eq_ok, pure_eq_ok] at h
      obtain ⟨t, ht, rfl⟩ := h
      exact .unary ht
  | binary op e₁ e₂ =>
      rw [Expr.term] at h
      by_cases hzero : (op.isIntegerDivision && e₂.isZero) = true
      · rw [if_pos hzero] at h
        exact absurd h throw_ne_ok
      · rw [if_neg hzero] at h
        simp only [bind_eq_ok, pure_eq_ok] at h
        obtain ⟨t₁, h₁, t₂, h₂, rfl⟩ := h
        exact .binary hzero h₁ h₂
  | power e₁ e₂ =>
      simp only [Expr.term, bind_eq_ok, pure_eq_ok] at h
      obtain ⟨t₁, h₁, t₂, h₂, rfl⟩ := h
      exact .power h₁ h₂
  | size array dim =>
      simp only [Expr.term, bind_eq_ok, pure_eq_ok] at h
      obtain ⟨s, hs, shape, -, rfl⟩ := h
      exact .size hs
  | aggregate op es =>
      simp only [Expr.term, bind_eq_ok, pure_eq_ok] at h
      obtain ⟨us, hus, rfl⟩ := h
      exact .aggregate (argTerms_spelled hus)
  | comprehension op gs body =>
      simp only [Expr.term, bind_eq_ok, pure_eq_ok] at h
      obtain ⟨⟨hs, inner⟩, hhs, t, ht, rfl⟩ := h
      exact .comprehension (heads_spelled hhs) ht
  | global kind es =>
      simp only [Expr.term, bind_eq_ok, pure_eq_ok] at h
      obtain ⟨us, hus, rfl⟩ := h
      exact .global (argTerms_spelled hus)
  | _ =>
      simp only [Expr.term, bind_eq_ok, pure_eq_ok] at h
      obtain ⟨s, hs, rfl⟩ := h
      exact .entity hs

/-- The term of a view is an element or a call. -/
theorem viewTerm_cases (s : Symbol) (rank : Nat) (cs : List Cut) :
    (∃ ts, viewTerm s rank cs = .element s ts) ∨ ∃ f ts, viewTerm s rank cs = .call f ts := by
  unfold viewTerm
  simp only
  split_ifs
  · exact .inl ⟨_, rfl⟩
  · exact .inr ⟨_, _, rfl⟩
  · exact .inr ⟨_, _, rfl⟩
  · exact .inr ⟨_, _, rfl⟩

theorem Source.CutSpelled.eq_span {p : Position} {cut : Cut} {R : Expr → Term → Prop}
    (h : CutSpelled R p cut) {t : Term} (ht : t = cut.span ∨ t = cut.indexSet) :
    ∃ a b, t = .span false a b := by
  cases h with
  | index _ | slice _ _ => exact ht.elim (fun h => ⟨_, _, h⟩) fun h => ⟨_, _, h⟩

/-! ## Origins -/

/-- Where a term comes from that is printed inside the term of `root`: it is the term of an expression
that `root` prints, what is taken along a dimension of a view or its index set, or a term that is put
in around such terms. -/
inductive Origin (v : Vocabulary) (root : Expr) : Term → Prop
  | spelled {e scope t} : root.Shows e → e.term v scope = .ok t → Origin v root t
  | taken {array ps p cut scope t} : root.Shows (.view array ps) → p ∈ ps →
      CutSpelled (fun e t => e.term v scope = .ok t) p cut → t = cut.span ∨ t = cut.indexSet →
      Origin v root t
  | int (n : Int) : Origin v root (.int n)
  | entity (s : Symbol) : Origin v root (.entity s)
  | list {ts} : (∀ t ∈ ts, Origin v root t) → Origin v root (.list ts)
  | call {f ts} : (∀ t ∈ ts, Origin v root t) → Origin v root (.call f ts)
  | difference {a b} : Origin v root a → Origin v root b → Origin v root (.binary .sub a b)

namespace Origin

theorem lastBelow {stop : Expr} {last : Term} (h : Origin v root last) :
    Origin v root (lastBelow stop last) := by
  unfold Source.lastBelow
  split
  · exact .int _
  · exact .difference h (.int 1)

theorem lastIndex {start stop : Expr} {first last : Term} (hfirst : Origin v root first)
    (hlast : Origin v root last) : Origin v root (lastIndex start stop first last) := by
  unfold Source.lastIndex
  split
  · exact .int _
  · exact .difference hlast (.int 1)
  · exact .difference (.difference hlast hfirst) (.int 1)

theorem argTerm {flatten : Bool} {e : Expr} {t : Term} (h : Origin v root t) :
    Origin v root (argTerm flatten e t) := by
  unfold Source.argTerm
  split_ifs
  · exact .call (List.forall_mem_singleton.2 h)
  · exact h

theorem args {flatten : Bool} {es : List Expr} {us : List Term}
    (hes : ∀ e ∈ es, root.Shows e)
    (h : List.Forall₂ (ArgSpelled flatten fun e t => e.term v scope = .ok t) es us) :
    ∀ u ∈ us, Origin v root u := by
  intro u hu
  obtain ⟨e, he, t, ht, rfl⟩ := exists_of_mem_right h hu
  exact argTerm (.spelled (hes e he) ht)

theorem heads {gs : List Generator} {hs : List (Symbol × Term)} {inner : Scope}
    (hgs : ∀ e ∈ gs.map Generator.domain, root.Shows e)
    (h : HeadsSpelled v (fun scope e t => e.term v scope = .ok t) scope gs hs inner) :
    ∀ t ∈ hs.map Prod.snd, Origin v root t := by
  induction h with
  | nil => simp
  | @cons scope id type domain t gs hs inner ht _ ih =>
      obtain ⟨hdomain, hgs⟩ := List.forall_mem_cons.1 hgs
      exact List.forall_mem_cons.2 ⟨.spelled hdomain ht, ih hgs⟩

/-! ### One step down -/

variable {array : Expr} {ps : List Position}

theorem shows_operand (hview : root.Shows (.view array ps)) {p : Position} (hp : p ∈ ps) {e : Expr}
    (he : e ∈ p.operands) : root.Shows e :=
  hview.tail (List.mem_append_right _ (List.mem_flatMap.2 ⟨p, hp, he⟩))

/-- What a cut consists of comes from the index or the bounds of its position. -/
theorem of_cut_parts (hview : root.Shows (.view array ps)) {p : Position} (hp : p ∈ ps) {cut : Cut}
    (hcut : CutSpelled (fun e t => e.term v scope = .ok t) p cut) {s : Term}
    (hs : s ∈ cut.span.parts ∨ s ∈ cut.indexSet.parts) : Origin v root s := by
  cases hcut with
  | @index i t ht =>
      have hi : Origin v root t := .spelled (shows_operand hview hp (by simp [Position.operands])) ht
      simp only [Cut.span, Cut.indexSet, Term.parts, List.mem_cons, List.not_mem_nil, or_false] at hs
      rcases hs with (rfl | rfl) | rfl | rfl
      · exact hi
      · exact hi
      · exact .int 0
      · exact .int 0
  | @slice start stop first last hfirst hlast =>
      have hstart : Origin v root first :=
        .spelled (shows_operand hview hp (by simp [Position.operands])) hfirst
      have hstop : Origin v root last :=
        .spelled (shows_operand hview hp (by simp [Position.operands])) hlast
      simp only [Cut.ofSlice, Cut.span, Cut.indexSet, Term.parts, List.mem_cons, List.not_mem_nil,
        or_false] at hs
      rcases hs with (rfl | rfl) | rfl | rfl
      · exact hstart
      · exact lastBelow hstop
      · exact .int 0
      · exact lastIndex hstart hstop

/-- What the term of a view consists of comes from its positions, or is put in. -/
theorem of_view_parts (hview : root.Shows (.view array ps)) {cuts : List Cut}
    (hcuts : List.Forall₂ (CutSpelled fun e t => e.term v scope = .ok t) ps cuts) {symbol : Symbol}
    {rank : Nat} {s : Term} (hs : s ∈ (viewTerm symbol rank cuts).parts) : Origin v root s := by
  have htaken : ∀ c ∈ cuts, ∀ t, t = c.span ∨ t = c.indexSet → Origin v root t := by
    intro c hc t ht
    obtain ⟨p, hp, hcut⟩ := exists_of_mem_right hcuts hc
    exact .taken hview hp hcut ht
  have hspans : Origin v root (.list (cuts.map Cut.span)) :=
    .list (List.forall_mem_map.2 fun c hc => htaken c hc _ (.inl rfl))
  have hsets : ∀ t ∈ cuts.map Cut.indexSet, Origin v root t :=
    List.forall_mem_map.2 fun c hc => htaken c hc _ (.inr rfl)
  have hargs : ∀ t ∈ Term.entity symbol :: .list (cuts.map Cut.span) :: cuts.map Cut.indexSet,
      Origin v root t :=
    List.forall_mem_cons.2 ⟨.entity symbol, List.forall_mem_cons.2 ⟨hspans, hsets⟩⟩
  unfold viewTerm at hs
  simp only at hs
  split_ifs at hs with hempty
  · obtain ⟨c, hc, hindex⟩ := List.mem_filterMap.1 hs
    cases c with
    | index i =>
        cases hindex
        obtain ⟨p, hp, hcut⟩ := exists_of_mem_right hcuts hc
        exact of_cut_parts hview hp hcut (.inl (by simp [Cut.span, Term.parts]))
    | slice _ _ => cases hindex
  · exact hargs s hs
  · rw [List.mem_singleton.1 hs]
    exact .call hargs
  · rcases List.mem_append.1 hs with hs | hs
    · obtain ⟨c, hc, hkept⟩ := List.mem_filterMap.1 hs
      cases c with
      | index _ => cases hkept
      | slice _ _ =>
          cases hkept
          exact htaken _ hc _ (.inr rfl)
    · rw [List.mem_singleton.1 hs]
      exact .call hargs

/-- What the term of an expression consists of has an origin too. -/
theorem of_term_parts {e : Expr} (he : root.Shows e) {t s : Term} (ht : e.term v scope = .ok t)
    (hs : s ∈ t.parts) : Origin v root s := by
  have hpart {e' : Expr} (he' : e' ∈ e.parts) : root.Shows e' :=
    he.tail (List.mem_append_left _ he')
  cases spells_of_term ht with
  | literal _ | setLiteral | entity _ | enumeration | iterator _ => cases hs
  | view _ _ hcuts => exact of_view_parts he hcuts hs
  | @range start stop type first last _ _ hfirst hlast =>
      have hstart : Origin v root first := .spelled (hpart (by simp [Expr.parts])) hfirst
      have hstop : Origin v root last := .spelled (hpart (by simp [Expr.parts])) hlast
      have hbounds : s = first ∨ s = last ∨ s = Source.lastBelow stop last := by
        unfold spanOf at hs
        split_ifs at hs <;> simp only [Term.parts, List.mem_cons, List.not_mem_nil, or_false] at hs
        · exact hs.imp id .inl
        · exact hs.imp id .inr
      rcases hbounds with rfl | rfl | rfl
      · exact hstart
      · exact hstop
      · exact lastBelow hstop
  | sequence hts =>
      obtain ⟨e', he', hterm⟩ := exists_of_mem_right hts hs
      exact .spelled (hpart he') hterm
  | unary hterm =>
      rw [List.mem_singleton.1 hs]
      exact .spelled (hpart (by simp [Expr.parts])) hterm
  | binary _ h₁ h₂ | power h₁ h₂ =>
      simp only [Term.parts, List.mem_cons, List.not_mem_nil, or_false] at hs
      rcases hs with rfl | rfl
      · exact .spelled (hpart (by simp [Expr.parts])) h₁
      · exact .spelled (hpart (by simp [Expr.parts])) h₂
  | size hsymbol =>
      simp only [sizeTerm, Term.parts, List.mem_cons, List.not_mem_nil, or_false] at hs
      rcases hs with rfl | rfl
      · exact .call (List.forall_mem_singleton.2 (.call (List.forall_mem_singleton.2 (.entity _))))
      · exact .int 1
  | aggregate hus => exact args (fun e' he' => hpart he') hus s hs
  | global hus => exact args (fun e' he' => hpart he') hus s hs
  | comprehension hheads hbody =>
      rcases List.mem_append.1 hs with hs | hs
      · exact heads (fun e' he' => hpart (List.mem_append_left _ he')) hheads s hs
      · rw [List.mem_singleton.1 hs]
        exact .spelled (hpart (List.mem_append_right _ (List.mem_singleton_self _))) hbody

/-- What a term with an origin consists of has one too. -/
theorem step {t s : Term} (h : Origin v root t) (hs : s ∈ t.parts) : Origin v root s := by
  cases h with
  | spelled he ht => exact of_term_parts he ht hs
  | taken hview hp hcut ht =>
      refine of_cut_parts hview hp hcut ?_
      rcases ht with rfl | rfl
      · exact .inl hs
      · exact .inr hs
  | int _ | entity _ => cases hs
  | list hts | call hts => exact hts s hs
  | difference ha hb =>
      simp only [Term.parts, List.mem_cons, List.not_mem_nil, or_false] at hs
      rcases hs with rfl | rfl
      · exact ha
      · exact hb

/-- All that is printed inside the term of an expression has an origin. -/
theorem of_shows {t s : Term} (h : Origin v root t) (hs : t.Shows s) : Origin v root s := by
  induction hs with
  | refl => exact h
  | tail _ hp ih => exact ih.step hp

/-! ### Nodes -/

/-- Every division is that of an expression, and its divisor is not known to be zero. -/
theorem exists_division {op : BinaryOp} {x y : Term} (h : Origin v root (.binary op x y))
    (hop : op.isIntegerDivision = true) : ∃ a b scope, root.Shows (.binary op a b) ∧
      a.term v scope = .ok x ∧ b.term v scope = .ok y ∧ b.isZero = false := by
  generalize hz : Term.binary op x y = z at h
  cases h with
  | @spelled e scope t he ht =>
      cases spells_of_term ht with
      | binary hzero h₁ h₂ =>
          cases hz
          refine ⟨_, _, scope, he, h₁, h₂, ?_⟩
          simpa [hop] using hzero
      | view _ _ _ =>
          obtain ⟨ts, hview⟩ | ⟨f, ts, hview⟩ := viewTerm_cases _ _ _ <;> rw [hview] at hz <;>
            cases hz
      | range _ _ _ _ =>
          unfold spanOf at hz
          split_ifs at hz
      | size _ =>
          -- The extent of a dimension is a sum.
          cases hz
          cases hop
      | _ => cases hz
  | taken _ _ hcut ht =>
      obtain ⟨a, b, rfl⟩ := hcut.eq_span ht
      cases hz
  | difference _ _ =>
      cases hz
      cases hop
  | _ => cases hz

/-- Every span is a range, or reaches over a dimension of a view. -/
theorem exists_span {float : Bool} {first last : Term} (h : Origin v root (.span float first last)) :
    (∃ start stop scope type stopTerm, root.Shows (.range start stop) ∧
      requireRange start stop = .ok () ∧ (Expr.range start stop).elemType = .ok type ∧
      start.term v scope = .ok first ∧ stop.term v scope = .ok stopTerm ∧
      last = if type = .float then stopTerm else Source.lastBelow stop stopTerm) ∨
    ∃ array ps p cut scope, root.Shows (.view array ps) ∧ p ∈ ps ∧
      CutSpelled (fun e t => e.term v scope = .ok t) p cut ∧
      (.span float first last = cut.span ∨ .span float first last = cut.indexSet) := by
  generalize hz : Term.span float first last = z at h
  cases h with
  | @spelled e scope t he ht =>
      cases spells_of_term ht with
      | @range start stop type a b hrange htype ha hb =>
          refine .inl ⟨start, stop, scope, type, b, he, hrange, htype, ?_⟩
          unfold spanOf at hz
          split_ifs at hz with hfloat <;> cases hz
          · exact ⟨ha, hb, (if_pos hfloat).symm⟩
          · exact ⟨ha, hb, (if_neg hfloat).symm⟩
      | view _ _ _ =>
          obtain ⟨ts, hview⟩ | ⟨f, ts, hview⟩ := viewTerm_cases _ _ _ <;> rw [hview] at hz <;>
            cases hz
      | size _ => cases hz
      | _ => cases hz
  | taken hview hp hcut ht =>
      exact .inr ⟨_, _, _, _, _, hview, hp, hcut, hz ▸ ht⟩
  | _ => cases hz

end Origin

/-- Literals, enumerations and entities are spelled as they are: nothing else has their terms. -/
theorem leaf_of_term {e : Expr} {t : Term} (h : e.term v scope = .ok t) :
    (∀ l, t = .literal l → e = .literal l) ∧ (∀ x, t = .enumeration x → e = .enumeration x) ∧
      ∀ s, t = .entity s → e.id? = some s.id := by
  cases spells_of_term h with
  | literal _ | enumeration => simp
  | entity hs => simpa using symbolOf_id hs
  | view _ _ _ =>
      obtain ⟨ts, hview⟩ | ⟨f, ts, hview⟩ := viewTerm_cases _ _ _ <;> rw [hview] <;> simp
  | range _ _ _ _ =>
      unfold spanOf
      split_ifs <;> simp
  | _ => simp [sizeTerm]

/-! ## Programs -/

/-- What is printed inside a term of a program: what comes from an expression that the model spells,
an interval that a parameter set is, and equations. -/
inductive ResolvedModel.Prints (r : ResolvedModel) : Term → Prop
  | origin {e s} : e ∈ r.spelled → Origin (.ofModel r) e s → r.Prints s
  | interval {entry id a stop} : entry ∈ r.parameters ++ r.decisions →
      entry.2 = .paramSet id (.interval a stop) → r.Prints (.span false (.int a) (.int (stop - 1)))
  | int (n : Int) : r.Prints (.int n)
  | equation (s : Symbol) (t : Term) : r.Prints (.binary .eq (.entity s) t)
  | entity (s : Symbol) : r.Prints (.entity s)

theorem prints_of_mem_terms {r : ResolvedModel} {p : Program} (h : r.program = .ok p) {t : Term}
    (ht : t ∈ p.terms) : ∀ s, t.Shows s → r.Prints s := by
  have hspelled {e : Expr} {t : Term} (he : e ∈ r.spelled)
      (heq : e.term (.ofModel r) [] = .ok t) (s : Term) (hs : t.Shows s) : r.Prints s :=
    .origin he (.of_shows (.spelled .refl heq) hs)
  cases shows_of_mem_terms h ht with
  | spelled he heq => exact hspelled he heq
  | interval hentry hset =>
      refine Term.forall_shows_iff.2 ⟨.interval hentry hset, List.forall_mem_cons.2 ⟨?_, ?_⟩⟩
      · exact Term.forall_shows_iff.2 ⟨.int _, by simp [Term.int, Term.parts]⟩
      · refine List.forall_mem_singleton.2 (Term.forall_shows_iff.2 ⟨.int _, ?_⟩)
        simp [Term.int, Term.parts]
  | equation hentry heq =>
      refine Term.forall_shows_iff.2 ⟨.equation _ _, List.forall_mem_cons.2 ⟨?_, ?_⟩⟩
      · exact Term.forall_shows_iff.2 ⟨.entity _, by simp [Term.parts]⟩
      · exact List.forall_mem_singleton.2
          (hspelled (mem_spelled.2 (.inr (.inl ⟨_, hentry, rfl⟩))) heq)

/-! ## Identities -/

/-- Whether no two entities share the identity of one of these entries: a leaf that is printed with the
identity of an entry is the entry. -/
def ResolvedModel.Identifies (r : ResolvedModel) (entries : List (String × Expr)) : Prop :=
  ∀ entry ∈ entries, ∀ e ∈ r.spelled, ∀ l, e.Shows l → l.id? = entry.2.id? → l = entry.2

end ConstraintModel
