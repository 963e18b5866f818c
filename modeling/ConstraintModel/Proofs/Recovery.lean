import ConstraintModel.Proofs.Wording

/-!
# Recovery of expressions from their text

The text of the term of an expression is a wording of that expression, with numbers for the names
of its iterators, where all words of the model differ. So two expressions with one text are the
same up to the names of their iterators.
-/

namespace ConstraintModel

open Source

/-! ## Iterators in scope -/

/-- An iterator in scope with the type of its domain. -/
structure Binder where
  symbol : Symbol
  type : ElemType

/-- The iterators in scope, innermost first. -/
abbrev Binders := List Binder

namespace Binders

def scope (bs : Binders) : Scope :=
  bs.map Binder.symbol

def types (bs : Binders) : IteratorTypes :=
  bs.map fun b => (b.symbol.id, b.type)

def numbers : Binders → Numbers
  | [] => []
  | b :: bs => (numbers bs).bind b.symbol.id

def words : Binders → IteratorWords
  | [] => []
  | b :: bs => (b.symbol.word, .iterator ⟨bs.length⟩ b.type) :: words bs

@[simp] theorem length_numbers (bs : Binders) : bs.numbers.length = bs.length := by
  induction bs with
  | nil => rfl
  | cons b bs ih => simp [numbers, Numbers.bind, ih]

@[simp] theorem length_words (bs : Binders) : bs.words.length = bs.length := by
  induction bs with
  | nil => rfl
  | cons b bs ih => simp [words, ih]

theorem lookup_words_eq_none {bs : Binders} {w : String} (h : w ∉ Symbol.words bs.scope) :
    bs.words.lookup w = none := by
  induction bs with
  | nil => rfl
  | cons b bs ih =>
      obtain ⟨hne, h⟩ := not_or.1 (mt List.mem_cons.2 h)
      rw [words, List.lookup_cons, beq_eq_false_iff_ne.2 hne]
      exact ih h

/-- The word of an iterator and its identity lead to the same number, and to its type. -/
theorem lookup_words {bs : Binders} {id : NodeId} {s : Symbol} {type : ElemType}
    (hnodup : (Symbol.words bs.scope).Nodup) (hs : Symbol.lookup id bs.scope = some s)
    (htype : bs.types.lookup id = some type) :
    ∃ k, bs.numbers.lookup id = some k ∧ bs.words.lookup s.word = some (.iterator k type) := by
  induction bs with
  | nil => cases hs
  | cons b bs ih =>
      obtain ⟨hb, hnodup⟩ := List.nodup_cons.1 hnodup
      by_cases hid : b.symbol.id = id
      · subst hid
        have hsymbol : b.symbol = s := by simpa [Symbol.lookup, scope] using hs
        have htype : b.type = type := by simpa [types] using htype
        subst hsymbol htype
        exact ⟨⟨bs.length⟩, by simp [numbers, Numbers.bind], by simp [words]⟩
      · have hne : id ≠ b.symbol.id := Ne.symm hid
        have hs : Symbol.lookup id (scope bs) = some s := by
          simpa [Symbol.lookup, scope, hid] using hs
        obtain ⟨k, hk, hw⟩ := ih hnodup hs (by
          simpa [types, List.lookup_cons, beq_eq_false_iff_ne.2 hne] using htype)
        have hword : s.word ≠ b.symbol.word := by
          intro heq
          exact hb (heq ▸ List.mem_map_of_mem (List.mem_of_find?_eq_some hs))
        refine ⟨k, ?_, ?_⟩
        · rw [numbers, Numbers.bind, List.lookup_cons, beq_eq_false_iff_ne.2 hne]
          exact hk
        · rw [words, List.lookup_cons, beq_eq_false_iff_ne.2 hword]
          exact hw

end Binders

/-! ## Spelling -/

/-- The iterators in a scope, with words that are free and valid. -/
structure Binders.InScope (g : Glossary) (scope : Scope) (bs : Binders) : Prop where
  scope_eq : bs.scope = scope
  free : Scope.Free (.ofModel g.model) scope
  valid : ∀ s ∈ scope, Identifier.require s.word = .ok ()

/-- In such a scope the term of a well-made expression reads as the expression, with numbers for the
names of iterators. -/
def Recovered (g : Glossary) (scope : Scope) (e : Expr) (t : Term) : Prop :=
  ∀ bs : Binders, bs.InScope g scope → e.WellMade g bs.types →
    g.Reads bs.words (e.numbered bs.numbers) t.text.toList

variable {g : Glossary}

namespace Binders.InScope

variable {scope : Scope} {bs : Binders}

theorem nil (g : Glossary) : Binders.InScope g [] [] :=
  ⟨rfl, .nil _, by simp⟩

theorem cons (h : bs.InScope g scope) (id : NodeId) (type : ElemType) :
    Binders.InScope g (⟨id, Vocabulary.nextIterator (.ofModel g.model) scope⟩ :: scope)
      (⟨⟨id, Vocabulary.nextIterator (.ofModel g.model) scope⟩, type⟩ :: bs) :=
  ⟨congrArg _ h.scope_eq, h.free.cons id,
    List.forall_mem_cons.2 ⟨nextIterator_valid _ _, h.valid⟩⟩

theorem apart (h : bs.InScope g scope) : g.Apart bs.words := by
  intro w hw
  refine Binders.lookup_words_eq_none fun hscope => ?_
  rw [h.scope_eq] at hscope
  obtain ⟨s, hs, rfl⟩ := List.mem_map.1 hscope
  rcases List.mem_append.1 hw with hw | hw
  · exact h.free.not_entity s hs hw
  · exact h.free.not_enumeration s hs hw

end Binders.InScope

/-- The items of a list read as the list of what they stand for. -/
theorem items_recovered {scope : Scope} {es : List Expr} {ts : List Term}
    (h : List.Forall₂ (Recovered g scope) es ts) {bs : Binders} (hbs : bs.InScope g scope)
    (hes : ∀ e ∈ es, e.WellMade g bs.types) :
    List.Forall₂ (g.Reads bs.words) (allNumbered bs.numbers es)
      (ts.map fun t => t.text.toList) := by
  induction h with
  | nil => exact .nil
  | cons h _ ih =>
      obtain ⟨he, hes⟩ := List.forall_mem_cons.1 hes
      exact .cons (h bs hbs he) (ih hes)

theorem arg_recovered {scope : Scope} {flatten : Bool} {e : Expr} {u : Term}
    (h : ArgSpelled flatten (Recovered g scope) e u) : Recovered g scope e u := by
  obtain ⟨t, ht, rfl⟩ := h
  intro bs hbs he
  have hread := ht bs hbs he
  unfold argTerm
  split_ifs
  · have hcall := Glossary.ReadsAtom.call (isWord_function (.reshape 1))
      (.cons hread .nil) rfl
    simpa [Term.text, Term.texts, toList_commaSeparated] using hcall.reads
  · exact hread

theorem args_recovered {scope : Scope} {flatten : Bool} {es : List Expr} {us : List Term}
    (h : List.Forall₂ (ArgSpelled flatten (Recovered g scope)) es us) :
    List.Forall₂ (Recovered g scope) es us :=
  h.imp fun _ _ => arg_recovered

/-- The positions of a well-made view are indices, and so are its cuts. -/
theorem indices_recovered {scope : Scope} {ps : List Position} {cs : List Cut}
    (h : List.Forall₂ (CutSpelled (Recovered g scope)) ps cs) {types : IteratorTypes}
    (hps : positionsWellMade g ps types) : ∃ es ts, ps = es.map .index ∧ cs = ts.map .index ∧
      List.Forall₂ (Recovered g scope) es ts ∧ ∀ e ∈ es, e.WellMade g types := by
  induction h with
  | nil => exact ⟨[], [], rfl, rfl, .nil, by simp⟩
  | cons hp _ ih =>
      cases hp with
      | @index i t hi =>
          obtain ⟨hmade, hps⟩ := hps
          obtain ⟨es, ts, rfl, rfl, hrec, hes⟩ := ih hps
          exact ⟨i :: es, t :: ts, rfl, rfl, .cons hi hrec, List.forall_mem_cons.2 ⟨hmade, hes⟩⟩
      | slice _ _ => exact hps.elim

/-- The heads of generators read as the generators, with numbers for their iterators, and bind these
words and numbers together. -/
theorem heads_recovered {scope inner : Scope} {gs : List Generator} {hs : List (Symbol × Term)}
    (h : HeadsSpelled (.ofModel g.model) (Recovered g) scope gs hs inner) {bs : Binders}
    (hbs : bs.InScope g scope) (hgs : generatorsWellMade g gs bs.types) :
    ∃ (items : List Item) (bs' : Binders),
      List.Forall₂ ItemReads ((Term.headTexts hs).map String.toList) items ∧
      g.recoverHeads bs.words items = some (generatorsNumbered bs.numbers gs, bs'.words) ∧
      bs'.InScope g inner ∧ bs'.types = bs.types.inside gs ∧
      bs'.numbers = bs.numbers.inside gs := by
  -- Each head binds one iterator in the scope, in its types, its words and its numbers alike.
  induction h generalizing bs with
  | nil => exact ⟨[], bs, .nil, by simp [Glossary.recoverHeads, generatorsNumbered], hbs, rfl, rfl⟩
  | @cons scope id type domain t gs hs inner ht _ ih =>
      obtain ⟨hdomain, htype, hgs⟩ := hgs
      have hvalid := nextIterator_valid (.ofModel g.model) scope
      have hbs' := hbs.cons id type
      generalize Vocabulary.nextIterator (.ofModel g.model) scope = w at hvalid hbs' ih ⊢
      have hword : PhraseReads w.toList (.word w) := by
        simpa using PhraseReads.atom (.word (isWord_of_valid hvalid))
      obtain ⟨p, hp, -, hrecover⟩ := ht bs hbs hdomain
      obtain ⟨items, bs', hitems, hheads, hscope, htypes, hnumbers⟩ :=
        ih hbs' hgs
      refine ⟨(some w, p) :: items, bs', .cons ?_ hitems, ?_, hscope, htypes, hnumbers⟩
      · simpa using hword.drawn hp
      · have hoption : (domain.numbered bs.numbers).elemType.toOption = some type := by
          rw [domain.elemType_numbered, htype]
          rfl
        rw [Binders.words] at hheads
        simp only [Glossary.recoverHeads, hrecover, hoption, Option.bind_eq_bind, Option.bind_some,
          Binders.length_words, hheads, generatorsNumbered, Binders.length_numbers]
        rfl

/-! ### Ranges -/

theorem below_reads {words : IteratorWords} {bound : Numbers} {stop : Expr} {last : Term}
    (h : g.Reads words (stop.numbered bound) last.text.toList) :
    g.ReadsAtom words (Glossary.below (stop.numbered bound)) (lastBelow stop last).text.toList := by
  unfold Glossary.below lastBelow
  rw [literalInt?_numbered]
  cases stop.literalInt? with
  | some v => exact Glossary.readsAtom_int (v - 1)
  | none => simpa [Term.text, Term.int] using h.binary .sub (Glossary.readsAtom_int 1).reads

/-- A span reads as the range that it was written for, since the types of its bounds tell whether
its stop is the last member or one above it. -/
theorem spanOf_reads {words : IteratorWords} {bound : Numbers} {start stop : Expr} {type : ElemType}
    {first last : Term} (hstart : start.isCollection = false) (hstop : stop.isCollection = false)
    (htype : (Expr.range start stop).elemType = .ok type)
    (hfirst : g.Reads words (start.numbered bound) first.text.toList)
    (hlast : g.Reads words (stop.numbered bound) last.text.toList) :
    g.Reads words ((Expr.range start stop).numbered bound)
      (spanOf type stop first last).text.toList := by
  have hnumbered : ((Expr.range start stop).numbered bound).elemType = .ok type :=
    ((Expr.range start stop).elemType_numbered bound).trans htype
  rw [Expr.numbered] at hnumbered ⊢
  have hfirst := hfirst.atom (by simpa using hstart)
  unfold spanOf
  split_ifs with hfloat
  · subst hfloat
    have hread := hfirst.span (hlast.atom (by simpa using hstop))
    rw [Glossary.rangeTo, hnumbered, if_pos (by rfl)] at hread
    simpa [Term.text] using hread
  · have hread := hfirst.span (below_reads hlast)
    rw [Glossary.rangeTo_below (by simpa using hstop) hnumbered hfloat] at hread
    simpa [Term.text] using hread

theorem spellingRules_recovered (hg : g.Distinct) :
    SpellingRules (.ofModel g.model) (Recovered g) where
  literal scope l hfinite := by
    rintro bs hbs hl
    exact (hg.readsAtom_literal hbs.apart hl hfinite).reads
  setLiteral scope ls hfinite := by
    rintro bs hbs hls
    have hreads : List.Forall₂ (g.Reads bs.words) (ls.map .literal)
        (ls.map fun l => l.text.toList) := by
      rw [List.forall₂_map_left_iff, List.forall₂_map_right_iff, List.forall₂_same]
      exact fun l hl =>
        (hg.readsAtom_literal hbs.apart (hls l hl) (hfinite l hl)).reads
    obtain ⟨items, hitems, hrecover⟩ := Glossary.exists_items hreads
    have hmembers : (ls.map Expr.literal).mapM Glossary.literalOf? = some ls :=
      mapM_map_eq_some (fun l => (rfl : Glossary.literalOf? (.literal l) = some l)) ls
    refine ⟨.set items, ?_, rfl, by simp [Glossary.recover, hrecover, hmembers, Expr.numbered]⟩
    simpa [Term.text, toList_commaSeparated, Function.comp_def] using PhraseReads.atom (.set hitems)
  entity scope e id s hid hs := by
    rintro bs hbs he
    rw [Expr.numbered_of_id hid]
    exact (hg.readsAtom_symbol hbs.apart (symbolOf_eq_ok.2 ⟨id, hid, hs⟩)
      (he.holds hid)).reads
  view scope array shape positions s cs hs _ hcuts := by
    rintro bs hbs ⟨harray, hps⟩
    obtain ⟨es, ts, rfl, rfl, hrec, hes⟩ := indices_recovered hcuts hps
    obtain ⟨hentity, hword⟩ := hg.entity?_symbol hs harray
    have hread := Glossary.ReadsAtom.element hword hentity (items_recovered hrec hbs hes)
    rw [viewTerm_indices, Expr.numbered, positionsNumbered_indices]
    simpa [Term.text, toList_commaSeparated, map_texts] using hread.reads
  range scope start stop type first last _ htype hfirst hlast := by
    rintro bs hbs ⟨hstart, hstop, hmade, hmade'⟩
    exact spanOf_reads hstart hstop htype (hfirst bs hbs hmade) (hlast bs hbs hmade')
  sequence scope items ts hts := by
    rintro bs hbs he
    obtain ⟨items, hitems, hrecover⟩ :=
      Glossary.exists_items (items_recovered hts hbs (allWellMade_iff.1 he))
    refine ⟨.list items, ?_, rfl, by simp [Glossary.recover, hrecover, Expr.numbered]⟩
    simpa [Term.text, toList_commaSeparated, map_texts] using PhraseReads.atom (.list hitems)
  enumeration scope x := by
    rintro bs hbs hx
    exact (hg.readsAtom_enumeration hbs.apart hx).reads
  iterator scope id type s hs := by
    rintro bs hbs htype
    have hvalid := hbs.valid s (List.mem_of_find?_eq_some hs)
    have hfree := hbs.free.nodup
    rw [← hbs.scope_eq] at hs hfree
    obtain ⟨k, hk, hword⟩ := Binders.lookup_words hfree hs htype
    rw [Expr.numbered, hk]
    exact (Glossary.readsAtom_word hvalid (Glossary.lookup_iterator hvalid hword)).reads
  unary scope op e t ht := by
    rintro bs hbs he
    have hread := ht bs hbs he
    cases op with
    | not => simpa [Term.text, Term.unaryText, Expr.numbered] using hread.not.reads
    | negate => simpa [Term.text, Term.unaryText, Expr.numbered] using hread.negate.reads
    | absolute =>
        have habs := Glossary.ReadsAtom.call (f := "abs") (isWord_of_isWellFormed rfl)
          (.cons hread .nil) rfl
        simpa [Term.text, Term.unaryText, Expr.numbered, joined] using habs.reads
  binary scope op e₁ e₂ t₁ t₂ _ h₁ h₂ := by
    rintro bs hbs ⟨he₁, he₂⟩
    have hread := Glossary.Reads.binary op (h₁ bs hbs he₁) (h₂ bs hbs he₂)
    simpa [Term.text, Expr.numbered] using hread.reads
  power scope e₁ e₂ t₁ t₂ h₁ h₂ := by
    rintro bs hbs ⟨he₁, he₂⟩
    have hread := Glossary.ReadsAtom.call (isWord_function .power)
      (.cons (h₁ bs hbs he₁) (.cons (h₂ bs hbs he₂) .nil)) rfl
    simpa [Term.text, toList_commaSeparated, Term.texts, Expr.numbered] using hread.reads
  size scope array shape dim s hs hshape := by
    rintro bs hbs ⟨harray, shape', hshape', hdim⟩
    obtain rfl : shape = shape' := by simpa [hshape] using hshape'
    obtain ⟨hentity, hword⟩ := hg.entity?_symbol hs harray
    exact Glossary.sizeTerm_reads hword hentity hshape hdim
  aggregate scope op args ts hts := by
    rintro bs hbs he
    have hread := Glossary.ReadsAtom.call (isWord_function (.aggregate op))
      (items_recovered (args_recovered hts) hbs (allWellMade_iff.1 he))
      (Glossary.applied?_aggregate op _)
    simpa [Term.text, toList_commaSeparated, map_texts, Expr.numbered] using hread.reads
  comprehension scope op gs body hs inner t hheads hbody := by
    rintro bs hbs ⟨hgs, hmade⟩
    obtain ⟨items, bs', hitems, hheads, hbs', htypes, hnumbers⟩ := heads_recovered hheads hbs hgs
    rw [← htypes] at hmade
    have hbody := hbody bs' hbs' hmade
    rw [hnumbers] at hbody
    exact Glossary.comprehension_reads hitems hheads hbody
  global scope kind args ts hts := by
    rintro bs hbs he
    have hread := Glossary.ReadsAtom.call (isWord_function (.global kind))
      (items_recovered (args_recovered hts) hbs (allWellMade_iff.1 he))
      (Glossary.applied?_global kind _)
    simpa [Term.text, toList_commaSeparated, map_texts, Expr.numbered] using hread.reads

/-! ## Unambiguous texts -/

/-- In a model whose words all differ, two closed expressions with one text are equal but for the
names of their iterators. Their terms are taken in the same model, where an identity belongs to one
entity, and the floats in use are told apart by their texts. -/
theorem text_injective {model : Model} {n n' : Nat} {m : ResolvedModel}
    (h : model.resolve.run n = (.ok m, n'))
    (hdistinct : (Symbol.words m.symbols ++ m.enumerationWords).Nodup) {node : NodeId → Expr}
    {floats : List Float} (hfloats : ∀ x ∈ floats, ∀ y ∈ floats,
      Literal.floatLayout.write x = Literal.floatLayout.write y → x = y) {e e' : Expr}
    (he : e.WellMade ⟨m, node, floats⟩ []) (he' : e'.WellMade ⟨m, node, floats⟩ []) {t t' : Term}
    (ht : e.term (.ofModel m) [] = .ok t) (ht' : e'.term (.ofModel m) [] = .ok t')
    (htext : t.text = t'.text) : e.numbered [] = e'.numbered [] := by
  have hg : (Glossary.mk m node floats).Distinct := ⟨hdistinct, (resolve_words h).2.2, hfloats⟩
  have hreads {e : Expr} {t : Term} (he : e.WellMade ⟨m, node, floats⟩ [])
      (ht : e.term (.ofModel m) [] = .ok t) :
      Glossary.Reads ⟨m, node, floats⟩ [] (e.numbered []) t.text.toList :=
    Expr.term_induction (spellingRules_recovered hg) ht [] (.nil _) he
  obtain ⟨p, hp, -, hrecover⟩ := hreads he ht
  obtain ⟨p', hp', -, hrecover'⟩ := hreads he' ht'
  -- One text reads as one phrase, and that stands for both expressions.
  rw [htext] at hp
  rw [hp.unique hp', hrecover'] at hrecover
  exact Option.some.inj hrecover.symm

/-- An array of floats and a variable. -/
def weightedModel : Model where
  attributes := [("x", .var ⟨0⟩ .int), ("w", .paramArray ⟨1⟩ [.float 0.5, .float 1.5] ⟨[2]⟩)]
  constraints := []
  objective := .satisfy

/-- The sum of the elements of an array, each minus a half, by an iterator with the given identity.
-/
def weightedSum (id : NodeId) : Expr :=
  .comprehension .sum [.over id .int (.range (.literal (.int 0)) (.var ⟨0⟩ .int))]
    (.binary .sub (.view (.paramArray ⟨1⟩ [.float 0.5, .float 1.5] ⟨[2]⟩)
      [.index (.iterator id .int)]) (.literal (.float 0.5)))

def weightedNode (id : NodeId) : Expr :=
  if id = ⟨0⟩ then .var ⟨0⟩ .int else .paramArray ⟨1⟩ [.float 0.5, .float 1.5] ⟨[2]⟩

theorem weightedSum_wellMade (m : ResolvedModel) (id : NodeId) :
    (weightedSum id).WellMade ⟨m, weightedNode, [0.5]⟩ [] := by
  have hrange : (Expr.range (.literal (.int 0)) (.var ⟨0⟩ .int)).elemType = .ok .int := rfl
  have harray : Glossary.Holds ⟨m, weightedNode, [0.5]⟩
      (.paramArray ⟨1⟩ [.float 0.5, .float 1.5] ⟨[2]⟩) := ⟨⟨1⟩, rfl, rfl⟩
  have hvar : Glossary.Holds ⟨m, weightedNode, [0.5]⟩ (.var ⟨0⟩ .int) := ⟨⟨0⟩, rfl, rfl⟩
  refine ⟨⟨⟨rfl, rfl, trivial, hvar⟩, hrange, trivial⟩, ⟨harray, ?_, trivial⟩, ?_⟩
  · simp [Expr.WellMade, IteratorTypes.inside]
  · exact List.mem_singleton_self _

theorem text_injective_weightedSum : ∃ m n' t t', weightedModel.resolve.run 2 = (.ok m, n') ∧
    (weightedSum ⟨2⟩).term (.ofModel m) [] = .ok t ∧
    (weightedSum ⟨3⟩).term (.ofModel m) [] = .ok t' ∧ t.text = t'.text ∧
    (weightedSum ⟨2⟩).numbered [] = (weightedSum ⟨3⟩).numbered [] :=
  ⟨_, _, _, _, rfl, rfl, rfl, rfl,
    text_injective (rfl : weightedModel.resolve.run 2 = (.ok _, _)) (by decide) (by simp)
      (weightedSum_wellMade _ ⟨2⟩) (weightedSum_wellMade _ ⟨3⟩) rfl rfl rfl⟩

end ConstraintModel
