import ConstraintModel.Proofs.Composition
import ConstraintModel.Proofs.Renaming
import ConstraintModel.Source.Program

/-!
# Terms of renamed expressions

Where different identities stay different, a renamed expression is spelled as before: it finds the
same symbols, and its iterators get the same words. A term differs from the one before only in the
identities that stand beside its words, which neither its text nor its features show.
-/

namespace ConstraintModel

open Source

variable {σ : NodeId → NodeId}

/-! ## Renamed symbols -/

def Symbol.rename (σ : NodeId → NodeId) (s : Symbol) : Symbol :=
  ⟨σ s.id, s.word⟩

@[simp] theorem Symbol.words_rename (table : List Symbol) :
    Symbol.words (table.map (Symbol.rename σ)) = Symbol.words table := by
  simp [Symbol.words, Symbol.rename, Function.comp_def]

theorem Symbol.lookup_rename (hσ : Function.Injective σ) (id : NodeId) (table : List Symbol) :
    Symbol.lookup (σ id) (table.map (Symbol.rename σ)) =
      (Symbol.lookup id table).map (Symbol.rename σ) := by
  induction table with
  | nil => rfl
  | cons s table ih =>
      unfold Symbol.lookup at ih ⊢
      by_cases h : s.id = id
      · simp [h, Symbol.rename]
      · have hne : σ s.id ≠ σ id := fun heq => h (hσ heq)
        rw [List.map_cons, List.find?_cons_of_neg (by simpa [Symbol.rename] using hne),
          List.find?_cons_of_neg (by simpa using h), ih]

namespace Source

/-! ## Renamed terms -/

namespace Term

mutual

def rename (σ : NodeId → NodeId) : Term → Term
  | literal value => literal value
  | entity s => entity (s.rename σ)
  | iterator s => iterator (s.rename σ)
  | enumeration e => enumeration e
  | set members => set members
  | list items => list (renameAll σ items)
  | span float first last => span float (first.rename σ) (last.rename σ)
  | unary op operand => unary op (operand.rename σ)
  | binary op left right => binary op (left.rename σ) (right.rename σ)
  | element array indices => element (array.rename σ) (renameAll σ indices)
  | call function args => call function (renameAll σ args)
  | comprehension op heads body => comprehension op (renameHeads σ heads) (body.rename σ)

def renameAll (σ : NodeId → NodeId) : List Term → List Term
  | [] => []
  | t :: ts => t.rename σ :: renameAll σ ts

def renameHeads (σ : NodeId → NodeId) : List (Symbol × Term) → List (Symbol × Term)
  | [] => []
  | (s, domain) :: heads => (s.rename σ, domain.rename σ) :: renameHeads σ heads

end

theorem renameAll_eq_map (σ : NodeId → NodeId) (ts : List Term) :
    renameAll σ ts = ts.map (rename σ) := by
  induction ts with
  | nil => rfl
  | cons t ts ih => rw [renameAll, List.map_cons, ih]

mutual

/-- The text of a term does not show identities. -/
@[simp] theorem text_rename (σ : NodeId → NodeId) : ∀ t : Term, (t.rename σ).text = t.text
  | literal _ | entity _ | iterator _ | enumeration _ | set _ => rfl
  | list items => by simp only [rename, text, texts_rename σ items]
  | span _ first last => by simp only [rename, text, text_rename σ first, text_rename σ last]
  | unary _ operand => by simp only [rename, text, text_rename σ operand]
  | binary _ left right => by simp only [rename, text, text_rename σ left, text_rename σ right]
  | element _ indices => by simp only [rename, text, texts_rename σ indices, Symbol.rename]
  | call _ args => by simp only [rename, text, texts_rename σ args]
  | comprehension _ heads body => by
      simp only [rename, text, headTexts_rename σ heads, text_rename σ body]

theorem texts_rename (σ : NodeId → NodeId) : ∀ ts : List Term, texts (renameAll σ ts) = texts ts
  | [] => rfl
  | t :: ts => by simp only [renameAll, texts, text_rename σ t, texts_rename σ ts]

theorem headTexts_rename (σ : NodeId → NodeId) :
    ∀ heads : List (Symbol × Term), headTexts (renameHeads σ heads) = headTexts heads
  | [] => rfl
  | (_, domain) :: heads => by
      simp only [renameHeads, headTexts, text_rename σ domain, headTexts_rename σ heads,
        Symbol.rename]

end

mutual

@[simp] theorem features_rename (σ : NodeId → NodeId) :
    ∀ t : Term, (t.rename σ).features = t.features
  | literal _ | entity _ | iterator _ | enumeration _ | set _ => rfl
  | list items => by simp only [rename, features, allFeatures_rename σ items]
  | span _ first last => by
      simp only [rename, features, features_rename σ first, features_rename σ last]
  | unary _ operand => by simp only [rename, features, features_rename σ operand]
  | binary _ left right => by
      simp only [rename, features, features_rename σ left, features_rename σ right]
  | element _ indices => by simp only [rename, features, allFeatures_rename σ indices]
  | call _ args => by simp only [rename, features, allFeatures_rename σ args]
  | comprehension _ heads body => by
      simp only [rename, features, headFeatures_rename σ heads, features_rename σ body]

theorem allFeatures_rename (σ : NodeId → NodeId) :
    ∀ ts : List Term, allFeatures (renameAll σ ts) = allFeatures ts
  | [] => rfl
  | t :: ts => by
      simp only [renameAll, allFeatures, features_rename σ t, allFeatures_rename σ ts]

theorem headFeatures_rename (σ : NodeId → NodeId) :
    ∀ heads : List (Symbol × Term), headFeatures (renameHeads σ heads) = headFeatures heads
  | [] => rfl
  | (_, domain) :: heads => by
      simp only [renameHeads, headFeatures, features_rename σ domain, headFeatures_rename σ heads]

end

end Term

/-! ## Ranges and views -/

theorem requireRange_rename (start stop : Expr) :
    requireRange (start.rename σ) (stop.rename σ) = renameError σ (requireRange start stop) := by
  cases start <;> cases stop <;>
    simp [Expr.rename, requireRange, ModelError.rename]

theorem structural_rename : Structural (Symbol.rename σ) (Term.rename σ) where
  int _ := rfl
  entity _ := rfl
  list _ := congrArg Term.list (Term.renameAll_eq_map σ _)
  call f _ := congrArg (Term.call f) (Term.renameAll_eq_map σ _)
  element s _ := congrArg (Term.element (s.rename σ)) (Term.renameAll_eq_map σ _)
  span _ _ _ := rfl
  binary _ _ _ := rfl

theorem lastBelow_rename (stop : Expr) (last : Term) :
    lastBelow (stop.rename σ) (last.rename σ) = (lastBelow stop last).rename σ := by
  rw [structural_rename.lastBelow]
  simp only [lastBelow, Expr.literalInt?_rename]

theorem lastIndex_rename (start stop : Expr) (first last : Term) :
    lastIndex (start.rename σ) (stop.rename σ) (first.rename σ) (last.rename σ) =
      (lastIndex start stop first last).rename σ := by
  rw [structural_rename.lastIndex]
  simp only [lastIndex, Expr.literalInt?_rename]

theorem rangeSpan_rename (start stop : Expr) (first last : Except ModelError Term) :
    rangeSpan (start.rename σ) (stop.rename σ) (Term.rename σ <$> renameError σ first)
        (Term.rename σ <$> renameError σ last) =
      Term.rename σ <$> renameError σ (rangeSpan start stop first last) := by
  have htype : (Expr.range (start.rename σ) (stop.rename σ)).elemType =
      renameError σ (Expr.range start stop).elemType :=
    (Expr.range start stop).elemType_rename σ
  simp only [rangeSpan, requireRange_rename, htype, renameError_bind, map_bind]
  refine congrArg _ (funext fun _ => congrArg _ (funext fun type => ?_))
  split
  · simp [Term.rename]
  · simp [lastBelow_rename, Term.rename]

namespace Cut

def rename (σ : NodeId → NodeId) : Cut → Cut
  | index t => index (t.rename σ)
  | slice span indexSet => slice (span.rename σ) (indexSet.rename σ)

theorem rename_eq_map : Cut.rename σ = Cut.map (Term.rename σ) := by
  funext c
  cases c <;> rfl

theorem ofSlice_rename (start stop : Expr) (first last : Term) :
    ofSlice (start.rename σ) (stop.rename σ) (first.rename σ) (last.rename σ) =
      (ofSlice start stop first last).rename σ := by
  simp only [ofSlice, lastBelow_rename, lastIndex_rename, rename, Term.rename, Term.int]

end Cut

theorem viewTerm_rename (array : Symbol) (rank : Nat) (cuts : List Cut) :
    viewTerm (array.rename σ) rank (cuts.map (Cut.rename σ)) =
      (viewTerm array rank cuts).rename σ := by
  rw [structural_rename.viewTerm, Cut.rename_eq_map]

theorem arrayShape_rename (array : Expr) :
    arrayShape (array.rename σ) = renameError σ (arrayShape array) := by
  simp only [arrayShape, Expr.shape?_rename, Expr.description_rename]
  split <;> rfl

theorem argTerm_rename (flatten : Bool) (e : Expr) (t : Term) :
    argTerm flatten (e.rename σ) (t.rename σ) = (argTerm flatten e t).rename σ := by
  have hmulti : isMultidimensional (e.rename σ) = isMultidimensional e := by
    cases e <;> simp [Expr.rename, isMultidimensional, sliceCount_renamed]
  rw [structural_rename.argTerm]
  simp only [argTerm, hmulti]

/-! ## Terms -/

abbrev Scope.rename (σ : NodeId → NodeId) (scope : Scope) : Scope :=
  scope.map (Symbol.rename σ)

theorem Scope.symbolOf_rename (hσ : Function.Injective σ) (scope : Scope) (id : NodeId) :
    (scope.rename σ).symbolOf (σ id) =
      Symbol.rename σ <$> renameError σ (scope.symbolOf id) := by
  simp only [Scope.symbolOf, Symbol.lookup_rename hσ]
  cases Symbol.lookup id scope <;> rfl

namespace Vocabulary

def rename (σ : NodeId → NodeId) (v : Vocabulary) : Vocabulary :=
  { v with symbols := v.symbols.map (Symbol.rename σ) }

theorem symbolOf_rename (hσ : Function.Injective σ) (v : Vocabulary) (e : Expr) :
    (v.rename σ).symbolOf (e.rename σ) = Symbol.rename σ <$> renameError σ (v.symbolOf e) := by
  have hlookup : ((e.rename σ).id?.bind fun id => Symbol.lookup id (v.rename σ).symbols) =
      (e.id?.bind fun id => Symbol.lookup id v.symbols).map (Symbol.rename σ) := by
    cases h : e.id? <;> simp [h, rename, Symbol.lookup_rename hσ]
  simp only [symbolOf, hlookup, Expr.description_rename]
  cases e.id?.bind fun id => Symbol.lookup id v.symbols <;> rfl

theorem nextIterator_rename (v : Vocabulary) (scope : Scope) :
    (v.rename σ).nextIterator (scope.rename σ) = v.nextIterator scope := by
  simp only [nextIterator, used, rename, Symbol.words_rename, List.length_map]

end Vocabulary

end Source

theorem Literal.renameError_requireFinite (v : Literal) :
    renameError σ v.requireFinite = v.requireFinite := by
  cases v with
  | float v => simp [Literal.requireFinite, ModelError.rename]
  | int _ | bool _ | enumeration _ => rfl

theorem entityTerm_rename (hσ : Function.Injective σ) (v : Vocabulary) {e : Expr} {id : NodeId}
    (h : e.id? = some id) (scope : Scope) :
    (e.rename σ).term (v.rename σ) (scope.rename σ) =
      Term.rename σ <$> renameError σ (e.term v scope) := by
  have hrename : (e.rename σ).id? = some (σ id) := by
    rw [Expr.id?_rename, h]
    rfl
  rw [term_of_id h, term_of_id hrename, v.symbolOf_rename hσ]
  simp [Term.rename]

mutual

/-- A renamed expression has the same term up to identities, or fails alike. -/
theorem Expr.term_rename (hσ : Function.Injective σ) (v : Vocabulary) :
    ∀ (e : Expr) (scope : Scope),
    (e.rename σ).term (v.rename σ) (scope.rename σ) =
      Term.rename σ <$> renameError σ (e.term v scope)
  | .literal l, _ => by
      simp [Expr.rename, Expr.term, Literal.renameError_requireFinite, Term.rename]
  | .setLiteral values, _ => by
      simp only [Expr.rename, Expr.term, renameError_bind, renameError_pure, map_bind, map_pure,
        renameError_forM Literal.renameError_requireFinite, Term.rename]
  | .enumeration _, _ => rfl
  | .var .., scope | .boundVar .., scope | .param .., scope | .derivedParam .., scope
  | .varArray .., scope | .paramArray .., scope | .varSet .., scope | .paramSet .., scope =>
      entityTerm_rename hσ v rfl scope
  | .iterator id _, scope => by
      simp [Expr.rename, Expr.term, scope.symbolOf_rename hσ, Term.rename]
  | .view array positions, scope => by
      simp [Expr.rename, Expr.term, v.symbolOf_rename hσ, arrayShape_rename,
        cuts_rename hσ v positions scope, viewTerm_rename]
  | .size array dim, _ => by
      simp [Expr.rename, Expr.term, v.symbolOf_rename hσ, arrayShape_rename, sizeTerm,
        Term.rename, Term.renameAll, Term.int]
  | .range start stop, scope => by
      simp only [Expr.rename, Expr.term, start.term_rename hσ v scope, stop.term_rename hσ v scope,
        rangeSpan_rename]
  | .sequence items, scope => by
      simp [Expr.rename, Expr.term, terms_rename hσ v items scope, Term.rename,
        Term.renameAll_eq_map]
  | .unary op operand, scope => by
      simp [Expr.rename, Expr.term, operand.term_rename hσ v scope, Term.rename]
  | .binary op left right, scope => by
      simp only [Expr.rename, Expr.term, left.term_rename hσ v scope, right.term_rename hσ v scope,
        Expr.isZero_rename]
      split <;> simp [Term.rename, ModelError.rename]
  | .power base exponent, scope => by
      simp [Expr.rename, Expr.term, base.term_rename hσ v scope, exponent.term_rename hσ v scope,
        Term.rename, Term.renameAll]
  | .aggregate op args, scope => by
      simp [Expr.rename, Expr.term, argTerms_rename hσ v args scope, Term.rename,
        Term.renameAll_eq_map]
  | .comprehension op generators body, scope => by
      simp [Expr.rename, Expr.term, heads_rename hσ v generators scope, body.term_rename hσ v,
        Term.rename]
  | .global kind args, scope => by
      simp [Expr.rename, Expr.term, argTerms_rename hσ v args scope, Term.rename,
        Term.renameAll_eq_map]

theorem terms_rename (hσ : Function.Injective σ) (v : Vocabulary) :
    ∀ (es : List Expr) (scope : Scope),
    terms (v.rename σ) (scope.rename σ) (allRenamed σ es) =
      List.map (Term.rename σ) <$> renameError σ (terms v scope es)
  | [], _ => rfl
  | e :: es, scope => by
      simp [allRenamed, terms, e.term_rename hσ v scope, terms_rename hσ v es scope]

theorem argTerms_rename (hσ : Function.Injective σ) (v : Vocabulary) :
    ∀ (es : List Expr) (scope : Scope) (flatten : Bool),
    argTerms (v.rename σ) (scope.rename σ) flatten (allRenamed σ es) =
      List.map (Term.rename σ) <$> renameError σ (argTerms v scope flatten es)
  | [], _, _ => rfl
  | e :: es, scope, flatten => by
      simp [allRenamed, argTerms, e.term_rename hσ v scope, argTerms_rename hσ v es scope flatten,
        argTerm_rename]

theorem cuts_rename (hσ : Function.Injective σ) (v : Vocabulary) :
    ∀ (ps : List Position) (scope : Scope),
    cuts (v.rename σ) (scope.rename σ) (positionsRenamed σ ps) =
      List.map (Cut.rename σ) <$> renameError σ (cuts v scope ps)
  | [], _ => rfl
  | .index i :: ps, scope => by
      simp [positionsRenamed, cuts, i.term_rename hσ v scope, cuts_rename hσ v ps scope, Cut.rename]
  | .slice start stop :: ps, scope => by
      simp [positionsRenamed, cuts, start.term_rename hσ v scope, stop.term_rename hσ v scope,
        cuts_rename hσ v ps scope, Cut.ofSlice_rename]

theorem heads_rename (hσ : Function.Injective σ) (v : Vocabulary) :
    ∀ (gs : List Generator) (scope : Scope),
    heads (v.rename σ) (scope.rename σ) (generatorsRenamed σ gs) =
      Prod.map (Term.renameHeads σ) (Scope.rename σ) <$> renameError σ (heads v scope gs)
  | [], _ => rfl
  | .over id _ domain :: gs, scope => by
      have hrest := heads_rename hσ v gs (⟨id, v.nextIterator scope⟩ :: scope)
      simp only [List.map_cons, Symbol.rename] at hrest
      simp [generatorsRenamed, heads, domain.term_rename hσ v scope, v.nextIterator_rename, hrest,
        Term.renameHeads, Symbol.rename]

end

end ConstraintModel
