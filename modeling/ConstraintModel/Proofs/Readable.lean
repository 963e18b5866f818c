import ConstraintModel.Proofs.Denotation
import ConstraintModel.Proofs.Elements
import ConstraintModel.Proofs.Leaves

/-!
# Readable expressions

The environment that a model and an assignment make, and the expressions that can be read in it. A
term stands behind the words of the iterators in scope; none of them hides a word of the top level or
another iterator.
-/

namespace ConstraintModel

open Source

/-! ## Plain expressions -/

mutual

/-- Whether an expression has neither slices nor global constraints nor literals or ranges of floats,
whether the bounds of its ranges are scalars, and whether it asks only for the sizes of dimensions that
arrays have. -/
def Expr.isPlain : Expr → Bool
  | .var .. | .boundVar .. | .param .. | .derivedParam .. | .varArray .. | .paramArray ..
  | .varSet .. | .paramSet .. | .enumeration _ | .iterator .. => true
  | .literal l => l.elemType != .float
  | .setLiteral ls => ls.all fun l => l.elemType != .float
  | .view _ positions => positionsPlain positions
  | .range start stop =>
    !start.isCollection && !stop.isCollection && start.isPlain && stop.isPlain &&
      (Expr.range start stop).elemType.toOption != some .float
  | .size array dim => array.shape?.any fun shape => shape.isValid && dim < shape.rank
  | .unary _ operand => operand.isPlain
  | .binary _ left right | .power left right => left.isPlain && right.isPlain
  | .sequence items => allPlain items
  | .aggregate _ args => allPlain args
  | .comprehension _ generators body => generatorsPlain generators && body.isPlain
  | .global .. => false

def allPlain : List Expr → Bool
  | [] => true
  | e :: es => e.isPlain && allPlain es

def positionsPlain : List Position → Bool
  | [] => true
  | .index i :: ps => i.isPlain && positionsPlain ps
  | .slice .. :: _ => false

def generatorsPlain : List Generator → Bool
  | [] => true
  | .over _ _ domain :: gs => domain.isPlain && generatorsPlain gs

end

/-! ## Environments -/

/-- An assignment gives an array its elements, counted from zero in each dimension. -/
def Assignment.Fits (σ : Assignment) : Expr → Prop
  | .varArray id _ shape | .paramArray id _ shape =>
    ∃ xs, σ id = .array (zeroBased shape.extents) xs ∧ xs.length = shape.size
  | _ => True

/-- The values of the name and the variants of an enumeration. -/
def Enumeration.entries (e : Enumeration) : Environment :=
  (e.name, .set (e.values.map .enumeration)) ::
    e.values.map fun v => (v.name, .scalar (.enumeration v))

/-- The values of the words at the top level of a source. -/
def ResolvedModel.environment (m : ResolvedModel) (σ : Assignment) : Environment :=
  m.symbols.map (fun s => (s.word, σ s.id)) ++ m.enumerations.flatMap Enumeration.entries

/-- Iterators in scope with their values, innermost first. -/
abbrev Frame := List (Symbol × Value)

namespace Frame

def words (f : Frame) : Environment := f.map fun (s, x) => (s.word, x)

def ids (f : Frame) : Iteration := f.map fun (s, x) => (s.id, x)

@[simp] theorem words_cons (s : Symbol) (x : Value) (f : Frame) :
    words ((s, x) :: f) = (s.word, x) :: f.words := rfl

@[simp] theorem ids_cons (s : Symbol) (x : Value) (f : Frame) :
    ids ((s, x) :: f) = (s.id, x) :: f.ids := rfl

theorem keys_words (f : Frame) : f.words.map Prod.fst = Symbol.words (f.map Prod.fst) := by
  simp [words, Symbol.words]

end Frame

theorem Enumeration.keys_entries (e : Enumeration) :
    e.entries.map Prod.fst = e.name :: e.variants := by
  simp only [entries, List.map_cons, List.map_map]
  congr 1
  apply List.ext_getElem
  · simp [values]
  · intro i h₁ h₂
    simp [values, EnumValue.name]

theorem ResolvedModel.keys_environment (m : ResolvedModel) (σ : Assignment) :
    (m.environment σ).map Prod.fst = Symbol.words m.symbols ++ m.enumerationWords := by
  simp only [environment, List.map_append, List.map_map, List.map_flatMap,
    Enumeration.keys_entries, Symbol.words, enumerationWords]
  rfl

theorem Enumeration.mem_values (v : EnumValue) : v ∈ v.type.values := by
  simp [values]

theorem Symbol.mem_words_of_lookup {table : List Symbol} {id : NodeId} {s : Symbol}
    (h : Symbol.lookup id table = some s) : s.word ∈ Symbol.words table :=
  List.mem_map_of_mem (List.mem_of_find?_eq_some h)

section Environment

variable {m : ResolvedModel} {σ : Assignment} {f : Frame}

/-- A word of the top level is read there, since no iterator has it. -/
theorem lookup_environment
    (hwords : (Symbol.words m.symbols ++ m.enumerationWords).Nodup)
    (hfree : Scope.Free (.ofModel m) (f.map Prod.fst)) {w : String} {x : Value}
    (h : (w, x) ∈ m.environment σ) : (f.words ++ m.environment σ).lookup w = some x := by
  have htop : (m.environment σ).lookup w = some x := by
    apply lookup_eq_some_of_mem _ h
    rwa [m.keys_environment]
  have hw : w ∈ Symbol.words m.symbols ++ m.enumerationWords := by
    rw [← m.keys_environment σ]
    exact List.mem_map_of_mem h
  have hframe : f.words.lookup w = none := by
    apply lookup_eq_none_of_not_mem
    rw [f.keys_words]
    intro hmem
    obtain ⟨s, hs, rfl⟩ := List.mem_map.1 hmem
    rcases List.mem_append.1 hw with hw | hw
    · exact hfree.not_entity s hs hw
    · exact hfree.not_enumeration s hs hw
  rw [List.lookup_append, hframe, htop, Option.none_or]

theorem lookup_entity
    (hwords : (Symbol.words m.symbols ++ m.enumerationWords).Nodup)
    (hfree : Scope.Free (.ofModel m) (f.map Prod.fst)) {id : NodeId} {s : Symbol}
    (hs : Symbol.lookup id m.symbols = some s) :
    (f.words ++ m.environment σ).lookup s.word = some (σ id) := by
  have hid : s.id = id := by simpa using List.find?_some hs
  refine lookup_environment hwords hfree (List.mem_append_left _ ?_)
  exact List.mem_map.2 ⟨s, List.mem_of_find?_eq_some hs, by rw [hid]⟩

theorem lookup_enumeration
    (hwords : (Symbol.words m.symbols ++ m.enumerationWords).Nodup)
    (hfree : Scope.Free (.ofModel m) (f.map Prod.fst)) {e : Enumeration}
    (he : e ∈ m.enumerations) :
    (f.words ++ m.environment σ).lookup e.name = some (.set (e.values.map .enumeration)) :=
  lookup_environment hwords hfree
    (List.mem_append_right _ (List.mem_flatMap.2 ⟨e, he, List.mem_cons_self⟩))

theorem lookup_variant
    (hwords : (Symbol.words m.symbols ++ m.enumerationWords).Nodup)
    (hfree : Scope.Free (.ofModel m) (f.map Prod.fst)) {v : EnumValue}
    (he : v.type ∈ m.enumerations) :
    (f.words ++ m.environment σ).lookup v.name = some (.scalar (.enumeration v)) := by
  refine lookup_environment hwords hfree (List.mem_append_right _ (List.mem_flatMap.2 ⟨_, he, ?_⟩))
  exact List.mem_cons_of_mem _ (List.mem_map.2 ⟨v, Enumeration.mem_values v, rfl⟩)

theorem literal_denotes (lib : Library)
    (hwords : (Symbol.words m.symbols ++ m.enumerationWords).Nodup)
    (hvalid : ∀ w ∈ m.enumerationWords, Identifier.require w = .ok ())
    (hfree : Scope.Free (.ofModel m) (f.map Prod.fst)) {l : Literal} (hfloat : l.elemType ≠ .float)
    (he : ∀ e ∈ l.enumerations, e ∈ m.enumerations) :
    DenotesAtom lib (f.words ++ m.environment σ) l.text (some (.scalar l)) := by
  cases l with
  | enumeration v =>
      have hmem : v.type ∈ m.enumerations := he _ List.mem_cons_self
      have hword : v.name ∈ m.enumerationWords :=
        List.mem_flatMap.2 ⟨_, hmem, List.mem_cons_of_mem _ (List.get_mem _ _)⟩
      have hdenotes : DenotesAtom lib (f.words ++ m.environment σ) v.name _ :=
        denotes_word (hvalid _ hword)
      rwa [lookup_variant hwords hfree hmem] at hdenotes
  | int v => exact denotes_int v
  | float _ => exact absurd rfl hfloat
  | bool b => exact denotes_bool b

/-- An iterator's word and its identity stand for the same value, since all words differ. -/
theorem lookup_iterator {v : Vocabulary} (hfree : Scope.Free v (f.map Prod.fst)) {id : NodeId}
    {s : Symbol} (hs : Symbol.lookup id (f.map Prod.fst) = some s) (env : Environment) :
    (f.words ++ env).lookup s.word = f.ids.lookup id := by
  have hnodup := hfree.nodup
  clear hfree
  induction f with
  | nil => cases hs
  | cons p f ih =>
      obtain ⟨g, x⟩ := p
      rw [Symbol.lookup, List.map_cons, List.find?_cons] at hs
      obtain ⟨hg, hnodup⟩ := List.nodup_cons.1 hnodup
      rw [Frame.words_cons, Frame.ids_cons, List.cons_append, List.lookup_cons, List.lookup_cons]
      by_cases hid : g.id = id
      · have hgs : g = s := by simpa [hid] using hs
        simp [← hgs, hid]
      · rw [beq_eq_false_iff_ne.2 hid] at hs
        have hne : s.word ≠ g.word := by
          intro heq
          exact hg (heq ▸ List.mem_map_of_mem (List.mem_of_find?_eq_some hs))
        rw [beq_eq_false_iff_ne.2 hne, beq_eq_false_iff_ne.2 (Ne.symm hid)]
        exact ih hs hnodup

end Environment

/-! ## Readable expressions -/

/-- What an expression needs to be read in the environment of a model and an assignment. -/
structure Expr.Readable (m : ResolvedModel) (σ : Assignment) (e : Expr) : Prop where
  plain : e.isPlain
  fits : ∀ l ∈ e.leaves, σ.Fits l
  declared : ∀ t ∈ e.enumerations, t ∈ m.enumerations

theorem Assignment.Fits.elements {σ : Assignment} {array : Expr} (h : σ.Fits array) {id : NodeId}
    {shape : Shape} (hid : array.id? = some id) (hshape : array.shape? = some shape) :
    ∃ xs, σ id = .array (zeroBased shape.extents) xs ∧ xs.length = shape.extents.prod := by
  cases array <;> cases hshape <;> cases hid <;>
    simpa [Assignment.Fits, Shape.size, List.prod_eq_foldl] using h

namespace Expr.Readable

variable {m : ResolvedModel} {σ : Assignment} {e e₁ e₂ : Expr}

theorem unary {op : UnaryOp} (h : (Expr.unary op e).Readable m σ) : e.Readable m σ :=
  ⟨by simpa [isPlain] using h.plain, h.fits, h.declared⟩

theorem binary {op : BinaryOp} (h : (Expr.binary op e₁ e₂).Readable m σ) :
    e₁.Readable m σ ∧ e₂.Readable m σ := by
  obtain ⟨hp, hf, hd⟩ := h
  simp only [isPlain, Bool.and_eq_true] at hp
  simp only [leaves, enumerations, List.forall_mem_append] at hf hd
  exact ⟨⟨hp.1, hf.1, hd.1⟩, ⟨hp.2, hf.2, hd.2⟩⟩

theorem power (h : (Expr.power e₁ e₂).Readable m σ) : e₁.Readable m σ ∧ e₂.Readable m σ :=
  have hadd : (Expr.binary .add e₁ e₂).Readable m σ := ⟨h.plain, h.fits, h.declared⟩
  hadd.binary

theorem range (h : (Expr.range e₁ e₂).Readable m σ) :
    (e₁.Readable m σ ∧ e₁.isCollection = false) ∧ (e₂.Readable m σ ∧ e₂.isCollection = false) ∧
      (Expr.range e₁ e₂).elemType ≠ .ok .float := by
  obtain ⟨hp, hf, hd⟩ := h
  simp only [isPlain, Bool.and_eq_true, Bool.not_eq_true', bne_iff_ne] at hp
  obtain ⟨⟨⟨⟨hstart, hstop⟩, hp₁⟩, hp₂⟩, hfloat⟩ := hp
  simp only [leaves, enumerations, List.forall_mem_append] at hf hd
  refine ⟨⟨⟨hp₁, hf.1, hd.1⟩, hstart⟩, ⟨⟨hp₂, hf.2, hd.2⟩, hstop⟩, fun htype => hfloat ?_⟩
  rw [htype]
  rfl

theorem all {es : List Expr} (hp : allPlain es) (hf : ∀ l ∈ allLeaves es, σ.Fits l)
    (hd : ∀ t ∈ allEnumerations es, t ∈ m.enumerations) : ∀ e ∈ es, e.Readable m σ := by
  induction es with
  | nil => simp
  | cons e es ih =>
      simp only [allPlain, Bool.and_eq_true] at hp
      simp only [allLeaves, allEnumerations, List.forall_mem_append] at hf hd
      exact List.forall_mem_cons.2 ⟨⟨hp.1, hf.1, hd.1⟩, ih hp.2 hf.2 hd.2⟩

theorem sequence {es : List Expr} (h : (Expr.sequence es).Readable m σ) :
    ∀ e ∈ es, e.Readable m σ :=
  all h.plain h.fits h.declared

theorem aggregate {op : Aggregate} {es : List Expr} (h : (Expr.aggregate op es).Readable m σ) :
    ∀ e ∈ es, e.Readable m σ :=
  all h.plain h.fits h.declared

theorem comprehension {op : Aggregate} {gs : List Generator}
    (h : (Expr.comprehension op gs e).Readable m σ) :
    (∀ id type d, .over id type d ∈ gs → d.Readable m σ) ∧ e.Readable m σ := by
  obtain ⟨hp, hf, hd⟩ := h
  simp only [isPlain, Bool.and_eq_true] at hp
  simp only [leaves, enumerations, List.forall_mem_append] at hf hd
  refine ⟨?_, ⟨hp.2, hf.2, hd.2⟩⟩
  replace hp := hp.1
  replace hf := hf.1
  replace hd := hd.1
  induction gs with
  | nil => simp
  | cons g gs ih =>
      obtain ⟨id, type, d⟩ := g
      simp only [generatorsPlain, Bool.and_eq_true] at hp
      simp only [generatorLeaves, generatorEnumerations, List.forall_mem_append] at hf hd
      intro id' type' d' hmem
      rcases List.mem_cons.1 hmem with heq | hmem
      · cases heq
        exact ⟨hp.1, hf.1, hd.1⟩
      · exact ih hp.2 hf.2 hd.2 id' type' d' hmem

theorem size {array : Expr} {dim : Nat} {shape : Shape} (hshape : array.shape? = some shape)
    (h : (Expr.size array dim).Readable m σ) :
    σ.Fits array ∧ ∃ n, shape.extent? dim = some n ∧ 0 < n := by
  obtain ⟨hp, hf, -⟩ := h
  simp only [isPlain, hshape, Option.any_some, Bool.and_eq_true, decide_eq_true_eq,
    Shape.isValid] at hp
  obtain ⟨⟨-, hpos⟩, hdim⟩ := hp
  refine ⟨hf _ List.mem_cons_self, shape.extents[dim], List.getElem?_eq_getElem hdim, ?_⟩
  refine Nat.pos_of_ne_zero fun hzero => ?_
  have hmem := hzero ▸ List.getElem_mem hdim
  simp [hmem] at hpos

/-- The positions of a readable view are readable indices. -/
theorem view {array : Expr} {ps : List Position} (h : (Expr.view array ps).Readable m σ) :
    σ.Fits array ∧ ∃ is : List Expr, ps = is.map Position.index ∧ ∀ i ∈ is, i.Readable m σ := by
  obtain ⟨hp, hf, hd⟩ := h
  simp only [isPlain] at hp
  simp only [leaves, List.forall_mem_cons] at hf
  simp only [enumerations, List.forall_mem_append] at hd
  refine ⟨hf.1, ?_⟩
  replace hf := hf.2
  replace hd := hd.2
  induction ps with
  | nil => exact ⟨[], rfl, by simp⟩
  | cons p ps ih =>
      cases p with
      | slice _ _ => simp [positionsPlain] at hp
      | index i =>
          simp only [positionsPlain, Bool.and_eq_true] at hp
          simp only [positionLeaves, positionEnumerations, List.forall_mem_append] at hf hd
          obtain ⟨is, rfl, his⟩ := ih hp.2 hf.2 hd.2
          exact ⟨i :: is, rfl, List.forall_mem_cons.2 ⟨⟨hp.1, hf.1, hd.1⟩, his⟩⟩

end Expr.Readable

end ConstraintModel
