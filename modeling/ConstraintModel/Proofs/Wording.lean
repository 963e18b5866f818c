import ConstraintModel.Proofs.Lookup

/-!
# Wordings of expressions

A text that reads as a phrase which stands for an expression is a wording of it. There is a rule
for each kind of node: what the wordings of its parts are put together to is a wording of the
whole. Only ranges are worded without parentheses or a word in front, so only they are kept apart
from atoms.
-/

namespace ConstraintModel

open Source

/-! ## Wordings -/

namespace Glossary

/-- Whether a text reads as a phrase that stands for an expression. -/
def Reads (g : Glossary) (words : IteratorWords) (e : Expr) (s : List Char) : Prop :=
  ∃ p, PhraseReads s p ∧ p.isNot = false ∧ g.recover words p = some e

/-- A text that reads as one atom. -/
def ReadsAtom (g : Glossary) (words : IteratorWords) (e : Expr) (s : List Char) : Prop :=
  ∃ p, AtomReads s p ∧ p.isNot = false ∧ g.recover words p = some e

variable {g : Glossary} {words : IteratorWords}

theorem ReadsAtom.reads {e : Expr} {s : List Char} (h : g.ReadsAtom words e s) :
    g.Reads words e s := by
  obtain ⟨p, hp, hnot, hrecover⟩ := h
  exact ⟨p, .atom hp, hnot, hrecover⟩

theorem isCollection_rangeTo (a b : Expr) : (rangeTo a b).isCollection = true := by
  unfold rangeTo
  split_ifs <;> rfl

/-- Only ranges are written without parentheses. -/
theorem Reads.atom {e : Expr} {s : List Char} (h : g.Reads words e s)
    (he : e.isCollection = false) : g.ReadsAtom words e s := by
  obtain ⟨p, hp, hnot, hrecover⟩ := h
  cases hp with
  | atom hp => exact ⟨p, hp, hnot, hrecover⟩
  | span _ _ =>
      simp only [recover, Option.bind_eq_bind, Option.bind_eq_some_iff, Option.pure_def,
        Option.some.injEq] at hrecover
      obtain ⟨a, -, b, -, rfl⟩ := hrecover
      rw [isCollection_rangeTo] at he
      cases he

/-! ### Lists -/

theorem exists_items {es : List Expr} {ss : List (List Char)}
    (h : List.Forall₂ (g.Reads words) es ss) : ∃ items, List.Forall₂ ItemReads ss items ∧
      g.recoverAll words items = some es := by
  induction h with
  | nil => exact ⟨[], .nil, by simp [recoverAll]⟩
  | cons h _ ih =>
      obtain ⟨p, hp, -, hrecover⟩ := h
      obtain ⟨items, hitems, hes⟩ := ih
      exact ⟨(none, p) :: items, .cons hp.item hitems, by simp [recoverAll, hrecover, hes]⟩

theorem recover_call {f : String} {items : List Item} {es : List Expr}
    (h : g.recoverAll words items = some es) : g.recover words (.call f items) = applied? f es := by
  rw [recover]
  · simp [h]
  · rintro body heads rfl
    simp [recoverAll, recover] at h

theorem ReadsAtom.call {f : String} {es : List Expr} {ss : List (List Char)} {e : Expr}
    (hf : IsWord f.toList) (h : List.Forall₂ (g.Reads words) es ss)
    (he : applied? f es = some e) :
    g.ReadsAtom words e (f.toList ++ '(' :: (joined ss ++ [')'])) := by
  obtain ⟨items, hitems, hes⟩ := exists_items h
  refine ⟨_, .call hf hitems, rfl, ?_⟩
  rw [String.ofList_toList, recover_call hes, he]

/-! ### Words -/

/-- Whether no iterator has a word of the model. -/
def Apart (g : Glossary) (words : IteratorWords) : Prop :=
  ∀ w ∈ Symbol.words g.model.symbols ++ g.model.enumerationWords, words.lookup w = none

theorem readsAtom_word {w : String} {e : Expr} (h : Identifier.require w = .ok ())
    (he : g.lookup words w = some e) : g.ReadsAtom words e w.toList := by
  refine ⟨_, .word (isWord_of_valid h), ?_, ?_⟩
  · rw [String.ofList_toList]
    exact isNot_of_valid h
  · rw [String.ofList_toList, recover, he]

theorem readsAtom_int (v : Int) :
    g.ReadsAtom words (.literal (.int v)) (Literal.int v).text.toList := by
  obtain ⟨p, hp, hnot, hrecover⟩ := exists_numeral (toString_int_numeral v).1
  exact ⟨p, hp, hnot, by rw [hrecover, number?_int]; rfl⟩

namespace Distinct

variable (hg : g.Distinct) (hwords : g.Apart words)
include hg hwords

theorem readsAtom_literal {l : Literal} (hl : g.Knows l) (hfinite : l.requireFinite = .ok ()) :
    g.ReadsAtom words (.literal l) l.text.toList := by
  cases l with
  | int v => exact readsAtom_int v
  | float x =>
      have hx : x.isFinite = true := by
        by_contra hx
        rw [Literal.requireFinite, if_neg hx] at hfinite
        exact throw_ne_ok hfinite
      obtain ⟨p, hp, hnot, hrecover⟩ := exists_numeral (write_float_numeral hx).1
      exact ⟨p, hp, hnot, by rw [hrecover, hg.number?_float hl hx]; rfl⟩
  | bool b =>
      have hword : IsWord (Literal.bool b).text.toList := by
        refine isWord_of_isWellFormed ?_
        cases b <;> rfl
      refine ⟨_, .word hword, ?_, ?_⟩
      · cases b <;> rfl
      · cases b <;> rfl
  | enumeration v =>
      exact readsAtom_word (hg.variant_valid hl) (hg.lookup_variant hl (hwords _
        (List.mem_append_right _ (variant_mem_words hl))))

theorem readsAtom_entity {s : Symbol} (hs : s ∈ g.model.symbols) :
    g.ReadsAtom words (g.node s.id) s.word.toList :=
  readsAtom_word (hg.symbol_valid hs)
    (hg.lookup_entity hs (hwords _ (List.mem_append_left _ (List.mem_map_of_mem hs))))

theorem readsAtom_enumeration {x : Enumeration} (hx : x ∈ g.model.enumerations) :
    g.ReadsAtom words (.enumeration x) x.name.toList :=
  readsAtom_word (hg.enumeration_valid hx) (hg.lookup_enumeration hx (hwords _
    (List.mem_append_right _ (name_mem_words hx))))

end Distinct

/-! ### Operations -/

variable {a b : Expr} {s s' : List Char}

theorem Reads.not (h : g.Reads words a s) :
    g.ReadsAtom words (.unary .not a) ('(' :: 'n' :: 'o' :: 't' :: ' ' :: (s ++ [')'])) := by
  obtain ⟨p, hp, -, hrecover⟩ := h
  exact ⟨_, .negation hp, rfl, by simp [recover, hrecover]⟩

theorem Reads.negate (h : g.Reads words a s) :
    g.ReadsAtom words (.unary .negate a) ('(' :: '-' :: (s ++ [')'])) := by
  obtain ⟨p, hp, -, hrecover⟩ := h
  exact ⟨_, .negated hp, rfl, by simp [recover, hrecover]⟩

theorem Reads.binary (op : BinaryOp) (h : g.Reads words a s) (h' : g.Reads words b s') :
    g.ReadsAtom words (.binary op a b)
      ('(' :: (s ++ ' ' :: (op.symbol.toList ++ ' ' :: (s' ++ [')'])))) := by
  obtain ⟨p, hp, hnot, hrecover⟩ := h
  obtain ⟨q, hq, -, hrecover'⟩ := h'
  exact ⟨_, .operation op hnot hp hq, rfl, by simp [recover, hrecover, hrecover']⟩

/-! ### Ranges -/

/-- What is below the stop of a range, in the way that its last member is written. -/
def below (stop : Expr) : Expr :=
  match stop.literalInt? with
  | some v => .literal (.int (v - 1))
  | none => .binary .sub stop (.literal (.int 1))

theorem stopOf_below (stop : Expr) : stopOf (below stop) = stop := by
  cases stop with
  | literal l => cases l <;> simp [below, Expr.literalInt?, stopOf]
  | _ => rfl

theorem rangeType_eq_ok {x y type : ElemType} (h : rangeType x y = .ok type)
    (hfloat : type ≠ .float) : x = .int ∧ y = .int := by
  cases x <;> cases y <;> cases h <;> simp_all

/-- The range below a stop has the type of the range up to it, where this is not float. -/
theorem rangeTo_below {type : ElemType} (hstop : b.isCollection = false)
    (htype : (Expr.range a b).elemType = .ok type) (hfloat : type ≠ .float) :
    rangeTo a (below b) = .range a b := by
  simp only [Expr.elemType, bind_eq_ok] at htype
  obtain ⟨x, hx, y, hy, htype⟩ := htype
  obtain ⟨rfl, rfl⟩ := rangeType_eq_ok htype hfloat
  have hbelow : (below b).elemType = .ok .int := by
    unfold below
    split
    · rfl
    · simp [Expr.elemType, scalarType, hstop, hy, BinaryOp.isArithmetic]
      rfl
  have hrange : (Expr.range a (below b)).elemType = .ok .int := by
    rw [Expr.elemType, hx, hbelow]
    rfl
  rw [rangeTo, hrange, if_neg (by simp [Except.toOption]), stopOf_below]

theorem ReadsAtom.span (h : g.ReadsAtom words a s) (h' : g.ReadsAtom words b s') :
    g.Reads words (rangeTo a b) (s ++ '.' :: '.' :: s') := by
  obtain ⟨p, hp, -, hrecover⟩ := h
  obtain ⟨q, hq, -, hrecover'⟩ := h'
  exact ⟨.span p q, .span hp hq, rfl, by simp [recover, hrecover, hrecover']⟩

/-! ### Arrays -/

/-- The symbol of an entity that a glossary holds leads back to the entity. -/
theorem Holds.node_symbol {e : Expr} {s : Symbol} (he : g.Holds e)
    (hs : (Vocabulary.ofModel g.model).symbolOf e = .ok s) :
    s ∈ g.model.symbols ∧ g.node s.id = e := by
  obtain ⟨id, hid, hlookup⟩ := symbolOf_eq_ok.1 hs
  have hkey : s.id = id := by simpa using List.find?_some hlookup
  exact ⟨List.mem_of_find?_eq_some hlookup, hkey ▸ he.node_eq hid⟩

theorem Distinct.entity?_symbol (hg : g.Distinct) {e : Expr} {s : Symbol}
    (hs : (Vocabulary.ofModel g.model).symbolOf e = .ok s) (he : g.Holds e) :
    g.entity? s.word = some e ∧ IsWord s.word.toList := by
  obtain ⟨hmem, hnode⟩ := he.node_symbol hs
  rw [hg.entity?_eq hmem, hnode]
  exact ⟨rfl, isWord_of_valid (hg.symbol_valid hmem)⟩

theorem ReadsAtom.element {w : String} {array : Expr} {es : List Expr}
    {ss : List (List Char)} (hw : IsWord w.toList) (harray : g.entity? w = some array)
    (h : List.Forall₂ (g.Reads words) es ss) :
    g.ReadsAtom words (.view array (es.map .index)) (w.toList ++ '[' :: (joined ss ++ [']'])) := by
  obtain ⟨items, hitems, hes⟩ := exists_items h
  refine ⟨_, .element hw hitems, rfl, ?_⟩
  simp [recover, harray, hes]

/-- An index set stands for no expression, so the greatest of its members and one reads as the size
that it is. -/
theorem recover_size {f w : String} {array : Expr} {shape : Shape} {dim : Nat}
    (harray : g.entity? w = some array) (hshape : array.shape? = some shape)
    (hdim : dim < shape.rank) (q : Phrase) :
    g.recover words (.operation .add
      (.call f [(none, .call (Function.indexSet (dim + 1) shape.rank).name [(none, .word w)])]) q) =
        some (.size array dim) := by
  have hset : g.recover words (.call (Function.indexSet (dim + 1) shape.rank).name
      [(none, .word w)]) = none := by
    simp [recover, recoverAll, applied?_indexSet]
  have hlast : g.recover words (.call f
      [(none, .call (Function.indexSet (dim + 1) shape.rank).name [(none, .word w)])]) = none := by
    rw [recover]
    · rw [recoverAll, hset]
      rfl
    · rintro body heads heq
      cases heq
  rw [recover, hlast]
  simp [size?, harray, hshape, find?_indexSet hdim]

theorem sizeTerm_reads {array : Expr} {shape : Shape} {dim : Nat} {s : Symbol}
    (hword : IsWord s.word.toList) (harray : g.entity? s.word = some array)
    (hshape : array.shape? = some shape) (hdim : dim < shape.rank) :
    g.Reads words (.size array dim) (sizeTerm s shape.rank dim).text.toList := by
  have hset := AtomReads.call (isWord_function (.indexSet (dim + 1) shape.rank))
    (.cons (PhraseReads.atom (.word hword)).item .nil)
  have hlast := AtomReads.call (isWord_function .last)
    (.cons (PhraseReads.atom hset).item .nil)
  obtain ⟨q, hq, -, -⟩ : g.ReadsAtom words (.literal (.int 1)) _ := readsAtom_int 1
  have hread := AtomReads.operation .add rfl (.atom hlast) (.atom hq)
  simp only [String.ofList_toList] at hread
  have hsize : g.ReadsAtom words (.size array dim) _ :=
    ⟨_, hread, rfl, recover_size harray hshape hdim q⟩
  simpa [sizeTerm, Term.int, Term.text, Term.texts, toList_commaSeparated] using hsize.reads

/-- The symbol of an entity reads as the entity. -/
theorem Distinct.readsAtom_symbol (hg : g.Distinct) (hwords : g.Apart words) {e : Expr} {s : Symbol}
    (hs : (Vocabulary.ofModel g.model).symbolOf e = .ok s) (he : g.Holds e) :
    g.ReadsAtom words e s.word.toList := by
  obtain ⟨hmem, hnode⟩ := he.node_symbol hs
  exact hnode ▸ hg.readsAtom_entity hwords hmem

/-! ### Comprehensions -/

/-- An aggregate of a body over generators reads as it is, behind its iterators or in front of
them. -/
theorem comprehension_reads {op : Aggregate} {inner : IteratorWords} {items : List Item}
    {hs : List (Symbol × Term)} {gs : List Generator} {body : Expr} {t : Term}
    (hitems : List.Forall₂ ItemReads ((Term.headTexts hs).map String.toList) items)
    (hheads : g.recoverHeads words items = some (gs, inner))
    (hbody : g.Reads inner body t.text.toList) :
    g.Reads words (.comprehension op gs body) (Term.comprehension op hs t).text.toList := by
  have hword : IsWord op.name.toList := isWord_function (.aggregate op)
  obtain ⟨p, hp, -, hrecover⟩ := hbody
  have hquantified : g.ReadsAtom words (.comprehension op gs body) _ :=
    ⟨_, .quantified hword hitems hp, rfl, by
      simp [recover, aggregate?_name, hheads, hrecover]⟩
  have hgenerated : g.ReadsAtom words (.comprehension op gs body) _ :=
    ⟨_, .call hword (.cons (PhraseReads.atom (.generated hp hitems)).item .nil), rfl, by
      simp [recover, aggregate?_name, hheads, hrecover]⟩
  rw [Term.text]
  cases op with
  | least | greatest =>
      simpa [Term.comprehensionText, toList_commaSeparated, joined] using hgenerated.reads
  | sum | product | count | every | any =>
      simpa [Term.comprehensionText, toList_commaSeparated] using hquantified.reads

end Glossary

end ConstraintModel
