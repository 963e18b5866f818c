import ConstraintModel.Proofs.Identifiers
import ConstraintModel.Proofs.WellMade

/-!
# Words and what they stand for

Where all words of a model differ and those of iterators are free, a word stands for what it was
written for: an iterator, an entity, a variant, an enumeration or a literal. The names of functions
are kept apart from those of index sets.
-/

namespace ConstraintModel

open Source

/-! ## Distinct words -/

/-- The words of a model are valid and all differ, and so do the texts of the floats in use. -/
structure Glossary.Distinct (g : Glossary) : Prop where
  nodup : (Symbol.words g.model.symbols ++ g.model.enumerationWords).Nodup
  valid : ∀ w ∈ Symbol.words g.model.symbols ++ g.model.enumerationWords,
    Identifier.require w = .ok ()
  floats : ∀ x ∈ g.floats, ∀ y ∈ g.floats,
    Literal.floatLayout.write x = Literal.floatLayout.write y → x = y

theorem Enumeration.map_name_values (x : Enumeration) :
    x.values.map EnumValue.name = x.variants := by
  rw [Enumeration.values, List.map_map]
  exact List.map_get_finRange x.variants

theorem EnumValue.mem_values (v : EnumValue) : v ∈ v.type.values :=
  List.mem_map.2 ⟨v.index, List.mem_finRange _, rfl⟩

namespace Glossary

variable {g : Glossary} {w : String}

theorem entity?_eq_none (hw : w ∉ Symbol.words g.model.symbols) :
    g.entity? w = none := by
  rw [Glossary.entity?, Option.map_eq_none_iff, List.find?_eq_none]
  intro s hs hword
  exact hw (List.mem_map.2 ⟨s, hs, beq_iff_eq.1 hword⟩)

theorem name_mem_words {x : Enumeration} (hx : x ∈ g.model.enumerations) :
    x.name ∈ g.model.enumerationWords :=
  List.mem_flatMap.2 ⟨x, hx, List.mem_cons_self⟩

theorem variant_mem_words {v : EnumValue} (hv : v.type ∈ g.model.enumerations) :
    v.name ∈ g.model.enumerationWords :=
  List.mem_flatMap.2 ⟨v.type, hv, List.mem_cons_of_mem _ v.name_mem⟩

theorem map_name_values :
    (g.model.enumerations.flatMap Enumeration.values).map EnumValue.name =
      g.model.enumerations.flatMap Enumeration.variants := by
  simp only [List.map_flatMap, Enumeration.map_name_values]

theorem variant?_eq_find? :
    g.variant? w = (g.model.enumerations.flatMap Enumeration.values).find? (·.name == w) :=
  List.find?_flatMap.symm

theorem variant?_eq_none (hw : w ∉ g.model.enumerations.flatMap Enumeration.variants) :
    g.variant? w = none := by
  rw [variant?_eq_find?, List.find?_eq_none]
  intro v hv hname
  refine hw ?_
  rw [← map_name_values, ← beq_iff_eq.1 hname]
  exact List.mem_map_of_mem hv

end Glossary

namespace Glossary.Distinct

variable {g : Glossary} (hg : g.Distinct)
include hg

theorem entities_nodup : (Symbol.words g.model.symbols).Nodup :=
  (List.nodup_append'.1 hg.nodup).1

theorem not_entity {w : String} (hw : w ∈ g.model.enumerationWords) :
    w ∉ Symbol.words g.model.symbols :=
  fun hentity => (List.nodup_append'.1 hg.nodup).2.2 hentity hw

theorem enumerations_nodup : (g.model.enumerations.map Enumeration.name ++
    g.model.enumerations.flatMap Enumeration.variants).Nodup :=
  (List.map_append_flatMap_perm _ _ _).nodup_iff.2 (List.nodup_append'.1 hg.nodup).2.1

theorem entity?_eq {s : Symbol} (hs : s ∈ g.model.symbols) :
    g.entity? s.word = some (g.node s.id) := by
  rw [Glossary.entity?, find?_key_eq hg.entities_nodup hs]
  rfl

theorem variant?_eq {v : EnumValue} (hv : v.type ∈ g.model.enumerations) :
    g.variant? v.name = some v := by
  rw [variant?_eq_find?]
  refine find?_key_eq ?_ (List.mem_flatMap.2 ⟨v.type, hv, v.mem_values⟩)
  rw [map_name_values]
  exact (List.nodup_append'.1 hg.enumerations_nodup).2.1

theorem enumeration?_eq {x : Enumeration} (hx : x ∈ g.model.enumerations) :
    g.enumeration? x.name = some x :=
  find?_key_eq (List.nodup_append'.1 hg.enumerations_nodup).1 hx

end Glossary.Distinct

/-! ## Words of terms -/

namespace Glossary

variable {g : Glossary} {words : IteratorWords} {w : String}

/-- A valid identifier is no literal, so it is searched for. -/
theorem lookup_of_valid (h : Identifier.require w = .ok ()) :
    g.lookup words w = (words.lookup w).or ((g.entity? w).or
      (((g.variant? w).map fun v => .literal (.enumeration v)).or
        ((g.enumeration? w).map .enumeration))) := by
  obtain ⟨hdigit, htrue, hfalse⟩ := not_literal_of_valid h
  simp only [lookup, hdigit, htrue, hfalse, if_false, Bool.false_eq_true]

theorem lookup_iterator {e : Expr} (h : Identifier.require w = .ok ())
    (hw : words.lookup w = some e) : g.lookup words w = some e := by
  rw [lookup_of_valid h, hw]
  rfl

namespace Distinct

variable (hg : g.Distinct)
include hg

theorem symbol_valid {s : Symbol} (hs : s ∈ g.model.symbols) : Identifier.require s.word = .ok () :=
  hg.valid _ (List.mem_append_left _ (List.mem_map_of_mem hs))

theorem variant_valid {v : EnumValue} (hv : v.type ∈ g.model.enumerations) :
    Identifier.require v.name = .ok () :=
  hg.valid _ (List.mem_append_right _ (variant_mem_words hv))

theorem enumeration_valid {x : Enumeration} (hx : x ∈ g.model.enumerations) :
    Identifier.require x.name = .ok () :=
  hg.valid _ (List.mem_append_right _ (name_mem_words hx))

theorem lookup_entity {s : Symbol} (hs : s ∈ g.model.symbols) (hw : words.lookup s.word = none) :
    g.lookup words s.word = some (g.node s.id) := by
  rw [lookup_of_valid (hg.symbol_valid hs), hw, hg.entity?_eq hs]
  rfl

theorem lookup_variant {v : EnumValue} (hv : v.type ∈ g.model.enumerations)
    (hw : words.lookup v.name = none) :
    g.lookup words v.name = some (.literal (.enumeration v)) := by
  have hentity := entity?_eq_none (hg.not_entity (variant_mem_words hv))
  rw [lookup_of_valid (hg.variant_valid hv), hw, hentity, hg.variant?_eq hv]
  rfl

theorem lookup_enumeration {x : Enumeration} (hx : x ∈ g.model.enumerations)
    (hw : words.lookup x.name = none) : g.lookup words x.name = some (.enumeration x) := by
  have hentity := entity?_eq_none (hg.not_entity (name_mem_words hx))
  have hvariant : x.name ∉ g.model.enumerations.flatMap Enumeration.variants :=
    fun h => (List.nodup_append'.1 hg.enumerations_nodup).2.2 (List.mem_map_of_mem hx) h
  rw [lookup_of_valid (hg.enumeration_valid hx), hw, hentity, variant?_eq_none hvariant,
    hg.enumeration?_eq hx]
  rfl

end Distinct

/-! ## Numbers -/

/-- The text of a number reads as a phrase that stands for it. -/
theorem exists_numeral {s : List Char} (h : IsNumeral s) : ∃ p, AtomReads s p ∧ p.isNot = false ∧
    ∀ (g : Glossary) (words : IteratorWords), g.recover words p = (g.number? s).map .literal := by
  cases h with
  | @unsigned c w hc hlex =>
      refine ⟨_, .word (.of_isDigit hc hlex), ?_, fun g words => ?_⟩
      · rw [Phrase.isNot, beq_eq_false_iff_ne]
        intro hnot
        have hlist : c :: w = ['n', 'o', 't'] := by simpa using congrArg String.toList hnot
        cases hlist
        cases hc
      · simp [recover, lookup, hc]
  | @signed c w hc hlex =>
      refine ⟨_, (AtomReads.word (.of_isDigit hc hlex)).minus, rfl, fun g words => ?_⟩
      simp only [recover, Phrase.word?, Option.bind_eq_bind, Option.bind_some, Option.pure_def,
        String.toList_ofList]
      cases g.number? ('-' :: c :: w) <;> rfl

theorem number?_int (v : Int) : g.number? (toString v).toList = some (.int v) := by
  have hint : (toString v).toInt? = some v := Int.toInt?_repr v
  rw [number?, (toString_int_numeral v).2, if_pos rfl, String.ofList_toList, hint]
  rfl

theorem Distinct.number?_float (hg : g.Distinct) {x : Float} (hx : x ∈ g.floats)
    (hfinite : x.isFinite = true) :
    g.number? (Literal.floatLayout.write x).toList = some (.float x) := by
  rw [number?, (write_float_numeral hfinite).2]
  cases hfind : g.floats.find? fun y =>
      (Literal.floatLayout.write y).toList == (Literal.floatLayout.write x).toList with
  | none => exact absurd (List.find?_eq_none.1 hfind x hx) (by simp)
  | some y =>
      have htext : Literal.floatLayout.write y = Literal.floatLayout.write x :=
        String.toList_inj.1 (by simpa using List.find?_some hfind)
      rw [hg.floats y (List.mem_of_find?_eq_some hfind) x hx htext]
      rfl

/-! ## Functions -/

theorem applied?_aggregate (op : Aggregate) (args : List Expr) :
    applied? op.name args = some (.aggregate op args) := by
  cases op <;> rfl

theorem applied?_global (kind : GlobalKind) (args : List Expr) :
    applied? kind.name args = some (.global kind args) := by
  cases kind <;> rfl

theorem aggregate?_name (op : Aggregate) : aggregate? op.name = some op := by
  cases op <;> rfl

/-- The functions that give index sets are no functions of expressions. -/
theorem applied?_indexSet (dim rank : Nat) (args : List Expr) :
    applied? (Function.indexSet dim rank).name args = none := by
  have hne {f : String} (hf : ("index_set".toList).isPrefixOf f.toList = false) :
      f ≠ (Function.indexSet dim rank).name := by
    rintro rfl
    rw [List.isPrefixOf_iff_prefix.2 (indexSet_begins dim rank)] at hf
    cases hf
  have haggregate : aggregate? (Function.indexSet dim rank).name = none := by
    rw [aggregate?, List.find?_eq_none]
    intro op _
    simpa using hne (by cases op <;> rfl)
  have hglobal : (GlobalKind.all.find? (·.name == (Function.indexSet dim rank).name)) = none := by
    rw [List.find?_eq_none]
    intro kind _
    simpa using hne (by cases kind <;> rfl)
  unfold applied?
  rw [if_neg (hne rfl).symm, if_neg (hne rfl).symm, if_neg (hne rfl).symm, haggregate,
    hglobal]
  rfl

/-- The dimensions of an array have index sets by different names. -/
theorem find?_indexSet {dim rank : Nat} (h : dim < rank) :
    ((List.range rank).find? fun d =>
      (Function.indexSet (d + 1) rank).name == (Function.indexSet (dim + 1) rank).name) =
        some dim := by
  have hnames : ((List.range rank).map fun d => (Function.indexSet (d + 1) rank).name).Nodup := by
    refine List.nodup_range.map_on fun d hd e he hname => ?_
    rw [List.mem_range] at hd he
    by_cases hrank : 1 < rank
    · simp only [Function.name, if_pos hrank] at hname
      have hlist := congrArg String.toList hname
      simp only [String.toList_append, List.append_assoc] at hlist
      have hdim := List.append_cancel_right (List.append_cancel_left hlist)
      exact Nat.succ_injective (Nat.repr_injective (String.toList_inj.1 hdim))
    · omega
  exact find?_key_eq hnames (List.mem_range.2 h)

end Glossary

end ConstraintModel
