import ConstraintModel.Construct.Operation
import ConstraintModel.Proofs.Conformance
import ConstraintModel.Proofs.Inclusions
import ConstraintModel.Proofs.Origins
import ConstraintModel.Proofs.Selections

/-!
# Printed ranges

The ranges that a program prints: the index sets of declared arrays and the spans in its terms. Where
both bounds are printed as integers, they come from literals, and all ways that lead from literals to
a range refuse an empty one. Only a word of an enumeration can pass for a number, at the start of a
slice, if the enumeration has not been checked.
-/

namespace ConstraintModel

open Source

/-! ## Numerals -/

namespace Source

/-- The integer that a text of digits and signs is the numeral of. -/
def numeral? (s : String) : Option Int :=
  if isIntegral s.toList then s.toInt? else none

theorem numeral?_toString (a : Int) : numeral? (toString a) = some a := by
  rw [numeral?, if_pos (toString_int_numeral a).2]
  exact Int.toInt?_repr a

theorem numeral?_natCast (n : Nat) : numeral? (toString n) = some (n : Int) :=
  numeral?_toString n

theorem numeral?_eq_none {s : String} {c : Char} (hc : c ∈ s.toList) (hdigit : c.isDigit = false)
    (hsign : c ≠ '-') : numeral? s = none := by
  rw [numeral?, not_isIntegral hc hdigit hsign]
  rfl

/-- An identifier is no numeral: it begins with a letter. -/
theorem numeral?_of_valid {w : String} (h : Identifier.require w = .ok ()) : numeral? w = none := by
  obtain ⟨hformed, -⟩ := require_eq_ok.1 h
  cases hw : w.toList with
  | nil =>
      rw [hw] at hformed
      cases hformed
  | cons c cs =>
      rw [hw, Identifier.isWellFormed, Bool.and_eq_true] at hformed
      refine numeral?_eq_none (c := c) (by simp [hw]) ?_ ?_
      · rw [← Bool.not_eq_true]
        intro hdigit
        rw [not_isAlpha_of_isDigit hdigit] at hformed
        cases hformed.1
      · rintro rfl
        exact absurd hformed.1 (by decide)

theorem numeral?_binary {op : BinaryOp} {x y : Term} : numeral? (Term.binary op x y).text = none :=
  numeral?_eq_none (c := '(') (by simp [Term.text]) rfl (by decide)

theorem numeral?_int {a b : Int} (h : numeral? (Term.int a).text = some b) : a = b :=
  Option.some.inj ((numeral?_toString a).symm.trans h)

/-- A finite literal that is printed as a numeral is the integer, or a value of an enumeration. -/
theorem literal_of_numeral {l : Literal} {a : Int} (hl : l.requireFinite = .ok ())
    (h : numeral? l.text = some a) : l = .int a ∨ ∃ v : EnumValue, l = .enumeration v ∧
      Identifier.requireAll v.type ≠ .ok () := by
  cases l with
  | int v => exact .inl (congrArg Literal.int (Option.some.inj ((numeral?_toString v).symm.trans h)))
  | float x =>
      have hx := (write_float_numeral (isFinite_of_requireFinite hl)).2
      rw [Literal.text, numeral?, hx] at h
      cases h
  | bool b => cases b <;> cases h
  | enumeration v =>
      refine .inr ⟨v, rfl, fun hvalid => ?_⟩
      have hname := require_of_requireAll hvalid v.name (List.mem_cons_of_mem _ v.name_mem)
      rw [Literal.text, numeral?_of_valid hname] at h
      cases h

end Source

/-- Whether an expression is an enumeration or one of its values. -/
inductive Enumeration.IsSpelledBy (x : Enumeration) : Expr → Prop
  | name : x.IsSpelledBy (.enumeration x)
  | value {v : EnumValue} : v.type = x → x.IsSpelledBy (.literal (.enumeration v))

variable {v : Vocabulary} {scope : Scope}

/-- What is printed as a numeral is the integer literal, or is of an enumeration whose words are not
all identifiers. -/
theorem literal_of_term_numeral {e : Expr} {t : Term} {a : Int} (ht : e.term v scope = .ok t)
    (hlexical : t.Lexical) (h : numeral? t.text = some a) :
    e = .literal (.int a) ∨
      ∃ x : Enumeration, x.IsSpelledBy e ∧ Identifier.requireAll x ≠ .ok () := by
  have hnone {c : Char} (hc : c ∈ t.text.toList) (hdigit : c.isDigit = false) (hsign : c ≠ '-') :
      False := by
    rw [numeral?_eq_none hc hdigit hsign] at h
    cases h
  obtain ⟨hliteral, henumeration, -⟩ := leaf_of_term ht
  cases t with
  | literal l =>
      obtain rfl := hliteral l rfl
      rcases literal_of_numeral hlexical h with rfl | ⟨v, rfl, hv⟩
      · exact .inl rfl
      · exact .inr ⟨v.type, .value rfl, hv⟩
  | enumeration x =>
      obtain rfl := henumeration x rfl
      refine .inr ⟨x, .name, fun hvalid => ?_⟩
      have hname := require_of_requireAll hvalid x.name List.mem_cons_self
      rw [Term.text, numeral?_of_valid hname] at h
      cases h
  | entity s | iterator s =>
      rw [Term.text, numeral?_of_valid hlexical] at h
      cases h
  | set _ => exact (hnone (c := '\x7b') (by simp [Term.text]) rfl (by decide)).elim
  | list _ | element _ _ => exact (hnone (c := '[') (by simp [Term.text]) rfl (by decide)).elim
  | span _ _ _ => exact (hnone (c := '.') (by simp [Term.text]) rfl (by decide)).elim
  | binary _ _ _ | call _ _ =>
      exact (hnone (c := '(') (by simp [Term.text]) rfl (by decide)).elim
  | unary op _ =>
      refine (hnone (c := '(') ?_ rfl (by decide)).elim
      cases op <;> simp [Term.text, Term.unaryText]
  | comprehension op _ _ =>
      refine (hnone (c := '(') ?_ rfl (by decide)).elim
      cases op <;> simp [Term.text, Term.comprehensionText]

theorem Enumeration.IsSpelledBy.elemType {x : Enumeration} {e : Expr} (h : x.IsSpelledBy e) :
    e.elemType = .ok (.enumeration x) := by
  cases h with
  | name => rfl
  | value hv => exact hv ▸ rfl

/-- A number is no enumeration: if it is printed as a numeral, it is the literal. -/
theorem literal_of_number_numeral {e : Expr} {type : ElemType} {t : Term} {a : Int}
    (htype : e.elemType = .ok type) (hnumeric : type.isNumeric = true)
    (ht : e.term v scope = .ok t) (hlexical : t.Lexical) (h : numeral? t.text = some a) :
    e = .literal (.int a) := by
  refine (literal_of_term_numeral ht hlexical h).resolve_right ?_
  rintro ⟨x, hx, -⟩
  rw [hx.elemType] at htype
  cases htype
  cases hnumeric

/-- One below the stop is printed as a numeral only if the stop is a literal. -/
theorem stop_of_lastBelow_numeral {stop : Expr} {t : Term} {b : Int}
    (h : numeral? (lastBelow stop t).text = some b) : stop = .literal (.int (b + 1)) := by
  unfold lastBelow at h
  split at h
  · next w hw => rw [literalInt?_eq_some.1 hw, ← numeral?_int h, Int.sub_add_cancel]
  · rw [numeral?_binary] at h
    cases h

theorem bounds_of_lastIndex_numeral {start stop : Expr} {first last : Term} {b : Int}
    (h : numeral? (lastIndex start stop first last).text = some b) :
    ∃ x y, start = .literal (.int x) ∧ stop = .literal (.int y) ∧ y - x - 1 = b := by
  unfold lastIndex at h
  split at h
  · next x y hx hy =>
      exact ⟨x, y, literalInt?_eq_some.1 hx, literalInt?_eq_some.1 hy, numeral?_int h⟩
  · rw [numeral?_binary] at h
    cases h
  · rw [numeral?_binary] at h
    cases h

/-! ## Spans -/

/-- Whether an array, a set or a view is what its constructor makes. -/
def Expr.IsConstructed : Expr → Prop
  | .varArray id domain shape =>
    ∃ n n', (newVarArray domain shape).run n = (.ok (.varArray id domain shape), n')
  | .view array positions => ∃ selections, array.select selections = .ok (.view array positions)
  | e => e.IsChecked

/-- Two literals that bound a slice of a selection are in order. -/
theorem Expr.IsConstructed.slice_ordered {array : Expr} {ps : List Position} {a b : Int}
    (h : (Expr.view array ps).IsConstructed)
    (hp : .slice (.literal (.int a)) (.literal (.int b)) ∈ ps) : a < b := by
  obtain ⟨selections, hselect⟩ := h
  obtain ⟨shape, hshape⟩ := exists_shape_of_select hselect
  obtain ⟨-, hall, heq⟩ := (select_eq_ok_iff hshape).1 hselect
  cases heq
  obtain ⟨k, hk, hcompleted⟩ := List.mem_mapIdx.1 hp
  rw [Nat.zero_add] at hcompleted
  obtain ⟨-, hfits⟩ := hall k _ (List.getElem?_eq_getElem hk)
  rw [hcompleted] at hfits
  exact Int.not_le.1 (hfits.2.2 _ _ rfl rfl)

/-- Whether an expression prints a slice that starts at a word of an enumeration. -/
def Expr.SlicesFrom (e : Expr) (x : Enumeration) : Prop :=
  ∃ array ps start stop, e.Shows (.view array ps) ∧ .slice start stop ∈ ps ∧ x.IsSpelledBy start

section Spans

variable {root : Expr} {float : Bool} {first last : Term} {a b : Int}

/-- A range with numerals as bounds has literals, which are in order. -/
theorem range_ordered {start stop : Expr} {type : ElemType} {stopTerm : Term}
    (hrange : requireRange start stop = .ok ()) (htype : (Expr.range start stop).elemType = .ok type)
    (hstart : start.term v scope = .ok first) (hstop : stop.term v scope = .ok stopTerm)
    (hlast : last = if type = .float then stopTerm else lastBelow stop stopTerm)
    (hlexical : first.Lexical ∧ last.Lexical) (ha : numeral? first.text = some a)
    (hb : numeral? last.text = some b) : a ≤ b := by
  have hbounds := htype
  simp only [Expr.elemType, bind_eq_ok] at hbounds
  obtain ⟨s, hs, u, hu, hnumeric⟩ := hbounds
  obtain ⟨hsnumeric, hunumeric⟩ := rangeType_numeric hnumeric
  obtain rfl := literal_of_number_numeral hs hsnumeric hstart hlexical.1 ha
  split_ifs at hlast with hfloat
  · subst hlast
    obtain rfl := literal_of_number_numeral hu hunumeric hstop hlexical.2 hb
    rw [hfloat] at htype
    cases htype
  · subst hlast
    obtain rfl := stop_of_lastBelow_numeral hb
    have horder := Int.not_le.1 (requireRange_eq_ok.1 hrange _ _ rfl rfl)
    omega

/-- A span in a position of a view with numerals as bounds has bounds in order, unless it is a slice
that starts at a word of an enumeration. -/
theorem cut_ordered {array : Expr} {ps : List Position} {p : Position} {cut : Cut}
    (hmade : (Expr.view array ps).IsConstructed) (hp : p ∈ ps)
    (hcut : CutSpelled (fun e t => e.term v scope = .ok t) p cut)
    (hspan : .span float first last = cut.span ∨ .span float first last = cut.indexSet)
    (hlexical : first.Lexical) (ha : numeral? first.text = some a)
    (hb : numeral? last.text = some b) :
    a ≤ b ∨ ∃ start stop, .slice start stop ∈ ps ∧ ∃ x : Enumeration, x.IsSpelledBy start ∧
      Identifier.requireAll x ≠ .ok () := by
  cases hcut with
  | index ht =>
      -- Both bounds are the index, or zero.
      refine .inl (Int.le_of_eq (Option.some.inj (ha.symm.trans ?_)))
      rcases hspan with hspan | hspan <;> cases hspan <;> exact hb
  | @slice start stop x y hfirst hlast =>
      rcases hspan with hspan | hspan <;> cases hspan
      · obtain rfl := stop_of_lastBelow_numeral hb
        rcases literal_of_term_numeral hfirst hlexical ha with rfl | hx
        · exact .inl (Int.le_of_lt_add_one (hmade.slice_ordered hp))
        · exact .inr ⟨_, _, hp, hx⟩
      · obtain ⟨i, j, rfl, rfl, hij⟩ := bounds_of_lastIndex_numeral hb
        have horder := hmade.slice_ordered hp
        have hzero := numeral?_int ha
        left
        omega

theorem Origin.span_ordered (h : Origin v root (.span float first last))
    (hmade : ∀ s, root.Shows s → s.IsConstructed) (hlexical : first.Lexical ∧ last.Lexical)
    (ha : numeral? first.text = some a) (hb : numeral? last.text = some b) :
    a ≤ b ∨ ∃ x, root.SlicesFrom x ∧ Identifier.requireAll x ≠ .ok () := by
  rcases h.exists_span with
    ⟨start, stop, scope, type, stopTerm, -, hrange, htype, hstart, hstop, hlast⟩ |
    ⟨array, ps, p, cut, scope, hshows, hp, hcut, hspan⟩
  · exact .inl (range_ordered hrange htype hstart hstop hlast hlexical ha hb)
  · rcases cut_ordered (hmade _ hshows) hp hcut hspan hlexical.1 ha hb with
      hle | ⟨start, stop, hslice, x, hx, hinvalid⟩
    · exact .inl hle
    · exact .inr ⟨x, ⟨array, ps, start, stop, hshows, hslice, hx⟩, hinvalid⟩

end Spans

/-! ## Programs -/

/-- A range that a program prints, by the texts of its bounds: the index set of a dimension of a
declared array, or a span at any depth in one of the terms. -/
inductive Source.Program.PrintsRange (p : Program) : String → String → Prop
  | indexSet {d : Declaration} {shape : Shape} {search : Bool} {base : Base} {extent : Nat} :
      d ∈ p.declarations → d.type = .array shape search base → extent ∈ shape.extents →
      p.PrintsRange "0" (toString (extent - 1))
  | span {t : Term} {float : Bool} {first last : Term} : t ∈ p.terms →
      t.Shows (.span float first last) → p.PrintsRange first.text last.text

/-- The array that a declaration is of has a valid shape. -/
theorem Expr.IsConstructed.isValid {e : Expr} {name : String} {d : Declaration} {shape : Shape}
    {search : Bool} {base : Base} (h : e.IsConstructed) (hd : e.declaration v name = .ok d)
    (htype : d.type = .array shape search base) : shape.isValid = true := by
  cases e with
  | varArray id domain shape' =>
      simp only [Expr.declaration, bind_eq_ok, pure_eq_ok] at hd
      obtain ⟨b, -, rfl⟩ := hd
      cases htype
      obtain ⟨n, n', hrun⟩ := h
      exact newVarArray_eq_ok hrun
  | paramArray id values shape' =>
      simp only [Expr.declaration, bind_eq_ok, pure_eq_ok] at hd
      obtain ⟨type, -, rfl⟩ := hd
      cases htype
      obtain ⟨data, n, n', hrun⟩ := h
      exact (newParamArray_eq_ok hrun).valid
  | var _ _ | varSet _ _ | paramSet _ _ =>
      simp only [Expr.declaration, bind_eq_ok, pure_eq_ok] at hd
      obtain ⟨b, -, rfl⟩ := hd
      cases htype
  | derivedParam _ _ =>
      simp only [Expr.declaration, bind_eq_ok, pure_eq_ok] at hd
      obtain ⟨type, -, t, -, rfl⟩ := hd
      cases htype
  | boundVar _ _ _ | param _ _ =>
      cases hd
      cases htype
  | _ => exact absurd hd throw_ne_ok

section Compiled

variable {model : Model} {n n' : Nat} {c : CompiledModel}

/-- What is declared is constructed if the attributes are. -/
theorem entries_constructed {r : ResolvedModel} (h : model.resolve.run n = (.ok r, n'))
    (hattributes : ∀ entry ∈ model.attributes, entry.2.IsConstructed) :
    ∀ entry ∈ r.parameters ++ r.decisions, entry.2.IsConstructed := by
  obtain ⟨-, hrun, -⟩ := resolve_eq_ok h
  obtain ⟨entries, hr, hentries⟩ := declareAll_entries hrun
  intro entry hentry
  have hmem : entry ∈ entries := by
    have hparameters := congrArg Entities.parameters hr
    have hdecisions := congrArg Entities.decisions hr
    simp only [Entities.adding, Entities.empty, List.nil_append] at hparameters hdecisions
    rw [hparameters, hdecisions] at hentry
    exact (List.mem_append.1 hentry).elim List.mem_of_mem_filter List.mem_of_mem_filter
  obtain ⟨e, k, k', hattribute, hbound⟩ := hentries entry hmem
  generalize hvalue : entry.2 = value at hbound
  cases hbound with
  | leaf _ => exact hattributes _ hattribute
  | operation _ _ => trivial

/-- Where arrays, sets and views are made by their constructors, no range of a compiled model is empty
if both bounds are printed as integers: the extents of declared arrays are positive, and the bounds of
ranges and slices are literals in order. A slice is apart that starts at a word of an enumeration which
the program does not declare, and whose words have not been checked to be identifiers. -/
theorem compile_ranges (h : model.compile.run n = (.ok c, n'))
    (hattributes : ∀ entry ∈ model.attributes, entry.2.IsConstructed)
    (hspelled : ∀ e ∈ c.resolved.spelled, ∀ s, e.Shows s → s.IsConstructed) :
    (∀ d ∈ c.program.declarations, ∀ shape search base, d.type = .array shape search base →
      ∀ extent ∈ shape.extents, 1 ≤ extent) ∧
    ∀ first last a b, c.program.PrintsRange first last → numeral? first = some a →
      numeral? last = some b → a ≤ b ∨
        ∃ e ∈ c.resolved.spelled, ∃ x, e.SlicesFrom x ∧ x ∉ c.program.enumerations ∧
          Identifier.requireAll x ≠ .ok () := by
  obtain ⟨hresolve, hprogram⟩ := compile_eq_ok h
  have hentries := entries_constructed hresolve hattributes
  constructor
  · intro d hd shape search base htype extent hextent
    obtain ⟨entry, hentry, hdeclaration⟩ := exists_of_mem_right (declarations_eq hprogram) hd
    have hvalid := (hentries entry hentry).isValid hdeclaration htype
    exact (Shape.isValid_iff.1 hvalid).2 extent hextent
  · intro first last a b hprints ha hb
    cases hprints with
    | @indexSet d shape search base extent _ _ _ =>
        have hzero : (0 : Int) = a := Option.some.inj ((numeral?_toString 0).symm.trans ha)
        have hlast : ((extent - 1 : Nat) : Int) = b :=
          Option.some.inj ((numeral?_natCast _).symm.trans hb)
        left
        omega
    | @span t float first last ht hshows =>
        have hlexical : first.Lexical ∧ last.Lexical :=
          ⟨compile_lexical h t ht _ (hshows.tail (by simp [Term.parts])),
            compile_lexical h t ht _ (hshows.tail (by simp [Term.parts]))⟩
        generalize hs : Term.span float first last = s at hshows
        cases prints_of_mem_terms hprogram ht s hshows with
        | @origin e s he horigin =>
            subst hs
            refine (horigin.span_ordered (hspelled e he) hlexical ha hb).imp_right ?_
            rintro ⟨x, hslices, hinvalid⟩
            exact ⟨e, he, x, hslices, fun hx => hinvalid ((compile_worded h).enumerations x hx),
              hinvalid⟩
        | @interval entry id start stop hentry hset =>
            cases hs
            have hmade := hentries entry hentry
            rw [hset] at hmade
            obtain ⟨k, k', hrun⟩ := hmade
            have hlt := newParamInterval_eq_ok hrun
            have hfirst := numeral?_int ha
            have hlast := numeral?_int hb
            left
            omega
        | _ => cases hs

def slicedMiddle : Expr :=
  .view row [.slice (.literal (.int 1)) (.literal (.int 4))]

/-- A sum over a slice of an array, an interval and a domain. -/
def scheduledModel : Model where
  attributes := [("a", row), ("days", .paramSet ⟨3⟩ (.interval 1 8)),
    ("x", .var ⟨4⟩ (.range (.literal (.int (-2))) (.literal (.int 3))))]
  constraints := [.binary .eq (.aggregate .sum [slicedMiddle]) (.var ⟨4⟩ .int)]
  objective := .satisfy

/-- What the model prints, at any depth. -/
def scheduledParts : List Expr :=
  [.range (.literal (.int (-2))) (.literal (.int 3)), .literal (.int (-2)), .literal (.int 3),
    .binary .eq (.aggregate .sum [slicedMiddle]) (.var ⟨4⟩ .int), .aggregate .sum [slicedMiddle],
    slicedMiddle, row, .literal (.int 1), .literal (.int 4), .var ⟨4⟩ .int]

theorem compile_ranges_scheduledModel : ∃ c n', scheduledModel.compile.run 5 = (.ok c, n') ∧
    c.program.lines = ["set of 1..7: days;", "array[0..4] of var int: a;", "var -2..2: x;",
      "constraint (sum(slice_1d(a, [1..3], 0..2)) == x);", "solve satisfy;"] ∧
    ∀ first last a b, c.program.PrintsRange first last → numeral? first = some a →
      numeral? last = some b → a ≤ b := by
  refine ⟨_, _, rfl, by decide, fun first last a b hprints ha hb => ?_⟩
  have hclosed : ∀ e ∈ scheduledParts, ∀ s ∈ e.parts ++ e.selectors, s ∈ scheduledParts := by
    simp [scheduledParts, Expr.parts, Expr.selectors, Position.operands, slicedMiddle, row]
  have hspelled : (.range (.literal (.int (-2))) (.literal (.int 3)) :: scheduledModel.constraints) ⊆
      scheduledParts := by
    simp [scheduledParts, scheduledModel]
  have hrow : row.IsConstructed := ⟨2, 3, rfl⟩
  have hslice : slicedMiddle.IsConstructed :=
    ⟨[.slice (some (.literal (.int 1))) (some (.literal (.int 4))) none], rfl⟩
  have hparts : ∀ e ∈ scheduledParts, e.IsConstructed := by
    simp only [scheduledParts, List.forall_mem_cons]
    exact ⟨trivial, trivial, trivial, trivial, trivial, hslice, hrow, trivial, trivial, trivial,
      by simp⟩
  have hattributes : ∀ entry ∈ scheduledModel.attributes, entry.2.IsConstructed := by
    simp only [scheduledModel, List.forall_mem_cons]
    exact ⟨hrow, ⟨3, 4, rfl⟩, trivial, by simp⟩
  have hranges := compile_ranges (rfl : scheduledModel.compile.run 5 = (.ok _, _)) hattributes
    fun e he s hs => hparts s (Expr.mem_of_shows hclosed (hspelled he) hs)
  refine (hranges.2 first last a b hprints ha hb).resolve_right ?_
  -- The only slice starts at an integer.
  rintro ⟨e, he, x, ⟨array, ps, start, stop, hshows, hp, hx⟩, -⟩
  have hmem := Expr.mem_of_shows hclosed (hspelled he) hshows
  obtain ⟨rfl, rfl⟩ : array = row ∧ ps = [.slice (.literal (.int 1)) (.literal (.int 4))] := by
    simpa [scheduledParts, slicedMiddle, row] using hmem
  cases List.mem_singleton.1 hp
  cases hx

abbrev shifts : Enumeration :=
  ⟨"Shift", ["5"], by decide⟩

/-- An enumeration whose only variant is a number. -/
def fifth : EnumValue :=
  ⟨shifts, 0⟩

def quotas : Expr :=
  .paramArray ⟨0⟩ [.int 4, .int 4, .int 4, .int 4, .int 4, .int 4] ⟨[6]⟩

/-- A slice that starts at the variant. -/
def shiftedQuotas : Expr :=
  .view quotas [.slice (.literal (.enumeration fifth)) (.literal (.int 3))]

def shiftedModel : Model where
  attributes := [("a", quotas),
    ("x", .var ⟨1⟩ (.range (.literal (.int 0)) (.aggregate .sum [shiftedQuotas])))]
  constraints := []
  objective := .satisfy

/-- The bounds of a slice are not typed, and an enumeration inside a bound of a domain is not checked,
so a range is printed from five to two. -/
theorem shiftedModel_empty :
    (∃ data, (Expr.newParamArray data).run 0 = (.ok quotas, 1)) ∧
    quotas.select [.slice (some (.literal (.enumeration fifth))) (some (.literal (.int 3))) none] =
      .ok shiftedQuotas ∧
    (Expr.aggregateOf .sum [shiftedQuotas]) = .ok (.aggregate .sum [shiftedQuotas]) ∧
    (∃ c n', shiftedModel.compile.run 2 = (.ok c, n') ∧
      c.program.lines = ["array[0..5] of int: a;",
        "var 0..(sum(slice_1d(a, [5..2], 0..((3 - 5) - 1))) - 1): x;", "solve satisfy;"] ∧
      c.program.PrintsRange "5" "2") ∧
    numeral? "5" = some 5 ∧ numeral? "2" = some 2 ∧ ¬ (5 : Int) ≤ 2 := by
  refine ⟨⟨.list (List.replicate 6 (.leaf (.int 4))), ?_⟩, rfl, rfl, ⟨_, _, rfl, by decide, ?_⟩,
    numeral?_toString 5, numeral?_toString 2, by decide⟩
  · have hshape : Nested.shape (.list (List.replicate 6 (.leaf (.int 4)))) =
        .ok (⟨[6]⟩, List.replicate 6 (.int 4)) := by
      cbv
    rw [Expr.newParamArray, hshape]
    rfl
  · -- The slice is in the sum that ends the domain of the variable.
    refine @Program.PrintsRange.span _ _ false (.literal (.enumeration fifth)) (.int 2)
      (List.mem_singleton_self _) ?_
    exact .head (List.mem_cons_of_mem _ List.mem_cons_self) (.head List.mem_cons_self
      (.head List.mem_cons_self (.head (List.mem_cons_of_mem _ List.mem_cons_self)
        (.head List.mem_cons_self .refl))))

end Compiled

end ConstraintModel
