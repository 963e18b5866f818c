import ConstraintModel.Proofs.Selections
import ConstraintModel.Proofs.Spans
import ConstraintModel.Proofs.Spelling

/-!
# Views

The term of a view denotes the part of its array that its positions choose. Each position becomes a
cut that takes what the position chooses along its dimension; the cuts together are written as an
element, as a slice or as a slice without the dimensions that are indexed, and each of these has a
value, so its spans, index sets and sizes agree.
-/

namespace ConstraintModel

open Source

variable {lib : Library} {env : Environment}

/-! ## Spans -/

/-- The last index of a slice from `a` to `b` that is counted from zero. -/
theorem lastIndex_denotes {start stop : Expr} {first last : Term} {a b : Int}
    (hfirst : Denotes lib env first.text (some (.int a)))
    (hlast : Denotes lib env last.text (some (.int b)))
    (hstart : ∀ w, start.literalInt? = some w → w = a)
    (hstop : ∀ w, stop.literalInt? = some w → w = b) :
    DenotesAtom lib env (lastIndex start stop first last).text (some (.int (b - a - 1))) := by
  unfold lastIndex
  split
  next u w hu hw =>
    rw [hstart u hu, hstop w hw]
    exact denotes_int _
  next hzero _ =>
    rw [← hstart 0 hzero, Int.sub_zero]
    exact hlast.binary .sub (denotes_int 1).denotes
  next =>
    exact (hlast.binary .sub hfirst).denotes.binary .sub (denotes_int 1).denotes

/-! ## Cuts -/

/-- A cut takes what is chosen along its dimension, and its index set counts that from zero. -/
inductive Source.Cut.Takes (lib : Library) (env : Environment) : Choice → Cut → Prop
  | index {t i} : Denotes lib env (Term.text t) (some (.int i)) →
      Takes lib env (.index i) (.index t)
  | slice {span indexSet a b} :
      Denotes lib env (Term.text span) (some (.intSet (integers a b))) →
      Denotes lib env (Term.text indexSet) (some (.intSet (integers 0 (b - a)))) →
      Takes lib env (.slice a b) (.slice span indexSet)

namespace Source.Cut.Takes

variable {c : Choice} {cut : Cut} {choices : List Choice} {cs : List Cut}

theorem span_denotes (h : Takes lib env c cut) :
    Denotes lib env cut.span.text (some (.intSet c.indices)) := by
  cases h with
  | @index t i ht =>
      rw [span, Choice.indices, ← integers_singleton]
      exact intSpan_denotes false ht ht
  | slice hspan _ => exact hspan

theorem indexSet_denotes (h : Takes lib env c cut) :
    Denotes lib env cut.indexSet.text (some (.intSet (integers 0 c.indices.length))) := by
  cases h with
  | index _ => exact intSpan_denotes false (denotes_int 0).denotes (denotes_int 0).denotes
  | @slice _ _ a b _ hset =>
      rw [indexSet, Choice.indices, length_integers, integers_toNat]
      exact hset

theorem kept_denote (h : List.Forall₂ (Takes lib env) choices cs) :
    List.Forall₂ (fun t x => Denotes lib env (Term.text t) (some x)) (cs.filterMap keptIndexSet?)
      ((zeroBased (choices.filterMap Choice.extent?)).map .intSet) := by
  induction h with
  | nil => exact .nil
  | cons hc _ ih =>
      cases hc with
      | index _ => exact ih
      | slice _ hset => exact .cons (by simpa only [integers_toNat] using hset) ih

theorem indices_denote (h : List.Forall₂ (Takes lib env) choices cs)
    (hnone : choices.filterMap Choice.extent? = []) :
    ∃ is : List Int, choices = is.map .index ∧
      List.Forall₂ (fun t x => Denotes lib env (Term.text t) (some x)) (cs.filterMap index?)
        (is.map .int) := by
  induction h with
  | nil => exact ⟨[], rfl, .nil⟩
  | cons hc _ ih =>
      cases hc with
      | @index t i ht =>
          obtain ⟨is, rfl, his⟩ := ih hnone
          exact ⟨i :: is, rfl, .cons ht his⟩
      | slice _ _ => simp [Choice.extent?] at hnone

end Source.Cut.Takes

/-! ## Parts -/

theorem mapM_int? (is : List Int) : (is.map Value.int).mapM Value.int? = some is :=
  mapM_map_eq_some (fun i => (rfl : Value.int? (.int i) = some i)) is

@[simp] theorem Value.intMembers?_intSet (is : List Int) :
    (Value.intSet is).intMembers? = some is := by
  simp only [intSet, intMembers?, members?, Option.bind_some]
  rw [List.map_map]
  exact mapM_int? is

/-- The index set that a cut gets has as many members as the span it takes. -/
theorem lengths_newSets (choices : List Choice) :
    (choices.map fun c => integers 0 c.indices.length).map List.length =
      (choices.map Choice.indices).map List.length := by
  simp

/-- The slice that cuts are written as holds the chosen elements. -/
theorem part_denotes {s : Symbol} {extents : List Nat} {xs : List Value} {choices : List Choice}
    {cs : List Cut} (hword : Identifier.require s.word = .ok ())
    (hs : env.lookup s.word = some (.array (zeroBased extents) xs))
    (hxs : xs.length = extents.prod) (hwithin : List.Forall₂ Choice.Within extents choices)
    (hcuts : List.Forall₂ (Cut.Takes lib env) choices cs) :
    DenotesAtom lib env (Term.call (.slice extents.length)
      (.entity s :: .list (cs.map Cut.span) :: cs.map Cut.indexSet)).text
      (some (.array (choices.map fun c => integers 0 c.indices.length)
        (takenElements extents xs choices))) := by
  have hspans : List.Forall₂ (fun t x => Denotes lib env (Term.text t) (some x))
      (cs.map Cut.span) ((choices.map Choice.indices).map .intSet) := by
    rw [List.map_map, List.forall₂_map_left_iff, List.forall₂_map_right_iff]
    exact hcuts.flip.imp fun _ _ h => h.span_denotes
  have hsets : List.Forall₂ (fun t x => Denotes lib env (Term.text t) (some x))
      (cs.map Cut.indexSet)
      ((choices.map fun c => integers 0 c.indices.length).map .intSet) := by
    rw [List.map_map, List.forall₂_map_left_iff, List.forall₂_map_right_iff]
    exact hcuts.flip.imp fun _ _ h => h.indexSet_denotes
  have hlengths := lengths_newSets choices
  have hmembers (is : List Int) : (Value.intSet is).intMembers? = some is := by simp
  refine call_denotes (.cons (entity_denotes hword hs).denotes
    (.cons (list_denotes hspans).denotes hsets)) _ ?_
  simp only [Option.bind_eq_bind, Option.bind_some, Option.pure_def, Source.Function.apply,
    Value.list, mapM_map_eq_some hmembers, hlengths, mapM_elementAt?_chosen hwithin hxs]
  simp [zeroBased, hwithin.length_eq]

/-- As many elements are chosen as the kept dimensions have index tuples. -/
theorem length_takenElements {extents : List Nat} {xs : List Value} {choices : List Choice}
    (hxs : xs.length = extents.prod) (hwithin : List.Forall₂ Choice.Within extents choices) :
    (takenElements extents xs choices).length = (choices.filterMap Choice.extent?).prod := by
  have hlength := (forall₂_of_mapM_eq_some (mapM_elementAt?_chosen hwithin hxs)).length_eq
  rw [← hlength, length_tuples, List.map_map]
  clear hlength hwithin
  induction choices with
  | nil => rfl
  | cons c choices ih =>
      cases c with
      | index i => simpa [Choice.indices, Choice.extent?, List.filterMap_cons] using ih
      | slice a b => simp [Choice.indices, Choice.extent?, ih]

/-- A reshape gives the elements of the last argument the index sets before it. -/
theorem reshaped_eq {sets : List (List Int)} (taken : List (List Int)) {old : List (List Int)}
    {xs : List Value} (h : (tuples (taken ++ sets)).length = xs.length) :
    Source.Function.reshaped (sets.map .intSet ++ [.array old xs]) taken =
      some (.array (taken ++ sets) xs) := by
  induction sets generalizing taken with
  | nil =>
      rw [List.append_nil] at h
      simp [Source.Function.reshaped, h]
  | cons is sets ih =>
      have hstep := ih (taken ++ [is]) (by simpa using h)
      simp [Source.Function.reshaped, hstep]

/-- A value is the chosen part of an array: the one element if no dimension is kept, and else an array
of the kept extents with the chosen elements in their order. -/
def IsPart (extents : List Nat) (xs : List Value) (choices : List Choice) (x : Value) : Prop :=
  match choices.filterMap Choice.extent? with
  | [] => takenElements extents xs choices = [x]
  | kept => ∃ sets, x = .array sets (takenElements extents xs choices) ∧
      sets.map List.length = kept

theorem isPart_array {extents : List Nat} {xs : List Value} {choices : List Choice}
    {sets : List (List Int)} (hne : choices.filterMap Choice.extent? ≠ [])
    (hsets : sets.map List.length = choices.filterMap Choice.extent?) :
    IsPart extents xs choices (.array sets (takenElements extents xs choices)) := by
  unfold IsPart
  split
  next h => exact absurd h hne
  next => exact ⟨sets, rfl, hsets⟩

theorem lengths_zeroBased (extents : List Nat) : (zeroBased extents).map List.length = extents := by
  simp [zeroBased, Function.comp_def]

theorem lengths_indices {choices : List Choice}
    (hall : (choices.filterMap Choice.extent?).length = choices.length) :
    (choices.map Choice.indices).map List.length = choices.filterMap Choice.extent? := by
  rw [List.filterMap_length_eq_length] at hall
  induction choices with
  | nil => rfl
  | cons c choices ih =>
      obtain ⟨hc, hchoices⟩ := List.forall_mem_cons.1 hall
      cases c with
      | index i => simp [Choice.extent?] at hc
      | slice a b => simpa [Choice.indices, Choice.extent?] using ih hchoices

theorem reshape_apply {rank : Nat} (hrank : rank ≠ 1) {args : List Value}
    (hargs : args.length = rank + 1) :
    Source.Function.apply lib (.reshape rank) args = Source.Function.reshaped args [] := by
  unfold Source.Function.apply
  split <;> simp_all

theorem element_part {s : Symbol} {extents : List Nat} {xs : List Value} {choices : List Choice}
    {cs : List Cut} (hword : Identifier.require s.word = .ok ())
    (hs : env.lookup s.word = some (.array (zeroBased extents) xs))
    (hxs : xs.length = extents.prod) (hwithin : List.Forall₂ Choice.Within extents choices)
    (hcuts : List.Forall₂ (Cut.Takes lib env) choices cs)
    (hnone : choices.filterMap Choice.extent? = []) :
    ∃ x, Denotes lib env (Term.element s (cs.filterMap Cut.index?)).text (some x) ∧
      IsPart extents xs choices x := by
  obtain ⟨is, rfl, his⟩ := Cut.Takes.indices_denote hcuts hnone
  obtain ⟨x, helement, htaken⟩ := exists_elementAt? hwithin hxs
  refine ⟨x, ?_, by rw [IsPart, hnone]; exact htaken⟩
  have hdenotes := denotes_element hword (all_denote his)
  simp only [mapM_some, hs, Option.bind_eq_bind, Option.bind_some, mapM_int?, Value.element?,
    helement] at hdenotes
  exact hdenotes.denotes

/-- The kept index sets and the slice make an array of the kept extents. -/
theorem reshape_part {extents : List Nat} {xs : List Value} {choices : List Choice}
    {kept : List Term} {part : Term} {sets : List (List Int)}
    (hlength : (takenElements extents xs choices).length =
      (choices.filterMap Choice.extent?).prod)
    (hkept : List.Forall₂ (fun t x => Denotes lib env (Term.text t) (some x)) kept
      ((zeroBased (choices.filterMap Choice.extent?)).map .intSet))
    (hpart : Denotes lib env part.text
      (some (.array sets (takenElements extents xs choices))))
    (hone : kept.length ≠ 1) :
    DenotesAtom lib env (Term.call (.reshape kept.length) (kept ++ [part])).text
      (some (.array (zeroBased (choices.filterMap Choice.extent?))
        (takenElements extents xs choices))) := by
  have hsize : (tuples ([] ++ zeroBased (choices.filterMap Choice.extent?))).length =
      (takenElements extents xs choices).length := by
    rw [List.nil_append, length_tuples_zeroBased, hlength]
  refine call_denotes (List.rel_append hkept (.cons hpart .nil)) _ ?_
  rw [reshape_apply hone (by simp [hkept.length_eq]), reshaped_eq [] hsize]
  rfl

/-- The text that cuts are written as denotes the chosen part. -/
theorem viewTerm_denotes {s : Symbol} {extents : List Nat} {xs : List Value}
    {choices : List Choice} {cs : List Cut} (hword : Identifier.require s.word = .ok ())
    (hs : env.lookup s.word = some (.array (zeroBased extents) xs))
    (hxs : xs.length = extents.prod) (hwithin : List.Forall₂ Choice.Within extents choices)
    (hcuts : List.Forall₂ (Cut.Takes lib env) choices cs) :
    ∃ x, Denotes lib env (viewTerm s extents.length cs).text (some x) ∧
      IsPart extents xs choices x := by
  have hpart := (part_denotes hword hs hxs hwithin hcuts).denotes
  have hkept := Cut.Takes.kept_denote hcuts
  have hlength := length_takenElements hxs hwithin
  have hkeptLength : (cs.filterMap Cut.keptIndexSet?).length =
      (choices.filterMap Choice.extent?).length := by
    simpa [zeroBased] using hkept.length_eq
  unfold viewTerm
  by_cases hempty : (cs.filterMap Cut.keptIndexSet?).isEmpty
  · have hnone : choices.filterMap Choice.extent? = [] := by
      rw [← List.length_eq_zero_iff, ← hkeptLength]
      simpa using hempty
    simp only [if_pos hempty]
    exact element_part hword hs hxs hwithin hcuts hnone
  have hne : choices.filterMap Choice.extent? ≠ [] := by
    rw [← List.length_pos_iff_ne_nil, ← hkeptLength]
    simpa [List.length_pos_iff_ne_nil, List.isEmpty_iff] using hempty
  simp only [if_neg hempty]
  by_cases hall : (cs.filterMap Cut.keptIndexSet?).length = extents.length
  · rw [if_pos hall]
    refine ⟨_, hpart, isPart_array hne ?_⟩
    rw [lengths_newSets, lengths_indices (by rw [← hkeptLength, hall, hwithin.length_eq])]
  rw [if_neg hall]
  by_cases hone : (cs.filterMap Cut.keptIndexSet?).length = 1
  · rw [if_pos hone]
    refine ⟨_, (flat_denotes hpart).denotes, isPart_array hne ?_⟩
    obtain ⟨n, hn⟩ := List.length_eq_one_iff.1 (hkeptLength ▸ hone)
    simp [hlength, hn]
  · rw [if_neg hone]
    exact ⟨_, (reshape_part hlength hkept hpart hone).denotes,
      isPart_array hne (lengths_zeroBased _)⟩

/-! ## Selections -/

section Selections

variable (lib : Library) (env : Environment) (v : Vocabulary) (scope : Scope)

/-- The text of an expression denotes an integer. -/
def Expr.HasIndex (e : Expr) (i : Int) : Prop :=
  ∃ t, e.term v scope = .ok t ∧ Denotes lib env t.text (some (.int i))

/-- A bound of a slice denotes an integer, or is absent and has its default. -/
def BoundIs (bound : Option Expr) (default i : Int) : Prop :=
  match bound with
  | some e => e.HasIndex lib env v scope i
  | none => i = default

/-- What a selection chooses along a dimension, once its index or bounds have values. -/
inductive Selection.Chooses (extent : Nat) : Selection → Choice → Prop
  | index {e i} : e.HasIndex lib env v scope i → Chooses extent (.index e) (.index i)
  | slice {start stop step a b} : BoundIs lib env v scope start 0 a →
      BoundIs lib env v scope stop extent b → Chooses extent (.slice start stop step) (.slice a b)

/-- What selections choose along all dimensions of an array; missing ones choose everything. -/
inductive SelectionsChoose : List Nat → List Selection → List Choice → Prop
  | nil {selections} : SelectionsChoose [] selections []
  | cons {n extents selections c choices} :
      (selections.headD .all).Chooses lib env v scope n c →
      SelectionsChoose extents selections.tail choices →
      SelectionsChoose (n :: extents) selections (c :: choices)

/-- What a position chooses along its dimension, by the integers that its texts denote. -/
inductive Position.Chooses : Position → Choice → Prop
  | index {e i} : e.HasIndex lib env v scope i → Chooses (.index e) (.index i)
  | slice {start stop a b} : start.HasIndex lib env v scope a → stop.HasIndex lib env v scope b →
      Chooses (.slice start stop) (.slice a b)

/-- The array is declared under an identifier, and the environment gives it these elements. -/
def ArrayHolds (array : Expr) (shape : Shape) (xs : List Value) : Prop :=
  array.shape? = some shape ∧ xs.length = shape.extents.prod ∧
    ∃ s, v.symbolOf array = .ok s ∧ Identifier.require s.word = .ok () ∧
      env.lookup s.word = some (.array (zeroBased shape.extents) xs)

end Selections

variable {v : Vocabulary} {scope : Scope}

theorem literalInt_eq {e : Expr} {t : Term} {w i : Int} (ht : e.term v scope = .ok t)
    (hi : Denotes lib env t.text (some (.int i))) (hw : e.literalInt? = some w) : w = i := by
  rw [literalInt?_eq_some.1 hw] at ht
  simp only [Expr.term, bind_eq_ok, pure_eq_ok] at ht
  obtain ⟨-, -, rfl⟩ := ht
  have hvalue := (denotes_int w).denotes.unique hi
  simpa [Value.int] using hvalue

theorem ofSlice_takes {start stop : Expr} {first last : Term} {a b : Int}
    (hfirst : start.term v scope = .ok first) (hlast : stop.term v scope = .ok last)
    (ha : Denotes lib env first.text (some (.int a)))
    (hb : Denotes lib env last.text (some (.int b))) :
    Cut.Takes lib env (.slice a b) (Cut.ofSlice start stop first last) := by
  have hstart (w : Int) (hw : start.literalInt? = some w) : w = a := literalInt_eq hfirst ha hw
  have hstop (w : Int) (hw : stop.literalInt? = some w) : w = b := literalInt_eq hlast hb hw
  have hindex : DenotesAtom lib env (lastIndex start stop first last).text _ :=
    lastIndex_denotes ha hb hstart hstop
  refine .slice (range_denotes (ha.atom ha.isAtom_of_int) hb fun w hw => ?_) ?_
  · rw [hstop w hw]
  · have hset := intSpan_denotes false (denotes_int 0).denotes hindex.denotes
    rwa [Int.sub_add_cancel] at hset

theorem literal_hasIndex (lib : Library) (env : Environment) (v : Vocabulary) (scope : Scope)
    (i : Int) : (Expr.literal (.int i)).HasIndex lib env v scope i :=
  ⟨.int i, rfl, (denotes_int i).denotes⟩

theorem BoundIs.getD {bound : Option Expr} {e : Expr} {default i : Int}
    (h : BoundIs lib env v scope bound default i)
    (he : i = default → e.HasIndex lib env v scope i) :
    (bound.getD e).HasIndex lib env v scope i := by
  cases bound with
  | none => exact he h
  | some e' => exact h

/-- A selection within its dimension is completed to a position that chooses the same. -/
theorem Selection.Chooses.completed {array : Expr} {dim n : Nat} {selection : Selection} {c : Choice}
    (h : selection.Chooses lib env v scope n c) (hwithin : c.Within n)
    (hsize : 0 < n → (Expr.size array dim).HasIndex lib env v scope n) :
    (selection.completed array dim).Chooses lib env v scope c := by
  cases h with
  | index hi => exact .index hi
  | @slice start stop step a b hstart hstop =>
      obtain ⟨h0, hab, hbn⟩ := hwithin
      have hzero (h : a = 0) : (Expr.literal (.int 0)).HasIndex lib env v scope a :=
        h ▸ literal_hasIndex lib env v scope 0
      exact .slice (hstart.getD hzero) (hstop.getD fun h => h ▸ hsize (by omega))

theorem completions_choose {array : Expr} {dim : Nat} {extents : List Nat}
    {selections : List Selection} {choices : List Choice}
    (hsize : ∀ k n : Nat, extents[k]? = some n → 0 < n →
      (Expr.size array (dim + k)).HasIndex lib env v scope n)
    (hchoose : SelectionsChoose lib env v scope extents selections choices)
    (hwithin : List.Forall₂ Choice.Within extents choices) :
    List.Forall₂ (Position.Chooses lib env v scope) (completions array dim extents selections)
      choices := by
  induction hchoose generalizing dim with
  | nil => exact .nil
  | @cons n extents selections c choices hc _ ih =>
      obtain ⟨hw, hwithin⟩ := List.forall₂_cons.1 hwithin
      have hhead : 0 < n → (Expr.size array dim).HasIndex lib env v scope n := hsize 0 n rfl
      rw [completions_cons]
      refine .cons (hc.completed hw hhead) (ih (fun k n' hk hpos => ?_) hwithin)
      rw [Nat.add_right_comm, Nat.add_assoc]
      exact hsize (k + 1) n' hk hpos

theorem ArrayHolds.size_hasIndex {array : Expr} {shape : Shape} {xs : List Value} {dim n : Nat}
    (h : ArrayHolds env v array shape xs) (hn : shape.extents[dim]? = some n) (hpos : 0 < n) :
    (Expr.size array dim).HasIndex lib env v scope n := by
  obtain ⟨hshape, -, s, hs, hword, harray⟩ := h
  refine ⟨sizeTerm s shape.rank dim, ?_, (sizeTerm_denotes hword harray hn hpos).denotes⟩
  simp only [Expr.term, bind_eq_ok, pure_eq_ok, arrayShape_eq_ok]
  exact ⟨s, hs, shape, hshape, rfl⟩

/-- The positions of a view choose what the selections it was built from do. -/
theorem select_positions {array : Expr} {shape : Shape} {xs : List Value}
    {selections : List Selection} {ps : List Position} {choices : List Choice}
    (harray : ArrayHolds env v array shape xs)
    (hselect : array.select selections = .ok (.view array ps))
    (hchoose : SelectionsChoose lib env v scope shape.extents selections choices)
    (hwithin : List.Forall₂ Choice.Within shape.extents choices) :
    List.Forall₂ (Position.Chooses lib env v scope) ps choices := by
  obtain ⟨ps', hps, heq⟩ := select_eq_ok harray.1 hselect
  cases heq
  obtain ⟨-, rfl⟩ := positions_eq_ok.1 hps
  refine completions_choose (fun k n hk hpos => ?_) hchoose hwithin
  rw [Nat.zero_add]
  exact harray.size_hasIndex hk hpos

theorem length_keptExtents {ps : List Position} {choices : List Choice}
    (h : List.Forall₂ (Position.Chooses lib env v scope) ps choices) :
    (choices.filterMap Choice.extent?).length = sliceCount ps := by
  unfold sliceCount
  induction h with
  | nil => rfl
  | cons hp _ ih =>
      cases hp with
      | index _ => exact ih
      | slice _ _ =>
          rw [List.countP_cons_of_pos rfl, ← ih]
          rfl

theorem Position.Chooses.takes {p : Position} {c : Choice} {cut : Cut}
    (h : p.Chooses lib env v scope c)
    (hcut : CutSpelled (fun e t => e.term v scope = .ok t) p cut) : Cut.Takes lib env c cut := by
  cases h with
  | index hi =>
      cases hcut with
      | index ht =>
          obtain ⟨t, ht', hvalue⟩ := hi
          cases ht.symm.trans ht'
          exact .index hvalue
  | slice ha hb =>
      cases hcut with
      | slice hfirst hlast =>
          obtain ⟨first, hfirst', ha⟩ := ha
          obtain ⟨last, hlast', hb⟩ := hb
          cases hfirst.symm.trans hfirst'
          cases hlast.symm.trans hlast'
          exact ofSlice_takes hfirst hlast ha hb

theorem cuts_take {ps : List Position} {cs : List Cut} {choices : List Choice}
    (hps : List.Forall₂ (Position.Chooses lib env v scope) ps choices)
    (hcuts : List.Forall₂ (CutSpelled fun e t => e.term v scope = .ok t) ps cs) :
    List.Forall₂ (Cut.Takes lib env) choices cs := by
  induction hps generalizing cs with
  | nil =>
      cases hcuts
      exact .nil
  | cons hp _ ih =>
      obtain ⟨cut, cs, hcut, hrest, rfl⟩ := List.forall₂_cons_left_iff.1 hcuts
      exact .cons (hp.takes hcut) (ih hrest)

/-- The text of a view denotes what its positions choose. -/
theorem positions_denote {array : Expr} {shape : Shape} {xs : List Value} {ps : List Position}
    {choices : List Choice} {t : Term} (harray : ArrayHolds env v array shape xs)
    (hps : List.Forall₂ (Position.Chooses lib env v scope) ps choices)
    (hwithin : List.Forall₂ Choice.Within shape.extents choices)
    (ht : (Expr.view array ps).term v scope = .ok t) :
    ∃ x, Denotes lib env t.text (some x) ∧ IsPart shape.extents xs choices x := by
  obtain ⟨hshape, hxs, s, hs, hword, hvalue⟩ := harray
  simp only [Expr.term, bind_eq_ok, pure_eq_ok, arrayShape_eq_ok] at ht
  obtain ⟨s', hs', shape', hshape', cs, hcs, rfl⟩ := ht
  cases hs'.symm.trans hs
  cases hshape'.symm.trans hshape
  exact viewTerm_denotes hword hvalue hxs hwithin (cuts_take hps (cuts_spelled hcs))

/-- The text of a view of an array denotes the part that its selections choose. Since it denotes one,
every index set that it gives to a slice is as large as the span beside it, and a reshape keeps the
number of elements. -/
theorem select_denotes (lib : Library) (env : Environment) {array view : Expr} {shape : Shape}
    {selections : List Selection} {t : Term} {xs : List Value} {choices : List Choice}
    (harray : ArrayHolds env v array shape xs) (hselect : array.select selections = .ok view)
    (ht : view.term v scope = .ok t)
    (hchoose : SelectionsChoose lib env v scope shape.extents selections choices)
    (hwithin : List.Forall₂ Choice.Within shape.extents choices) :
    ∃ x, Denotes lib env t.text (some x) ∧ IsPart shape.extents xs choices x := by
  obtain ⟨ps, -, rfl⟩ := select_eq_ok harray.1 hselect
  exact positions_denote harray (select_positions harray hselect hchoose hwithin) hwithin ht

/-- The last two layers of an array, without the first row of each. -/
theorem select_denotes_layers :
    let array := Expr.varArray ⟨0⟩ .int ⟨[3, 2, 2]⟩
    let v : Vocabulary := ⟨[⟨⟨0⟩, "a"⟩, ⟨⟨1⟩, "k"⟩], []⟩
    let xs := (integers 1 13).map Value.int
    let env := [("a", .array (zeroBased [3, 2, 2]) xs), ("k", .int 1)]
    let selections := [.slice (some (.param ⟨1⟩ (.int 1))) none none, .index (.literal (.int 1))]
    ∃ view t x, array.select selections = .ok view ∧ view.term v [] = .ok t ∧
      t.text = "array2d(0..(((max(index_set_1of3(a)) + 1) - k) - 1), " ++
        "0..((max(index_set_3of3(a)) + 1) - 1), " ++
        "slice_3d(a, [k..((max(index_set_1of3(a)) + 1) - 1), 1..1, " ++
        "0..((max(index_set_3of3(a)) + 1) - 1)], " ++
        "0..(((max(index_set_1of3(a)) + 1) - k) - 1), 0..0, " ++
        "0..((max(index_set_3of3(a)) + 1) - 1)))" ∧
      Denotes (fun _ _ => none) env t.text (some x) ∧
      IsPart [3, 2, 2] xs [.slice 1 3, .index 1, .slice 0 2] x ∧
      takenElements [3, 2, 2] xs [.slice 1 3, .index 1, .slice 0 2] =
        [.int 7, .int 8, .int 11, .int 12] := by
  intro array v xs env selections
  have hk : (Expr.param ⟨1⟩ (.int 1)).HasIndex (fun _ _ => none) env v [] 1 :=
    ⟨.entity ⟨⟨1⟩, "k"⟩, rfl, (entity_denotes rfl rfl).denotes⟩
  have hchoose : SelectionsChoose (fun _ _ => none) env v [] [3, 2, 2] selections
      [.slice 1 3, .index 1, .slice 0 2] :=
    .cons (.slice hk rfl) (.cons (.index (literal_hasIndex _ _ _ _ 1)) (.cons (.slice rfl rfl) .nil))
  have hwithin : List.Forall₂ Choice.Within [3, 2, 2] [.slice 1 3, .index 1, .slice 0 2] := by
    decide
  have harray : ArrayHolds env v array ⟨[3, 2, 2]⟩ xs := ⟨rfl, rfl, _, rfl, rfl, rfl⟩
  obtain ⟨x, hx, hpart⟩ := select_denotes (fun _ _ => none) env harray rfl rfl hchoose hwithin
  exact ⟨_, _, x, rfl, rfl, by decide +kernel, hx, hpart, rfl⟩

end ConstraintModel
