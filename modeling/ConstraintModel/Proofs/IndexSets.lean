import ConstraintModel.Proofs.View
import ConstraintModel.Source.Program

/-!
# Index sets of views

The array that the term of a view denotes gets an index set for each dimension that is kept. A slice
that keeps every dimension, and a reshape to several, are given index sets that count from zero, as
those of a declared array do. A single dimension out of several is passed on without one, and then
counts from one.
-/

namespace ConstraintModel

open Source

variable {lib : Library} {env : Environment}

/-- The integers from `first` on, without gaps. -/
def CountsFrom (first : Int) (is : List Int) : Prop :=
  is = integers first (first + is.length)

instance (first : Int) : DecidablePred (CountsFrom first) :=
  fun is => inferInstanceAs (Decidable (is = _))

theorem countsFrom_integers (a b : Int) : CountsFrom a (integers a b) := by
  rw [CountsFrom, length_integers, integers, integers,
    show (a + ((b - a).toNat : Int) - a).toNat = (b - a).toNat by omega]

/-- The first index along the dimensions of a view, given how many it keeps of its array. -/
def firstIndex (kept rank : Nat) : Int :=
  if kept = 1 ∧ 1 < rank then 1 else 0

/-! ## Reading of calls -/

theorem exists_denote (lib : Library) (env : Environment) {ts : List Term}
    (h : ∀ t ∈ ts, IsPhrase t.text) :
    ∃ xs, List.Forall₂ (Denotes lib env) (ts.map Term.text) xs := by
  induction ts with
  | nil => exact ⟨[], .nil⟩
  | cons t ts ih =>
      obtain ⟨ht, hts⟩ := List.forall_mem_cons.1 h
      obtain ⟨x, hx⟩ := ht.denotes lib env
      obtain ⟨xs, hxs⟩ := ih hts
      exact ⟨x :: xs, .cons hx hxs⟩

theorem isAtom_call (f : Source.Function) {ts : List Term} (h : ∀ t ∈ ts, IsPhrase t.text) :
    IsAtom (Term.call f ts).text := by
  obtain ⟨xs, hxs⟩ := exists_denote (fun _ _ => none) [] h
  exact (denotes_call f hxs).isAtom

theorem isAtom_list {ts : List Term} (h : ∀ t ∈ ts, IsPhrase t.text) :
    IsAtom (Term.list ts).text := by
  obtain ⟨xs, hxs⟩ := exists_denote (fun _ _ => none) [] h
  exact (denotes_list hxs).isAtom

theorem isPhrase_span (float : Bool) {first last : Term} (hfirst : IsAtom first.text)
    (hlast : IsAtom last.text) : IsPhrase (Term.span float first last).text := by
  obtain ⟨x, hx⟩ := hfirst.denotes (fun _ _ => none) []
  obtain ⟨y, hy⟩ := hlast.denotes (fun _ _ => none) []
  exact (hx.span float hy).isPhrase

theorem isAtom_binary (op : BinaryOp) {a b : Term} (ha : IsPhrase a.text) (hb : IsPhrase b.text) :
    IsAtom (Term.binary op a b).text := by
  obtain ⟨x, hx⟩ := ha.denotes (fun _ _ => none) []
  obtain ⟨y, hy⟩ := hb.denotes (fun _ _ => none) []
  exact (hx.binary op hy).isAtom

theorem isAtom_int (v : Int) : IsAtom (Term.int v).text :=
  have h : DenotesAtom (fun _ _ => none) [] (Term.int v).text _ := denotes_int v
  h.isAtom

theorem eq_map_some_of_mapM {α : Type} {xs : List (Option α)} {ys : List α}
    (h : xs.mapM id = some ys) : xs = ys.map some := by
  have hall := forall₂_of_mapM_eq_some h
  rw [← List.forall₂_eq_eq_eq, List.forall₂_map_right_iff]
  exact hall

/-- A call that denotes a value does so by the values of its arguments. -/
theorem exists_of_call {f : Source.Function} {ts : List Term} {x : Value}
    (hts : ∀ t ∈ ts, IsPhrase t.text) (h : Denotes lib env (Term.call f ts).text (some x)) :
    ∃ xs, List.Forall₂ (fun t x => Denotes lib env (Term.text t) (some x)) ts xs ∧
      f.apply lib xs = some x := by
  obtain ⟨ys, hys⟩ := exists_denote lib env hts
  have hvalue := (denotes_call f hys).denotes.unique h
  simp only [Option.bind_eq_bind, Option.bind_eq_some_iff] at hvalue
  obtain ⟨xs, hxs, hx⟩ := hvalue
  rw [eq_map_some_of_mapM hxs, List.forall₂_map_left_iff, List.forall₂_map_right_iff] at hys
  exact ⟨xs, hys, hx⟩

theorem exists_of_slice_apply {rank : Nat} {array ranges x : Value} {newSets : List Value}
    (h : (Source.Function.slice rank).apply lib (array :: ranges :: newSets) = some x) :
    ∃ sets xs, newSets.mapM Value.intMembers? = some sets ∧ x = .array sets xs := by
  cases array with
  | scalar _ => cases h
  | set _ => cases h
  | array oldSets elements =>
      cases ranges with
      | scalar _ => cases h
      | set _ => cases h
      | array _ ranges =>
          simp only [Source.Function.apply, Option.bind_eq_bind, Option.bind_eq_some_iff,
            Option.pure_def] at h
          obtain ⟨spans, -, sets, hsets, h⟩ := h
          split_ifs at h
          simp only [Option.bind_eq_some_iff, Option.some.injEq] at h
          obtain ⟨xs, -, rfl⟩ := h
          exact ⟨sets, xs, hsets, rfl⟩

theorem exists_of_flat_apply {part x : Value}
    (h : (Source.Function.reshape 1).apply lib [part] = some x) : ∃ xs, x = .list xs := by
  cases part with
  | array sets xs => exact ⟨xs, (Option.some.inj h).symm⟩
  | scalar _ => cases h
  | set _ => cases h

theorem reshaped_cons {args : List Value} (hne : args ≠ []) (set : Value)
    (taken : List (List Int)) :
    Source.Function.reshaped (set :: args) taken =
      set.intMembers?.bind fun is => Source.Function.reshaped args (taken ++ [is]) := by
  cases args with
  | nil => exact absurd rfl hne
  | cons _ _ => cases set <;> rfl

theorem exists_of_reshaped {newSets : List Value} {part x : Value} {taken : List (List Int)}
    (h : Source.Function.reshaped (newSets ++ [part]) taken = some x) :
    ∃ sets xs, newSets.mapM Value.intMembers? = some sets ∧ x = .array (taken ++ sets) xs := by
  induction newSets generalizing taken with
  | nil =>
      cases part with
      | array oldSets xs =>
          simp only [List.nil_append, Source.Function.reshaped] at h
          split_ifs at h
          cases h
          exact ⟨[], xs, rfl, by rw [List.append_nil]⟩
      | scalar _ => simp [Source.Function.reshaped] at h
      | set _ => simp [Source.Function.reshaped] at h
  | cons newSet newSets ih =>
      have hne : newSets ++ [part] ≠ [] := by simp
      rw [List.cons_append, reshaped_cons hne, Option.bind_eq_some_iff] at h
      obtain ⟨is, his, h⟩ := h
      obtain ⟨sets, xs, hsets, rfl⟩ := ih h
      refine ⟨is :: sets, xs, ?_, by simp⟩
      simp [his, hsets]

/-! ## Sets that count from zero -/

/-- A span that begins with a literal zero. -/
def Source.Term.SpansFromZero (t : Term) : Prop :=
  ∃ last, t = .span false (.int 0) last ∧ IsAtom last.text

namespace Source.Term.SpansFromZero

variable {t : Term}

theorem isPhrase (h : t.SpansFromZero) : IsPhrase t.text := by
  obtain ⟨last, rfl, hlast⟩ := h
  exact isPhrase_span false (isAtom_int 0) hlast

theorem value_eq {x : Value} (h : t.SpansFromZero) (hx : Denotes lib env t.text (some x)) :
    ∃ is, x = .intSet is ∧ CountsFrom 0 is := by
  obtain ⟨last, rfl, hlast⟩ := h
  obtain ⟨y, hy⟩ := hlast.denotes lib env
  have hvalue := ((denotes_int 0).span false hy).unique hx
  simp only [Option.bind_eq_bind, Option.bind_some, Option.bind_eq_some_iff, Option.pure_def,
    Option.some.injEq] at hvalue
  obtain ⟨a, ha, _, -, b, -, rfl⟩ := hvalue
  cases ha
  exact ⟨_, rfl, countsFrom_integers 0 (b + 1)⟩

end Source.Term.SpansFromZero

theorem sets_countFrom {ts : List Term} {xs : List Value} {sets : List (List Int)}
    (hts : ∀ t ∈ ts, t.SpansFromZero)
    (hxs : List.Forall₂ (fun t x => Denotes lib env (Term.text t) (some x)) ts xs)
    (hsets : xs.mapM Value.intMembers? = some sets) :
    sets.length = ts.length ∧ ∀ is ∈ sets, CountsFrom 0 is := by
  have hvalues := forall₂_of_mapM_eq_some hsets
  refine ⟨by rw [hxs.length_eq, hvalues.length_eq], fun is his => ?_⟩
  obtain ⟨x, hx, hmembers⟩ := exists_of_mem_right hvalues his
  obtain ⟨t, ht, hvalue⟩ := exists_of_mem_right hxs hx
  obtain ⟨js, rfl, hjs⟩ := (hts t ht).value_eq hvalue
  rw [Value.intMembers?_intSet] at hmembers
  cases hmembers
  exact hjs

/-! ## Legible collections -/

/-- The expression is written as one operand. -/
def Expr.IsOperand (v : Vocabulary) (scope : Scope) (e : Expr) : Prop :=
  ∀ t, e.term v scope = .ok t → IsAtom t.text

def Position.Legible (v : Vocabulary) (scope : Scope) : Position → Prop
  | .index i => i.IsOperand v scope
  | .slice start stop => start.IsOperand v scope ∧ stop.IsOperand v scope

/-- What a collection is written with can be read: words are identifiers, bounds and indices single
operands, and members phrases. -/
def Expr.Legible (v : Vocabulary) (scope : Scope) : Expr → Prop
  | .setLiteral ls => ∀ l ∈ ls, IsPhrase l.text
  | .sequence items => ∀ e ∈ items, ∀ t, e.term v scope = .ok t → IsPhrase t.text
  | .range start stop => start.IsOperand v scope ∧ stop.IsOperand v scope
  | .view array ps =>
    (∀ s, v.symbolOf array = .ok s → Identifier.require s.word = .ok ()) ∧
      ∀ p ∈ ps, p.Legible v scope
  | .enumeration type => Identifier.require type.name = .ok ()
  | e => ∀ s, v.symbolOf e = .ok s → Identifier.require s.word = .ok ()

theorem isAtom_lastBelow (stop : Expr) {last : Term} (h : IsAtom last.text) :
    IsAtom (lastBelow stop last).text := by
  unfold lastBelow
  cases stop.literalInt? with
  | some v => exact isAtom_int (v - 1)
  | none => exact isAtom_binary .sub h.isPhrase (isAtom_int 1).isPhrase

theorem isAtom_lastIndex (start stop : Expr) {first last : Term} (hfirst : IsAtom first.text)
    (hlast : IsAtom last.text) : IsAtom (lastIndex start stop first last).text := by
  have hone := (isAtom_int 1).isPhrase
  unfold lastIndex
  split
  · exact isAtom_int _
  · exact isAtom_binary .sub hlast.isPhrase hone
  · exact isAtom_binary .sub (isAtom_binary .sub hlast.isPhrase hfirst.isPhrase).isPhrase hone

/-! ## Views -/

/-- The span of a cut is read, and its index set begins with zero. -/
theorem Source.CutSpelled.legible {v : Vocabulary} {scope : Scope} {p : Position} {c : Cut}
    (h : CutSpelled (fun e t => e.term v scope = .ok t) p c) (hp : p.Legible v scope) :
    IsPhrase c.span.text ∧ c.indexSet.SpansFromZero := by
  cases h with
  | index hi =>
      have hatom := hp _ hi
      exact ⟨isPhrase_span false hatom hatom, _, rfl, isAtom_int 0⟩
  | @slice start stop first last hfirst hlast =>
      have hatoms : IsAtom first.text ∧ IsAtom last.text := ⟨hp.1 _ hfirst, hp.2 _ hlast⟩
      exact ⟨isPhrase_span false hatoms.1 (isAtom_lastBelow stop hatoms.2), _, rfl,
        isAtom_lastIndex start stop hatoms.1 hatoms.2⟩

theorem length_keptIndexSets {R : Expr → Term → Prop} {ps : List Position} {cs : List Cut}
    (h : List.Forall₂ (CutSpelled R) ps cs) :
    (cs.filterMap Cut.keptIndexSet?).length = sliceCount ps := by
  unfold sliceCount
  induction h with
  | nil => rfl
  | cons hc _ ih =>
      cases hc with
      | index _ => exact ih
      | slice _ _ =>
          rw [List.countP_cons_of_pos rfl, ← ih]
          rfl

theorem indexSet_of_mem_kept {cs : List Cut} {t : Term}
    (ht : t ∈ cs.filterMap Cut.keptIndexSet?) : ∃ c ∈ cs, t = c.indexSet := by
  obtain ⟨c, hc, hkept⟩ := List.mem_filterMap.1 ht
  cases c with
  | index _ => cases hkept
  | slice span indexSet =>
      cases hkept
      exact ⟨_, hc, rfl⟩

theorem isPhrase_slice {s : Symbol} {spans sets : List Term}
    (hword : Identifier.require s.word = .ok ()) (hspans : ∀ t ∈ spans, IsPhrase t.text)
    (hsets : ∀ t ∈ sets, t.SpansFromZero) :
    ∀ t ∈ .entity s :: .list spans :: sets, IsPhrase t.text := by
  have hentity : DenotesAtom (fun _ _ => none) [] (Term.entity s).text _ := denotes_word hword
  exact List.forall_mem_cons.2 ⟨hentity.isAtom.isPhrase, List.forall_mem_cons.2
    ⟨(isAtom_list hspans).isPhrase, fun t ht => (hsets t ht).isPhrase⟩⟩

/-- A slice has the index sets that it is given. -/
theorem part_indexSets {s : Symbol} {rank : Nat} {spans sets : List Term} {x : Value}
    (hword : Identifier.require s.word = .ok ()) (hspans : ∀ t ∈ spans, IsPhrase t.text)
    (hsets : ∀ t ∈ sets, t.SpansFromZero)
    (h : Denotes lib env (Term.call (.slice rank) (.entity s :: .list spans :: sets)).text
      (some x)) :
    ∃ is xs, x = .array is xs ∧ is.length = sets.length ∧ ∀ js ∈ is, CountsFrom 0 js := by
  obtain ⟨_, hargs, happly⟩ := exists_of_call (isPhrase_slice hword hspans hsets) h
  obtain ⟨array, _, -, hrest, rfl⟩ := List.forall₂_cons_left_iff.1 hargs
  obtain ⟨ranges, newSets, -, hnewSets, rfl⟩ := List.forall₂_cons_left_iff.1 hrest
  obtain ⟨is, xs, his, rfl⟩ := exists_of_slice_apply happly
  obtain ⟨hlength, hzero⟩ := sets_countFrom hsets hnewSets his
  exact ⟨is, xs, rfl, hlength, hzero⟩

/-- A reshape to several dimensions has the index sets that it is given. -/
theorem reshape_indexSets {kept : List Term} {part : Term} {x : Value} (hone : kept.length ≠ 1)
    (hkept : ∀ t ∈ kept, t.SpansFromZero) (hpart : IsPhrase part.text)
    (h : Denotes lib env (Term.call (.reshape kept.length) (kept ++ [part])).text (some x)) :
    ∃ is xs, x = .array is xs ∧ is.length = kept.length ∧ ∀ js ∈ is, CountsFrom 0 js := by
  have hphrases : ∀ t ∈ kept ++ [part], IsPhrase t.text :=
    List.forall_mem_append.2 ⟨fun t ht => (hkept t ht).isPhrase, List.forall_mem_singleton.2 hpart⟩
  obtain ⟨args, hargs, happly⟩ := exists_of_call hphrases h
  have hnewSets := (List.forall₂_take_append _ _ _ hargs.flip).flip
  have hlast := (List.forall₂_drop_append _ _ _ hargs.flip).flip
  obtain ⟨_, _, -, hnil, hdrop⟩ := List.forall₂_cons_left_iff.1 hlast
  cases hnil
  rw [reshape_apply hone (by simp [← hargs.length_eq]),
    ← List.take_append_drop kept.length args, hdrop] at happly
  obtain ⟨is, xs, his, rfl⟩ := exists_of_reshaped happly
  obtain ⟨hlength, hzero⟩ := sets_countFrom hkept hnewSets his
  exact ⟨is, xs, by rw [List.nil_append], hlength, hzero⟩

/-- The array of a view with slices has one index set for each of the given number of slices. -/
def HasIndexSets (slices rank : Nat) (x : Value) : Prop :=
  ∃ sets xs, x = .array sets xs ∧ sets.length = slices ∧
    ∀ is ∈ sets, CountsFrom (firstIndex slices rank) is

/-- What a view with slices is written as denotes an array with one index set for each of them. -/
theorem viewTerm_indexSets {s : Symbol} {cs : List Cut} {x : Value}
    (hword : Identifier.require s.word = .ok ())
    (hcs : ∀ c ∈ cs, IsPhrase c.span.text ∧ c.indexSet.SpansFromZero)
    (hkept : cs.filterMap Cut.keptIndexSet? ≠ [])
    (h : Denotes lib env (viewTerm s cs.length cs).text (some x)) :
    HasIndexSets (cs.filterMap Cut.keptIndexSet?).length cs.length x := by
  have hspans : ∀ t ∈ cs.map Cut.span, IsPhrase t.text :=
    List.forall_mem_map.2 fun c hc => (hcs c hc).1
  have hsets : ∀ t ∈ cs.map Cut.indexSet, t.SpansFromZero :=
    List.forall_mem_map.2 fun c hc => (hcs c hc).2
  have hkeptSets : ∀ t ∈ cs.filterMap Cut.keptIndexSet?, t.SpansFromZero := by
    intro t ht
    obtain ⟨c, hc, rfl⟩ := indexSet_of_mem_kept ht
    exact (hcs c hc).2
  have hle : (cs.filterMap Cut.keptIndexSet?).length ≤ cs.length := List.length_filterMap_le _ _
  have hpart (rank : Nat) := (isAtom_call (.slice rank) (isPhrase_slice hword hspans hsets)).isPhrase
  unfold viewTerm at h
  simp only [List.isEmpty_iff, if_neg hkept] at h
  -- Every dimension is kept, or one of several, or several but not all.
  split_ifs at h with hall hone
  · obtain ⟨is, xs, rfl, hlength, his⟩ := part_indexSets hword hspans hsets h
    rw [List.length_map] at hlength
    refine ⟨is, xs, rfl, hlength.trans hall.symm, ?_⟩
    rw [firstIndex, if_neg (by omega)]
    exact his
  · obtain ⟨_, hargs, happly⟩ := exists_of_call (List.forall_mem_singleton.2 (hpart _)) h
    obtain ⟨part, _, -, hnil, rfl⟩ := List.forall₂_cons_left_iff.1 hargs
    cases hnil
    obtain ⟨xs, rfl⟩ := exists_of_flat_apply happly
    refine ⟨_, xs, rfl, hone.symm, ?_⟩
    rw [firstIndex, if_pos (by omega)]
    simpa using countsFrom_integers 1 (xs.length + 1)
  · obtain ⟨is, xs, rfl, hlength, his⟩ := reshape_indexSets hone hkeptSets (hpart _) h
    refine ⟨is, xs, rfl, hlength, ?_⟩
    rw [firstIndex, if_neg fun h => hone h.1]
    exact his

theorem IsPart.array_eq {extents : List Nat} {xs ys : List Value} {choices : List Choice}
    {sets : List (List Int)} (h : IsPart extents xs choices (.array sets ys))
    (hne : choices.filterMap Choice.extent? ≠ []) :
    ys = takenElements extents xs choices ∧
      sets.map List.length = choices.filterMap Choice.extent? := by
  unfold IsPart at h
  split at h
  · next hnil => exact absurd hnil hne
  · obtain ⟨_, heq, hlengths⟩ := h
    cases heq
    exact ⟨rfl, hlengths⟩

theorem eq_map_integers {first : Int} {sets : List (List Int)}
    (h : ∀ is ∈ sets, CountsFrom first is) :
    sets = (sets.map List.length).map fun n : Nat => integers first (first + n) := by
  rw [List.map_map, eq_comm]
  exact (List.map_congr_left fun is his => (h is his).symm).trans (List.map_id sets)

theorem Position.Chooses.legible {v : Vocabulary} {scope : Scope} {p : Position} {c : Choice}
    (h : p.Chooses lib env v scope c) : p.Legible v scope := by
  have hoperand {e : Expr} {i : Int} (he : e.HasIndex lib env v scope i) :
      e.IsOperand v scope := by
    obtain ⟨t, ht, hi⟩ := he
    intro t' ht'
    cases ht.symm.trans ht'
    exact hi.isAtom_of_int
  cases h with
  | index hi => exact hoperand hi
  | slice ha hb => exact ⟨hoperand ha, hoperand hb⟩

/-- A view whose parts have values is legible. -/
theorem ArrayHolds.view_legible {v : Vocabulary} {scope : Scope} {array : Expr} {shape : Shape}
    {xs : List Value} {ps : List Position} {choices : List Choice}
    (harray : ArrayHolds env v array shape xs)
    (hps : List.Forall₂ (Position.Chooses lib env v scope) ps choices) :
    (Expr.view array ps).Legible v scope := by
  obtain ⟨-, -, s, hs, hword, -⟩ := harray
  refine ⟨fun s' hs' => ?_, fun p hp => ?_⟩
  · cases hs.symm.trans hs'
    exact hword
  · obtain ⟨c, -, hc⟩ := exists_of_mem_left hps hp
    exact hc.legible

/-- What the text of a view with slices denotes is an array that has an index set for each of them, and
all count from zero unless one dimension is kept out of several, which counts from one. With values for
what the view is made of, it is the array of the kept extents with the chosen elements. -/
theorem select_indexSets (lib : Library) (env : Environment) {v : Vocabulary} {scope : Scope}
    {array : Expr} {shape : Shape} {selections : List Selection} {ps : List Position} {t : Term}
    (hshape : array.shape? = some shape) (hselect : array.select selections = .ok (.view array ps))
    (hslices : sliceCount ps ≠ 0) (ht : (Expr.view array ps).term v scope = .ok t) :
    ((Expr.view array ps).Legible v scope → ∀ x, Denotes lib env t.text (some x) →
      HasIndexSets (sliceCount ps) shape.rank x) ∧
    ∀ xs choices, ArrayHolds env v array shape xs →
      SelectionsChoose lib env v scope shape.extents selections choices →
      List.Forall₂ Choice.Within shape.extents choices →
      Denotes lib env t.text (some (.array
        ((choices.filterMap Choice.extent?).map fun n : Nat => integers
          (firstIndex (sliceCount ps) shape.rank) (firstIndex (sliceCount ps) shape.rank + n))
        (takenElements shape.extents xs choices))) := by
  obtain ⟨ps', hps, heq⟩ := select_eq_ok hshape hselect
  cases heq
  simp only [Expr.term, bind_eq_ok, pure_eq_ok, arrayShape_eq_ok] at ht
  obtain ⟨s, hs, shape', hshape', cs, hcs, rfl⟩ := ht
  cases hshape'.symm.trans hshape
  have hspelled := cuts_spelled hcs
  have hrank : cs.length = shape.rank := by
    rw [← hspelled.length_eq, (positions_eq_ok.1 hps).2, length_completions, Shape.rank]
  have hkept := length_keptIndexSets hspelled
  have hsets (hlegible : (Expr.view array ps).Legible v scope) (x : Value)
      (hx : Denotes lib env (viewTerm s shape.rank cs).text (some x)) :
      HasIndexSets (sliceCount ps) shape.rank x := by
    rw [← hkept, ← hrank]
    refine viewTerm_indexSets (hlegible.1 s hs) (fun c hc => ?_) (fun hnil => hslices ?_)
      (hrank ▸ hx)
    · obtain ⟨p, hp, hspelled⟩ := exists_of_mem_right hspelled hc
      exact hspelled.legible (hlegible.2 p hp)
    · rw [← hkept, hnil, List.length_nil]
  refine ⟨hsets, fun xs choices harray hchoose hwithin => ?_⟩
  have hpositions := select_positions harray hselect hchoose hwithin
  have htakes := cuts_take hpositions hspelled
  have hlegible := harray.view_legible hpositions
  obtain ⟨-, hxs, s', hs', hword, hvalue⟩ := harray
  cases hs'.symm.trans hs
  obtain ⟨x, hx, hpart⟩ := viewTerm_denotes hword hvalue hxs hwithin htakes
  obtain ⟨sets, elements, rfl, hlength, hcounts⟩ := hsets hlegible x hx
  have hne : choices.filterMap Choice.extent? ≠ [] := by
    intro hnil
    have hlengths := (Cut.Takes.kept_denote htakes).length_eq
    rw [hkept, hnil] at hlengths
    exact hslices hlengths
  obtain ⟨rfl, hextents⟩ := hpart.array_eq hne
  rw [← hextents, ← eq_map_integers hcounts]
  exact hx

/-- The last two layers of an array, without the first row of each, count from zero. -/
theorem select_indexSets_layers :
    let array := Expr.varArray ⟨0⟩ .int ⟨[3, 2, 2]⟩
    let v : Vocabulary := ⟨[⟨⟨0⟩, "a"⟩, ⟨⟨1⟩, "k"⟩], []⟩
    let xs := (integers 1 13).map Value.int
    let env := [("a", .array (zeroBased [3, 2, 2]) xs), ("k", .int 1)]
    let selections := [.slice (some (.param ⟨1⟩ (.int 1))) (some (.literal (.int 3))) none,
      .index (.literal (.int 1)), .slice none (some (.literal (.int 2))) none]
    ∃ ps t, array.select selections = .ok (.view array ps) ∧ sliceCount ps ≠ 0 ∧
      (Expr.view array ps).term v [] = .ok t ∧
      t.text = "array2d(0..((3 - k) - 1), 0..1, " ++
        "slice_3d(a, [k..2, 1..1, 0..1], 0..((3 - k) - 1), 0..0, 0..1))" ∧
      Denotes (fun _ _ => none) env t.text
        (some (.array [[0, 1], [0, 1]] [.int 7, .int 8, .int 11, .int 12])) ∧
      ∀ x, Denotes (fun _ _ => none) env t.text (some x) → HasIndexSets 2 3 x := by
  intro array v xs env selections
  have hk : (Expr.param ⟨1⟩ (.int 1)).HasIndex (fun _ _ => none) env v [] 1 :=
    ⟨.entity ⟨⟨1⟩, "k"⟩, rfl, (entity_denotes rfl rfl).denotes⟩
  have hliteral (i : Int) : (Expr.literal (.int i)).HasIndex (fun _ _ => none) env v [] i :=
    literal_hasIndex _ env v [] i
  have hchoose : SelectionsChoose (fun _ _ => none) env v [] [3, 2, 2] selections
      [.slice 1 3, .index 1, .slice 0 2] :=
    .cons (.slice hk (hliteral 3)) (.cons (.index (hliteral 1))
      (.cons (.slice rfl (hliteral 2)) .nil))
  have hwithin : List.Forall₂ Choice.Within [3, 2, 2] [.slice 1 3, .index 1, .slice 0 2] := by
    decide
  have harray : ArrayHolds env v array ⟨[3, 2, 2]⟩ xs := ⟨rfl, rfl, _, rfl, rfl, rfl⟩
  have hselect : array.select selections = .ok (.view array
      [.slice (.param ⟨1⟩ (.int 1)) (.literal (.int 3)), .index (.literal (.int 1)),
        .slice (.literal (.int 0)) (.literal (.int 2))]) := rfl
  have hslices : sliceCount [.slice (.param ⟨1⟩ (.int 1)) (.literal (.int 3)),
      .index (.literal (.int 1)), .slice (.literal (.int 0)) (.literal (.int 2))] ≠ 0 := by
    decide
  obtain ⟨hsets, hvalue⟩ := select_indexSets (fun _ _ => none) env (rfl : array.shape? = _)
    hselect hslices (rfl : (Expr.view array _).term v [] = .ok _)
  exact ⟨_, _, rfl, hslices, rfl, by decide +kernel, hvalue xs _ harray hchoose hwithin,
    hsets (harray.view_legible (select_positions harray hselect hchoose hwithin))⟩

/-- A row of a matrix and a vector, both sliced whole: the row counts from one and the vector from
zero, and so each is passed to a constraint on the indices themselves. -/
theorem matrixRow_countsFromOne :
    let matrix := Expr.varArray ⟨0⟩ .int ⟨[2, 3]⟩
    let vector := Expr.varArray ⟨1⟩ .int ⟨[3]⟩
    let whole : Position := .slice (.literal (.int 0)) (.literal (.int 3))
    let row := Expr.view matrix [.index (.literal (.int 1)), whole]
    let model : Model := ⟨[("m", matrix), ("a", vector)],
      [.global .circuit [row], .global .circuit [.view vector [whole]]], .satisfy⟩
    let env := [("m", .array (zeroBased [2, 3]) ((integers 0 6).map Value.int)),
      ("a", .array (zeroBased [3]) ((integers 0 3).map Value.int))]
    matrix.select [.index (.literal (.int 1)), .slice (some (.literal (.int 0)))
        (some (.literal (.int 3))) none] = .ok row ∧
      Denotes (fun _ _ => none) env "array1d(slice_2d(m, [1..1, 0..2], 0..0, 0..2))"
        (some (.array [[1, 2, 3]] ((integers 3 6).map Value.int))) ∧
      ¬ CountsFrom 0 [1, 2, 3] ∧
      Denotes (fun _ _ => none) env "slice_1d(a, [0..2], 0..2)"
        (some (.array [[0, 1, 2]] ((integers 0 3).map Value.int))) ∧
      ∃ c n', model.compile.run 2 = (.ok c, n') ∧ c.program.statements = [
        "array[0..1, 0..2] of var int: m;", "array[0..2] of var int: a;",
        "constraint circuit(array1d(slice_2d(m, [1..1, 0..2], 0..0, 0..2)));",
        "constraint circuit(slice_1d(a, [0..2], 0..2));", "solve satisfy;"] := by
  intro matrix vector whole row model env
  have hone : Cut.Takes (fun _ _ => none) env (.index 1) (.index (.int 1)) :=
    .index (denotes_int 1).denotes
  have hwhole : Cut.Takes (fun _ _ => none) env (.slice 0 3)
      (.slice (.span false (.int 0) (.int 2)) (.span false (.int 0) (.int 2))) :=
    .slice (intSpan_denotes false (denotes_int 0).denotes (denotes_int 2).denotes)
      (intSpan_denotes false (denotes_int 0).denotes (denotes_int 2).denotes)
  have hrow := flat_denotes (part_denotes (s := ⟨⟨0⟩, "m"⟩) rfl rfl rfl
    (by decide : List.Forall₂ Choice.Within [2, 3] _) (.cons hone (.cons hwhole .nil))).denotes
  have hvector := part_denotes (s := ⟨⟨1⟩, "a"⟩) rfl rfl rfl
    (by decide : List.Forall₂ Choice.Within [3] _) (.cons hwhole .nil)
  exact ⟨rfl, hrow.denotes, by decide, hvector.denotes, _, _, rfl, by decide⟩

end ConstraintModel
