import ConstraintModel.Proofs.Flattening
import ConstraintModel.Proofs.TypedParts

/-!
# Rows of tables

The rows of a table are passed on as they are, so they have to be an array of two dimensions. A declared
array is held to that. Any other collection is accepted whatever its dimensions: among those, only a
view with two slices is written as an array of two.
-/

namespace ConstraintModel

open Source

/-! ## Dimensions -/

/-- The number of dimensions of an array. -/
def Value.dimensions? : Value → Option Nat
  | .array sets _ => some sets.length
  | _ => none

/-- The number of dimensions of what a collection is written as; a set has none. -/
def Expr.dimensions? : Expr → Option Nat
  | .varArray _ _ shape | .paramArray _ _ shape => some shape.rank
  | .view _ positions => some (sliceCount positions)
  | .sequence _ => some 1
  | _ => none

/-- A declared array of two dimensions, or a view that keeps two. -/
def Expr.IsTable (e : Expr) : Prop :=
  (∃ shape, e.shape? = some shape ∧ shape.rank = 2) ∨
    ∃ array ps, e = .view array ps ∧ sliceCount ps = 2

theorem Expr.dimensions?_eq_two {e : Expr} : e.dimensions? = some 2 ↔ e.IsTable := by
  cases e <;> simp [dimensions?, IsTable, shape?]

/-- The environment reads the word of an array, a set or an enumeration as one. -/
def ReadsWord (env : Environment) (v : Vocabulary) (e : Expr) : Prop :=
  match e with
  | .varArray _ _ shape | .paramArray _ _ shape => ∀ s, v.symbolOf e = .ok s →
    ∃ xs, env.lookup s.word = some (.array (zeroBased shape.extents) xs)
  | .varSet .. | .paramSet .. => ∀ s, v.symbolOf e = .ok s →
    ∃ members, env.lookup s.word = some (.set members)
  | .enumeration type => ∃ members, env.lookup type.name = some (.set members)
  | _ => True

section Terms

variable {lib : Library} {env : Environment} {v : Vocabulary} {scope : Scope}

theorem dimensions?_of_slice_apply {rank : Nat} {array ranges x : Value} {newSets : List Value}
    (h : (Source.Function.slice rank).apply lib (array :: ranges :: newSets) = some x) :
    x.dimensions? = some rank := by
  cases array with
  | scalar _ => cases h
  | set _ => cases h
  | array oldSets elements =>
      cases ranges with
      | scalar _ => cases h
      | set _ => cases h
      | array _ ranges =>
          simp only [Source.Function.apply, Option.bind_eq_bind, Option.bind_eq_some_iff,
            Option.pure_def] at h
          obtain ⟨spans, -, sets, -, h⟩ := h
          split_ifs at h with hlengths
          obtain ⟨-, hspans, hsets⟩ := hlengths
          simp only [Option.bind_eq_some_iff, Option.some.injEq] at h
          obtain ⟨xs, -, rfl⟩ := h
          have hcount := congrArg List.length hsets
          rw [List.length_map, List.length_map] at hcount
          rw [Value.dimensions?, hcount, hspans]

/-- What a view with slices denotes has a dimension for each slice. -/
theorem viewTerm_dimensions {s : Symbol} {rank : Nat} {ps : List Position} {cs : List Cut} {x : Value}
    (hword : Identifier.require s.word = .ok ()) (hps : ∀ p ∈ ps, p.Legible v scope)
    (hcuts : List.Forall₂ (CutSpelled fun e t => e.term v scope = .ok t) ps cs)
    (hslices : sliceCount ps ≠ 0) (h : Denotes lib env (viewTerm s rank cs).text (some x)) :
    x.dimensions? = some (sliceCount ps) := by
  have hkept := length_keptIndexSets hcuts
  have hne : cs.filterMap Cut.keptIndexSet? ≠ [] := by
    intro hnil
    exact hslices (by rw [← hkept, hnil, List.length_nil])
  have hcs : ∀ c ∈ cs, IsPhrase c.span.text ∧ c.indexSet.SpansFromZero := by
    intro c hc
    obtain ⟨p, hp, hspelled⟩ := exists_of_mem_right hcuts hc
    exact hspelled.legible (hps p hp)
  have hzero : ∀ t ∈ cs.filterMap Cut.keptIndexSet?, t.SpansFromZero := by
    intro t ht
    obtain ⟨c, hc, rfl⟩ := indexSet_of_mem_kept ht
    exact (hcs c hc).2
  have hslice := isPhrase_slice hword (List.forall_mem_map.2 fun c hc => (hcs c hc).1)
    (List.forall_mem_map.2 fun c hc => (hcs c hc).2)
  have hpart := (isAtom_call (.slice rank) hslice).isPhrase
  rw [← hkept]
  unfold viewTerm at h
  simp only [List.isEmpty_iff, if_neg hne] at h
  -- Every dimension is kept, or one of several, or several but not all.
  split_ifs at h with hall hone
  · obtain ⟨_, hargs, happly⟩ := exists_of_call hslice h
    obtain ⟨_, _, -, hrest, rfl⟩ := List.forall₂_cons_left_iff.1 hargs
    obtain ⟨_, _, -, -, rfl⟩ := List.forall₂_cons_left_iff.1 hrest
    rw [hall]
    exact dimensions?_of_slice_apply happly
  · obtain ⟨_, hargs, happly⟩ := exists_of_call (List.forall_mem_singleton.2 hpart) h
    obtain ⟨_, _, -, hnil, rfl⟩ := List.forall₂_cons_left_iff.1 hargs
    cases hnil
    obtain ⟨xs, rfl⟩ := exists_of_flat_apply happly
    rw [hone]
    rfl
  · obtain ⟨sets, xs, rfl, hlength, -⟩ := reshape_indexSets hone hzero hpart h
    rw [Value.dimensions?, hlength]

theorem exists_word_of_term {e : Expr} {id : NodeId} {t : Term} {x : Value} (hid : e.id? = some id)
    (hword : ∀ s, v.symbolOf e = .ok s → Identifier.require s.word = .ok ())
    (ht : e.term v scope = .ok t) (hx : Denotes lib env t.text (some x)) :
    ∃ s, v.symbolOf e = .ok s ∧ env.lookup s.word = some x := by
  simp only [term_of_id hid, bind_eq_ok, pure_eq_ok] at ht
  obtain ⟨s, hs, rfl⟩ := ht
  exact ⟨s, hs, (denotes_word (hword s hs)).denotes.unique hx⟩

theorem exists_of_spanOf {type : ElemType} {stop : Expr} {a b : Term} {x : Value}
    (ha : IsAtom a.text) (hb : IsAtom b.text)
    (h : Denotes lib env (spanOf type stop a b).text (some x)) : ∃ is, x = .intSet is := by
  have hspan (float : Bool) {last : Term} (hlast : IsAtom last.text)
      (h : Denotes lib env (Term.span float a last).text (some x)) : ∃ is, x = .intSet is := by
    obtain ⟨y, hy⟩ := ha.denotes lib env
    obtain ⟨z, hz⟩ := hlast.denotes lib env
    have hvalue := (hy.span float hz).unique h
    simp only [Option.bind_eq_bind, Option.bind_eq_some_iff, Option.pure_def,
      Option.some.injEq] at hvalue
    obtain ⟨_, -, _, -, _, -, _, -, rfl⟩ := hvalue
    exact ⟨_, rfl⟩
  unfold spanOf at h
  split_ifs at h
  · exact hspan true hb h
  · exact hspan false (isAtom_lastBelow stop hb) h

theorem exists_literals_denote (lib : Library) (env : Environment) {ls : List Literal}
    (h : ∀ l ∈ ls, IsPhrase l.text) :
    ∃ xs, List.Forall₂ (Denotes lib env) (ls.map Literal.text) xs := by
  have hterms : ∀ t ∈ ls.map Term.literal, IsPhrase t.text := by
    simpa [List.forall_mem_map, Term.text] using h
  have htexts : (ls.map Term.literal).map Term.text = ls.map Literal.text := by
    rw [List.map_map]
    exact List.map_congr_left fun l _ => by simp [Term.text]
  rw [← htexts]
  exact exists_denote lib env hterms

/-- What a collection denotes has as many dimensions as the expression tells. -/
theorem term_dimensions {e : Expr} {t : Term} {x : Value} (hcollection : e.isCollection = true)
    (hlegible : e.Legible v scope) (hword : ReadsWord env v e) (ht : e.term v scope = .ok t)
    (hx : Denotes lib env t.text (some x)) : x.dimensions? = e.dimensions? := by
  cases e with
  | varArray id _ shape | paramArray id _ shape =>
      obtain ⟨s, hs, hlookup⟩ := exists_word_of_term rfl hlegible ht hx
      obtain ⟨xs, hxs⟩ := hword s hs
      cases hlookup.symm.trans hxs
      simp [Value.dimensions?, Expr.dimensions?, zeroBased, Shape.rank]
  | varSet id _ | paramSet id _ =>
      obtain ⟨s, hs, hlookup⟩ := exists_word_of_term rfl hlegible ht hx
      obtain ⟨members, hmembers⟩ := hword s hs
      cases hlookup.symm.trans hmembers
      rfl
  | enumeration type =>
      obtain ⟨members, hmembers⟩ := hword
      simp only [Expr.term, pure_eq_ok] at ht
      subst ht
      cases ((denotes_word hlegible).denotes.unique hx).symm.trans hmembers
      rfl
  | setLiteral values =>
      simp only [Expr.term, bind_eq_ok, pure_eq_ok] at ht
      obtain ⟨⟨⟩, -, rfl⟩ := ht
      obtain ⟨ys, hys⟩ := exists_literals_denote lib env hlegible
      have hset := (denotes_set hys).denotes.unique hx
      simp only [Option.bind_eq_bind, Option.bind_eq_some_iff, Option.pure_def,
        Option.some.injEq] at hset
      obtain ⟨_, -, _, -, rfl⟩ := hset
      rfl
  | range start stop =>
      simp only [Expr.term, rangeSpan_eq_ok] at ht
      obtain ⟨type, a, b, -, -, ha, hb, rfl⟩ := ht
      obtain ⟨is, rfl⟩ := exists_of_spanOf (hlegible.1 a ha) (hlegible.2 b hb) hx
      rfl
  | sequence items =>
      simp only [Expr.term, bind_eq_ok, pure_eq_ok] at ht
      obtain ⟨ts, hts, rfl⟩ := ht
      have hphrases : ∀ t ∈ ts, IsPhrase t.text := by
        intro t ht
        obtain ⟨e, he, hspelled⟩ := exists_of_mem_right (terms_spelled hts) ht
        exact hlegible e he t hspelled
      obtain ⟨ys, hys⟩ := exists_denote lib env hphrases
      have hlist := (denotes_list hys).denotes.unique hx
      simp only [Option.bind_eq_bind, Option.bind_eq_some_iff, Option.pure_def,
        Option.some.injEq] at hlist
      obtain ⟨xs, -, rfl⟩ := hlist
      rfl
  | view array ps =>
      simp only [Expr.term, bind_eq_ok, pure_eq_ok] at ht
      obtain ⟨s, hs, shape, -, cs, hcs, rfl⟩ := ht
      have hslices : sliceCount ps ≠ 0 := by simpa [Expr.isCollection] using hcollection
      exact viewTerm_dimensions (hlegible.1 s hs) hlegible.2 (cuts_spelled hcs) hslices hx
  | _ => cases hcollection

end Terms

/-! ## Acceptance -/

theorem requireSequence_eq_ok {e : Expr} :
    e.requireSequence = .ok () ↔ e.isCollection = true ∧ e ≠ .sequence [] := by
  unfold Expr.requireSequence
  split
  · simp [throw_ne_ok]
  · next hne => rw [ite_throw_eq_ok]; simpa [pure_eq_ok] using fun _ => hne

/-- Whether a collection can be an argument of a constraint. -/
def Expr.IsArgument (e : Expr) : Prop :=
  e.isCollection = true ∧ e ≠ .sequence [] ∧ ∃ type, e.elemType = .ok type

theorem rowOf_eq_ok {tuple rows c : Expr} : tuple.rowOf rows = .ok c ↔
    (tuple.IsArgument ∧ rows.IsArgument ∧ ∀ shape, rows.shape? = some shape → shape.rank = 2) ∧
      c = .global .table [tuple, rows] := by
  have htyped : (∃ type, (Expr.global .table [tuple, rows]).elemType = .ok type) ↔
      (∃ type, tuple.elemType = .ok type) ∧ ∃ type, rows.elemType = .ok type := by
    simp only [Expr.elemType, allTyped, bind_eq_ok, pure_eq_ok]
    constructor
    · rintro ⟨_, ⟨⟩, ⟨type, htuple, type', hrows, -⟩, -⟩
      exact ⟨⟨type, htuple⟩, type', hrows⟩
    · rintro ⟨⟨type, htuple⟩, type', hrows⟩
      exact ⟨_, (), ⟨type, htuple, type', hrows, trivial⟩, rfl⟩
  have hrest : (do tuple.requireSequence; (Expr.global .table [tuple, rows]).typed) = .ok c ↔
      (tuple.isCollection = true ∧ tuple ≠ .sequence []) ∧
        ((∃ type, tuple.elemType = .ok type) ∧ ∃ type, rows.elemType = .ok type) ∧
          c = .global .table [tuple, rows] := by
    rw [check_bind_eq_ok, requireSequence_eq_ok, typed_eq_ok, htyped]
  unfold Expr.rowOf Expr.IsArgument
  rw [check_bind_eq_ok, requireSequence_eq_ok]
  cases rows.shape? with
  | none =>
      simp only [hrest, reduceCtorEq, false_implies, implies_true, and_true]
      grind
  | some shape =>
      by_cases hrank : shape.rank = 2
      · simp only [hrank, ne_eq, not_true_eq_false, if_false, hrest, Option.some.injEq, forall_eq',
          and_true]
        grind
      · simp only [ne_eq, hrank, not_false_eq_true, if_true, check_bind_eq_ok, throw_ne_ok,
          false_and, and_false, Option.some.injEq, forall_eq']

/-- Rows are accepted if they are some collection, and have two dimensions if they are a declared
array. They are passed on as they are. An array, or a part of one, is passed on with its elements and as
many dimensions as it keeps; so what is passed on has two dimensions if it is a declared array or a
view that keeps two, and no other rows have, though they are accepted as well. -/
theorem rows_dimensions (lib : Library) (env : Environment) (v : Vocabulary) (scope : Scope)
    (tuple rows : Expr) :
    ((∃ c, tuple.rowOf rows = .ok c) ↔ tuple.IsArgument ∧ rows.IsArgument ∧
      ∀ shape, rows.shape? = some shape → shape.rank = 2) ∧
    ∀ c t, tuple.rowOf rows = .ok c → c.term v scope = .ok t → ∃ a b,
      tuple.term v scope = .ok a ∧ rows.term v scope = .ok b ∧
      t.text = "table(" ++ Term.commaSeparated [a.text, b.text] ++ ")" ∧
      (∀ xs, Elements lib env v scope rows xs → ∃ sets,
        Denotes lib env b.text (some (.array sets xs)) ∧ (sets.length = 2 ↔ rows.IsTable)) ∧
      (rows.Legible v scope → ReadsWord env v rows → ∀ x, Denotes lib env b.text (some x) →
        (x.dimensions? = some 2 ↔ rows.IsTable)) := by
  refine ⟨by simp [rowOf_eq_ok], fun c t hrow ht => ?_⟩
  obtain ⟨⟨-, ⟨hcollection, -⟩, hrank⟩, rfl⟩ := rowOf_eq_ok.1 hrow
  simp only [Expr.term, argTerms, bind_eq_ok, pure_eq_ok] at ht
  obtain ⟨_, ⟨a, ha, _, ⟨b, hb, _, rfl, rfl⟩, rfl⟩, rfl⟩ := ht
  have htext : (Term.call (.global .table) [a, b]).text =
      "table(" ++ Term.commaSeparated [a.text, b.text] ++ ")" := by
    rw [Term.text, texts_eq_map]
    rfl
  refine ⟨a, b, ha, hb, htext, fun xs hxs => ?_, fun hlegible hword x hx => ?_⟩
  · cases hxs with
    | array harray =>
        refine ⟨_, harray.denotes hb, ?_⟩
        have htwo := hrank _ harray.1
        exact iff_of_true (by simpa [zeroBased, Shape.rank] using htwo) (.inl ⟨_, harray.1, htwo⟩)
    | view harray hselect hslices hchoose hwithin =>
        obtain ⟨sets, hsets, -, hdenotes⟩ :=
          view_dimensions harray hselect hslices hchoose hwithin hb
        refine ⟨sets, hdenotes, ?_⟩
        rw [hsets, ← Expr.dimensions?_eq_two, Expr.dimensions?, Option.some.injEq]
  · rw [term_dimensions hcollection hlegible hword hb hx, Expr.dimensions?_eq_two]

/-- The upper two rows of a stack of tables, each without its last column. -/
theorem rows_dimensions_block :
    let tables := Expr.varArray ⟨0⟩ .int ⟨[2, 3, 3]⟩
    let tuple := Expr.sequence [.literal (.int 1), .literal (.int 2)]
    let v : Vocabulary := ⟨[⟨⟨0⟩, "a"⟩], []⟩
    let env := [("a", .array (zeroBased [2, 3, 3]) ((integers 1 19).map Value.int))]
    let block := [.index (.literal (.int 1)), .slice none (some (.literal (.int 2))) none,
      .slice none (some (.literal (.int 2))) none]
    ∃ ps c t text sets, tables.select block = .ok (.view tables ps) ∧
      tuple.rowOf (.view tables ps) = .ok c ∧ c.term v [] = .ok t ∧
      t.text = "table([1, 2], " ++ text ++ ")" ∧
      text = "array2d(0..1, 0..1, slice_3d(a, [1..1, 0..1, 0..1], 0..0, 0..1, 0..1))" ∧
      Denotes (fun _ _ => none) env text (some (.array sets ([10, 11, 13, 14].map Value.int))) ∧
      sets.length = 2 := by
  intro tables tuple v env block
  have htables : ArrayHolds env v tables ⟨[2, 3, 3]⟩ ((integers 1 19).map Value.int) :=
    ⟨rfl, rfl, _, rfl, rfl, rfl⟩
  have hindex (i : Int) := literal_hasIndex (fun _ _ => none) env v [] i
  have hblock : SelectionsChoose (fun _ _ => none) env v [] [2, 3, 3] block
      [.index 1, .slice 0 2, .slice 0 2] :=
    .cons (.index (hindex 1)) (.cons (.slice rfl (hindex 2)) (.cons (.slice rfl (hindex 2)) .nil))
  have hrows := Elements.view htables
    (rfl : tables.select block = .ok (.view tables _)) (by decide) hblock (by decide)
  obtain ⟨-, hpassed⟩ := rows_dimensions (fun _ _ => none) env v [] tuple
    (.view tables [.index (.literal (.int 1)), .slice (.literal (.int 0)) (.literal (.int 2)),
      .slice (.literal (.int 0)) (.literal (.int 2))])
  obtain ⟨a, b, -, hb, -, hdenotes, -⟩ := hpassed _ _ rfl rfl
  obtain ⟨sets, hsets, htwo⟩ := hdenotes _ hrows
  cases hb
  exact ⟨_, _, _, _, sets, rfl, rfl, rfl, by decide +kernel, by decide +kernel, hsets,
    htwo.2 (.inr ⟨_, _, rfl, rfl⟩)⟩

/-- One row of a matrix is accepted as rows, though it has one dimension. -/
theorem matrixRow_isNoTable :
    let matrix := Expr.paramArray ⟨1⟩ [.int 0, .int 1, .int 1, .int 2] ⟨[2, 2]⟩
    let tuple := Expr.varArray ⟨0⟩ (.range (.literal (.int 0)) (.literal (.int 3))) ⟨[2]⟩
    let row := Expr.view matrix [.index (.literal (.int 1)),
      .slice (.literal (.int 0)) (.literal (.int 2))]
    let env := [("m", .array (zeroBased [2, 2]) ([0, 1, 1, 2].map Value.int))]
    matrix.select [.index (.literal (.int 1)), .slice (some (.literal (.int 0)))
        (some (.literal (.int 2))) none] = .ok row ∧
      ∃ c, tuple.rowOf row = .ok c ∧
      Denotes (fun _ _ => none) env "array1d(slice_2d(m, [1..1, 0..1], 0..0, 0..1))"
        (some (.array [[1, 2]] [.int 1, .int 2])) ∧
      ∃ compiled n', (Model.compile ⟨[("x", tuple), ("m", matrix)], [c], .satisfy⟩).run 2 =
          (.ok compiled, n') ∧
        compiled.program.constraints.map Term.text =
          ["table(x, array1d(slice_2d(m, [1..1, 0..1], 0..0, 0..1)))"] := by
  intro matrix tuple row env
  have hone : Cut.Takes (fun _ _ => none) env (.index 1) (.index (.int 1)) :=
    .index (denotes_int 1).denotes
  have hwhole : Cut.Takes (fun _ _ => none) env (.slice 0 2)
      (.slice (.span false (.int 0) (.int 1)) (.span false (.int 0) (.int 1))) :=
    .slice (intSpan_denotes false (denotes_int 0).denotes (denotes_int 1).denotes)
      (intSpan_denotes false (denotes_int 0).denotes (denotes_int 1).denotes)
  have hrow := flat_denotes (part_denotes (s := ⟨⟨1⟩, "m"⟩) rfl rfl rfl
    (by decide : List.Forall₂ Choice.Within [2, 2] _) (.cons hone (.cons hwhole .nil))).denotes
  exact ⟨rfl, _, rfl, hrow.denotes, _, _, rfl, by decide⟩

end ConstraintModel
