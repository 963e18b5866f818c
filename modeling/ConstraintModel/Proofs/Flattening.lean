import ConstraintModel.Proofs.IndexSets

/-!
# Arguments in one dimension

A count, and a global constraint that flattens its arguments, ask for arrays of one dimension. Whether
an argument is flattened is decided by the expression, and how many dimensions its term has by the cuts
that are made: the two agree, so every array and every view with slices arrives in one dimension, with
all of its elements in row-major order.
-/

namespace ConstraintModel

open Source

section Elements

variable (lib : Library) (env : Environment) (v : Vocabulary) (scope : Scope)

/-- The elements of an argument in row-major order: of a declared array all, and of a view with slices
those that its selections choose, which are within the array. -/
inductive Elements : Expr → List Value → Prop
  | array {array shape xs} : ArrayHolds env v array shape xs → Elements array xs
  | view {array shape xs selections ps choices} : ArrayHolds env v array shape xs →
      array.select selections = .ok (.view array ps) → sliceCount ps ≠ 0 →
      SelectionsChoose lib env v scope shape.extents selections choices →
      List.Forall₂ Choice.Within shape.extents choices →
      Elements (.view array ps) (takenElements shape.extents xs choices)

/-- The text denotes an array of one dimension with the elements of the argument. -/
def PassedFlat (e : Expr) (text : String) : Prop :=
  ∀ xs, Elements lib env v scope e xs →
    ∃ is, is.length = xs.length ∧ Denotes lib env text (some (.array [is] xs))

end Elements

variable {lib : Library} {env : Environment} {v : Vocabulary} {scope : Scope}

theorem ArrayHolds.denotes {array : Expr} {shape : Shape} {xs : List Value} {t : Term}
    (h : ArrayHolds env v array shape xs) (ht : array.term v scope = .ok t) :
    Denotes lib env t.text (some (.array (zeroBased shape.extents) xs)) := by
  obtain ⟨-, -, s, hs, hword, hvalue⟩ := h
  obtain ⟨id, hid, -⟩ := symbolOf_eq_ok.1 hs
  simp only [term_of_id hid, bind_eq_ok, pure_eq_ok] at ht
  obtain ⟨s', hs', rfl⟩ := ht
  cases hs'.symm.trans hs
  exact (entity_denotes hword hvalue).denotes

theorem ArrayHolds.isMultidimensional {array : Expr} {shape : Shape} {xs : List Value}
    (h : ArrayHolds env v array shape xs) : isMultidimensional array = true := by
  have hshape := h.1
  cases array with
  | varArray _ _ _ => rfl
  | paramArray _ _ _ => rfl
  | _ => cases hshape

/-- A view with slices has as many dimensions as slices, and the elements that are chosen. -/
theorem view_dimensions {array : Expr} {shape : Shape} {xs : List Value}
    {selections : List Selection} {ps : List Position} {choices : List Choice} {t : Term}
    (harray : ArrayHolds env v array shape xs)
    (hselect : array.select selections = .ok (.view array ps)) (hslices : sliceCount ps ≠ 0)
    (hchoose : SelectionsChoose lib env v scope shape.extents selections choices)
    (hwithin : List.Forall₂ Choice.Within shape.extents choices)
    (ht : (Expr.view array ps).term v scope = .ok t) :
    ∃ sets, sets.length = sliceCount ps ∧
      sets.map List.length = choices.filterMap Choice.extent? ∧
      Denotes lib env t.text (some (.array sets (takenElements shape.extents xs choices))) := by
  have hps := select_positions harray hselect hchoose hwithin
  have hkept : (choices.filterMap Choice.extent?).length = sliceCount ps := length_keptExtents hps
  have hne : choices.filterMap Choice.extent? ≠ [] := by
    intro hnil
    exact hslices (by rw [← hkept, hnil, List.length_nil])
  obtain ⟨x, hx, hpart⟩ := positions_denote harray hps hwithin ht
  unfold IsPart at hpart
  split at hpart
  · next hnil => exact absurd hnil hne
  · obtain ⟨sets, rfl, hlengths⟩ := hpart
    exact ⟨sets, by rw [← hkept, ← hlengths, List.length_map], hlengths, hx⟩

/-- An argument is passed on in one dimension: it is flattened if it may have several, and else it has
one already. -/
theorem argTerm_passedFlat {e : Expr} {t : Term} (ht : e.term v scope = .ok t) :
    PassedFlat lib env v scope e (argTerm true e t).text := by
  intro xs h
  cases h with
  | array harray =>
      rw [argTerm, harray.isMultidimensional, Bool.true_and, if_pos rfl]
      exact ⟨_, by simp, (flat_denotes (harray.denotes ht)).denotes⟩
  | @view array shape xs selections ps choices harray hselect hslices hchoose hwithin =>
      obtain ⟨sets, hsets, hlengths, hdenotes⟩ :=
        view_dimensions harray hselect hslices hchoose hwithin ht
      by_cases hseveral : 1 < sliceCount ps
      · have hmulti : isMultidimensional (.view array ps) = true := decide_eq_true hseveral
        rw [argTerm, hmulti, Bool.true_and, if_pos rfl]
        exact ⟨_, by simp, (flat_denotes hdenotes).denotes⟩
      · have hflat : isMultidimensional (.view array ps) = false := decide_eq_false hseveral
        rw [argTerm, hflat, Bool.true_and, if_neg Bool.false_ne_true]
        obtain ⟨is, rfl⟩ := List.length_eq_one_iff.1 (hsets.trans (by omega : sliceCount ps = 1))
        refine ⟨is, ?_, hdenotes⟩
        have hprod := congrArg List.prod hlengths
        rw [length_takenElements harray.2.1 hwithin, ← hprod]
        simp

theorem argTerms_passedFlat {args : List Expr} {ts : List Term}
    (h : argTerms v scope true args = .ok ts) :
    List.Forall₂ (PassedFlat lib env v scope) args (ts.map Term.text) := by
  rw [List.forall₂_map_right_iff]
  refine (argTerms_spelled h).imp ?_
  rintro e _ ⟨t, ht, rfl⟩
  exact argTerm_passedFlat ht

/-- In the text of a count and of a global constraint that flattens its arguments, each argument that is
a declared array, or a view with slices that are within their array, is written as an array of one
dimension that holds exactly its elements in row-major order. -/
theorem flattened_arguments (lib : Library) (env : Environment) (v : Vocabulary) (scope : Scope)
    (args : List Expr) :
    (∀ t, (Expr.aggregate .count args).term v scope = .ok t →
      ∃ texts, t.text = "count(" ++ Term.commaSeparated texts ++ ")" ∧
        List.Forall₂ (PassedFlat lib env v scope) args texts) ∧
    ∀ kind t, kind.flattens = true → (Expr.global kind args).term v scope = .ok t →
      ∃ texts, t.text = kind.name ++ "(" ++ Term.commaSeparated texts ++ ")" ∧
        List.Forall₂ (PassedFlat lib env v scope) args texts := by
  constructor
  · intro t ht
    simp only [Expr.term, bind_eq_ok, pure_eq_ok] at ht
    obtain ⟨ts, hts, rfl⟩ := ht
    exact ⟨ts.map Term.text, by rw [Term.text, texts_eq_map]; rfl, argTerms_passedFlat hts⟩
  · intro kind t hflattens ht
    simp only [Expr.term, bind_eq_ok, pure_eq_ok, hflattens] at ht
    obtain ⟨ts, hts, rfl⟩ := ht
    exact ⟨ts.map Term.text, by rw [Term.text, texts_eq_map]; rfl, argTerms_passedFlat hts⟩

/-- A layer and a row of a cube, and the cube itself, as arguments of one constraint. -/
theorem flattened_arguments_cube :
    let cube := Expr.varArray ⟨0⟩ .int ⟨[2, 2, 2]⟩
    let v : Vocabulary := ⟨[⟨⟨0⟩, "a"⟩], []⟩
    let env := [("a", .array (zeroBased [2, 2, 2]) ((integers 1 9).map Value.int))]
    let layer := [.slice none none none, .index (.literal (.int 1))]
    let row := [.index (.literal (.int 0)), .slice none none none, .index (.literal (.int 1))]
    ∃ ps ps' t s₁ s₂ s₃, cube.select layer = .ok (.view cube ps) ∧
      cube.select row = .ok (.view cube ps') ∧
      (Expr.global .allDifferent [.view cube ps, .view cube ps', cube]).term v [] = .ok t ∧
      t.text = "alldifferent(array1d(array2d(0..((max(index_set_1of3(a)) + 1) - 1), " ++
        "0..((max(index_set_3of3(a)) + 1) - 1), " ++
        "slice_3d(a, [0..((max(index_set_1of3(a)) + 1) - 1), 1..1, " ++
        "0..((max(index_set_3of3(a)) + 1) - 1)], 0..((max(index_set_1of3(a)) + 1) - 1), 0..0, " ++
        "0..((max(index_set_3of3(a)) + 1) - 1)))), " ++
        "array1d(slice_3d(a, [0..0, 0..((max(index_set_2of3(a)) + 1) - 1), 1..1], " ++
        "0..0, 0..((max(index_set_2of3(a)) + 1) - 1), 0..0)), array1d(a))" ∧
      t.text = "alldifferent(" ++ Term.commaSeparated [s₁, s₂, s₃] ++ ")" ∧
      (∃ is, Denotes (fun _ _ => none) env s₁ (some (.array [is] ([3, 4, 7, 8].map Value.int)))) ∧
      (∃ is, Denotes (fun _ _ => none) env s₂ (some (.array [is] ([2, 4].map Value.int)))) ∧
      ∃ is, Denotes (fun _ _ => none) env s₃
        (some (.array [is] ([1, 2, 3, 4, 5, 6, 7, 8].map Value.int))) := by
  intro cube v env layer row
  have hcube : ArrayHolds env v cube ⟨[2, 2, 2]⟩ ((integers 1 9).map Value.int) :=
    ⟨rfl, rfl, _, rfl, rfl, rfl⟩
  have hindex (i : Int) := literal_hasIndex (fun _ _ => none) env v [] i
  have hlayer : SelectionsChoose (fun _ _ => none) env v [] [2, 2, 2] layer
      [.slice 0 2, .index 1, .slice 0 2] :=
    .cons (.slice rfl rfl) (.cons (.index (hindex 1)) (.cons (.slice rfl rfl) .nil))
  have hrow : SelectionsChoose (fun _ _ => none) env v [] [2, 2, 2] row
      [.index 0, .slice 0 2, .index 1] :=
    .cons (.index (hindex 0)) (.cons (.slice rfl rfl) (.cons (.index (hindex 1)) .nil))
  obtain ⟨-, hflat⟩ := flattened_arguments (fun _ _ => none) env v []
    [.view cube [.slice (.literal (.int 0)) (.size cube 0), .index (.literal (.int 1)),
      .slice (.literal (.int 0)) (.size cube 2)],
      .view cube [.index (.literal (.int 0)), .slice (.literal (.int 0)) (.size cube 1),
        .index (.literal (.int 1))], cube]
  obtain ⟨texts, htext, hpassed⟩ := hflat .allDifferent _ rfl rfl
  obtain ⟨s₁, texts₁, h₁, hpassed₁, rfl⟩ := List.forall₂_cons_left_iff.1 hpassed
  obtain ⟨s₂, texts₂, h₂, hpassed₂, rfl⟩ := List.forall₂_cons_left_iff.1 hpassed₁
  obtain ⟨s₃, texts₃, h₃, hpassed₃, rfl⟩ := List.forall₂_cons_left_iff.1 hpassed₂
  cases hpassed₃
  obtain ⟨is₁, -, hdenotes₁⟩ := h₁ _ (.view hcube rfl (by decide) hlayer (by decide))
  obtain ⟨is₂, -, hdenotes₂⟩ := h₂ _ (.view hcube rfl (by decide) hrow (by decide))
  obtain ⟨is₃, -, hdenotes₃⟩ := h₃ _ (.array hcube)
  exact ⟨_, _, _, s₁, s₂, s₃, rfl, rfl, rfl, by decide +kernel, htext, ⟨is₁, hdenotes₁⟩,
    ⟨is₂, hdenotes₂⟩, is₃, hdenotes₃⟩

end ConstraintModel
