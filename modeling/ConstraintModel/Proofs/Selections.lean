import ConstraintModel.Construct.Selection
import ConstraintModel.Proofs.Evaluation
import ConstraintModel.Proofs.Partial
import ConstraintModel.Source.Program

/-!
# Accepted selections

What an array accepts is decided for each dimension by itself, from what is known before the search:
literals, and parameters that hold one. A known index has to be inside its dimension, and is so in
every dimension whose extent is below half of the machine words; a wider one accepts no known index.
The bounds of a slice are held to their signs, and to their order where both are literals, but not
to the extent.
-/

namespace ConstraintModel

/-! ## Checks -/

/-- Whether one number is at least another. Two integers are compared as integers, and any other two
numbers as doubles. -/
def Literal.AtLeast : Literal → Literal → Prop
  | int a, int b => b ≤ a
  | a, b => ∃ x y, a.float? = some x ∧ b.float? = some y ∧ y ≤ x

theorem Literal.isEmptyRange_iff {a b : Literal} : a.isEmptyRange b = true ↔ a.AtLeast b := by
  cases a <;> cases b <;> simp [isEmptyRange, AtLeast, float?]

theorem requireUnitStep_eq_ok {step : Int} : requireUnitStep step = .ok () ↔ step = 1 := by
  rw [requireUnitStep, ite_throw_eq_ok, pure_eq_ok]
  simp

theorem requireRange_eq_ok {start stop : Expr} : requireRange start stop = .ok () ↔
    ∀ a b, start = .literal a → stop = .literal b → ¬ a.AtLeast b := by
  unfold requireRange
  split
  · rw [throw_ite_eq_ok, pure_eq_ok, Literal.isEmptyRange_iff]
    simp
  · next hother => exact ⟨fun _ a b hstart hstop => (hother a b hstart hstop).elim, fun _ => rfl⟩

theorem requireNonNegative_eq_ok {e : Expr} :
    e.requireNonNegative = .ok () ↔ ∀ i, e.int? = some i → 0 ≤ i := by
  unfold Expr.requireNonNegative
  cases e.int? with
  | none => simp [pure_eq_ok]
  | some v => simp [throw_ite_eq_ok, pure_eq_ok]

theorem requireBelow_eq_ok {dim extent : Nat} {e : Expr} :
    e.requireBelow dim extent = .ok () ↔ ∀ i, e.int? = some i → i < Expr.signedExtent extent := by
  unfold Expr.requireBelow
  cases e.int? with
  | none => simp [pure_eq_ok]
  | some v => simp [throw_ite_eq_ok, pure_eq_ok]

/-! ## Extents as words -/

theorem signedExtent_le (n : Nat) : Expr.signedExtent n ≤ n := by
  unfold Expr.signedExtent
  rw [Nat.pow_eq, Int.bmod_def]
  omega

/-- An index from zero on is below the word of an extent exactly if it is below the extent and the
word is not that of a negative number. -/
theorem lt_signedExtent_iff {n : Nat} (hn : n < Nat.pow 2 64) {i : Int} (hi : 0 ≤ i) :
    i < Expr.signedExtent n ↔ i < n ∧ n < Nat.pow 2 63 := by
  -- The word of an extent is the extent itself below `2 ^ 63`, and negative from there on.
  unfold Expr.signedExtent
  rw [Nat.pow_eq] at hn
  simp only [Nat.pow_eq, Int.bmod_def]
  omega

/-! ## Positions -/

/-- The position that a selection asks for along a dimension. A slice without a start begins at
zero, and one without a stop ends at the size of the dimension. -/
def Selection.completed (array : Expr) (dim : Nat) : Selection → Position
  | .index e => .index e
  | .slice start stop _ => .slice (start.getD (.literal (.int 0))) (stop.getD (.size array dim))

/-- Whether a selection has no step, or a step of one. -/
def Selection.HasUnitStep : Selection → Prop
  | .index _ => True
  | .slice _ _ step => ∀ k, step = some k → k = 1

/-- Whether a known index is below a limit and not negative. Of a slice, whether no known bound is
negative, and whether two literal bounds are in order. -/
def Position.Fits (limit : Int) : Position → Prop
  | .index e => ∀ i, e.int? = some i → 0 ≤ i ∧ i < limit
  | .slice start stop =>
    (∀ i, start.int? = some i → 0 ≤ i) ∧ (∀ i, stop.int? = some i → 0 ≤ i) ∧
      ∀ a b, start = .literal a → stop = .literal b → ¬ a.AtLeast b

theorem Position.fits_signedExtent {n : Nat} (hn : n < Nat.pow 2 64) {p : Position} :
    p.Fits (Expr.signedExtent n) ↔
      p.Fits n ∧ ∀ e i, p = .index e → e.int? = some i → n < Nat.pow 2 63 := by
  cases p with
  | slice start stop => simp [Fits]
  | index e =>
      have hiff (i : Int) :
          0 ≤ i ∧ i < Expr.signedExtent n ↔ (0 ≤ i ∧ i < n) ∧ n < Nat.pow 2 63 := by
        rw [and_assoc]
        exact and_congr_right fun hi => lt_signedExtent_iff hn hi
      simp only [Fits, hiff, Position.index.injEq]
      constructor
      · rintro h
        refine ⟨fun i hi => (h i hi).1, ?_⟩
        rintro _ i rfl hi
        exact (h i hi).2
      · rintro ⟨hfits, hword⟩ i hi
        exact ⟨hfits i hi, hword e i rfl hi⟩

section Positions

variable {array : Expr} {dim n : Nat}

theorem position_eq_ok {selection : Selection} {p : Position} :
    array.position dim n selection = .ok p ↔
      selection.HasUnitStep ∧ p.Fits (Expr.signedExtent n) ∧ p = selection.completed array dim := by
  cases selection with
  | index e =>
      simp only [Expr.position, check_bind_eq_ok, pure_eq_ok, requireNonNegative_eq_ok,
        requireBelow_eq_ok, Selection.HasUnitStep, Selection.completed, true_and]
      constructor
      · rintro ⟨hsign, hbelow, rfl⟩
        exact ⟨fun i hi => ⟨hsign i hi, hbelow i hi⟩, rfl⟩
      · rintro ⟨hfits, rfl⟩
        exact ⟨fun i hi => (hfits i hi).1, fun i hi => (hfits i hi).2, rfl⟩
  | slice start stop step =>
      have hstep : step.getD 1 = 1 ↔ ∀ k, step = some k → k = 1 := by
        cases step <;> simp
      simp only [Expr.position, check_bind_eq_ok, pure_eq_ok, requireNonNegative_eq_ok,
        requireRange_eq_ok, requireUnitStep_eq_ok, hstep, Selection.HasUnitStep,
        Selection.completed]
      constructor
      · rintro ⟨hunit, hstart, hstop, horder, rfl⟩
        exact ⟨hunit, ⟨hstart, hstop, horder⟩, rfl⟩
      · rintro ⟨hunit, hfits, rfl⟩
        exact ⟨hunit, hfits.1, hfits.2.1, hfits.2.2, rfl⟩

theorem getD_tail {α : Type} (xs : List α) (k : Nat) (x : α) :
    xs.tail.getD k x = xs.getD (k + 1) x := by
  simp [List.getD_eq_getElem?_getD]

theorem forall_getElem?_cons {α : Type} {P : Nat → α → Prop} {x : α} {xs : List α} :
    (∀ k y, (x :: xs)[k]? = some y → P k y) ↔ P 0 x ∧ ∀ k y, xs[k]? = some y → P (k + 1) y := by
  constructor
  · exact fun h => ⟨h 0 x rfl, fun k y hy => h (k + 1) y hy⟩
  · rintro ⟨hx, hxs⟩ k y hy
    cases k with
    | zero =>
        cases hy
        exact hx
    | succ k => exact hxs k y hy

/-- The positions that selections ask for. Missing ones ask for all of a dimension. -/
def completions (array : Expr) (dim : Nat) (extents : List Nat) (selections : List Selection) :
    List Position :=
  extents.mapIdx fun k _ => (selections.getD k .all).completed array (dim + k)

theorem completions_cons (extents : List Nat) (selections : List Selection) :
    completions array dim (n :: extents) selections =
      (selections.headD .all).completed array dim ::
        completions array (dim + 1) extents selections.tail := by
  simp only [completions, List.mapIdx_cons, getD_tail, List.headD_eq_getD, Nat.add_assoc,
    Nat.add_comm 1, Nat.add_zero]

theorem exists_completed_of_mem {extents : List Nat} {selections : List Selection} {p : Position}
    (h : p ∈ completions array dim extents selections) :
    ∃ k, p = (selections.getD k .all).completed array (dim + k) := by
  obtain ⟨k, -, rfl⟩ := List.mem_mapIdx.1 h
  exact ⟨k, rfl⟩

/-- Positions are found along each dimension by itself, and are those that are asked for. -/
theorem positions_eq_ok {extents : List Nat} {selections : List Selection} {ps : List Position} :
    array.positions dim extents selections = .ok ps ↔
      (∀ k n, extents[k]? = some n → (selections.getD k .all).HasUnitStep ∧
        ((selections.getD k .all).completed array (dim + k)).Fits (Expr.signedExtent n)) ∧
      ps = completions array dim extents selections := by
  induction extents generalizing dim selections ps with
  | nil =>
      rw [Expr.positions, pure_eq_ok, eq_comm]
      simp [completions]
  | cons extent extents ih =>
      simp only [Expr.positions, bind_eq_ok, pure_eq_ok, position_eq_ok, ih, forall_getElem?_cons,
        completions_cons, getD_tail, List.headD_eq_getD, Nat.add_zero, Nat.add_assoc,
        Nat.add_comm 1]
      constructor
      · rintro ⟨_, ⟨hunit, hfits, rfl⟩, _, ⟨hrest, rfl⟩, rfl⟩
        exact ⟨⟨⟨hunit, hfits⟩, hrest⟩, rfl⟩
      · rintro ⟨⟨⟨hunit, hfits⟩, hrest⟩, rfl⟩
        exact ⟨_, ⟨hunit, hfits, rfl⟩, _, ⟨hrest, rfl⟩, rfl⟩

end Positions

/-! ## Views -/

section Views

variable {array view : Expr} {shape : Shape} {selections : List Selection}

/-- Whether a selection has a unit step, and what it asks for along a dimension fits. -/
def Selection.Fits (array : Expr) (dim : Nat) (limit : Int) (selection : Selection) : Prop :=
  selection.HasUnitStep ∧ (selection.completed array dim).Fits limit

theorem select_eq_ok_iff (hshape : array.shape? = some shape) :
    array.select selections = .ok view ↔ selections.length ≤ shape.rank ∧
      (∀ dim n, shape.extents[dim]? = some n →
        (selections.getD dim .all).Fits array dim (Expr.signedExtent n)) ∧
      view = .view array (completions array 0 shape.extents selections) := by
  rw [Expr.select, hshape]
  by_cases hlength : shape.rank < selections.length
  · simp [if_pos hlength, bind_eq_ok, throw_ne_ok, Nat.not_le.2 hlength]
  · simp only [if_neg hlength, bind_eq_ok, pure_eq_ok, Nat.not_lt.1 hlength, true_and,
      positions_eq_ok, Nat.zero_add, Selection.Fits]
    constructor
    · rintro ⟨_, ⟨hfits, rfl⟩, rfl⟩
      exact ⟨hfits, rfl⟩
    · rintro ⟨hfits, rfl⟩
      exact ⟨_, ⟨hfits, rfl⟩, rfl⟩

/-- Only arrays are selected from. -/
theorem exists_shape_of_select (h : array.select selections = .ok view) :
    ∃ shape, array.shape? = some shape := by
  cases hshape : array.shape? with
  | none =>
      rw [Expr.select, hshape] at h
      exact absurd h throw_ne_ok
  | some shape => exact ⟨shape, rfl⟩

theorem exists_select_iff (hshape : array.shape? = some shape) :
    (∃ view, array.select selections = .ok view) ↔ selections.length ≤ shape.rank ∧
      ∀ dim n, shape.extents[dim]? = some n →
        (selections.getD dim .all).Fits array dim (Expr.signedExtent n) := by
  simp only [select_eq_ok_iff hshape]
  exact ⟨fun ⟨_, hlength, hfits, _⟩ => ⟨hlength, hfits⟩,
    fun ⟨hlength, hfits⟩ => ⟨_, hlength, hfits, rfl⟩⟩

theorem select_eq_ok (hshape : array.shape? = some shape) (h : array.select selections = .ok view) :
    ∃ ps, Expr.positions array 0 shape.extents selections = .ok ps ∧ view = .view array ps := by
  obtain ⟨-, hfits, rfl⟩ := (select_eq_ok_iff hshape).1 h
  refine ⟨_, positions_eq_ok.2 ⟨fun k n hn => ?_, rfl⟩, rfl⟩
  rw [Nat.zero_add]
  exact hfits k n hn

theorem Selection.fits_signedExtent {dim n : Nat} (hn : n < Nat.pow 2 64) {selection : Selection} :
    selection.Fits array dim (Expr.signedExtent n) ↔ selection.Fits array dim n ∧
      ∀ e i, selection = .index e → e.int? = some i → n < Nat.pow 2 63 := by
  have hindex (e : Expr) : selection.completed array dim = .index e ↔ selection = .index e := by
    cases selection <;> simp [completed]
  simp only [Fits, Position.fits_signedExtent hn, hindex, and_assoc]

theorem length_completions (array : Expr) (dim : Nat) (extents : List Nat)
    (selections : List Selection) :
    (completions array dim extents selections).length = extents.length :=
  List.length_mapIdx

theorem getElem?_completions {extents : List Nat} {dim k : Nat} (hk : k < extents.length) :
    (completions array dim extents selections)[k]? =
      some ((selections.getD k .all).completed array (dim + k)) := by
  simp [completions, hk]

/-- An array accepts selections exactly if there is at most one for each dimension and every one
fits its dimension. A known index is also refused in every dimension whose extent is half of the
machine words or more. -/
theorem select_accepts (hshape : array.shape? = some shape)
    (hwords : ∀ n ∈ shape.extents, n < Nat.pow 2 64) (selections : List Selection) :
    ((∃ view, array.select selections = .ok view) ↔ selections.length ≤ shape.rank ∧
      ∀ dim n : Nat, shape.extents[dim]? = some n → (selections.getD dim .all).Fits array dim n ∧
        ∀ e i, selections.getD dim .all = .index e → e.int? = some i → n < Nat.pow 2 63) ∧
    ∀ view, array.select selections = .ok view → ∃ ps, view = .view array ps ∧
      ps.length = shape.rank ∧ ∀ dim p, ps[dim]? = some p →
        p = (selections.getD dim .all).completed array dim := by
  constructor
  · rw [exists_select_iff hshape]
    refine and_congr_right fun _ => forall₃_congr fun dim n hn => ?_
    exact Selection.fits_signedExtent (hwords n (List.mem_of_getElem? hn))
  · intro view h
    obtain ⟨-, -, rfl⟩ := (select_eq_ok_iff hshape).1 h
    have hlength := length_completions array 0 shape.extents selections
    refine ⟨_, rfl, hlength, fun dim p hp => ?_⟩
    obtain ⟨hdim, -⟩ := List.getElem?_eq_some_iff.1 hp
    rw [getElem?_completions (hlength ▸ hdim), Nat.zero_add] at hp
    exact (Option.some.inj hp).symm

/-- The last row of a wide matrix, by a parameter, without its first column. -/
theorem select_accepts_wideRow :
    let array := Expr.varArray ⟨0⟩ .int ⟨[4, Nat.pow 2 63]⟩
    let row : Selection := .index (.param ⟨1⟩ (.int 3))
    let columns : Selection := .slice (some (.literal (.int 1))) none (some 1)
    (∀ n ∈ [4, Nat.pow 2 63], n < Nat.pow 2 64) ∧ ∃ ps,
      array.select [row, columns] = .ok (.view array ps) ∧ ps.length = 2 := by
  intro array row columns
  have hwords : ∀ n ∈ [4, Nat.pow 2 63], n < Nat.pow 2 64 := by
    simp [Nat.pow_eq]
  obtain ⟨hiff, hview⟩ := select_accepts (rfl : array.shape? = some ⟨[4, Nat.pow 2 63]⟩) hwords
    [row, columns]
  have hfits : row.Fits array 0 4 ∧ columns.Fits array 1 (Nat.pow 2 63) := by
    simp [Selection.Fits, Selection.HasUnitStep, Selection.completed, Position.Fits, row, columns,
      Expr.int?]
  have hrow : ∀ e i, row = .index e → e.int? = some i → 4 < Nat.pow 2 63 := by
    simp [Nat.pow_eq]
  have hcolumns : ∀ e i, columns = .index e → e.int? = some i → Nat.pow 2 63 < Nat.pow 2 63 := by
    simp [columns]
  obtain ⟨view, h⟩ := hiff.2 ⟨Nat.le_refl 2, forall_getElem?_cons.2
    ⟨⟨hfits.1, hrow⟩, forall_getElem?_cons.2 ⟨⟨hfits.2, hcolumns⟩, by simp⟩⟩⟩
  obtain ⟨ps, rfl, hlength, -⟩ := hview view h
  exact ⟨hwords, ps, h, hlength⟩

/-- The first index of a dimension with half of the machine words is refused, though it fits. -/
theorem wideIndex_refused :
    let array := Expr.varArray ⟨0⟩ .int ⟨[Nat.pow 2 63]⟩
    let index : Selection := .index (.literal (.int 0))
    index.Fits array 0 (Nat.pow 2 63) ∧
      array.select [index] = .error (.indexOutOfBounds 0 0 (Nat.pow 2 63)) := by
  intro array index
  refine ⟨?_, ?_⟩
  · simp [Selection.Fits, Selection.HasUnitStep, Selection.completed, Position.Fits, index,
      Expr.int?]
  · rfl

/-! ## Known bounds -/

/-- A bound is known before the search: it is an integer literal, a parameter that holds an integer,
or the size of the dimension. -/
inductive KnownBound (array : Expr) (dim n : Nat) : Expr → Int → Prop
  | value {e i} : e.int? = some i → KnownBound array dim n e i
  | size : KnownBound array dim n (.size array dim) n

theorem KnownBound.nonneg {dim n : Nat} {e : Expr} {i : Int} (h : KnownBound array dim n e i)
    (hsign : ∀ i, e.int? = some i → 0 ≤ i) : 0 ≤ i := by
  cases h with
  | value hi => exact hsign i hi
  | size => omega

/-- Whether two bounds are not both literals, or are in order. -/
def InOrder (start stop : Expr) (a b : Int) : Prop :=
  start = .literal (.int a) → stop = .literal (.int b) → a < b

theorem inOrder_of_literals {start stop : Expr}
    (h : ∀ x y, start = .literal x → stop = .literal y → ¬ x.AtLeast y) (a b : Int) :
    InOrder start stop a b :=
  fun hstart hstop => Int.not_le.1 (h _ _ hstart hstop)

theorem Position.fits_slice_iff {limit a b : Int} {start stop : Expr} (ha : start.int? = some a)
    (hb : stop.int? = some b) :
    (Position.slice start stop).Fits limit ↔ 0 ≤ a ∧ 0 ≤ b ∧ InOrder start stop a b := by
  have horder : (∀ x y, start = .literal x → stop = .literal y → ¬ x.AtLeast y) ↔
      InOrder start stop a b := by
    refine ⟨fun h => inOrder_of_literals h a b, ?_⟩
    rintro h x y rfl rfl
    obtain rfl : x = .int a := by
      cases x <;> simp_all [Expr.int?]
    obtain rfl : y = .int b := by
      cases y <;> simp_all [Expr.int?]
    exact Int.not_le.2 (h rfl rfl)
  simp [Fits, ha, hb, horder]

theorem Position.Fits.known_slice {limit a b : Int} {dim n : Nat} {start stop : Expr}
    (hfits : (Position.slice start stop).Fits limit) (ha : KnownBound array dim n start a)
    (hb : KnownBound array dim n stop b) : 0 ≤ a ∧ 0 ≤ b ∧ InOrder start stop a b := by
  obtain ⟨hstart, hstop, horder⟩ := hfits
  exact ⟨ha.nonneg hstart, hb.nonneg hstop, inOrder_of_literals horder a b⟩

theorem Selection.fits_slice_iff {dim : Nat} {limit a b : Int} {start stop : Expr}
    (ha : start.int? = some a) (hb : stop.int? = some b) :
    (Selection.slice (some start) (some stop) none).Fits array dim limit ↔
      0 ≤ a ∧ 0 ≤ b ∧ InOrder start stop a b := by
  simp [Fits, HasUnitStep, completed, Position.fits_slice_iff ha hb]

/-- In place of one of the accepted selections, another is accepted exactly if it fits. -/
theorem exists_select_set_iff {dim n : Nat} {selection : Selection}
    (hshape : array.shape? = some shape) (h : ∃ view, array.select selections = .ok view)
    (hdim : dim < selections.length) (hn : shape.extents[dim]? = some n) :
    (∃ view, array.select (selections.set dim selection) = .ok view) ↔
      selection.Fits array dim (Expr.signedExtent n) := by
  obtain ⟨hlength, hfits⟩ := (exists_select_iff hshape).1 h
  have hset : (selections.set dim selection).getD dim .all = selection := by
    simp [List.getD_eq_getElem?_getD, hdim]
  rw [exists_select_iff hshape, List.length_set]
  constructor
  · rintro ⟨-, hall⟩
    rw [← hset]
    exact hall dim n hn
  · intro hselection
    refine ⟨hlength, fun k m hm => ?_⟩
    -- Along every other dimension the selection is the accepted one.
    by_cases hk : k = dim
    · subst hk
      cases hm.symm.trans hn
      rwa [hset]
    · have hother : (selections.set dim selection).getD k .all = selections.getD k .all := by
        simp [List.getD_eq_getElem?_getD, List.getElem?_set_ne (Ne.symm hk)]
      rw [hother]
      exact hfits k m hm

/-- Of an accepted view, every known index is inside its dimension. A slice with known bounds begins
at zero or later and two literal bounds are in order, so it is not empty and inside its dimension
unless it ends beyond the dimension or its bounds, not both literals, are out of order. Both happen:
in place of an accepted selection, a slice with known bounds is accepted whatever the extent is. -/
theorem select_known_bounds (hshape : array.shape? = some shape) :
    (∀ selections ps dim n, array.select selections = .ok (.view array ps) →
      shape.extents[dim]? = some n →
      (∀ e i, ps[dim]? = some (.index e) → e.int? = some i → (Choice.index i).Within n) ∧
      ∀ start stop a b, ps[dim]? = some (.slice start stop) →
        KnownBound array dim n start a → KnownBound array dim n stop b →
        0 ≤ a ∧ 0 ≤ b ∧ InOrder start stop a b ∧
          ((Choice.slice a b).Within n ∨ n < b ∨
            b ≤ a ∧ ¬ (start = .literal (.int a) ∧ stop = .literal (.int b)))) ∧
    ∀ selections dim start stop a b, (∃ view, array.select selections = .ok view) →
      dim < selections.length → start.int? = some a → stop.int? = some b →
      ((∃ view, array.select (selections.set dim (.slice (some start) (some stop) none)) =
          .ok view) ↔ 0 ≤ a ∧ 0 ≤ b ∧ InOrder start stop a b) := by
  constructor
  · intro selections ps dim n h hn
    obtain ⟨-, hall, hps⟩ := (select_eq_ok_iff hshape).1 h
    cases hps
    obtain ⟨-, hfits⟩ := hall dim n hn
    obtain ⟨hdim, -⟩ := List.getElem?_eq_some_iff.1 hn
    rw [getElem?_completions hdim, Nat.zero_add]
    constructor
    · intro e i he hi
      rw [Option.some.inj he] at hfits
      obtain ⟨h0, hbelow⟩ := hfits i hi
      exact ⟨h0, Int.lt_of_lt_of_le hbelow (signedExtent_le n)⟩
    · intro start stop a b hslice ha hb
      rw [Option.some.inj hslice] at hfits
      obtain ⟨h0, h0', horder⟩ := hfits.known_slice ha hb
      refine ⟨h0, h0', horder, ?_⟩
      -- Neither the end of the slice nor the order of bounds that are not literals is checked.
      by_cases hbeyond : n < b
      · exact .inr (.inl hbeyond)
      by_cases hab : a < b
      · exact .inl ⟨h0, hab, Int.not_lt.1 hbeyond⟩
      · exact .inr (.inr ⟨Int.not_lt.1 hab, fun hliterals => hab (horder hliterals.1 hliterals.2)⟩)
  · intro selections dim start stop a b h hdim ha hb
    obtain ⟨hlength, -⟩ := (exists_select_iff hshape).1 h
    have hn := List.getElem?_eq_getElem (Nat.lt_of_lt_of_le hdim hlength)
    rw [exists_select_set_iff hshape h hdim hn, Selection.fits_slice_iff ha hb]

end Views

/-- A slice from a parameter to the end of its dimension, and an index. -/
theorem select_known_bounds_tail :
    let array := Expr.varArray ⟨0⟩ .int ⟨[3, 4]⟩
    ∃ ps, array.select [.slice (some (.param ⟨1⟩ (.int 1))) none none, .index (.literal (.int 2))] =
        .ok (.view array ps) ∧
      ps[0]? = some (.slice (.param ⟨1⟩ (.int 1)) (.size array 0)) ∧ (Choice.slice 1 3).Within 3 ∧
      ps[1]? = some (.index (.literal (.int 2))) ∧ (Choice.index 2).Within 4 := by
  intro array
  obtain ⟨hbounds, -⟩ := select_known_bounds (rfl : array.shape? = some ⟨[3, 4]⟩)
  obtain ⟨ps, h, hfirst, hsecond⟩ : ∃ ps, array.select
      [.slice (some (.param ⟨1⟩ (.int 1))) none none, .index (.literal (.int 2))] =
        .ok (.view array ps) ∧
      ps[0]? = some (.slice (.param ⟨1⟩ (.int 1)) (.size array 0)) ∧
      ps[1]? = some (.index (.literal (.int 2))) :=
    ⟨_, rfl, rfl, rfl⟩
  obtain ⟨-, hslice⟩ := hbounds _ ps 0 3 h rfl
  obtain ⟨hindex, -⟩ := hbounds _ ps 1 4 h rfl
  refine ⟨ps, h, hfirst, ?_, hsecond, hindex _ 2 hsecond rfl⟩
  obtain ⟨-, -, -, hwithin | hbeyond | ⟨hempty, -⟩⟩ :=
    hslice _ _ 1 3 hfirst (.value rfl) .size
  · exact hwithin
  · omega
  · omega

/-- A slice that ends beyond its array is accepted and written, though the last index in it is
refused; and an empty one is accepted if a parameter holds a bound. -/
theorem overlongSlice_accepted :
    let array := Expr.varArray ⟨0⟩ .int ⟨[5]⟩
    let whole : Selection := .slice (some (.literal (.int 0))) (some (.literal (.int 6))) none
    let empty : Selection := .slice (some (.param ⟨1⟩ (.int 2))) (some (.literal (.int 2))) none
    let view := Expr.view array [.slice (.literal (.int 0)) (.literal (.int 6))]
    let model : Model :=
      ⟨[("a", array)], [.binary .eq (.aggregate .sum [view]) (.literal (.int 0))], .satisfy⟩
    array.select [whole] = .ok view ∧ ¬ (Choice.slice 0 6).Within 5 ∧
      (∃ c n', model.compile.run 1 = (.ok c, n') ∧ c.program.lines = ["array[0..4] of var int: a;",
        "constraint (sum(slice_1d(a, [0..5], 0..5)) == 0);", "solve satisfy;"]) ∧
      array.select [.index (.literal (.int 5))] = .error (.indexOutOfBounds 5 0 5) ∧
      (∃ view, array.select [empty] = .ok view) ∧ ¬ (Choice.slice 2 2).Within 5 :=
  ⟨rfl, by decide, ⟨_, _, rfl, by decide⟩, rfl, ⟨_, rfl⟩, by decide⟩

end ConstraintModel
