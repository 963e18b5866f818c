import ConstraintModel.Proofs.Evaluation
import ConstraintModel.Proofs.Partial
import Mathlib.Data.List.Nodup
import Mathlib.Data.List.ProdSigma
import Mathlib.Algebra.BigOperators.Group.List.Basic

/-!
# Elements of arrays

The elements of an array are keyed by its index tuples, in row-major order. Choosing along each
dimension for itself, as a cut does, and choosing tuples from the whole array, as a part is defined,
give the same elements in the same order: `mapM_elementAt?_chosen`.
-/

namespace ConstraintModel

/-! ## Association lists -/

theorem lookup_eq_some_of_mem {α β : Type} [BEq α] [LawfulBEq α] {l : List (α × β)} {k : α} {x : β}
    (hnodup : (l.map Prod.fst).Nodup) (h : (k, x) ∈ l) : l.lookup k = some x := by
  induction l with
  | nil => cases h
  | cons p l ih =>
      obtain ⟨hp, hl⟩ := List.nodup_cons.1 hnodup
      rw [List.lookup_cons]
      rcases List.mem_cons.1 h with rfl | h
      · simp
      · have hne : k ≠ p.1 := by
          intro heq
          exact hp (heq ▸ List.mem_map_of_mem h)
        rw [beq_eq_false_iff_ne.2 hne]
        exact ih hl h

theorem lookup_eq_none_of_not_mem {α β : Type} [BEq α] [LawfulBEq α] {l : List (α × β)} {k : α}
    (h : k ∉ l.map Prod.fst) : l.lookup k = none := by
  rw [List.lookup_eq_none_iff]
  intro p hp
  simpa using fun heq : k = p.1 => h (heq ▸ List.mem_map_of_mem hp)

theorem mapM_lookup {α β : Type} [BEq α] [LawfulBEq α] {l entries : List (α × β)}
    (hnodup : (l.map Prod.fst).Nodup) (h : ∀ p ∈ entries, p ∈ l) :
    (entries.map Prod.fst).mapM (fun k => l.lookup k) = some (entries.map Prod.snd) := by
  induction entries with
  | nil => rfl
  | cons p entries ih =>
      obtain ⟨hp, hentries⟩ := List.forall_mem_cons.1 h
      simp [lookup_eq_some_of_mem hnodup hp, ih hentries]

/-! ## Integers in order -/

@[simp] theorem length_integers (a b : Int) : (integers a b).length = (b - a).toNat := by
  simp [integers]

@[simp] theorem mem_integers {a b i : Int} : i ∈ integers a b ↔ a ≤ i ∧ i < b := by
  simp only [integers, List.mem_map, List.mem_range]
  constructor
  · rintro ⟨n, hn, rfl⟩
    omega
  · rintro ⟨ha, hb⟩
    exact ⟨(i - a).toNat, by omega, by omega⟩

theorem integers_toNat (n : Int) : integers 0 (n.toNat : Int) = integers 0 n := by
  rw [integers, integers, show ((n.toNat : Int) - 0).toNat = (n - 0).toNat by omega]

theorem integers_singleton (i : Int) : integers i (i + 1) = [i] := by
  simp [integers, show i + 1 - i = 1 by omega]

theorem nodup_integers (a b : Int) : (integers a b).Nodup := by
  refine List.nodup_range.map fun m n h => ?_
  have h : a + (m : Int) = a + (n : Int) := h
  omega

theorem filter_integers {a b c d : Int} (hab : a ≤ b) (hbc : b ≤ c) (hcd : c ≤ d) :
    (integers a d).filter (fun i => b ≤ i && i < c) = integers b c := by
  have hsplit : integers a d = integers a b ++ (integers b c ++ integers c d) := by
    apply List.ext_getElem
    · simp only [List.length_append, length_integers]
      omega
    · intro n h₁ h₂
      simp only [integers, List.getElem_append, List.getElem_map, List.getElem_range,
        List.length_map, List.length_range]
      split_ifs <;> omega
  rw [hsplit, List.filter_append, List.filter_append]
  have hbelow : (integers a b).filter (fun i => b ≤ i && i < c) = [] := by
    rw [List.filter_eq_nil_iff]
    intro i hi
    have := mem_integers.1 hi
    simp only [Bool.and_eq_true, decide_eq_true_eq]
    omega
  have habove : (integers c d).filter (fun i => b ≤ i && i < c) = [] := by
    rw [List.filter_eq_nil_iff]
    intro i hi
    have := mem_integers.1 hi
    simp only [Bool.and_eq_true, decide_eq_true_eq]
    omega
  have hinside : (integers b c).filter (fun i => b ≤ i && i < c) = integers b c := by
    rw [List.filter_eq_self]
    intro i hi
    simpa using mem_integers.1 hi
  rw [hbelow, habove, hinside, List.nil_append, List.append_nil]

/-! ## Index tuples -/

theorem mem_tuples {sets : List (List Int)} {index : List Int} :
    index ∈ tuples sets ↔ List.Forall₂ (fun i is => i ∈ is) index sets := by
  induction sets generalizing index with
  | nil => simp [tuples]
  | cons is sets ih =>
      simp only [tuples, List.mem_flatMap, List.mem_map, List.forall₂_cons_right_iff, ih]
      constructor
      · rintro ⟨i, hi, rest, hrest, rfl⟩
        exact ⟨i, rest, hi, hrest, rfl⟩
      · rintro ⟨i, rest, hi, hrest, rfl⟩
        exact ⟨i, hi, rest, hrest, rfl⟩

theorem nodup_tuples {sets : List (List Int)} (h : ∀ is ∈ sets, is.Nodup) :
    (tuples sets).Nodup := by
  induction sets with
  | nil => simp [tuples]
  | cons is sets ih =>
      obtain ⟨his, hsets⟩ := List.forall_mem_cons.1 h
      rw [tuples, List.nodup_flatMap]
      refine ⟨fun i _ => (ih hsets).map fun _ _ heq => (List.cons.inj heq).2, ?_⟩
      refine his.imp fun {i j} hij => ?_
      intro index hi hj
      obtain ⟨_, -, rfl⟩ := List.mem_map.1 hi
      obtain ⟨_, -, heq⟩ := List.mem_map.1 hj
      exact hij (List.cons.inj heq).1.symm

theorem length_tuples (sets : List (List Int)) :
    (tuples sets).length = (sets.map List.length).prod := by
  induction sets with
  | nil => rfl
  | cons is sets ih => simp [tuples, List.length_flatMap, ih, List.map_const']

theorem length_tuples_zeroBased (extents : List Nat) :
    (tuples (zeroBased extents)).length = extents.prod := by
  rw [length_tuples, zeroBased, List.map_map]
  congr 1
  exact (List.map_congr_left fun n _ => by simp).trans (List.map_id extents)

theorem nodup_zeroBased {extents : List Nat} : ∀ is ∈ zeroBased extents, is.Nodup := by
  intro is his
  obtain ⟨n, -, rfl⟩ := List.mem_map.1 his
  exact nodup_integers 0 n

theorem map_fst_zip_tuples {extents : List Nat} {xs : List Value} (hxs : xs.length = extents.prod) :
    ((tuples (zeroBased extents)).zip xs).map Prod.fst = tuples (zeroBased extents) :=
  List.map_fst_zip (Nat.le_of_eq (by rw [length_tuples_zeroBased, hxs]))

theorem nodup_keys_zeroBased {extents : List Nat} {xs : List Value}
    (hxs : xs.length = extents.prod) :
    (((tuples (zeroBased extents)).zip xs).map Prod.fst).Nodup := by
  rw [map_fst_zip_tuples hxs]
  exact nodup_tuples nodup_zeroBased

/-! ## Chosen elements -/

namespace Choice

/-- The indices that are chosen. -/
def indices : Choice → List Int
  | index i => [i]
  | slice first stop => integers first stop

theorem filter_takes {c : Choice} {n : Nat} (h : c.Within n) :
    (integers 0 n).filter c.takes = c.indices := by
  cases c with
  | index i =>
      obtain ⟨h0, hn⟩ := h
      have hfilter := filter_integers h0 (by omega : i ≤ i + 1) (by omega : i + 1 ≤ (n : Int))
      rw [integers_singleton] at hfilter
      rw [indices, ← hfilter]
      refine List.filter_congr fun j _ => ?_
      rw [Bool.eq_iff_iff]
      simp only [takes, beq_iff_eq, Bool.and_eq_true, decide_eq_true_eq]
      omega
  | slice a b =>
      obtain ⟨h0, hab, hn⟩ := h
      exact filter_integers h0 (by omega) hn

end Choice

theorem filter_tuples {extents : List Nat} {choices : List Choice}
    (h : List.Forall₂ Choice.Within extents choices) :
    (tuples (zeroBased extents)).filter (takesAll choices) =
      tuples (choices.map Choice.indices) := by
  induction h with
  | nil => rfl
  | @cons n c extents choices hc _ ih =>
      have hstep (i : Int) :
          ((tuples (zeroBased extents)).map (i :: ·)).filter (takesAll (c :: choices)) =
            if c.takes i then (tuples (choices.map Choice.indices)).map (i :: ·) else [] := by
        rw [List.filter_map, ← ih]
        by_cases hi : c.takes i <;> simp [Function.comp_def, takesAll, hi]
      rw [zeroBased, List.map_cons, ← zeroBased, tuples, List.map_cons, tuples,
        List.filter_flatMap, ← Choice.filter_takes hc]
      simp only [hstep]
      generalize integers 0 (n : Int) = is
      induction is with
      | nil => rfl
      | cons i is ih => by_cases hi : c.takes i <;> simp [hi, ih]

/-- Looking up the tuples of the chosen indices gives the chosen elements in the array's order. -/
theorem mapM_elementAt?_chosen {extents : List Nat} {xs : List Value} {choices : List Choice}
    (h : List.Forall₂ Choice.Within extents choices) (hxs : xs.length = extents.prod) :
    (tuples (choices.map Choice.indices)).mapM (elementAt? (zeroBased extents) xs) =
      some (takenElements extents xs choices) := by
  have hkeys : (tuples (choices.map Choice.indices)) =
      (((tuples (zeroBased extents)).zip xs).filter fun p =>
        takesAll choices p.1).map Prod.fst := by
    rw [← filter_tuples h]
    conv_lhs => rw [← map_fst_zip_tuples hxs]
    rw [List.filter_map]
    rfl
  rw [hkeys]
  exact mapM_lookup (nodup_keys_zeroBased hxs) fun p hp => (List.mem_filter.1 hp).1

theorem tuples_singletons (is : List Int) : tuples (is.map fun i => [i]) = [is] := by
  induction is with
  | nil => rfl
  | cons i is ih => simp [tuples, ih]

theorem exists_elementAt? {extents : List Nat} {xs : List Value} {is : List Int}
    (h : List.Forall₂ Choice.Within extents (is.map .index)) (hxs : xs.length = extents.prod) :
    ∃ x, elementAt? (zeroBased extents) xs is = some x ∧
      takenElements extents xs (is.map .index) = [x] := by
  have htaken := mapM_elementAt?_chosen h hxs
  have hindices : (is.map Choice.index).map Choice.indices = is.map fun i => [i] := by
    simp [Choice.indices]
  rw [hindices, tuples_singletons] at htaken
  cases helement : elementAt? (zeroBased extents) xs is with
  | none => simp [helement] at htaken
  | some x => exact ⟨x, rfl, by simpa [helement, eq_comm] using htaken⟩

/-- Choosing one index along every dimension takes the element at the tuple of these indices. -/
theorem partOf_indices {extents : List Nat} {xs : List Value} (hxs : xs.length = extents.prod)
    (is : List Int) :
    partOf extents xs (is.map Choice.index) = elementAt? (zeroBased extents) xs is := by
  have hkept : (is.map Choice.index).filterMap Choice.extent? = [] := by
    simp [Choice.extent?]
  by_cases h : List.Forall₂ Choice.Within extents (is.map Choice.index)
  · obtain ⟨x, helement, htaken⟩ := exists_elementAt? h hxs
    rw [partOf, if_pos h, hkept, helement, htaken]
    rfl
  · have hmem : is ∉ tuples (zeroBased extents) := by
      intro hmem
      apply h
      rw [mem_tuples, zeroBased, List.forall₂_map_right_iff] at hmem
      rw [List.forall₂_map_right_iff]
      exact hmem.flip.imp fun n i hi => mem_integers.1 hi
    rw [partOf, if_neg h]
    refine (lookup_eq_none_of_not_mem ?_).symm
    rw [map_fst_zip_tuples hxs]
    exact hmem

end ConstraintModel
