import ConstraintModel.Proofs.Lexeme
import ConstraintModel.Proofs.Nesting
import Mathlib.Algebra.Order.BigOperators.GroupWithZero.List
import Mathlib.Algebra.Order.Ring.Nat

/-!
# Levels of nested data

Data is read one level at a time. A level is regular if it holds literals only, or lists of one
positive length only. Data whose levels are all regular, and whose literals are finite and of one
type, has a shape; of any other, the first irregular level from the outside tells what is wrong.
-/

namespace ConstraintModel

namespace Nested

/-! ## Levels -/

/-- What a list holds; a literal holds nothing. -/
def members : Nested → List Nested
  | leaf _ => []
  | list items => items

/-- What is at a depth inside a level, from left to right. -/
def levelInside (level : List Nested) : Nat → List Nested
  | 0 => level
  | depth + 1 => levelInside (level.flatMap members) depth

/-- What is at a depth of nested data. The data itself is at depth zero. -/
def levelAt (data : Nested) (depth : Nat) : List Nested :=
  levelInside [data] depth

/-- The length of a list. -/
def extent? : Nested → Option Nat
  | leaf _ => none
  | list items => some items.length

/-- Whether a level holds literals only, or lists of one positive length only. -/
def IsRegular (level : List Nested) : Prop :=
  (∀ x ∈ level, x.extent? = none) ∨ ∃ n, 0 < n ∧ ∀ x ∈ level, x.extent? = some n

theorem isRegular_nil : IsRegular [] :=
  .inl (by simp)

theorem exists_leaves {level : List Nested} (h : ∀ x ∈ level, x.extent? = none) :
    ∃ values : List Literal, level = values.map leaf := by
  induction level with
  | nil => exact ⟨[], rfl⟩
  | cons x level ih =>
      obtain ⟨hx, hlevel⟩ := List.forall_mem_cons.1 h
      obtain ⟨values, rfl⟩ := ih hlevel
      cases x with
      | leaf v => exact ⟨v :: values, rfl⟩
      | list items => cases hx

theorem exists_lists {level : List Nested} (h : ∀ x ∈ level, x.extent? ≠ none) :
    ∃ lists : List (List Nested), level = lists.map list := by
  induction level with
  | nil => exact ⟨[], rfl⟩
  | cons x level ih =>
      obtain ⟨hx, hlevel⟩ := List.forall_mem_cons.1 h
      obtain ⟨lists, rfl⟩ := ih hlevel
      cases x with
      | leaf v => exact absurd rfl hx
      | list items => exact ⟨items :: lists, rfl⟩

theorem levelInside_nil (depth : Nat) : levelInside [] depth = [] := by
  induction depth with
  | zero => rfl
  | succ depth ih => exact ih

theorem flatMap_members_leaf (values : List Literal) :
    (values.map leaf).flatMap members = [] := by
  simp [members]

theorem flatMap_members_list (lists : List (List Nested)) :
    (lists.map list).flatMap members = lists.flatten := by
  rw [List.flatMap_map, List.flatten_eq_flatMap]
  rfl

/-! ## Reading one level -/

theorem leaves?_map_leaf (values : List Literal) : leaves? (values.map leaf) = some values := by
  induction values with
  | nil => rfl
  | cons v values ih => rw [List.map_cons, leaves?, ih, Option.map_some]

theorem lists?_map_list (lists : List (List Nested)) : lists? (lists.map list) = some lists := by
  induction lists with
  | nil => rfl
  | cons items lists ih => rw [List.map_cons, lists?, ih, Option.map_some]

theorem extentsFrom_leaves (depth : Nat) (values : List Literal) :
    extentsFrom depth (values.map leaf) = .ok ([], values) := by
  rw [extentsFrom, leaves?_map_leaf]
  rfl

theorem extentsFrom_lists (depth : Nat) (first : List Nested) (rest : List (List Nested)) :
    extentsFrom depth ((first :: rest).map list) = do
      haveLength depth first.length (first :: rest)
      let (extents, values) ← extentsFrom (depth + 1) (first :: rest).flatten
      return (first.length :: extents, values) := by
  have hleaves : leaves? ((first :: rest).map list) = none := rfl
  rw [extentsFrom, hleaves]
  simp only
  split
  · next hlists =>
      rw [lists?_map_list] at hlists
      cases hlists
      rfl
  · next hother => exact absurd (lists?_map_list (first :: rest)) (hother first rest)

theorem haveLength_of_forall {depth extent : Nat} {lists : List (List Nested)} (hpos : 0 < extent)
    (h : ∀ items ∈ lists, items.length = extent) : haveLength depth extent lists = .ok () := by
  induction lists with
  | nil => rfl
  | cons items lists ih =>
      obtain ⟨hitems, hlists⟩ := List.forall_mem_cons.1 h
      have hne : items.isEmpty = false := by
        rw [List.isEmpty_eq_false_iff, ← List.length_pos_iff]
        omega
      simpa [haveLength, hne, hitems] using ih hlists

/-- Of lists that are not empty, the first with another length is named. -/
theorem haveLength_eq_error {depth extent : Nat} {lists : List (List Nested)} {other : List Nested}
    (hne : ∀ items ∈ lists, items ≠ [])
    (h : lists.find? (fun items => items.length != extent) = some other) :
    haveLength depth extent lists = .error (.raggedArray depth extent other.length) := by
  induction lists with
  | nil => cases h
  | cons items lists ih =>
      obtain ⟨hitems, hlists⟩ := List.forall_mem_cons.1 hne
      have hempty : items.isEmpty = false := List.isEmpty_eq_false_iff.2 hitems
      by_cases hlength : items.length = extent
      · rw [List.find?_cons_of_neg (by simpa using hlength)] at h
        simpa [haveLength, hempty, hlength] using ih hlists h
      · rw [List.find?_cons_of_pos (by simpa using hlength)] at h
        cases h
        simp [haveLength, hempty, hlength]
        rfl

/-! ## Regular data -/

theorem HasExtents.extent?_eq {extents : List Nat} {n : Nested} (h : n.HasExtents extents) :
    n.extent? = extents.head? := by
  cases h with
  | leaf v => rfl
  | list hlength _ => exact congrArg some hlength

theorem HasExtents.members {n : Nat} {extents : List Nat} {items : List Nested}
    (h : (Nested.list items).HasExtents (n :: extents)) : ∀ x ∈ items, x.HasExtents extents := by
  cases h with
  | list _ hitems => exact hitems

/-- Levels of lists with the given positive extents are read down to their leaves. -/
theorem extentsFrom_of_hasExtents {depth : Nat} {extents : List Nat} {level : List Nested}
    (hne : level ≠ []) (hpos : ∀ d ∈ extents, 0 < d) (h : ∀ x ∈ level, x.HasExtents extents) :
    extentsFrom depth level = .ok (extents, level.flatMap leaves) := by
  induction extents generalizing depth level with
  | nil =>
      obtain ⟨values, rfl⟩ := exists_leaves fun x hx => (h x hx).extent?_eq
      have hleaves : (values.map leaf).flatMap leaves = values := by
        simp [List.flatMap_map, leaves]
      rw [extentsFrom_leaves, hleaves]
  | cons n extents ih =>
      obtain ⟨hn, hpos⟩ := List.forall_mem_cons.1 hpos
      obtain ⟨lists, rfl⟩ : ∃ lists : List (List Nested), level = lists.map list :=
        exists_lists fun x hx => by simp [(h x hx).extent?_eq]
      have hlengths : ∀ items ∈ lists, items.length = n := fun items hitems =>
        Option.some.inj (h _ (List.mem_map_of_mem hitems)).extent?_eq
      have hinside : ∀ x ∈ lists.flatten, x.HasExtents extents := by
        intro x hx
        obtain ⟨items, hitems, hx⟩ := List.mem_flatten.1 hx
        exact (h _ (List.mem_map_of_mem hitems)).members x hx
      have hleaves : (lists.map list).flatMap leaves = lists.flatten.flatMap leaves := by
        simp only [List.flatMap_map, leaves, itemsLeaves_eq_flatMap, List.flatten_eq_flatMap,
          List.flatMap_assoc, id]
      cases lists with
      | nil => exact absurd rfl hne
      | cons first rest =>
          have hfirst : first.length = n := hlengths first List.mem_cons_self
          -- The next level has members since the first list does.
          have hnext : (first :: rest).flatten ≠ [] := by
            rw [List.flatten_cons]
            refine List.append_ne_nil_of_left_ne_nil ?_ _
            rw [← List.length_pos_iff]
            omega
          rw [extentsFrom_lists, hfirst, haveLength_of_forall hn hlengths, ih hnext hpos hinside,
            hleaves]
          rfl

/-! ## Irregular data -/

/-- Lists of several lengths, none of them zero, are refused with the first two lengths. -/
theorem extentsFrom_ragged (depth : Nat) {lists : List (List Nested)}
    (hne : ∀ items ∈ lists, items ≠ []) (hirregular : ¬ IsRegular (lists.map list)) :
    ∃ first other, lists.head? = some first ∧
      lists.find? (fun items => items.length != first.length) = some other ∧
      extentsFrom depth (lists.map list) =
        .error (.raggedArray depth first.length other.length) := by
  cases lists with
  | nil => exact absurd isRegular_nil hirregular
  | cons first rest =>
      cases hother : (first :: rest).find? (fun items => items.length != first.length) with
      | none =>
          have hlengths : ∀ items ∈ first :: rest, items.length = first.length := by
            simpa only [List.find?_eq_none, bne_iff_ne, ne_eq, not_not] using hother
          have hpos : 0 < first.length := List.length_pos_iff.2 (hne first List.mem_cons_self)
          refine absurd (.inr ⟨first.length, hpos, ?_⟩) hirregular
          exact List.forall_mem_map.2 fun items hitems => congrArg some (hlengths items hitems)
      | some other =>
          refine ⟨first, other, rfl, hother, ?_⟩
          rw [extentsFrom_lists, haveLength_eq_error hne hother]
          rfl

/-- The first level that is irregular decides how reading fails. -/
theorem extentsFrom_of_levels (depth : Nat) {below : Nat} {level : List Nested}
    {lists : List (List Nested)} (hregular : ∀ d < below, IsRegular (levelInside level d))
    (hlists : levelInside level below = lists.map list) (hne : ∀ items ∈ lists, items ≠ [])
    (hirregular : ¬ IsRegular (levelInside level below)) :
    ∃ first other, lists.head? = some first ∧
      lists.find? (fun items => items.length != first.length) = some other ∧
      extentsFrom depth level =
        .error (.raggedArray (depth + below) first.length other.length) := by
  induction below generalizing depth level with
  | zero =>
      obtain rfl : level = lists.map list := hlists
      exact extentsFrom_ragged depth hne hirregular
  | succ below ih =>
      have hinside : ∀ d < below, IsRegular (levelInside (level.flatMap members) d) :=
        fun d hd => hregular (d + 1) (Nat.succ_lt_succ hd)
      obtain ⟨first, other, hfirst, hother, herror⟩ :=
        ih (depth + 1) hinside hlists hirregular
      refine ⟨first, other, hfirst, hother, ?_⟩
      rcases hregular 0 below.succ_pos with hliterals | ⟨n, hn, houter⟩
      · -- There is nothing inside literals, and nothing is regular.
        obtain ⟨values, rfl⟩ := exists_leaves hliterals
        rw [levelInside, flatMap_members_leaf, levelInside_nil] at hirregular
        exact absurd isRegular_nil hirregular
      · rw [levelInside] at houter
        obtain ⟨outer, rfl⟩ : ∃ outer : List (List Nested), level = outer.map list :=
          exists_lists fun x hx => by simp [houter x hx]
        have hlengths : ∀ items ∈ outer, items.length = n := fun items hitems =>
          Option.some.inj (houter _ (List.mem_map_of_mem hitems))
        cases outer with
        | nil =>
            rw [List.map_nil, levelInside_nil] at hirregular
            exact absurd isRegular_nil hirregular
        | cons items outer =>
            have hitems : items.length = n := hlengths items List.mem_cons_self
            rw [flatMap_members_list] at herror
            rw [extentsFrom_lists, hitems, haveLength_of_forall hn hlengths, herror,
              Nat.add_right_comm]
            rfl

/-! ## Literals of one type -/

theorem requireFinite_eq_ok {l : Literal} :
    l.requireFinite = .ok () ↔ ∀ x, l = .float x → x.isFinite = true := by
  constructor
  · rintro h x rfl
    exact Source.isFinite_of_requireFinite h
  · intro h
    cases l with
    | float x => rw [Literal.requireFinite, if_pos (h x rfl)]; rfl
    | int _ | bool _ | enumeration _ => rfl

theorem ofOneType_of_forall {values : List Literal} (hne : values ≠ [])
    (h : ∀ v ∈ values, ∀ w ∈ values, v.elemType = w.elemType) : ofOneType values = .ok () := by
  cases values with
  | nil => exact absurd rfl hne
  | cons v vs =>
      have hnone : vs.find? (fun w => w.elemType != v.elemType) = none := by
        rw [List.find?_eq_none]
        intro w hw
        simp [h w (List.mem_cons_of_mem v hw) v List.mem_cons_self]
      rw [ofOneType, hnone]
      rfl

theorem allFinite_of_forall {values : List Literal} (h : ∀ l ∈ values, l.requireFinite = .ok ()) :
    allFinite values = .ok () := by
  induction values with
  | nil => rfl
  | cons v vs ih =>
      obtain ⟨hv, hvs⟩ := List.forall_mem_cons.1 h
      rw [allFinite, hv]
      exact ih hvs

/-! ## Shapes -/

/-- Data that has a shape with the given extents: lists nested all the way, each of the extent of
its level, around finite literals of one type. -/
structure IsRectangular (extents : List Nat) (data : Nested) : Prop where
  nested : extents ≠ []
  inhabited : ∀ d ∈ extents, 0 < d
  full : data.HasExtents extents
  uniform : ∀ v ∈ data.leaves, ∀ w ∈ data.leaves, v.elemType = w.elemType
  finite : ∀ x, .float x ∈ data.leaves → x.isFinite = true

theorem IsRectangular.shape_eq {extents : List Nat} {data : Nested}
    (h : data.IsRectangular extents) : data.shape = .ok (⟨extents⟩, data.leaves) := by
  have hread : extentsFrom 0 [data] = .ok (extents, data.leaves) := by
    have hlevel : ∀ x ∈ [data], x.HasExtents extents := by simpa using h.full
    simpa using extentsFrom_of_hasExtents (List.cons_ne_nil data []) h.inhabited hlevel
  have hshape : (⟨extents⟩ : Shape).require = .ok () := by
    rw [Shape.require, if_pos (Shape.isValid_iff.2 ⟨h.nested, h.inhabited⟩)]
    rfl
  have hleaves : data.leaves ≠ [] := by
    rw [← List.length_pos_iff, length_leaves h.full]
    exact List.prod_pos h.inhabited
  have hfinite : ∀ l ∈ data.leaves, l.requireFinite = .ok () := by
    intro l hl
    refine requireFinite_eq_ok.2 ?_
    rintro x rfl
    exact h.finite x hl
  simp only [Nested.shape, bind_eq_ok, pure_eq_ok]
  exact ⟨_, hread, (), hshape, (), ofOneType_of_forall hleaves h.uniform, (),
    allFinite_of_forall hfinite, rfl⟩

theorem isRectangular_of_shape {data : Nested} {shape : Shape} {values : List Literal}
    (h : data.shape = .ok (shape, values)) :
    data.IsRectangular shape.extents ∧ values = data.leaves := by
  obtain ⟨hvalid, -, ⟨t, -, htyped⟩, hfinite⟩ := shape_eq_ok h
  obtain ⟨hfull, rfl, -⟩ := Nested.shape_eq h
  obtain ⟨hnested, hinhabited⟩ := Shape.isValid_iff.1 hvalid
  refine ⟨⟨hnested, hinhabited, hfull, ?_, ?_⟩, rfl⟩
  · intro v hv w hw
    rw [htyped v hv, htyped w hw]
  · intro x hx
    exact Source.isFinite_of_requireFinite (hfinite _ hx)

/-- Data has a shape exactly if it is rectangular. The shape is then its extents, and the elements
are its leaves from left to right, as many as the product of the extents. Where the first irregular
level holds lists that are not empty, the error names its depth, the length of its first list, and
that of the first list with another length. -/
theorem shape_rectangular (data : Nested) :
    (∀ shape values, data.shape = .ok (shape, values) ↔
      data.IsRectangular shape.extents ∧ values = data.leaves) ∧
    (∀ shape values, data.shape = .ok (shape, values) → values.length = shape.extents.prod) ∧
    ∀ (depth : Nat) (lists : List (List Nested)), (∀ d < depth, IsRegular (data.levelAt d)) →
      ¬ IsRegular (data.levelAt depth) → data.levelAt depth = lists.map list →
      (∀ items ∈ lists, items ≠ []) →
      ∃ first other, lists.head? = some first ∧
        lists.find? (fun items => items.length != first.length) = some other ∧
        data.shape = .error (.raggedArray depth first.length other.length) := by
  refine ⟨fun shape values => ⟨isRectangular_of_shape, ?_⟩, fun shape values h => ?_, ?_⟩
  · rintro ⟨h, rfl⟩
    exact h.shape_eq
  · exact (shape_eq_ok h).length
  · intro depth lists hregular hirregular hlists hne
    obtain ⟨first, other, hfirst, hother, herror⟩ :=
      extentsFrom_of_levels 0 hregular hlists hne hirregular
    refine ⟨first, other, hfirst, hother, ?_⟩
    rw [shape, herror, Nat.zero_add]
    rfl

def shortRows : List (List Nested) :=
  [[.leaf (.int 1), .leaf (.int 2)], [.leaf (.int 3), .leaf (.int 4)], [.leaf (.int 5)]]

/-- Three rows, of which the last is short. -/
def shortenedRows : Nested :=
  .list (shortRows.map .list)

theorem shape_rectangular_shortenedRows :
    (∀ d < 1, IsRegular (shortenedRows.levelAt d)) ∧ ¬ IsRegular (shortenedRows.levelAt 1) ∧
    shortenedRows.shape = .error (.raggedArray 1 2 1) := by
  have hregular : ∀ d < 1, IsRegular (shortenedRows.levelAt d) := by
    intro d hd
    obtain rfl : d = 0 := by omega
    exact .inr ⟨3, by decide, by simp [levelAt, levelInside, shortenedRows, shortRows, extent?]⟩
  have hirregular : ¬ IsRegular (shortenedRows.levelAt 1) := by
    rintro (h | ⟨n, -, h⟩) <;>
      simp [levelAt, levelInside, shortenedRows, shortRows, members, extent?] at h
    omega
  refine ⟨hregular, hirregular, ?_⟩
  obtain ⟨first, other, hfirst, hother, herror⟩ :=
    (shape_rectangular shortenedRows).2.2 1 shortRows hregular hirregular rfl (by simp [shortRows])
  cases hfirst
  cases hother
  exact herror

end Nested

end ConstraintModel
