import ConstraintModel.Proofs.Denotation
import ConstraintModel.Proofs.Elements

/-!
# Spans and sizes

A span that is written for integers below a stop ends one below it, in each of the ways that its last
integer is spelled, and the size of a dimension is one above the greatest of its indices.
-/

namespace ConstraintModel

open Source

variable {lib : Library} {env : Environment}

/-! ## Arithmetic of bounds -/

theorem BinaryOp.apply_add_int (a b : Int) :
    BinaryOp.add.apply (.int a) (.int b) = some (.int (a + b)) := rfl

/-- Below a stop means one less than it, whether the stop is spelled or computed. -/
theorem lastBelow_denotes {stop : Expr} {last : Term} {y : Option Value}
    (hlast : Denotes lib env last.text y)
    (hliteral : ∀ w, stop.literalInt? = some w → y = some (.int w)) :
    ∃ z, DenotesAtom lib env (lastBelow stop last).text z ∧
      z.bind Value.int? = (y.bind Value.int?).map (· - 1) := by
  unfold lastBelow
  cases hstop : stop.literalInt? with
  | some w =>
      refine ⟨_, denotes_int (w - 1), ?_⟩
      rw [hliteral w hstop]
      rfl
  | none =>
      refine ⟨_, hlast.binary .sub (denotes_int 1).denotes, ?_⟩
      match y with
      | none | some (.scalar (.int _)) | some (.scalar (.float _)) | some (.scalar (.bool _))
      | some (.scalar (.enumeration _)) | some (.set _) | some (.array ..) => rfl

/-- A span that ends below a stop has the integers up to the stop. -/
theorem range_denotes {stop : Expr} {first last : Term} {x y : Option Value}
    (hfirst : DenotesAtom lib env first.text x) (hlast : Denotes lib env last.text y)
    (hliteral : ∀ w, stop.literalInt? = some w → y = some (.int w)) :
    Denotes lib env (Term.span false first (lastBelow stop last)).text (do
      let a ← (← x).int?
      let b ← (← y).int?
      return .intSet (integers a b)) := by
  obtain ⟨z, hz, hbelow⟩ := lastBelow_denotes hlast hliteral
  have hspan := hfirst.span false hz
  have hvalue : (do
      let a ← (← x).int?
      let b ← (← z).int?
      return Value.intSet (integers a (b + 1))) = (do
      let a ← (← x).int?
      let b ← (← y).int?
      return .intSet (integers a b)) := by
    simp only [Option.bind_eq_bind, ← Option.bind_assoc, hbelow, Option.bind_map]
    simp
  rwa [hvalue] at hspan

theorem intSpan_denotes (float : Bool) {first last : Term} {a b : Int}
    (hfirst : Denotes lib env first.text (some (.int a)))
    (hlast : Denotes lib env last.text (some (.int b))) :
    Denotes lib env (Term.span float first last).text (some (.intSet (integers a (b + 1)))) :=
  (hfirst.atom hfirst.isAtom_of_int).span float (hlast.atom hlast.isAtom_of_int)

/-! ## Calls -/

theorem mapM_some {α : Type} (xs : List α) : (xs.map some).mapM id = some xs :=
  mapM_map_eq_some (fun x => (rfl : id (some x) = some x)) xs

section Calls

variable {ts : List Term} {xs : List Value}
  (h : List.Forall₂ (fun t x => Denotes lib env (Term.text t) (some x)) ts xs)
include h

theorem all_denote : List.Forall₂ (Denotes lib env) (ts.map Term.text) (xs.map some) := by
  rwa [List.forall₂_map_left_iff, List.forall₂_map_right_iff]

/-- A call of a function on arguments that all have values. -/
theorem call_denotes (f : Source.Function) {x : Option Value} (hx : f.apply lib xs = x) :
    DenotesAtom lib env (Term.call f ts).text x := by
  have hcall := denotes_call f (all_denote h)
  rw [mapM_some] at hcall
  subst hx
  exact hcall

theorem list_denotes : DenotesAtom lib env (Term.list ts).text (some (.list xs)) := by
  have hlist := denotes_list (all_denote h)
  rw [mapM_some] at hlist
  exact hlist

end Calls

theorem entity_denotes {s : Symbol} {x : Value} (hword : Identifier.require s.word = .ok ())
    (hs : env.lookup s.word = some x) :
    DenotesAtom lib env (Term.entity s).text (some x) := by
  rw [← hs]
  exact denotes_word hword

theorem flat_denotes {t : Term} {sets : List (List Int)} {xs : List Value}
    (h : Denotes lib env t.text (some (.array sets xs))) :
    DenotesAtom lib env (Term.call (.reshape 1) [t]).text (some (.list xs)) :=
  call_denotes (.cons h .nil) _ rfl

/-! ## Sizes -/

theorem extreme_concat {direction : Ordering} {vs : List Literal} (hne : vs ≠ []) (w : Literal) :
    Aggregate.extreme direction (vs ++ [w]) = (Aggregate.extreme direction vs).bind fun best =>
      (w.compare? best).map fun o => if o = direction then w else best := by
  cases vs with
  | nil => exact absurd rfl hne
  | cons v vs =>
      rw [List.cons_append, Aggregate.extreme, List.foldlM_append, Aggregate.extreme]
      simp

/-- The greatest index of a dimension that counts from zero. -/
theorem extreme_integers (n : Nat) :
    Aggregate.extreme .gt ((integers 0 (n + 1)).map .int) = some (.int n) := by
  induction n with
  | zero => rfl
  | succ n ih =>
      have hsplit : integers 0 ((n + 1 : Nat) + 1) = integers 0 (n + 1) ++ [(n + 1 : Int)] := by
        simp [integers, show ((n : Int) + 1 + 1).toNat = n + 1 + 1 by omega, List.range_succ]
      have hne : (integers 0 (n + 1)).map Literal.int ≠ [] := by
        simp [integers]
      have hgt : compare ((n : Int) + 1) n = .gt := by
        rw [Int.compare_eq_gt]
        omega
      rw [hsplit, List.map_append, List.map_singleton, extreme_concat hne, ih]
      simp [Literal.compare?, hgt]

theorem mapM_scalar? (vs : List Literal) :
    (vs.map Value.scalar).mapM Value.scalar? = some vs :=
  mapM_map_eq_some (fun v => (rfl : Value.scalar? (.scalar v) = some v)) vs

theorem indexSet_apply (lib : Library) {extents : List Nat} {dim n : Nat}
    (hn : extents[dim]? = some n) (xs : List Value) :
    (Function.indexSet (dim + 1) extents.length).apply lib [.array (zeroBased extents) xs] =
      some (.intSet (integers 0 n)) := by
  by_cases hrank : 1 < extents.length
  · simp [Function.apply, if_pos hrank, zeroBased, hn]
  · have hsingle : extents = [n] := by
      cases extents with
      | nil => simp at hn
      | cons k rest =>
          have hrest : rest = [] := by
            rw [List.length_cons] at hrank
            exact List.eq_nil_of_length_eq_zero (by omega)
          subst hrest
          cases dim with
          | zero => simpa using hn
          | succ _ => simp at hn
    subst hsingle
    rfl

theorem sizeTerm_denotes {s : Symbol} {shape : Shape} {dim n : Nat} {xs : List Value}
    (hword : Identifier.require s.word = .ok ())
    (hs : env.lookup s.word = some (.array (zeroBased shape.extents) xs))
    (hn : shape.extent? dim = some n) (hpos : 0 < n) :
    DenotesAtom lib env (sizeTerm s shape.rank dim).text (some (.int n)) := by
  obtain ⟨k, rfl⟩ := Nat.exists_eq_add_of_lt hpos
  have hset := call_denotes (.cons (entity_denotes hword hs).denotes .nil) _
    (indexSet_apply lib hn xs)
  have hlast : Function.last.apply lib [.intSet (integers 0 ((0 + k + 1 : Nat) : Int))] =
      some (.int k) := by
    rw [Nat.zero_add, Int.natCast_succ]
    simp only [Function.apply, Aggregate.apply, Value.intSet, Value.members?, Aggregate.ofValues,
      Option.bind_eq_bind, Option.bind_some, mapM_scalar?, Aggregate.ofLiterals, extreme_integers]
    rfl
  have hsum := (call_denotes (.cons hset.denotes .nil) _ hlast).denotes.binary .add
    (denotes_int 1).denotes
  have hvalue : BinaryOp.add.apply (.int k) (.int 1) = some (.int ((0 + k + 1 : Nat) : Int)) := by
    rw [BinaryOp.apply_add_int, Nat.zero_add, Int.natCast_succ]
  rw [← hvalue]
  exact hsum

end ConstraintModel
