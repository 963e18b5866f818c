import ConstraintModel.Construct.Leaf
import Mathlib.Data.List.Forall2

/-!
# Partial functions

What it means that steps which may fail have succeeded or failed, one after another or over a list,
and in a build, where they also take identities; and what a search by keys finds where all of them
differ.
-/

namespace ConstraintModel

/-! ## Successful steps -/

theorem bind_eq_ok {ε α β : Type} {x : Except ε α} {f : α → Except ε β} {b : β} :
    x >>= f = .ok b ↔ ∃ a, x = .ok a ∧ f a = .ok b := by
  cases x with
  | error e => simp [bind, Except.bind]
  | ok a => simp [bind, Except.bind]

theorem pure_eq_ok {ε α : Type} {a b : α} : (pure a : Except ε α) = .ok b ↔ a = b := by
  simp [pure, Except.pure]

theorem throw_ne_ok {ε α : Type} {e : ε} {a : α} : (throw e : Except ε α) ≠ .ok a := by
  simp [throw, throwThe, MonadExceptOf.throw]

theorem check_bind_eq_ok {ε β : Type} {x : Except ε Unit} {f : Unit → Except ε β} {b : β} :
    x >>= f = .ok b ↔ x = .ok () ∧ f () = .ok b := by
  rw [bind_eq_ok]
  exact ⟨fun ⟨⟨⟩, h⟩ => h, fun h => ⟨(), h⟩⟩

theorem throw_ite_eq_ok {ε α : Type} {c : Prop} [Decidable c] {e : ε} {x : Except ε α} {a : α} :
    (if c then throw e else x) = .ok a ↔ ¬ c ∧ x = .ok a := by
  by_cases h : c
  · simp [h, throw_ne_ok]
  · simp [h]

theorem ite_throw_eq_ok {ε α : Type} {c : Prop} [Decidable c] {e : ε} {x : Except ε α} {a : α} :
    (if c then x else throw e) = .ok a ↔ c ∧ x = .ok a := by
  by_cases h : c
  · simp [h]
  · simp [h, throw_ne_ok]

theorem forM_eq_ok {ε α : Type} {f : α → Except ε Unit} {xs : List α} :
    xs.forM f = .ok () ↔ ∀ x ∈ xs, f x = .ok () := by
  rw [List.forM_eq_forM]
  induction xs with
  | nil => simp [pure_eq_ok]
  | cons x xs ih =>
      rw [List.forM_cons, bind_eq_ok, List.forall_mem_cons, ← ih]
      exact ⟨fun ⟨⟨⟩, h⟩ => h, fun h => ⟨(), h⟩⟩

/-! ## Failing steps -/

theorem bind_eq_error {ε α β : Type} {x : Except ε α} {f : α → Except ε β} {e : ε} :
    x >>= f = .error e ↔ x = .error e ∨ ∃ a, x = .ok a ∧ f a = .error e := by
  cases x <;> simp [bind, Except.bind]

theorem pure_ne_error {ε α : Type} {a : α} {e : ε} : (pure a : Except ε α) ≠ .error e := by
  simp [pure, Except.pure]

theorem bind_pure_eq_error {ε α β : Type} {x : Except ε α} {f : α → β} {e : ε} :
    (x >>= fun a => pure (f a)) = .error e ↔ x = .error e := by
  simp only [bind_eq_error, pure_ne_error, and_false, exists_false, or_false]

theorem throw_eq_error {ε α : Type} {e e' : ε} : (throw e : Except ε α) = .error e' ↔ e = e' := by
  simp [throw, throwThe, MonadExceptOf.throw]

/-! ## Successful builds -/

theorem build_bind_run {α β : Type} (x : Build α) (f : α → Build β) (n : Nat) :
    (x >>= f).run n = match x.run n with
      | (.ok a, k) => (f a).run k
      | (.error e, k) => (.error e, k) := by
  change ExceptT.bindCont f (x.run n).1 (x.run n).2 = _
  rcases x.run n with ⟨e | a, k⟩ <;> rfl

theorem build_bind_eq_ok {α β : Type} {x : Build α} {f : α → Build β} {n n' : Nat} {b : β} :
    (x >>= f).run n = (.ok b, n') ↔ ∃ a k, x.run n = (.ok a, k) ∧ (f a).run k = (.ok b, n') := by
  rw [build_bind_run]
  constructor
  · intro h
    rcases hx : x.run n with ⟨e | a, k⟩
    · rw [hx] at h
      cases h
    · rw [hx] at h
      exact ⟨a, k, rfl, h⟩
  · rintro ⟨a, k, hx, h⟩
    rw [hx]
    exact h

theorem build_lift_eq_ok {α : Type} {x : Except ModelError α} {n n' : Nat} {a : α} :
    (liftM x : Build α).run n = (.ok a, n') ↔ x = .ok a ∧ n' = n := by
  have hrun : (liftM x : Build α).run n = (x, n) := by
    rfl
  rw [hrun, Prod.mk.injEq, eq_comm (a := n)]

theorem build_pure_eq_ok {α : Type} {n n' : Nat} {a b : α} :
    (pure a : Build α).run n = (.ok b, n') ↔ a = b ∧ n' = n := by
  have hrun : (pure a : Build α).run n = (.ok a, n) := rfl
  rw [hrun, Prod.mk.injEq, eq_comm (a := n), Except.ok.injEq]

theorem build_throw_ne_ok {α : Type} {e : ModelError} {n n' : Nat} {a : α} :
    (throw e : Build α).run n ≠ (.ok a, n') := by
  intro h
  cases h

theorem build_forM_eq_ok {α : Type} {f : α → Except ModelError Unit} {xs : List α} {n n' : Nat}
    {u : Unit} : (xs.forM fun x => (liftM (f x) : Build Unit)).run n = (.ok u, n') ↔
      (∀ x ∈ xs, f x = .ok ()) ∧ n' = n := by
  rw [List.forM_eq_forM]
  induction xs with
  | nil =>
      rw [List.forM_nil, build_pure_eq_ok]
      simp
  | cons x xs ih =>
      simp only [List.forM_cons, build_bind_eq_ok, build_lift_eq_ok, List.forall_mem_cons]
      constructor
      · rintro ⟨⟨⟩, k, ⟨hx, rfl⟩, hrest⟩
        obtain ⟨hxs, rfl⟩ := ih.1 hrest
        exact ⟨⟨hx, hxs⟩, rfl⟩
      · rintro ⟨⟨hx, hxs⟩, rfl⟩
        exact ⟨(), n', ⟨hx, rfl⟩, ih.2 ⟨hxs, rfl⟩⟩

theorem fresh_eq_ok {n n' : Nat} {id : NodeId} :
    Build.fresh.run n = (.ok id, n') ↔ ⟨n⟩ = id ∧ n' = n + 1 := by
  have hrun : Build.fresh.run n = (.ok ⟨n⟩, n + 1) := rfl
  rw [hrun, Prod.mk.injEq, Except.ok.injEq, eq_comm (a := n + 1)]

/-! ## Partial maps over lists -/

theorem exists_of_mem_right {α β : Type} {R : α → β → Prop} {xs : List α} {ys : List β}
    (h : List.Forall₂ R xs ys) {y : β} (hy : y ∈ ys) : ∃ x ∈ xs, R x y := by
  induction h with
  | nil => cases hy
  | cons hxy _ ih =>
      rcases List.mem_cons.1 hy with rfl | hy
      · exact ⟨_, List.mem_cons_self, hxy⟩
      · obtain ⟨x, hx, hxy⟩ := ih hy
        exact ⟨x, List.mem_cons_of_mem _ hx, hxy⟩

theorem exists_of_mem_left {α β : Type} {R : α → β → Prop} {xs : List α} {ys : List β}
    (h : List.Forall₂ R xs ys) {x : α} (hx : x ∈ xs) : ∃ y ∈ ys, R x y :=
  exists_of_mem_right h.flip hx

theorem mapM_eq_ok {ε α β : Type} {g : α → Except ε β} {xs : List α} {ys : List β} :
    xs.mapM g = .ok ys ↔ List.Forall₂ (fun x y => g x = .ok y) xs ys := by
  induction xs generalizing ys with
  | nil => rw [List.mapM_nil, pure_eq_ok, List.forall₂_nil_left_iff, eq_comm]
  | cons x xs ih =>
      simp only [List.mapM_cons, bind_eq_ok, pure_eq_ok, ih, List.forall₂_cons_left_iff]
      constructor
      · rintro ⟨y, hy, ys, hys, rfl⟩
        exact ⟨y, ys, hy, hys, rfl⟩
      · rintro ⟨y, ys, hy, hys, rfl⟩
        exact ⟨y, hy, ys, hys, rfl⟩

theorem mapM_congr_option {α β : Type} {g k : α → Option β} {xs : List α}
    (h : ∀ x ∈ xs, g x = k x) : xs.mapM g = xs.mapM k := by
  induction xs with
  | nil => rfl
  | cons x xs ih =>
      obtain ⟨hx, hxs⟩ := List.forall_mem_cons.1 h
      rw [List.mapM_cons, List.mapM_cons, hx, ih hxs]

theorem forall₂_of_mapM_eq_some {α β : Type} {g : α → Option β} {xs : List α} {ys : List β}
    (h : xs.mapM g = some ys) : List.Forall₂ (fun x y => g x = some y) xs ys := by
  induction xs generalizing ys with
  | nil =>
      cases h
      exact .nil
  | cons x xs ih =>
      simp only [List.mapM_cons, Option.bind_eq_bind, Option.bind_eq_some_iff, Option.pure_def,
        Option.some.injEq] at h
      obtain ⟨y, hy, ys, hys, rfl⟩ := h
      exact .cons hy (ih hys)

theorem exists_of_mem_mapM {α β : Type} {g : α → Option β} {xs : List α} {ys : List β}
    (h : xs.mapM g = some ys) {y : β} (hy : y ∈ ys) : ∃ x ∈ xs, g x = some y :=
  exists_of_mem_right (forall₂_of_mapM_eq_some h) hy

/-- A partial function that undoes a map gives the list back. -/
theorem mapM_map_eq_some {α β : Type} {g : β → Option α} {φ : α → β} (h : ∀ x, g (φ x) = some x)
    (xs : List α) : (xs.map φ).mapM g = some xs := by
  induction xs with
  | nil => rfl
  | cons x xs ih => simp [h, ih]

/-- Mapping every result of a partial function that yields lists maps their concatenation. -/
theorem mapM_map_option {α β γ : Type} {g : α → Option (List β)} {k : α → Option (List γ)}
    {φ : β → γ} (xs : List α) (h : ∀ x ∈ xs, k x = (g x).map (List.map φ)) :
    (do return (← xs.mapM k).flatten) =
      (do return (← xs.mapM g).flatten : Option (List β)).map (List.map φ) := by
  induction xs with
  | nil => rfl
  | cons x xs ih =>
      obtain ⟨hx, hxs⟩ := List.forall_mem_cons.1 h
      have hrest := ih hxs
      rw [List.mapM_cons, List.mapM_cons, hx]
      cases hg : g x with
      | none => rfl
      | some ys =>
          cases hm : xs.mapM g <;> cases hk : xs.mapM k <;> simp_all

/-! ## Searches by a key -/

section Keys

variable {α β : Type} [BEq β] [LawfulBEq β] {key : α → β} {xs : List α}

/-- Where all keys differ, an element is the first one with its key. -/
theorem find?_key_eq (h : (xs.map key).Nodup) {x : α} (hx : x ∈ xs) :
    xs.find? (fun y => key y == key x) = some x := by
  induction xs with
  | nil => cases hx
  | cons y xs ih =>
      obtain ⟨hy, hxs⟩ := List.nodup_cons.1 h
      rcases List.mem_cons.1 hx with rfl | hx
      · simp
      · have hne : key y ≠ key x := by
          intro heq
          exact hy (heq ▸ List.mem_map_of_mem hx)
        rw [List.find?_cons_of_neg (by simpa using hne)]
        exact ih hxs hx

/-- Where all keys differ, an element is the only one with its key. -/
theorem filter_key_eq (h : (xs.map key).Nodup) {x : α} (hx : x ∈ xs) :
    xs.filter (fun y => key y == key x) = [x] := by
  induction xs with
  | nil => cases hx
  | cons y xs ih =>
      obtain ⟨hy, hxs⟩ := List.nodup_cons.1 h
      rcases List.mem_cons.1 hx with rfl | hx
      · have hrest : xs.filter (fun y => key y == key x) = [] := by
          rw [List.filter_eq_nil_iff]
          intro z hz heq
          exact hy (beq_iff_eq.1 heq ▸ List.mem_map_of_mem hz)
        rw [List.filter_cons_of_pos (by simp), hrest]
      · have hne : key y ≠ key x := by
          intro heq
          exact hy (heq ▸ List.mem_map_of_mem hx)
        rw [List.filter_cons_of_neg (by simpa using hne)]
        exact ih hxs hx

end Keys

end ConstraintModel
