import ConstraintModel.Proofs.Spelling
import Mathlib.Data.List.Nodup
import Mathlib.Data.List.Perm.Subperm

/-!
# Scopes

A word for an iterator is free: no entity, no enumeration, no variant and no iterator around it has
it. So the word of an iterator means that iterator wherever it stands.
-/

namespace ConstraintModel

open Source

namespace Source

/-! ## Free words -/

theorem underscored_inj {word : String} {m n : Nat} (h : underscored word m = underscored word n) :
    m = n := by
  have hlist := congrArg String.toList h
  simp only [underscored, String.toList_append, String.toList_ofList] at hlist
  simpa using congrArg List.length (List.append_cancel_left hlist)

/-- One more candidate is tried than there are used words. -/
theorem freeWord_not_mem (word : String) (used : List String) : freeWord word used ∉ used := by
  unfold freeWord
  cases hfind : (List.range (used.length + 1)).find? fun n =>
      !used.contains (underscored word n) with
  | some n => simpa using List.find?_some hfind
  | none =>
      have hused : ∀ n ∈ List.range (used.length + 1), underscored word n ∈ used := by
        simpa using List.find?_eq_none.1 hfind
      have hnodup : ((List.range (used.length + 1)).map (underscored word)).Nodup :=
        List.nodup_range.map fun _ _ h => underscored_inj h
      have hsubset : (List.range (used.length + 1)).map (underscored word) ⊆ used := by
        intro w hw
        obtain ⟨n, hn, rfl⟩ := List.mem_map.1 hw
        exact hused n hn
      have hlength := (List.subperm_of_subset hnodup hsubset).length_le
      rw [List.length_map, List.length_range] at hlength
      omega

/-- The words of iterators in scope are used once, and neither by an entity nor by an enumeration. -/
structure Scope.Free (v : Vocabulary) (scope : Scope) : Prop where
  nodup : (Symbol.words scope).Nodup
  not_entity : ∀ s ∈ scope, s.word ∉ Symbol.words v.symbols
  not_enumeration : ∀ s ∈ scope, s.word ∉ v.enumerationWords

theorem Scope.Free.nil (v : Vocabulary) : Scope.Free v [] :=
  ⟨List.nodup_nil, by simp, by simp⟩

theorem Vocabulary.nextIterator_not_mem (v : Vocabulary) (scope : Scope) :
    v.nextIterator scope ∉ Symbol.words v.symbols ∧ v.nextIterator scope ∉ v.enumerationWords ∧
      v.nextIterator scope ∉ Symbol.words scope := by
  have h := freeWord_not_mem (iteratorWord scope.length) (v.used scope)
  rw [Vocabulary.used, List.mem_append, List.mem_append, not_or, not_or] at h
  exact ⟨h.1.1, h.1.2, h.2⟩

theorem Scope.Free.cons {v : Vocabulary} {scope : Scope} (h : Scope.Free v scope) (id : NodeId) :
    Scope.Free v (⟨id, v.nextIterator scope⟩ :: scope) := by
  obtain ⟨hentity, henum, hscope⟩ := v.nextIterator_not_mem scope
  refine ⟨?_, ?_, ?_⟩
  · exact List.nodup_cons.2 ⟨hscope, h.nodup⟩
  · exact List.forall_mem_cons.2 ⟨hentity, h.not_entity⟩
  · exact List.forall_mem_cons.2 ⟨henum, h.not_enumeration⟩

/-- In a free scope the word of an iterator that is found by its identity is read as that iterator. -/
theorem Scope.Free.find?_word {v : Vocabulary} {scope : Scope} (h : Scope.Free v scope)
    {id : NodeId} {s : Symbol} (hs : Symbol.lookup id scope = some s) :
    scope.find? (·.word == s.word) = some s :=
  find?_key_eq h.nodup (List.mem_of_find?_eq_some hs)

theorem HeadsSpelled.inner_eq {v : Vocabulary} {R : Scope → Expr → Term → Prop} {scope : Scope}
    {gs : List Generator} {hs : List (Symbol × Term)} {inner : Scope}
    (h : HeadsSpelled v R scope gs hs inner) : inner = (hs.map Prod.fst).reverse ++ scope := by
  induction h with
  | nil => rfl
  | cons _ _ ih => simp [ih]

theorem HeadsSpelled.free {v : Vocabulary} {R : Scope → Expr → Term → Prop} {scope : Scope}
    {gs : List Generator} {hs : List (Symbol × Term)} {inner : Scope}
    (h : HeadsSpelled v R scope gs hs inner) (hfree : Scope.Free v scope) :
    Scope.Free v inner := by
  induction h with
  | nil => exact hfree
  | cons _ _ ih => exact ih (hfree.cons _)

end Source

end ConstraintModel
