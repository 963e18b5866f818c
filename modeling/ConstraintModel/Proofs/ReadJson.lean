import ConstraintModel.Proofs.Variants
import ConstraintModel.Proofs.WrittenJson

/-!
# JSON values that are read

What is read of a text is no arbitrary value: 64 bits hold its integers, the keys of its objects
ascend, and it nests no deeper than it may. Such a value, where no float is in it, is read back from
its own text if and only if the reader goes as deep as it nests.
-/

namespace ConstraintModel

namespace Json

/-! ## Nesting -/

mutual

/-- How deep a value nests; arrays and objects count as a level. -/
def depth : Json → Nat
  | array items => itemsDepth items + 1
  | object members => membersDepth members + 1
  | _ => 0

def itemsDepth : List Json → Nat
  | [] => 0
  | j :: js => max j.depth (itemsDepth js)

def membersDepth : List (String × Json) → Nat
  | [] => 0
  | (_, j) :: members => max j.depth (membersDepth members)

end

theorem itemsDepth_le {items : List Json} {n : Nat} :
    itemsDepth items ≤ n ↔ ∀ j ∈ items, j.depth ≤ n := by
  induction items with
  | nil => simp [itemsDepth]
  | cons j js ih => rw [itemsDepth, Nat.max_le, ih, List.forall_mem_cons]

theorem membersDepth_le {members : List (String × Json)} {n : Nat} :
    membersDepth members ≤ n ↔ ∀ m ∈ members, m.2.depth ≤ n := by
  induction members with
  | nil => simp [membersDepth]
  | cons m members ih => rw [membersDepth, Nat.max_le, ih, List.forall_mem_cons]

/-! ## Members in order -/

theorem insert_of_forall_lt {key : String} {value : Json} {members : List (String × Json)}
    (h : ∀ m ∈ members, m.1 < key) :
    insert key value members = members ++ [(key, value)] := by
  induction members with
  | nil => rfl
  | cons m members ih =>
      obtain ⟨hm, hmembers⟩ := List.forall_mem_cons.1 h
      have hne : key ≠ m.1 := by
        rintro rfl
        exact String.lt_irrefl _ hm
      rw [insert, if_neg (String.lt_asymm hm), if_neg hne, ih hmembers, List.cons_append]

theorem insert_pairwise {key : String} {value : Json} {members : List (String × Json)}
    (h : members.Pairwise (·.1 < ·.1)) : (insert key value members).Pairwise (·.1 < ·.1) := by
  induction members with
  | nil => exact List.pairwise_singleton _ _
  | cons m members ih =>
      obtain ⟨hfirst, hmembers⟩ := List.pairwise_cons.1 h
      rw [insert]
      split_ifs with hlt heq
      · exact List.pairwise_cons.2
          ⟨List.forall_mem_cons.2 ⟨hlt, fun m' hm' => String.lt_trans hlt (hfirst m' hm')⟩, h⟩
      · subst heq
        exact List.pairwise_cons.2 ⟨hfirst, hmembers⟩
      · refine List.pairwise_cons.2 ⟨fun m' hm' => ?_, ih hmembers⟩
        rcases mem_insert hm' with rfl | hm'
        · by_contra hge
          exact heq (String.le_antisymm (String.not_lt.1 hge) (String.not_lt.1 hlt))
        · exact hfirst m' hm'

theorem sorted_pairwise (members : List (String × Json)) :
    (sorted members).Pairwise (·.1 < ·.1) := by
  have hfold (done : List (String × Json)) (h : done.Pairwise (·.1 < ·.1)) :
      (members.foldl (fun done m => insert m.1 m.2 done) done).Pairwise (·.1 < ·.1) := by
    induction members generalizing done with
    | nil => exact h
    | cons m members ih => exact ih _ (insert_pairwise h)
  exact hfold [] .nil

/-- Members in order stay as they are. -/
theorem sorted_of_pairwise {members : List (String × Json)} (h : members.Pairwise (·.1 < ·.1)) :
    sorted members = members := by
  have hfold (done : List (String × Json)) (hall : (done ++ members).Pairwise (·.1 < ·.1)) :
      members.foldl (fun done m => insert m.1 m.2 done) done = done ++ members := by
    clear h
    induction members generalizing done with
    | nil => simp
    | cons m members ih =>
        have hlt : ∀ x ∈ done, x.1 < m.1 := fun x hx =>
          (List.pairwise_append.1 hall).2.2 x hx m List.mem_cons_self
        have happend := List.append_cons done m members
        rw [happend] at hall
        rw [List.foldl_cons, insert_of_forall_lt hlt, happend]
        exact ih _ hall
  exact hfold [] h

/-! ## Values that are read -/

/-- Whether a value is one that is read: 64 bits hold its integers, and the keys of its objects
ascend. -/
inductive IsRead : Json → Prop
  | null : IsRead null
  | bool (b : Bool) : IsRead (bool b)
  | int {v : Int} : Fits v → IsRead (int v)
  | float (x : Float) : IsRead (float x)
  | string (s : String) : IsRead (string s)
  | array {items : List Json} : (∀ j ∈ items, IsRead j) → IsRead (array items)
  | object {members : List (String × Json)} : members.Pairwise (·.1 < ·.1) →
      (∀ m ∈ members, IsRead m.2) → IsRead (object members)

theorem Numeral.value?_isRead {n : Numeral} {j : Json} (h : n.value? = some j) :
    j.IsRead ∧ j.depth = 0 := by
  have hfloat (h : n.float?.map Json.float = some j) : j.IsRead ∧ j.depth = 0 := by
    obtain ⟨x, -, rfl⟩ := Option.map_eq_some_iff.1 h
    exact ⟨.float x, rfl⟩
  simp only [value?] at h
  split_ifs at h
  · cases h
    exact ⟨.int ⟨by omega, by omega⟩, rfl⟩
  · exact hfloat h
  · cases h
    exact ⟨.int ⟨by omega, by omega⟩, rfl⟩
  · exact hfloat h
  · exact hfloat h

theorem wordValue?_isRead {raw : List Char} {j : Json} (h : Document.wordValue? raw = some j) :
    j.IsRead ∧ j.depth = 0 := by
  unfold Document.wordValue? at h
  split_ifs at h
  · cases h
    exact ⟨.null, rfl⟩
  · cases h
    exact ⟨.bool true, rfl⟩
  · cases h
    exact ⟨.bool false, rfl⟩
  · obtain ⟨n, -, hn⟩ := Option.bind_eq_some_iff.1 h
    exact Numeral.value?_isRead hn

mutual

/-- What is read of a document nests no deeper than it may. -/
theorem value?_isRead : ∀ {n : Nat} {d : Document} {j : Json}, d.value? n = some j →
    j.IsRead ∧ j.depth ≤ n
  | n, .word raw, j, h => by
      obtain ⟨hread, hdepth⟩ := wordValue?_isRead h
      exact ⟨hread, hdepth ▸ Nat.zero_le n⟩
  | n, .text raw, j, h => by
      obtain ⟨s, -, rfl⟩ := Option.map_eq_some_iff.1 h
      exact ⟨.string s, Nat.zero_le n⟩
  | n + 1, .array items, j, h => by
      obtain ⟨js, hjs, rfl⟩ := Option.map_eq_some_iff.1 h
      have hitems := values?_isRead hjs
      exact ⟨.array fun j hj => (hitems j hj).1,
        Nat.succ_le_succ (itemsDepth_le.2 fun j hj => (hitems j hj).2)⟩
  | n + 1, .object members, j, h => by
      obtain ⟨ms, hms, rfl⟩ := Option.map_eq_some_iff.1 h
      have hmembers := memberValues?_isRead hms
      exact ⟨.object (sorted_pairwise ms) fun m hm => (hmembers m (mem_of_mem_sorted hm)).1,
        Nat.succ_le_succ (membersDepth_le.2 fun m hm => (hmembers m (mem_of_mem_sorted hm)).2)⟩

theorem values?_isRead : ∀ {n : Nat} {ds : List Document} {js : List Json},
    Document.values? n ds = some js → ∀ j ∈ js, j.IsRead ∧ j.depth ≤ n
  | n, [], js, h => by
      cases h
      exact List.forall_mem_nil _
  | n, d :: ds, js, h => by
      simp only [Document.values?, Option.bind_eq_bind, Option.bind_eq_some_iff] at h
      obtain ⟨j, hj, js, hjs, ⟨⟩⟩ := h
      exact List.forall_mem_cons.2 ⟨value?_isRead hj, values?_isRead hjs⟩

theorem memberValues?_isRead : ∀ {n : Nat} {ds : List (List Char × Document)}
    {ms : List (String × Json)}, Document.memberValues? n ds = some ms →
      ∀ m ∈ ms, m.2.IsRead ∧ m.2.depth ≤ n
  | n, [], ms, h => by
      cases h
      exact List.forall_mem_nil _
  | n, (key, d) :: ds, ms, h => by
      simp only [Document.memberValues?, Option.bind_eq_bind, Option.bind_eq_some_iff] at h
      obtain ⟨k, -, j, hj, ms, hms, ⟨⟩⟩ := h
      exact List.forall_mem_cons.2 ⟨value?_isRead hj, memberValues?_isRead hms⟩

end

/-! ## Reading back -/

theorem values?_itemDocuments {items : List Json} {n : Nat}
    (h : ∀ j ∈ items, j.document.value? n = if j.depth ≤ n then some j else none) :
    Document.values? n (itemDocuments items) =
      if itemsDepth items ≤ n then some items else none := by
  induction items with
  | nil => exact (if_pos (Nat.zero_le n)).symm
  | cons j js ih =>
      obtain ⟨hj, hjs⟩ := List.forall_mem_cons.1 h
      simp only [itemDocuments, Document.values?, hj, ih hjs, itemsDepth, Nat.max_le]
      by_cases hdepth : j.depth ≤ n <;> by_cases hrest : itemsDepth js ≤ n <;> simp [hdepth, hrest]

theorem memberValues?_memberDocuments {members : List (String × Json)} {n : Nat}
    (h : ∀ m ∈ members, m.2.document.value? n = if m.2.depth ≤ n then some m.2 else none) :
    Document.memberValues? n (memberDocuments members) =
      if membersDepth members ≤ n then some members else none := by
  induction members with
  | nil => exact (if_pos (Nat.zero_le n)).symm
  | cons m members ih =>
      obtain ⟨hm, hmembers⟩ := List.forall_mem_cons.1 h
      simp only [memberDocuments, Document.memberValues?, string?_escaped, hm, ih hmembers,
        membersDepth, Nat.max_le]
      by_cases hdepth : m.2.depth ≤ n <;> by_cases hrest : membersDepth members ≤ n <;>
        simp [hdepth, hrest]

/-- A value without floats that was read once is read back, unless it nests too deep. -/
theorem FloatFree.value?_document {j : Json} (hfree : j.FloatFree) (hread : j.IsRead) (n : Nat) :
    j.document.value? n = if j.depth ≤ n then some j else none := by
  induction hfree generalizing n with
  | null => exact (if_pos (Nat.zero_le n)).symm
  | bool b => cases b <;> exact (if_pos (Nat.zero_le n)).symm
  | int v =>
      cases hread with
      | int hfits => exact (wordValue?_int hfits).trans (if_pos (Nat.zero_le n)).symm
  | string s =>
      rw [document, Document.value?, string?_escaped]
      exact (if_pos (Nat.zero_le n)).symm
  | @array items _ ih =>
      cases hread with
      | array hitems =>
          cases n with
          | zero => rfl
          | succ n =>
              have hvalues := values?_itemDocuments fun j hj => ih j hj (hitems j hj) n
              simp only [document, Document.value?, hvalues, depth, Nat.add_le_add_iff_right]
              split_ifs <;> rfl
  | @object members _ ih =>
      cases hread with
      | object hsorted hmembers =>
          cases n with
          | zero => rfl
          | succ n =>
              have hvalues := memberValues?_memberDocuments fun m hm => ih m hm (hmembers m hm) n
              simp only [document, Document.value?, hvalues, depth, Nat.add_le_add_iff_right]
              split_ifs
              · rw [Option.map_some, sorted_of_pairwise hsorted]
              · rfl

theorem FloatFree.parse?_eq {j : Json} (hfree : j.FloatFree) (hread : j.IsRead) :
    parse? j.text = if j.depth ≤ maxDepth then some j else none := by
  rw [parse?, hfree.parse?_text]
  exact hfree.value?_document hread maxDepth

end Json

end ConstraintModel
