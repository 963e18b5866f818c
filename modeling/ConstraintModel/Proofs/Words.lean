import ConstraintModel.Proofs.MarkedTerms

/-!
# Words of texts

The words of a text are its longest runs of letters, digits and underscores. The texts of terms are
put together with other characters between their words, so that each word of a term is a word of one
of its nodes: part of a name, a number, an operator or the name of a function.
-/

namespace ConstraintModel.Source

/-- The longest runs of letters, digits and underscores. -/
def words (s : List Char) : List (List Char) :=
  (s.splitOnP (!isWordChar ·)).filter (!·.isEmpty)

/-! ## Seams -/

@[simp] theorem words_nil : words [] = [] := by
  simp [words, List.splitOnP_nil]

/-- A character that is in no word ends the words before it. -/
theorem words_append_cons {c : Char} (hc : isWordChar c = false) (a b : List Char) :
    words (a ++ c :: b) = words a ++ words b := by
  have hsplit : (!isWordChar c) = true := by rw [hc]; rfl
  rw [words, List.splitOnP_append_cons a b hsplit, List.filter_append]
  rfl

theorem words_cons {c : Char} (hc : isWordChar c = false) (s : List Char) :
    words (c :: s) = words s := by
  simpa using words_append_cons hc [] s

/-- No word goes on into a text that begins with another character. -/
theorem words_append {a b : List Char} (h : b.head?.any isWordChar = false) :
    words (a ++ b) = words a ++ words b := by
  cases b with
  | nil => simp
  | cons c b =>
      have hc : isWordChar c = false := by simpa using h
      rw [words_append_cons hc, words_cons hc]

/-- No word goes on from a text that ends with another character. -/
theorem words_prepend {a b : List Char} (h : a.getLast?.any isWordChar = false) :
    words (a ++ b) = words a ++ words b := by
  rcases a.eq_nil_or_concat with rfl | ⟨a, c, rfl⟩
  · rfl
  · have hc : isWordChar c = false := by simpa using h
    have hend : words (a ++ [c]) = words a := by
      simpa using words_append_cons hc a []
    rw [List.concat_eq_append, hend, List.append_assoc, List.singleton_append,
      words_append_cons hc]

/-- Texts with a separator between them have the words of all of them. -/
theorem words_intercalate {c : Char} (hc : isWordChar c = false) {sep : List Char}
    (hsep : ∀ s, words (sep ++ s) = words s) (ss : List (List Char)) :
    words ((c :: sep).intercalate ss) = ss.flatMap words := by
  induction ss with
  | nil => simp
  | cons s ss ih =>
      cases ss with
      | nil => simp
      | cons s' ss =>
          rw [List.flatMap_cons, ← ih, List.intercalate_cons_cons, List.append_assoc,
            List.cons_append, words_append_cons hc, hsep]

theorem mem_of_mem_words {s w : List Char} (hw : w ∈ words s) {c : Char} (hc : c ∈ w) : c ∈ s := by
  have hpiece : w ∈ s.splitOnP (!isWordChar ·) := List.mem_of_mem_filter hw
  clear hw
  -- The first character of the text ends the first piece or stands in front of it.
  induction s generalizing w with
  | nil =>
      rw [List.splitOnP_nil, List.mem_singleton] at hpiece
      simp [hpiece] at hc
  | cons d s ih =>
      rw [List.splitOnP_cons_eq_if_modifyHead] at hpiece
      split_ifs at hpiece with hd
      · rcases List.mem_cons.1 hpiece with rfl | hpiece
        · cases hc
        · exact List.mem_cons_of_mem _ (ih hc hpiece)
      · obtain ⟨v, vs, hv⟩ := List.exists_cons_of_ne_nil (List.splitOnP_ne_nil (!isWordChar ·) s)
        rw [hv, List.modifyHead_cons] at hpiece
        rcases List.mem_cons.1 hpiece with rfl | hpiece
        · rcases List.mem_cons.1 hc with rfl | hc
          · exact List.mem_cons_self
          · exact List.mem_cons_of_mem _ (ih hc (hv ▸ List.mem_cons_self))
        · exact List.mem_cons_of_mem _ (ih hc (hv ▸ List.mem_cons_of_mem _ hpiece))

/-- A text without other characters is its only word. -/
theorem eq_of_mem_words {s w : List Char} (hs : ∀ c ∈ s, isWordChar c = true) (hw : w ∈ words s) :
    w = s := by
  have hpiece : w ∈ s.splitOnP (!isWordChar ·) := List.mem_of_mem_filter hw
  rwa [List.splitOnP_eq_singleton (by simpa using hs), List.mem_singleton] at hpiece

/-! ## Properties of words -/

/-- Whether all words of a text have a property. -/
def AllWords (S : List Char → Prop) (s : List Char) : Prop :=
  ∀ w ∈ words s, S w

namespace AllWords

variable {S : List Char → Prop}

theorem append {a b : List Char} (h : b.head?.any isWordChar = false) (ha : AllWords S a)
    (hb : AllWords S b) : AllWords S (a ++ b) := by
  rw [AllWords, words_append h, List.forall_mem_append]
  exact ⟨ha, hb⟩

theorem prepend {a b : List Char} (h : a.getLast?.any isWordChar = false) (ha : AllWords S a)
    (hb : AllWords S b) : AllWords S (a ++ b) := by
  rw [AllWords, words_prepend h, List.forall_mem_append]
  exact ⟨ha, hb⟩

/-- Two texts with one between them that neither begins nor ends with a word. -/
theorem joined {a sep b : List Char} (hhead : sep.head?.any isWordChar = false)
    (hlast : sep.getLast?.any isWordChar = false) (hne : sep ≠ []) (ha : AllWords S a)
    (hsep : AllWords S sep) (hb : AllWords S b) : AllWords S (a ++ (sep ++ b)) := by
  have hbegins : (sep ++ b).head? = sep.head? := List.head?_append_of_ne_nil sep hne
  exact append (hbegins ▸ hhead) ha (prepend hlast hsep hb)

theorem intercalate {c : Char} (hc : isWordChar c = false) {sep : List Char}
    (hsep : ∀ s, words (sep ++ s) = words s) {ss : List (List Char)}
    (h : ∀ s ∈ ss, AllWords S s) : AllWords S ((c :: sep).intercalate ss) := by
  rw [AllWords, words_intercalate hc hsep]
  exact List.forall_mem_flatMap.2 h

theorem commaSeparated {items : List String} (h : ∀ s ∈ items, AllWords S s.toList) :
    AllWords S (Term.commaSeparated items).toList := by
  rw [Term.commaSeparated, String.toList_intercalate]
  exact intercalate rfl (fun s => words_cons rfl s) (List.forall_mem_map.2 h)

end AllWords

end ConstraintModel.Source
