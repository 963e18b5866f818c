import ConstraintModel.Proofs.Conformance
import ConstraintModel.Proofs.Texts
import ConstraintModel.Proofs.Words

/-!
# Finite floats

No float without decimal digits gets out of a compiled model. Literals are refused where they are
spelled, the values of parameters where they are named, and those of parameter arrays where the
array is made. So the words that such floats would be written with occur in the text as parts of
names only, and the data has no null.
-/

namespace ConstraintModel

open Source

namespace Source

/-! ## Words of non-finite floats -/

/-- What floats that no decimal stands for are written with, apart from a sign. -/
def nonFiniteWords : List (List Char) :=
  ["NaN".toList, "inf".toList]

/-- Whether a word is in one of the names if it is that of a non-finite float. -/
def Harmless (names : List String) (w : List Char) : Prop :=
  w ∈ nonFiniteWords → ∃ name ∈ names, w ∈ words name.toList

section Harmless

variable {names : List String}

theorem harmless_name {name : String} (h : name ∈ names) :
    AllWords (Harmless names) name.toList :=
  fun _ hw _ => ⟨name, h, hw⟩

theorem harmless_fixed {s : List Char} (h : ∀ w ∈ words s, w ∉ nonFiniteWords) :
    AllWords (Harmless names) s :=
  fun w hw hbad => absurd hbad (h w hw)

/-- A text that is one word. -/
theorem harmless_word {s : List Char} (hs : ∀ c ∈ s, isWordChar c = true)
    (h : s ∉ nonFiniteWords) : AllWords (Harmless names) s :=
  harmless_fixed fun w hw => by rwa [eq_of_mem_words hs hw]

/-- The characters of numbers are in no word of a non-finite float. -/
theorem harmless_number {s : List Char} (h : ∀ c ∈ s, isNumberChar c = true) :
    AllWords (Harmless names) s := by
  have hletters : ∀ w ∈ nonFiniteWords, w.all isNumberChar = false := by decide
  refine harmless_fixed fun w hw hbad => ?_
  have hnumber : w.all isNumberChar = true :=
    List.all_eq_true.2 fun c hc => h c (mem_of_mem_words hw hc)
  rw [hletters w hbad] at hnumber
  cases hnumber

theorem harmless_nat (n : Nat) : AllWords (Harmless names) (toString n).toList :=
  harmless_number fun _ hc => isNumberChar_of_isDigit (isDigit_of_mem_toString hc)

theorem harmless_literal {l : Literal} (hl : l.requireFinite = .ok ())
    (hnone : l.enumerations = []) : AllWords (Harmless names) l.text.toList := by
  rcases literal_chars hl hnone with htext | htext | hchars
  · rw [htext]
    exact harmless_fixed (by decide)
  · rw [htext]
    exact harmless_fixed (by decide)
  · exact harmless_number hchars

theorem harmless_iterator (v : Vocabulary) (scope : Scope) :
    AllWords (Harmless names) (v.nextIterator scope).toList := by
  have hletters : ∀ w ∈ nonFiniteWords, w.tail.any Char.isAlpha = true := by decide
  obtain ⟨hword, -⟩ := require_eq_ok.1 (nextIterator_valid v scope)
  refine harmless_word (isWordChar_of_isWellFormed hword) fun hbad => ?_
  -- Behind the first letter there are digits and underscores only.
  have htail := nextIterator_tail v scope
  rw [hletters _ hbad] at htail
  cases htail

theorem harmless_function (f : Function) : AllWords (Harmless names) f.name.toList := by
  have hstems : ∀ w ∈ nonFiniteWords,
      Function.stems.all (fun stem => !stem.toList.isPrefixOf w) = true := by decide
  have hglobal (kind : GlobalKind) : kind.name.toList ∉ nonFiniteWords := by
    cases kind <;> decide
  refine harmless_word (isWordChar_of_isWellFormed (isWellFormed_function f)) fun hbad => ?_
  obtain ⟨kind, rfl, -⟩ := Function.name_eq (hstems _ hbad) rfl
  exact hglobal kind hbad

theorem harmless_inclusion (kind : GlobalKind) :
    AllWords (Harmless names) ("include \"" ++ kind.file ++ "\"").toList := by
  cases kind <;> exact harmless_fixed (by decide)

/-- A text that neither begins nor ends with a word, and has no word of a non-finite float. -/
def IsSeam (s : List Char) : Prop :=
  s ≠ [] ∧ s.head?.any isWordChar = false ∧ s.getLast?.any isWordChar = false ∧
    ∀ w ∈ words s, w ∉ nonFiniteWords

instance (s : List Char) : Decidable (IsSeam s) :=
  inferInstanceAs (Decidable (_ ∧ _))

theorem IsSeam.joined {s a b : List Char} (h : IsSeam s) (ha : AllWords (Harmless names) a)
    (hb : AllWords (Harmless names) b) : AllWords (Harmless names) (a ++ (s ++ b)) :=
  .joined h.2.1 h.2.2.1 h.1 ha (harmless_fixed h.2.2.2) hb

theorem IsSeam.after {s a : List Char} (h : IsSeam s) (ha : AllWords (Harmless names) a) :
    AllWords (Harmless names) (a ++ s) := by
  have hend := h.joined ha (harmless_fixed (s := []) (by decide))
  rwa [List.append_nil] at hend

/-- However texts are put together in a program, no word goes on across a seam. -/
theorem textRules_harmless (names : List String) :
    TextRules fun s => AllWords (Harmless names) s.toList where
  applied p hp f s hf hs := by
    have hseams : ∀ p ∈ enclosures, IsSeam p.1.toList ∧ IsSeam p.2.toList := by decide
    obtain ⟨hleft, hright⟩ := hseams p hp
    simp only [String.toList_append, List.append_assoc]
    exact hleft.joined hf (hright.after hs)
  joined sep hsep s t hs ht := by
    have hseams : ∀ sep ∈ joints, IsSeam sep.toList := by decide
    simp only [String.toList_append, List.append_assoc]
    exact (hseams sep hsep).joined hs ht
  opened a ha s hs := by
    have hopenings : ∀ a ∈ openings, a.toList.getLast?.any isWordChar = false ∧
        ∀ w ∈ words a.toList, w ∉ nonFiniteWords := by decide
    obtain ⟨hlast, hfixed⟩ := hopenings a ha
    rw [String.toList_append]
    exact .prepend hlast (harmless_fixed hfixed) hs
  separated items h := .commaSeparated h
  fixed s hs := by
    have hfixed : ∀ s ∈ fixedTexts, ∀ w ∈ words s.toList, w ∉ nonFiniteWords := by decide
    exact harmless_fixed (hfixed s hs)
  function := harmless_function
  number := harmless_nat
  literal l hl hnone := harmless_literal hl hnone
  iterator := harmless_iterator
  inclusion := harmless_inclusion

end Harmless

end Source

/-! ## Data -/

namespace Json

mutual

/-- The values in a value that hold no others. -/
def leaves : Json → List Json
  | array items => itemLeaves items
  | object members => memberLeaves members
  | j => [j]

def itemLeaves : List Json → List Json
  | [] => []
  | j :: js => j.leaves ++ itemLeaves js

def memberLeaves : List (String × Json) → List Json
  | [] => []
  | (_, j) :: members => j.leaves ++ memberLeaves members

end

/-- Whether a value is neither null nor a float that no decimal stands for. -/
def IsDefinite : Json → Prop
  | null => False
  | float x => x.isFinite = true
  | _ => True

theorem itemLeaves_eq (items : List Json) : itemLeaves items = items.flatMap leaves := by
  induction items with
  | nil => rfl
  | cons j js ih => rw [itemLeaves, ih, List.flatMap_cons]

end Json

theorem Literal.json_definite {l : Literal} (hl : l.requireFinite = .ok ()) :
    ∀ leaf ∈ l.json.leaves, leaf.IsDefinite := by
  cases l with
  | float x =>
      simp [json, isFinite_of_requireFinite hl, Json.leaves, Json.IsDefinite]
  | _ => simp [json, Json.leaves, Json.memberLeaves, Json.IsDefinite]

theorem values_definite {values : List Literal} (h : ∀ l ∈ values, l.requireFinite = .ok ()) :
    ∀ leaf ∈ (Json.array (values.map Literal.json)).leaves, leaf.IsDefinite := by
  rw [Json.leaves, Json.itemLeaves_eq, List.flatMap_map, List.forall_mem_flatMap]
  exact fun l hl => Literal.json_definite (h l hl)

theorem nestRows_definite {extents : List Nat} {values : List Literal}
    (h : ∀ l ∈ values, l.requireFinite = .ok ()) :
    ∀ leaf ∈ (nestRows extents values).leaves, leaf.IsDefinite := by
  induction extents, values using nestRows.induct with
  | case1 values => exact values_definite h
  | case2 extent values => exact values_definite h
  | case3 extent extents values hne stride ih =>
      rw [nestRows, Json.leaves, Json.itemLeaves_eq, List.flatMap_map, List.forall_mem_flatMap]
      · exact fun i _ => ih i fun l hl => h l (List.mem_of_mem_drop (List.mem_of_mem_take hl))
      · exact hne

/-- The data of a parameter is definite, if arrays and sets are what their constructors make. -/
theorem data_definite {e : Expr} {j : Json} (hchecked : e.IsChecked)
    (hfinite : e.requireFiniteValue = .ok ()) (hj : e.data? = some j) :
    ∀ leaf ∈ j.leaves, leaf.IsDefinite := by
  cases e with
  | param id l =>
      cases hj
      exact Literal.json_definite hfinite
  | paramArray id values shape =>
      cases hj
      obtain ⟨data, n, n', hrun⟩ := hchecked
      obtain ⟨-, -, -, hvalues⟩ := newParamArray_eq_ok hrun
      exact nestRows_definite hvalues
  | paramSet id members =>
      cases hj
      cases members with
      | listed values =>
          obtain ⟨n, n', hrun⟩ := hchecked
          obtain ⟨t, hfloat, -, htyped⟩ := requireMembers_eq_ok (newParamSet_eq_ok hrun)
          have hvalues : ∀ l ∈ values, l.requireFinite = .ok () := fun l hl =>
            requireFinite_of_ne_float (htyped l hl ▸ hfloat)
          simpa [SetMembers.json, Json.leaves, Json.memberLeaves] using values_definite hvalues
      | interval start stop =>
          simp [SetMembers.json, Json.leaves, Json.memberLeaves, Json.itemLeaves, Json.IsDefinite]
  | _ => cases hj

/-! ## Compiled models -/

section Compiled

variable {model : Model} {n n' : Nat} {c : CompiledModel}

/-- No float without decimal digits gets out of a model that compiles. Every float that a term of
its program shows is finite, on its own and in sets. In the text the words that other floats are
written with occur as parts of names only. The data has no null and no such float, whether a
parameter is used or not, if parameter arrays and sets are what constructors make. -/
theorem compile_finite (h : model.compile.run n = (.ok c, n'))
    (hchecked : ∀ entry ∈ model.attributes, entry.2.IsChecked) :
    (∀ t ∈ c.program.terms, ∀ s, t.Shows s → ∀ x : Float,
      (s = .literal (.float x) ∨ ∃ members, s = .set members ∧ .float x ∈ members) →
        x.isFinite = true) ∧
    (∀ w ∈ words c.program.text.toList, w ∈ nonFiniteWords →
      ∃ name ∈ c.program.names, w ∈ words name.toList) ∧
    ∀ member ∈ c.resolved.bindings, ∀ leaf ∈ member.2.leaves, leaf.IsDefinite := by
  have hnames : ∀ name ∈ c.program.names, AllWords (Harmless c.program.names) name.toList :=
    fun _ => harmless_name
  have hrules := textRules_harmless c.program.names
  refine ⟨fun t ht s hs x hx => isFinite_of_requireFinite ?_, ?_, fun member hmember => ?_⟩
  · have hentities : ∀ w ∈ c.program.entityWords, AllWords (Harmless c.program.names) w.toList :=
      fun w hw => hnames w (List.mem_append_left _ (List.mem_append_left _ hw))
    have hnode := compile_nodes hrules h hentities t ht s hs
    rcases hx with rfl | ⟨members, rfl, hmem⟩
    · exact hnode
    · exact hnode _ hmem
  · have hlines := compile_lines hrules h hnames
    have hline : ∀ line ∈ c.program.lines, AllWords (Harmless c.program.names) line.toList := by
      intro line hmem
      obtain ⟨s, rfl, hs⟩ := hlines line hmem
      have hend : IsSeam ";".toList := by decide
      rw [String.toList_append]
      exact hend.after hs
    have hnewline : "\n".toList = '\n' :: [] := rfl
    rw [Program.text, String.toList_intercalate, hnewline]
    exact AllWords.intercalate rfl (fun _ => rfl) (List.forall_mem_map.2 hline)
  · -- Data is that of parameters, whose values were checked when they were named.
    obtain ⟨⟨name, e⟩, hentry, hdata⟩ := List.mem_filterMap.1 (mem_of_mem_sorted hmember)
    obtain ⟨j, hj, rfl⟩ := Option.map_eq_some_iff.1 hdata
    obtain ⟨-, hrun, -⟩ := resolve_eq_ok (compile_eq_ok h).1
    rcases declareAll_parameters hrun hentry with hnone | ⟨hattribute, hfinite⟩
    · cases hnone
    · exact data_definite (hchecked _ hattribute) hfinite hj

/-- Parameters of every kind, and one with a float whose name is the word of an infinite one. -/
def weighedModel : Model where
  attributes := ("inf", .param ⟨7⟩ (.float 1.5)) :: suppliedModel.attributes
  constraints := [.binary .lt (.var ⟨6⟩ .int) (.param ⟨7⟩ (.float 1.5))]
  objective := .satisfy

theorem compile_finite_weighedModel : ∃ c n', weighedModel.compile.run 8 = (.ok c, n') ∧
    c.program.constraints.map constraintText = ["constraint (x < inf);"] ∧
    (∀ w ∈ words c.program.text.toList, w ∈ nonFiniteWords →
      ∃ name ∈ c.program.names, w ∈ words name.toList) ∧
    c.resolved.bindings.map Prod.fst = ["costs", "days", "hue", "inf", "limit", "picks"] ∧
    ∀ member ∈ c.resolved.bindings, ∀ leaf ∈ member.2.leaves, leaf.IsDefinite := by
  refine ⟨_, _, rfl, by decide, ?_⟩
  have hchecked : ∀ entry ∈ weighedModel.attributes, entry.2.IsChecked :=
    List.forall_mem_cons.2 ⟨trivial, suppliedModel_isChecked⟩
  have hfinite := compile_finite (rfl : weighedModel.compile.run 8 = (.ok _, _)) hchecked
  exact ⟨hfinite.2.1, by decide, hfinite.2.2⟩

end Compiled

end ConstraintModel
