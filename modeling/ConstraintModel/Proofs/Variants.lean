import ConstraintModel.Bindings
import ConstraintModel.Proofs.Enumerations

/-!
# Listed variants

The values of enumerations that a program and its data show, and the declarations that list their
variants. A value is listed under the name of its type, where no other enumeration of the model
takes that name.
-/

namespace ConstraintModel

open Source

/-! ## Values that are shown -/

/-- The value that a literal of an enumeration is. -/
def Literal.enumValue? : Literal → Option EnumValue
  | .enumeration v => some v
  | _ => none

def Source.Constant.enumValue? : Constant → Option EnumValue
  | literal l => l.enumValue?
  | enumeration _ => none

/-- The literals in the data of a parameter. -/
def Expr.given : Expr → List Literal
  | .param _ v => [v]
  | .paramArray _ values _ | .paramSet _ (.listed values) => values
  | _ => []

/-- The values of enumerations that the statements and the data of a compiled model show. -/
def CompiledModel.values (c : CompiledModel) : List EnumValue :=
  (c.program.bodies.flatMap Term.constants).filterMap Constant.enumValue? ++
    (c.resolved.parameters.flatMap fun entry => entry.2.given).filterMap Literal.enumValue?

mutual

/-- The variants that data holds, each in its wrapping. -/
def Json.variants : Json → List String
  | .object [("e", .string w)] => [w]
  | .object members => memberVariants members
  | .array items => itemVariants items
  | _ => []

def itemVariants : List Json → List String
  | [] => []
  | v :: vs => v.variants ++ itemVariants vs

def memberVariants : List (String × Json) → List String
  | [] => []
  | (_, v) :: members => v.variants ++ memberVariants members

end

/-! ## Parameter data -/

section Data

variable {w : String}

theorem mem_itemVariants {items : List Json} :
    w ∈ itemVariants items ↔ ∃ v ∈ items, w ∈ v.variants := by
  induction items with
  | nil => simp [itemVariants]
  | cons v vs ih => simp [itemVariants, ih]

theorem mem_json_variants {l : Literal} (h : w ∈ l.json.variants) :
    ∃ v, l.enumValue? = some v ∧ v.name = w := by
  cases l with
  | enumeration v => exact ⟨v, rfl, (List.mem_singleton.1 h).symm⟩
  | float v =>
      simp only [Literal.json] at h
      split_ifs at h <;> cases h
  | _ => cases h

theorem mem_list_variants {values : List Literal}
    (h : w ∈ itemVariants (values.map Literal.json)) :
    ∃ v ∈ values.filterMap Literal.enumValue?, v.name = w := by
  obtain ⟨_, hmem, hw⟩ := mem_itemVariants.1 h
  obtain ⟨l, hl, rfl⟩ := List.mem_map.1 hmem
  obtain ⟨v, hv, hname⟩ := mem_json_variants hw
  exact ⟨v, List.mem_filterMap.2 ⟨l, hl, hv⟩, hname⟩

/-- Each row of an array holds a part of its elements. -/
theorem mem_nestRows_variants {extents : List Nat} {values : List Literal}
    (h : w ∈ (nestRows extents values).variants) :
    ∃ v ∈ values.filterMap Literal.enumValue?, v.name = w := by
  induction extents, values using nestRows.induct with
  | case1 values => exact mem_list_variants h
  | case2 extent values => exact mem_list_variants h
  | case3 extent extents values hne stride ih =>
      rw [nestRows, Json.variants, mem_itemVariants] at h
      · obtain ⟨_, hmem, hw⟩ := h
        obtain ⟨i, -, rfl⟩ := List.mem_map.1 hmem
        obtain ⟨v, hv, hname⟩ := ih i hw
        have hsub : (values.drop (i * stride)).take stride ⊆ values :=
          fun _ hl => List.mem_of_mem_drop (List.mem_of_mem_take hl)
        exact ⟨v, List.filterMap_subset _ hsub hv, hname⟩
      · exact hne

theorem set_variants (v : Json) : (Json.object [("set", v)]).variants = v.variants := by
  simp [Json.variants, memberVariants]

theorem mem_data_variants {e : Expr} {data : Json} (h : e.data? = some data)
    (hw : w ∈ data.variants) : ∃ v ∈ e.given.filterMap Literal.enumValue?, v.name = w := by
  cases e with
  | param id l =>
      cases h
      obtain ⟨v, hv, hname⟩ := mem_json_variants hw
      exact ⟨v, List.mem_filterMap.2 ⟨l, List.mem_singleton_self l, hv⟩, hname⟩
  | paramArray id values shape =>
      cases h
      exact mem_nestRows_variants hw
  | paramSet id members =>
      cases h
      cases members with
      | listed values =>
          rw [SetMembers.json, set_variants] at hw
          exact mem_list_variants hw
      | interval start stop =>
          rw [SetMembers.json, set_variants] at hw
          simp [Json.variants, itemVariants] at hw
  | _ => cases h

theorem mem_insert {entry : String × Json} {key : String} {value : Json}
    {members : List (String × Json)} (h : entry ∈ Json.insert key value members) :
    entry = (key, value) ∨ entry ∈ members := by
  induction members with
  | nil => exact .inl (List.mem_singleton.1 h)
  | cons member members ih =>
      rw [Json.insert] at h
      split_ifs at h
      · exact List.mem_cons.1 h
      · rcases List.mem_cons.1 h with rfl | h
        · exact .inl rfl
        · exact .inr (List.mem_cons_of_mem _ h)
      · rcases List.mem_cons.1 h with rfl | h
        · exact .inr List.mem_cons_self
        · exact (ih h).imp_right (List.mem_cons_of_mem _)

theorem mem_of_mem_sorted {entry : String × Json} {members : List (String × Json)}
    (h : entry ∈ Json.sorted members) : entry ∈ members := by
  have hfold : ∀ done, entry ∈ members.foldl (fun done m => Json.insert m.1 m.2 done) done →
      entry ∈ done ∨ entry ∈ members := by
    clear h
    induction members with
    | nil => exact fun done h => .inl h
    | cons member members ih =>
        intro done h
        rcases ih _ h with h | h
        · rcases mem_insert h with rfl | h
          · exact .inr List.mem_cons_self
          · exact .inl h
        · exact .inr (List.mem_cons_of_mem _ h)
  simpa using hfold [] h

end Data

/-! ## Declarations of values -/

/-- The variants in the data of a model are those of values that it shows. -/
theorem mem_values_of_bindings {c : CompiledModel} {entry : String × Json}
    (hentry : entry ∈ c.resolved.bindings) {w : String} (hw : w ∈ entry.2.variants) :
    ∃ v ∈ c.values, v.name = w := by
  obtain ⟨⟨name, e⟩, he, hdata⟩ := List.mem_filterMap.1 (mem_of_mem_sorted hentry)
  obtain ⟨data, heq, rfl⟩ := Option.map_eq_some_iff.1 hdata
  obtain ⟨v, hv, hname⟩ := mem_data_variants heq hw
  refine ⟨v, List.mem_append_right _ ?_, hname⟩
  obtain ⟨l, hl, hv⟩ := List.mem_filterMap.1 hv
  exact List.mem_filterMap.2 ⟨l, List.mem_flatMap.2 ⟨_, he, hl⟩, hv⟩

theorem type_mem_of_enumValue {l : Literal} {v : EnumValue} (h : l.enumValue? = some v) :
    v.type ∈ l.enumerations := by
  cases l <;> cases h
  exact List.mem_singleton_self _

theorem given_enumerations {e : Expr} {l : Literal} (h : l ∈ e.given) :
    l.enumerations ⊆ e.enumerations := by
  intro x hx
  cases e with
  | param id v =>
      rw [List.mem_singleton.1 h] at hx
      exact hx
  | paramArray id values shape => exact List.mem_flatMap.2 ⟨l, h, hx⟩
  | paramSet id members =>
      cases members with
      | listed values => exact List.mem_flatMap.2 ⟨l, h, hx⟩
      | interval start stop => cases h
  | _ => cases h

theorem type_mem_reach {c : CompiledModel} (hprogram : c.resolved.program = .ok c.program)
    {v : EnumValue} (hv : v ∈ c.values) : v.type ∈ c.resolved.reach := by
  rcases List.mem_append.1 hv with hv | hv
  · obtain ⟨k, hk, hv⟩ := List.mem_filterMap.1 hv
    obtain ⟨t, ht, hk⟩ := List.mem_flatMap.1 hk
    refine within_of_mem_bodies hprogram ht (Term.mem_enumerations.2 ⟨k, hk, ?_⟩)
    cases k with
    | literal l => exact type_mem_of_enumValue hv
    | enumeration e => cases hv
  · obtain ⟨l, hl, hv⟩ := List.mem_filterMap.1 hv
    obtain ⟨entry, hentry, hl⟩ := List.mem_flatMap.1 hl
    exact c.resolved.subset_reach_of_entry (List.mem_append_left _ hentry)
      (given_enumerations hl (type_mem_of_enumValue hv))

/-- One enumeration is declared under the name of the type of a value: the first of this name in
reach of the model. It lists the variant of the value, unless the model has another enumeration of
the same name. All variants in the data are those of such values. -/
theorem compile_lists_variants {model : Model} {n n' : Nat} {c : CompiledModel}
    (h : model.compile.run n = (.ok c, n')) :
    (∀ v ∈ c.values, ∃ e, c.program.enumerations.filter (·.name == v.type.name) = [e] ∧
      enumerationText e ∈ c.program.lines ∧
      c.resolved.reach.find? (·.name == v.type.name) = some e ∧
      ((∀ x ∈ c.resolved.reach, x.name = v.type.name → x = v.type) → v.name ∈ e.variants)) ∧
    ∀ entry ∈ c.resolved.bindings, ∀ w ∈ entry.2.variants, ∃ v ∈ c.values, v.name = w := by
  refine ⟨fun v hv => ?_, fun entry hentry w hw => mem_values_of_bindings hentry hw⟩
  obtain ⟨e, hfind, hfilter, hline⟩ :=
    declared_of_mem_reach h (type_mem_reach (compile_eq_ok h).2 hv)
  refine ⟨e, hfilter, hline, hfind, fun hsame => ?_⟩
  have hname : e.name = v.type.name := by simpa using List.find?_some hfind
  rw [hsame e (List.mem_of_find?_eq_some hfind) hname]
  exact v.name_mem

/-- An array of values and a variable that is compared with one. -/
def tintedModel : Model :=
  let x : Expr := .var ⟨0⟩ (.enumeration colors)
  { attributes := [("x", x), ("hues", .paramArray ⟨1⟩
      [.enumeration green, .enumeration red] ⟨[2]⟩)]
    constraints := [.binary .ne x (.literal (.enumeration green))]
    objective := .satisfy }

theorem compile_lists_variants_tintedModel : ∃ c n', tintedModel.compile.run 2 = (.ok c, n') ∧
    c.values.map EnumValue.name = ["Green", "Green", "Red"] ∧
    c.resolved.bindings.map (fun entry => entry.2.variants) = [["Green", "Red"]] ∧
    ∀ v ∈ c.values, ∃ e, c.program.enumerations.filter (·.name == v.type.name) = [e] ∧
      v.name ∈ e.variants := by
  refine ⟨_, _, rfl, by decide, by decide, fun v hv => ?_⟩
  obtain ⟨hvalues, -⟩ := compile_lists_variants (rfl : tintedModel.compile.run 2 = (.ok _, _))
  obtain ⟨e, hfilter, -, -, hlists⟩ := hvalues v hv
  refine ⟨e, hfilter, hlists ?_⟩
  clear hlists hfilter e hvalues
  revert v
  decide

abbrev paints : Enumeration :=
  ⟨"Color", ["Blue"], by decide⟩

/-- Variables over two enumerations of one name, and a value of the second. -/
def homonymousModel : Model :=
  let y : Expr := .var ⟨1⟩ (.enumeration paints)
  { attributes := [("x", .var ⟨0⟩ (.enumeration colors)), ("y", y)]
    constraints := [.binary .eq y (.literal (.enumeration ⟨paints, 0⟩))]
    objective := .satisfy }

/-- The variant of a value in a constraint is in no declaration. -/
theorem homonymousModel_unlisted : ∃ c n', homonymousModel.compile.run 2 = (.ok c, n') ∧
    c.program.lines = ["enum Color = {Red, Green};", "var Color: x;", "var Color: y;",
      "constraint (y == Blue);", "solve satisfy;"] ∧
    ∃ v ∈ c.values, v.name = "Blue" ∧ v.type.name = "Color" ∧
      ∀ e ∈ c.program.enumerations, v.name ∉ e.variants := by
  refine ⟨_, _, rfl, by decide, ⟨paints, 0⟩, ?_⟩
  decide

end ConstraintModel
