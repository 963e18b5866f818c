import ConstraintModel.Proofs.Conformance

/-!
# Nesting of parameter arrays

The data of a parameter array is nested as the lists that it was made of. The lists are read level
by level into elements in row-major order, and the elements are nested again by the extents; the
first reads the leaves from left to right, and the second cuts them where the lists ended.
-/

namespace ConstraintModel

namespace Nested

/-! ## Lists and their leaves -/

mutual

/-- A list for each list, and the data of each literal in its place. -/
def json : Nested → Json
  | leaf v => v.json
  | list items => .array (itemsJson items)

def itemsJson : List Nested → List Json
  | [] => []
  | n :: ns => n.json :: itemsJson ns

end

mutual

/-- The literals from left to right. -/
def leaves : Nested → List Literal
  | leaf v => [v]
  | list items => itemsLeaves items

def itemsLeaves : List Nested → List Literal
  | [] => []
  | n :: ns => n.leaves ++ itemsLeaves ns

end

theorem itemsJson_eq_map (ns : List Nested) : itemsJson ns = ns.map json := by
  induction ns with
  | nil => rfl
  | cons n ns ih => rw [itemsJson, ih, List.map_cons]

theorem itemsLeaves_eq_flatMap (ns : List Nested) : itemsLeaves ns = ns.flatMap leaves := by
  induction ns with
  | nil => rfl
  | cons n ns ih => rw [itemsLeaves, ih, List.flatMap_cons]

/-- Lists that are nested by the given extents around literals. -/
inductive HasExtents : List Nat → Nested → Prop
  | leaf (v : Literal) : HasExtents [] (.leaf v)
  | list {n : Nat} {extents : List Nat} {items : List Nested} : items.length = n →
      (∀ x ∈ items, HasExtents extents x) → HasExtents (n :: extents) (.list items)

/-! ## Reading by levels -/

theorem leaves?_eq_some {level : List Nested} {values : List Literal}
    (h : leaves? level = some values) :
    (∀ x ∈ level, x.HasExtents []) ∧ level.flatMap leaves = values := by
  induction level generalizing values with
  | nil =>
      cases h
      exact ⟨by simp, rfl⟩
  | cons n ns ih =>
      cases n with
      | list items => cases h
      | leaf v =>
          obtain ⟨rest, hrest, rfl⟩ := Option.map_eq_some_iff.1 h
          obtain ⟨hns, hleaves⟩ := ih hrest
          refine ⟨List.forall_mem_cons.2 ⟨.leaf v, hns⟩, ?_⟩
          rw [List.flatMap_cons, hleaves]
          rfl

theorem lists?_eq_some {level : List Nested} {lists : List (List Nested)}
    (h : lists? level = some lists) : level = lists.map .list := by
  induction level generalizing lists with
  | nil =>
      cases h
      rfl
  | cons n ns ih =>
      cases n with
      | leaf v => cases h
      | list items =>
          obtain ⟨rest, hrest, rfl⟩ := Option.map_eq_some_iff.1 h
          rw [ih hrest, List.map_cons]

/-- What is read from a level: all its members have the extents that are found, and the values are
their leaves from left to right. -/
theorem extentsFrom_eq_ok {depth : Nat} {level : List Nested} {extents : List Nat}
    {values : List Literal} (h : extentsFrom depth level = .ok (extents, values)) :
    (∀ x ∈ level, x.HasExtents extents) ∧ values = level.flatMap leaves := by
  refine extentsFrom_ok_induction (fun level values hleaves => ?_) ?_ h
  · obtain ⟨hextents, hvalues⟩ := leaves?_eq_some hleaves
    exact ⟨hextents, hvalues.symm⟩
  · rintro level first rest extents values hlists hlength ⟨hmembers, hvalues⟩
    rw [lists?_eq_some hlists]
    constructor
    · intro x hx
      obtain ⟨items, hitems, rfl⟩ := List.mem_map.1 hx
      refine .list (hlength items hitems) fun y hy => ?_
      exact hmembers y (List.mem_flatten.2 ⟨items, hitems, hy⟩)
    · -- The next level is the members of these lists, so both have the same leaves.
      have hleaves (items : List Nested) : (Nested.list items).leaves = items.flatMap leaves :=
        itemsLeaves_eq_flatMap items
      simp only [hvalues, List.flatMap_map, hleaves, List.flatten_eq_flatMap,
        List.flatMap_assoc, id]


/-! ## Nesting by extents -/

theorem length_leaves {extents : List Nat} {n : Nested} (h : n.HasExtents extents) :
    n.leaves.length = extents.prod := by
  induction h with
  | leaf v => rfl
  | @list n extents items hlength _ ih =>
      rw [leaves, itemsLeaves_eq_flatMap, List.length_flatMap, List.map_congr_left ih,
        List.map_const', List.sum_replicate, hlength, List.prod_cons]
      rfl

/-- A list that is put together from pieces of one length is cut into them again. -/
theorem take_drop_flatMap {α β : Type} {f : α → List β} {k : Nat} {xs : List α}
    (hlength : ∀ x ∈ xs, (f x).length = k) {i : Nat} (hi : i < xs.length) :
    ((xs.flatMap f).drop (i * k)).take k = f xs[i] := by
  induction xs generalizing i with
  | nil => cases hi
  | cons x xs ih =>
      obtain ⟨hx, hxs⟩ := List.forall_mem_cons.1 hlength
      rw [List.flatMap_cons]
      cases i with
      | zero => rw [Nat.zero_mul, List.drop_zero, List.take_left' hx, List.getElem_cons_zero]
      | succ i =>
          have hskip : (i + 1) * k = (f x).length + i * k := by
            rw [hx, Nat.succ_mul, Nat.add_comm]
          rw [hskip, ← List.drop_drop, List.drop_left, List.getElem_cons_succ]
          exact ih hxs (Nat.lt_of_succ_lt_succ hi)

theorem map_json_leaves {n : Nested} (h : n.HasExtents []) :
    n.leaves.map Literal.json = [n.json] := by
  cases h
  rfl

/-- The leaves of a list are nested by its extents as they were. -/
theorem nestRows_leaves {extents : List Nat} {n : Nested} (h : n.HasExtents extents)
    (hrank : extents ≠ []) : nestRows extents n.leaves = n.json := by
  induction h with
  | leaf v => exact absurd rfl hrank
  | @list n extents items hlength hitems ih =>
      rw [leaves, json, itemsLeaves_eq_flatMap, itemsJson_eq_map]
      cases extents with
      | nil =>
          rw [nestRows, List.map_flatMap]
          congr 1
          calc
            (items.flatMap fun x => x.leaves.map Literal.json) = items.flatMap fun x => [x.json] :=
              List.flatMap_congr fun x hx => map_json_leaves (hitems x hx)
            _ = items.map json := List.map_eq_flatMap.symm
      | cons m extents =>
          have hrows : ∀ x ∈ items, x.leaves.length = (m :: extents).prod :=
            fun x hx => length_leaves (hitems x hx)
          rw [nestRows]
          · simp only [shape_size]
            congr 1
            refine List.ext_getElem (by simp [hlength]) fun i hi hi' => ?_
            have hlt : i < items.length := by simpa using hi'
            rw [List.getElem_map, List.getElem_map, List.getElem_range, take_drop_flatMap hrows hlt]
            exact ih items[i] (List.getElem_mem hlt) (List.cons_ne_nil m extents)
          · exact List.cons_ne_nil m extents

/-- What is read from lists is their shape and their leaves from left to right. -/
theorem shape_eq {data : Nested} {shape : Shape} {values : List Literal}
    (h : data.shape = .ok (shape, values)) :
    data.HasExtents shape.extents ∧ values = data.leaves ∧
      nestRows shape.extents values = data.json := by
  have hvalid := (shape_eq_ok h).valid
  simp only [Nested.shape, bind_eq_ok, pure_eq_ok] at h
  obtain ⟨⟨extents, elements⟩, hlevels, -, -, -, -, -, -, heq⟩ := h
  cases heq
  obtain ⟨hmembers, hvalues⟩ := extentsFrom_eq_ok hlevels
  have hextents : data.HasExtents extents := hmembers data (List.mem_singleton_self data)
  have hleaves : elements = data.leaves := by simpa using hvalues
  obtain ⟨hrank, -⟩ := Shape.isValid_iff.1 hvalid
  exact ⟨hextents, hleaves, hleaves ▸ nestRows_leaves hextents hrank⟩

/-! ## Matrices -/

section Matrix

variable {rows columns : Nat} (entry : Fin rows → Fin columns → Literal)

theorem json_ofMatrix : (ofMatrix rows columns entry).json =
    .array ((List.finRange rows).map fun i =>
      .array ((List.finRange columns).map fun j => (entry i j).json)) := by
  simp only [ofMatrix, json, itemsJson_eq_map, List.map_map, Function.comp_def]

theorem leaves_ofMatrix : (ofMatrix rows columns entry).leaves =
    (List.finRange rows).flatMap fun i => (List.finRange columns).map (entry i) := by
  simp only [ofMatrix, leaves, itemsLeaves_eq_flatMap, List.flatMap_map]
  exact List.flatMap_congr fun i _ => List.map_eq_flatMap.symm

end Matrix

end Nested

/-! ## Data of a model -/

theorem newParamArray_eq {data : Nested} {e : Expr} {n n' : Nat}
    (h : (Expr.newParamArray data).run n = (.ok e, n')) :
    ∃ id shape values, e = .paramArray id values shape ∧ data.shape = .ok (shape, values) := by
  simp only [Expr.newParamArray, build_bind_eq_ok, build_lift_eq_ok, build_pure_eq_ok] at h
  obtain ⟨⟨shape, values⟩, -, ⟨hshape, -⟩, id, -, -, rfl, -⟩ := h
  exact ⟨id, shape, values, rfl, hshape⟩

/-- The first attribute that holds a leaf gets a name. -/
theorem mem_claimants_of_find? {attributes : List (String × Expr)} {held : List NodeId}
    {name : String} {e : Expr} {id : NodeId} (hid : e.id? = some id) (hop : e.isOperation = false)
    (hheld : id ∉ held)
    (hfirst : attributes.find? (fun entry => entry.2.id? == some id) = some (name, e)) :
    (name, e) ∈ claimants held attributes := by
  induction attributes generalizing held with
  | nil => cases hfirst
  | cons entry attributes ih =>
      obtain ⟨name', e'⟩ := entry
      by_cases heq : e'.id? = some id
      · rw [List.find?_cons_of_pos (by simp [heq])] at hfirst
        cases hfirst
        simp [claimants, hop, hid, hheld]
      · rw [List.find?_cons_of_neg (by simpa using heq)] at hfirst
        rw [claimants]
        split_ifs
        · exact List.mem_cons_of_mem _ (ih hheld hfirst)
        · split
          · exact ih hheld hfirst
          · next id' hid' =>
              have hne : id ≠ id' := by
                rintro rfl
                exact heq hid'
              split_ifs
              · exact ih hheld hfirst
              · exact List.mem_cons_of_mem _ (ih (by simp [hne, hheld]) hfirst)

theorem map_fst_filterMap_namedData (entries : List (String × Expr)) :
    ((entries.filterMap namedData).map Prod.fst).Sublist (entries.map Prod.fst) := by
  induction entries with
  | nil => exact .slnil
  | cons entry entries ih =>
      cases hdata : entry.2.data? with
      | none =>
          rw [List.filterMap_cons_none (by rw [namedData, hdata]; rfl)]
          exact ih.cons _
      | some j =>
          rw [List.filterMap_cons_some (b := (entry.1, j)) (by rw [namedData, hdata]; rfl)]
          exact ih.cons_cons _

section Resolved

variable {model : Model} {n n' : Nat} {r : ResolvedModel}

/-- The first attribute that holds a parameter is the one whose data is kept under its name. -/
theorem bindings_filter (hids : ∀ id ∈ model.ids, id.number < n)
    (h : model.resolve.run n = (.ok r, n')) {name : String} {e : Expr} {j : Json}
    (hdata : e.data? = some j)
    (hfirst : model.attributes.find? (fun entry => entry.2.id? == e.id?) = some (name, e)) :
    r.bindings.filter (fun member => member.1 == name) = [(name, j)] := by
  obtain ⟨id, hid⟩ : ∃ id, e.id? = some id := by
    cases e <;> first | exact ⟨_, rfl⟩ | cases hdata
  have hop : e.isOperation = false := by cases e <;> first | rfl | cases hdata
  obtain ⟨entries, hentries, hr, -, hwords⟩ := resolve_entities hids h
  -- The attribute is declared as it is, and among the parameters or the decisions.
  have hdeclared : (name, e) ∈ entries := by
    rw [hid] at hfirst
    have hclaim := mem_claimants_of_find? hid hop List.not_mem_nil hfirst
    obtain ⟨entry, hentry, hdeclared⟩ := exists_of_mem_left hentries hclaim
    cases hdeclared with
    | leaf _ _ => exact hentry
    | operation hop' _ _ => simp [hop] at hop'
  have hperm : (r.parameters ++ r.decisions).Perm entries := by
    rw [hr]
    exact List.filter_append_perm _ entries
  have hkeys : ((r.parameters ++ r.decisions).map Prod.fst).Nodup := by
    have hnames : entries.map Prod.fst = Symbol.words r.symbols := by
      have hsymbols : r.symbols = entries.filterMap entrySymbol? := congrArg Entities.symbols hr
      have hwords := forall₂_entrySymbol? fun entry hentry =>
        (exists_of_mem_right hentries hentry).elim fun _ hdeclared => hdeclared.2.exists_id
      rw [hsymbols, Symbol.words, ← List.forall₂_eq_eq_eq, List.forall₂_map_left_iff,
        List.forall₂_map_right_iff]
      exact hwords.imp fun _ _ hs => hs.2
    rw [(hperm.map Prod.fst).nodup_iff, hnames]
    exact hwords
  have hbindings := bindings_perm h (hkeys.sublist (map_fst_filterMap_namedData _))
  have hnodup : (r.bindings.map Prod.fst).Nodup :=
    (hbindings.map Prod.fst).nodup_iff.2 (hkeys.sublist (map_fst_filterMap_namedData _))
  have hmem : (name, j) ∈ r.bindings := by
    refine hbindings.mem_iff.2 (List.mem_filterMap.2 ⟨(name, e), hperm.mem_iff.2 hdeclared, ?_⟩)
    rw [namedData, hdata]
    rfl
  exact filter_key_eq hnodup hmem

end Resolved

/-- The data of a compiled model has, under the first name of a parameter array, the lists that the
array was made of, and nothing else under it. Reading the lists and nesting their elements again
gives back the lists; the elements of a matrix are those of its first row, then of the next. -/
theorem bindings_nested {data : Nested} {e : Expr} {k k' : Nat}
    (hnew : (Expr.newParamArray data).run k = (.ok e, k')) {model : Model} {n n' : Nat}
    {c : CompiledModel} (hids : ∀ id ∈ model.ids, id.number < n)
    (h : model.compile.run n = (.ok c, n')) {name : String}
    (hfirst : model.attributes.find? (fun entry => entry.2.id? == e.id?) = some (name, e)) :
    c.resolved.bindings.filter (fun member => member.1 == name) = [(name, data.json)] ∧
    (∃ id shape values, e = .paramArray id values shape ∧ data.HasExtents shape.extents ∧
      values = data.leaves ∧ nestRows shape.extents values = data.json) ∧
    ∀ (rows columns : Nat) (entry : Fin rows → Fin columns → Literal),
      data = .ofMatrix rows columns entry →
        data.leaves = ((List.finRange rows).flatMap fun i => (List.finRange columns).map (entry i)) ∧
        data.json = .array ((List.finRange rows).map fun i =>
          .array ((List.finRange columns).map fun j => (entry i j).json)) := by
  obtain ⟨id, shape, values, rfl, hshape⟩ := newParamArray_eq hnew
  obtain ⟨hextents, hleaves, hjson⟩ := Nested.shape_eq hshape
  refine ⟨?_, ⟨id, shape, values, rfl, hextents, hleaves, hjson⟩, ?_⟩
  · have hdata : (Expr.paramArray id values shape).data? = some data.json := by
      rw [Expr.data?, hjson]
    exact bindings_filter hids (compile_eq_ok h).1 hdata hfirst
  · rintro rows columns entry rfl
    exact ⟨Nested.leaves_ofMatrix entry, Nested.json_ofMatrix entry⟩

/-- Two rows of three integers. -/
def distances : Nested :=
  .ofMatrix 2 3 fun i j => .int (10 * i.val + j.val)

def distanceArray : Expr :=
  .paramArray ⟨0⟩ [.int 0, .int 1, .int 2, .int 10, .int 11, .int 12] ⟨[2, 3]⟩

/-- A matrix under two names, beside an operation. -/
def distanceModel : Model where
  attributes := [("total", .aggregate .sum [distanceArray]), ("d", distanceArray),
    ("again", distanceArray)]
  constraints := []
  objective := .satisfy

theorem bindings_nested_distanceModel : ∃ c n', distanceModel.compile.run 1 = (.ok c, n') ∧
    c.resolved.bindings.map (fun member => (member.1, member.2.text)) =
      [("d", "[[0,1,2],[10,11,12]]")] ∧
    c.resolved.bindings.filter (fun member => member.1 == "d") = [("d", distances.json)] := by
  refine ⟨_, _, rfl, by decide, ?_⟩
  have hshape : distances.shape =
      .ok (⟨[2, 3]⟩, [.int 0, .int 1, .int 2, .int 10, .int 11, .int 12]) := by
    cbv
  have hnew : (Expr.newParamArray distances).run 0 = (.ok distanceArray, 1) := by
    rw [Expr.newParamArray, hshape]
    rfl
  have hids : ∀ id ∈ distanceModel.ids, id.number < 1 := by decide
  exact (bindings_nested hnew hids (rfl : distanceModel.compile.run 1 = (.ok _, _)) rfl).1

end ConstraintModel
