import ConstraintModel.Proofs.Collections
import ConstraintModel.Proofs.Identifiers
import ConstraintModel.Proofs.Variants

/-!
# Conformance of data

The data of a compiled model has a member for every parameter that the program declares and does not
define, and for nothing else. Each member is of the declared type: arrays are nested by their
extents, enumeration values are declared variants, and floats have a spelling.
-/

namespace ConstraintModel

open Source

/-! ## Data of a type -/

/-- Data that is a scalar of a type, where some enumerations are declared. -/
inductive Json.IsOf (declared : List Enumeration) : ElemType → Json → Prop
  | int (v : Int) : IsOf declared .int (.int v)
  | float {x : Float} : x.isFinite = true → IsOf declared .float (.float x)
  | bool (b : Bool) : IsOf declared .bool (.bool b)
  | enumeration {e d : Enumeration} {w : String} : d ∈ declared → d.name = e.name →
      w ∈ d.variants → IsOf declared (.enumeration e) (.object [("e", .string w)])

/-- Data that a declaration of a parameter takes. -/
inductive Json.Conforms (declared : List Enumeration) : DeclaredType → Json → Prop
  | scalar {t : ElemType} {j : Json} : j.IsOf declared t →
      Conforms declared (.scalar false (.type t)) j
  | array {shape : Shape} {t : ElemType} {j : Json} : shape.isValid = true →
      j.HasRows (Json.IsOf declared t) shape.extents →
      Conforms declared (.array shape false (.type t)) j
  | set {t : ElemType} {members : List Json} : (∀ x ∈ members, x.IsOf declared t) →
      Conforms declared (.set false (.type t)) (.object [("set", .array members)])
  | interval {a b : Int} : a ≤ b →
      Conforms declared (.set false (.span (.span false (.int a) (.int b))))
        (.object [("set", .array [.array [.int a, .int b]])])

/-- Whether a parameter array or set is what its constructor makes. -/
def Expr.IsChecked : Expr → Prop
  | .paramArray id values shape =>
    ∃ data n n', (newParamArray data).run n = (.ok (.paramArray id values shape), n')
  | .paramSet id (.listed values) =>
    ∃ n n', (newParamSet values).run n = (.ok (.paramSet id (.listed values)), n')
  | .paramSet id (.interval start stop) =>
    ∃ n n', (newParamInterval start stop).run n = (.ok (.paramSet id (.interval start stop)), n')
  | _ => True

/-- Whether a declaration is of a parameter that the source does not define. -/
def Source.Declaration.isGiven (d : Declaration) : Bool :=
  d.definition.isNone &&
    match d.type with
    | .scalar search _ | .array _ search _ | .set search _ => !search

theorem Literal.json_isOf {declared : List Enumeration} {l : Literal}
    (hfinite : l.requireFinite = .ok ()) (hdeclared : l.enumerations ⊆ declared) :
    l.json.IsOf declared l.elemType := by
  cases l with
  | int v => exact .int v
  | float x =>
      have hx := isFinite_of_requireFinite hfinite
      rw [json, if_pos hx]
      exact .float hx
  | bool b => exact .bool b
  | enumeration v => exact .enumeration (hdeclared (List.mem_singleton_self _)) rfl v.name_mem

theorem requireFinite_of_ne_float {l : Literal} (h : l.elemType ≠ .float) :
    l.requireFinite = .ok () := by
  cases l with
  | float x => exact absurd rfl h
  | _ => rfl

/-! ## Data of a parameter -/

section Parameter

variable {v : Vocabulary} {e : Expr} {name : String} {d : Declaration}

/-- The parameters with data are those that are given. -/
theorem isGiven_eq (h : e.declaration v name = .ok d) : d.isGiven = e.data?.isSome := by
  cases e with
  | var id domain | varArray id domain shape | varSet id domain =>
      simp only [Expr.declaration, bind_eq_ok, pure_eq_ok] at h
      obtain ⟨b, -, rfl⟩ := h
      rfl
  | boundVar id type value | param id value =>
      cases h
      rfl
  | derivedParam id value =>
      simp only [Expr.declaration, bind_eq_ok, pure_eq_ok] at h
      obtain ⟨type, -, t, -, rfl⟩ := h
      rfl
  | paramArray id values shape | paramSet id members =>
      simp only [Expr.declaration, bind_eq_ok, pure_eq_ok] at h
      obtain ⟨type, -, rfl⟩ := h
      rfl
  | _ => exact absurd h throw_ne_ok

/-- The data of a parameter is what its declaration takes. -/
theorem data_conforms {declared : List Enumeration} {j : Json} (hchecked : e.IsChecked)
    (hfinite : e.requireFiniteValue = .ok ()) (hdeclared : ∀ l ∈ e.given, l.enumerations ⊆ declared)
    (hd : e.declaration v name = .ok d) (hj : e.data? = some j) : j.Conforms declared d.type := by
  cases e with
  | param id l =>
      cases hj
      cases hd
      exact .scalar (Literal.json_isOf hfinite (hdeclared l (List.mem_singleton_self l)))
  | paramArray id values shape =>
      cases hj
      obtain ⟨data, n, n', hrun⟩ := hchecked
      obtain ⟨hvalid, hlength, ⟨t, htype, htyped⟩, hvalues⟩ := newParamArray_eq_ok hrun
      simp only [Expr.declaration, htype] at hd
      cases hd
      obtain ⟨hrank, -⟩ := Shape.isValid_iff.1 hvalid
      refine .array hvalid (nestRows_hasRows hrank hlength fun l hl => ?_)
      rw [← htyped l hl]
      exact Literal.json_isOf (hvalues l hl) (hdeclared l hl)
  | paramSet id members =>
      cases hj
      cases members with
      | listed values =>
          obtain ⟨n, n', hrun⟩ := hchecked
          obtain ⟨t, hfloat, htype, htyped⟩ := requireMembers_eq_ok (newParamSet_eq_ok hrun)
          simp only [Expr.declaration, SetMembers.base, htype] at hd
          cases hd
          refine .set fun x hx => ?_
          obtain ⟨l, hl, rfl⟩ := List.mem_map.1 hx
          have hl' := htyped l hl
          rw [← hl'] at hfloat ⊢
          exact Literal.json_isOf (requireFinite_of_ne_float hfloat) (hdeclared l hl)
      | interval start stop =>
          obtain ⟨n, n', hrun⟩ := hchecked
          have hlt := newParamInterval_eq_ok hrun
          cases hd
          exact .interval (by omega)
  | _ => cases hj

end Parameter

/-! ## Parameters of a model -/

theorem declare_parameters {s s' : Entities} {name : String} {e : Expr}
    (h : s.declare name e = .ok s') {entry : String × Expr} (hentry : entry ∈ s'.parameters) :
    entry ∈ s.parameters ∨
      entry = (name, e) ∧ e.isParameter = true ∧ e.requireFiniteValue = .ok () := by
  rcases declare_eq_ok h with ⟨rfl, -⟩ | ⟨id, hid, hnew, rfl⟩
  · exact .inl hentry
  · have hfinite : e.requireFiniteValue = .ok () := by
      simp only [Entities.declare, hid, if_neg (isSome_nameOf?.not.2 hnew), bind_eq_ok] at h
      obtain ⟨⟨⟩, hfinite, -⟩ := h
      exact hfinite
    rcases List.mem_append.1 hentry with hentry | hentry
    · exact .inl hentry
    · obtain ⟨hentry, hparameter⟩ := List.mem_filter.1 hentry
      obtain rfl := List.mem_singleton.1 hentry
      exact .inr ⟨rfl, hparameter, hfinite⟩

/-- A parameter of a model is an attribute, and its value has a spelling. -/
theorem declareAll_parameters {attributes : List (String × Expr)} {s r : Entities}
    {used : List String} {n n' : Nat} (h : (s.declareAll used attributes).run n = (.ok r, n'))
    {entry : String × Expr} (hentry : entry ∈ r.parameters) :
    entry ∈ s.parameters ∨ entry ∈ attributes ∧ entry.2.requireFiniteValue = .ok () := by
  induction attributes generalizing s used n with
  | nil =>
      rw [Entities.declareAll, build_pure_eq_ok] at h
      exact .inl (h.1 ▸ hentry)
  | cons first attributes ih =>
      obtain ⟨name, e⟩ := first
      obtain ⟨-, -, e', k, s', hbound, hdeclare, hrest⟩ := declareAll_cons_eq_ok h
      rcases ih hrest with hs' | ⟨hmem, hfinite⟩
      · rcases declare_parameters hdeclare hs' with hs | ⟨rfl, hparameter, hfinite⟩
        · exact .inl hs
        · cases hbound with
          | leaf _ => exact .inr ⟨List.mem_cons_self, hfinite⟩
          | operation _ _ => cases hparameter
      · exact .inr ⟨List.mem_cons_of_mem _ hmem, hfinite⟩

theorem insert_perm {key : String} {value : Json} {members : List (String × Json)}
    (h : key ∉ members.map Prod.fst) :
    (Json.insert key value members).Perm ((key, value) :: members) := by
  induction members with
  | nil => exact .refl _
  | cons member members ih =>
      obtain ⟨k, v⟩ := member
      obtain ⟨hne, hmem⟩ := not_or.1 (List.mem_cons.not.1 h)
      rw [Json.insert]
      split_ifs with hlt
      · exact .refl _
      · exact ((ih hmem).cons (k, v)).trans (.swap _ _ _)

/-- Members whose keys all differ are the same ones in the order of their keys. -/
theorem sorted_perm {members : List (String × Json)} (h : (members.map Prod.fst).Nodup) :
    (Json.sorted members).Perm members := by
  -- Over whatever is inserted already, so that each step is an insertion of one new key.
  have hfold : ∀ done, ((done ++ members).map Prod.fst).Nodup →
      (members.foldl (fun done m => Json.insert m.1 m.2 done) done).Perm (done ++ members) := by
    clear h
    induction members with
    | nil => simp
    | cons member members ih =>
        intro done hdone
        have hkeys := hdone
        rw [List.map_append, List.nodup_append'] at hkeys
        have hkey : member.1 ∉ done.map Prod.fst := fun hmem =>
          hkeys.2.2 hmem List.mem_cons_self
        have hperm : (Json.insert member.1 member.2 done ++ members).Perm
            (done ++ member :: members) :=
          ((insert_perm hkey).append_right members).trans List.perm_middle.symm
        exact (ih _ ((hperm.map Prod.fst).nodup_iff.2 hdone)).trans hperm
  exact hfold [] h

/-- The data of a parameter with its name. -/
def namedData (entry : String × Expr) : Option (String × Json) :=
  entry.2.data?.map fun v => (entry.1, v)

theorem given_data {v : Vocabulary} {entries : List (String × Expr)} {ds : List Declaration}
    (h : List.Forall₂ (fun entry d => Expr.declaration v entry.1 entry.2 = .ok d) entries ds) :
    List.Forall₂ (fun (m : String × Json) d => m.1 = d.symbol.word ∧
        ∃ e, (m.1, e) ∈ entries ∧ e.data? = some m.2 ∧ e.declaration v m.1 = .ok d)
      (entries.filterMap namedData) (ds.filter Declaration.isGiven) := by
  induction h with
  | nil => exact .nil
  | @cons entry d entries ds hd _ ih =>
      have hrest := ih.imp fun m d' h' => show m.1 = d'.symbol.word ∧
          ∃ e, (m.1, e) ∈ entry :: entries ∧ e.data? = some m.2 ∧ e.declaration v m.1 = .ok d' from
        ⟨h'.1, h'.2.imp fun e he => ⟨List.mem_cons_of_mem _ he.1, he.2⟩⟩
      cases hdata : entry.2.data? with
      | none =>
          rw [List.filterMap_cons_none (by rw [namedData, hdata]; rfl),
            List.filter_cons_of_neg (by rw [isGiven_eq hd, hdata]; decide)]
          exact hrest
      | some j =>
          rw [List.filterMap_cons_some (b := (entry.1, j)) (by rw [namedData, hdata]; rfl),
            List.filter_cons_of_pos (by rw [isGiven_eq hd, hdata]; rfl)]
          obtain ⟨id, -, hsymbol, -⟩ := declaration_eq_ok hd
          exact .cons ⟨by rw [hsymbol], entry.2, List.mem_cons_self, hdata, hd⟩ hrest

section Compiled

variable {model : Model} {n n' : Nat} {c : CompiledModel}

theorem decisions_data? {r : ResolvedModel} (h : model.resolve.run n = (.ok r, n'))
    {entry : String × Expr} (hentry : entry ∈ r.decisions) : entry.2.data? = none := by
  obtain ⟨-, hrun, -⟩ := resolve_eq_ok h
  obtain ⟨-, entries, hr, -⟩ :=
    declareAll_words (s := .empty) List.nodup_nil (by simp [Entities.empty, Symbol.words]) hrun
  have hdecisions : r.decisions = entries.filter fun entry => !entry.2.isParameter :=
    congrArg Entities.decisions hr
  rw [hdecisions, List.mem_filter] at hentry
  obtain ⟨name, e⟩ := entry
  cases e <;> first | rfl | cases hentry.2

/-- The members of the data are those of all entities, in the order of their keys. -/
theorem bindings_perm {r : ResolvedModel} (h : model.resolve.run n = (.ok r, n'))
    (hkeys : (((r.parameters ++ r.decisions).filterMap namedData).map Prod.fst).Nodup) :
    r.bindings.Perm ((r.parameters ++ r.decisions).filterMap namedData) := by
  -- The data is collected over the parameters only; decisions would add nothing to it.
  have hnone : r.decisions.filterMap namedData = [] := by
    rw [List.filterMap_eq_nil_iff]
    intro entry hentry
    rw [namedData, decisions_data? h hentry]
    rfl
  rw [List.filterMap_append, hnone, List.append_nil] at hkeys ⊢
  exact sorted_perm hkeys

/-- Values that a parameter holds are of declared enumerations, if no two of one name differ. -/
theorem given_declared (h : model.compile.run n = (.ok c, n'))
    (hsame : ∀ x ∈ c.resolved.reach, ∀ y ∈ c.resolved.reach, x.name = y.name → x = y)
    {entry : String × Expr} (hentry : entry ∈ c.resolved.parameters) {l : Literal}
    (hl : l ∈ entry.2.given) : l.enumerations ⊆ c.program.enumerations := by
  intro x hx
  have hreach : x ∈ c.resolved.reach :=
    c.resolved.subset_reach_of_entry (List.mem_append_left _ hentry) (given_enumerations hl hx)
  obtain ⟨e, hfind, hfilter, -⟩ := declared_of_mem_reach h hreach
  -- The enumeration that is declared is the first in reach with the name, so it is this one.
  have hname : e.name = x.name := by simpa using List.find?_some hfind
  have heq : e = x := hsame e (List.mem_of_find?_eq_some hfind) x hreach hname
  have hmem : e ∈ c.program.enumerations.filter (·.name == x.name) := by
    rw [hfilter]
    exact List.mem_singleton_self e
  rw [← heq]
  exact List.mem_of_mem_filter hmem

/-- The keys of the data of a compiled model are the words of the parameters that its program
declares and does not define, each once, and the member of each is of the type that is declared, if
parameter arrays and sets are what constructors make and no two enumerations of one name differ. -/
theorem bindings_conform (h : model.compile.run n = (.ok c, n'))
    (hchecked : ∀ entry ∈ model.attributes, entry.2.IsChecked)
    (hsame : ∀ x ∈ c.resolved.reach, ∀ y ∈ c.resolved.reach, x.name = y.name → x = y) :
    (c.resolved.bindings.map Prod.fst).Nodup ∧
    (c.resolved.bindings.map Prod.fst).Perm
      (Symbol.words ((c.program.declarations.filter Declaration.isGiven).map Declaration.symbol)) ∧
    ∀ d ∈ c.program.declarations, d.isGiven = true →
      ∃ j, (d.symbol.word, j) ∈ c.resolved.bindings ∧
        j.Conforms c.program.enumerations d.type := by
  obtain ⟨hresolve, hprogram⟩ := compile_eq_ok h
  have hdeclared := declarations_eq hprogram
  have hdata := given_data hdeclared
  have hkeys : ((c.resolved.parameters ++ c.resolved.decisions).filterMap namedData).map Prod.fst =
      Symbol.words
        ((c.program.declarations.filter Declaration.isGiven).map Declaration.symbol) := by
    rw [Symbol.words, List.map_map, ← List.forall₂_eq_eq_eq, List.forall₂_map_left_iff,
      List.forall₂_map_right_iff]
    exact hdata.imp fun _ _ hm => hm.1
  -- The words of all declarations differ, and so do those of some of them.
  have hnodup : (Symbol.words
      ((c.program.declarations.filter Declaration.isGiven).map Declaration.symbol)).Nodup := by
    obtain ⟨hwords, hperm, -⟩ := resolve_words hresolve
    rw [← symbols_declarations hdeclared] at hperm
    have hall := (hperm.map Symbol.word).nodup_iff.2 hwords
    exact hall.sublist ((List.filter_sublist.map _).map _)
  have hbindings := bindings_perm hresolve (hkeys ▸ hnodup)
  have hbound := hkeys ▸ hbindings.map Prod.fst
  refine ⟨hbound.nodup_iff.2 hnodup, hbound, fun d hd hgiven => ?_⟩
  obtain ⟨⟨name, j⟩, hmem, hname, e, hentry, hj, hdeclaration⟩ :=
    exists_of_mem_right hdata (List.mem_filter.2 ⟨hd, hgiven⟩)
  refine ⟨j, hname ▸ hbindings.mem_iff.2 hmem, ?_⟩
  have hparameter : (name, e) ∈ c.resolved.parameters := by
    refine (List.mem_append.1 hentry).resolve_right fun hdecision => ?_
    have hnone := decisions_data? hresolve hdecision
    exact Option.some_ne_none j (hj.symm.trans hnone)
  obtain ⟨-, hrun, -⟩ := resolve_eq_ok hresolve
  rcases declareAll_parameters hrun hparameter with hnone | ⟨hattribute, hfinite⟩
  · cases hnone
  · exact data_conforms (hchecked _ hattribute) hfinite
      (fun l hl => given_declared h hsame hparameter hl) hdeclaration hj

/-- Parameters of every kind, one of them defined by the source. -/
def suppliedModel : Model where
  attributes :=
    [("hue", .param ⟨0⟩ (.enumeration green)),
      ("costs", .paramArray ⟨1⟩ [.int 1, .int 2, .int 3, .int 4] ⟨[2, 2]⟩),
      ("days", .paramSet ⟨2⟩ (.interval 1 8)),
      ("picks", .paramSet ⟨3⟩ (.listed [.enumeration green, .enumeration red])),
      ("limit", .param ⟨4⟩ (.int 3)),
      ("double", .derivedParam ⟨5⟩ (.binary .mul (.param ⟨4⟩ (.int 3)) (.literal (.int 2)))),
      ("x", .var ⟨6⟩ .int)]
  constraints := []
  objective := .satisfy

theorem suppliedModel_isChecked : ∀ entry ∈ suppliedModel.attributes, entry.2.IsChecked := by
  let costs := Nested.list [.list [.leaf (.int 1), .leaf (.int 2)],
    .list [.leaf (.int 3), .leaf (.int 4)]]
  have hcosts : costs.shape = .ok (⟨[2, 2]⟩, [.int 1, .int 2, .int 3, .int 4]) := by
    cbv
  have harray : (Expr.paramArray ⟨1⟩ [.int 1, .int 2, .int 3, .int 4] ⟨[2, 2]⟩).IsChecked := by
    refine ⟨costs, 1, 2, ?_⟩
    rw [Expr.newParamArray, hcosts]
    rfl
  simp only [suppliedModel, List.forall_mem_cons]
  exact ⟨trivial, harray, ⟨2, 3, rfl⟩, ⟨3, 4, rfl⟩, trivial, trivial, trivial, by simp⟩

theorem bindings_conform_suppliedModel : ∃ c n', suppliedModel.compile.run 7 = (.ok c, n') ∧
    c.program.statements = ["enum Color = {Red, Green};", "Color: hue;",
      "array[0..1, 0..1] of int: costs;", "set of 1..7: days;", "set of Color: picks;",
      "int: limit;", "int: double = (limit * 2);", "var int: x;", "solve satisfy;"] ∧
    c.resolved.bindings.map (fun entry => (entry.1, entry.2.text)) =
      [("costs", "[[1,2],[3,4]]"), ("days", "\x7b\"set\":[[1,7]]\x7d"),
        ("hue", "\x7b\"e\":\"Green\"\x7d"), ("limit", "3"),
        ("picks", "\x7b\"set\":[\x7b\"e\":\"Green\"\x7d,\x7b\"e\":\"Red\"\x7d]\x7d")] ∧
    ∀ d ∈ c.program.declarations, d.isGiven = true →
      ∃ j, (d.symbol.word, j) ∈ c.resolved.bindings ∧ j.Conforms c.program.enumerations d.type := by
  refine ⟨_, _, rfl, by decide, by decide, ?_⟩
  exact (bindings_conform (rfl : suppliedModel.compile.run 7 = (.ok _, _))
    suppliedModel_isChecked (by decide)).2.2

end Compiled

end ConstraintModel
