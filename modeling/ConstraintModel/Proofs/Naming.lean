import ConstraintModel.Proofs.Mentions
import ConstraintModel.Proofs.ProgramTerms
import Mathlib.Data.List.Nodup

/-!
# Names

Which attributes get a name, and what is declared and mentioned under it. The run over the attributes
keeps all identities and words apart: a leaf is named once, by the first attribute that holds it, and
an operation becomes a variable with an identity that nothing else has. A program then mentions every
entity by its own name and declares each name once.
-/

namespace ConstraintModel

open Source

/-! ## Attributes that get a name -/

/-- The attributes that get a name: operations, and leaves that neither an attribute before them nor
one of the given identities has. -/
def claimants (held : List NodeId) : List (String × Expr) → List (String × Expr)
  | [] => []
  | (name, e) :: attributes =>
    if e.isOperation then (name, e) :: claimants held attributes
    else
      match e.id? with
      | none => claimants held attributes
      | some id =>
        if id ∈ held then claimants held attributes
        else (name, e) :: claimants (id :: held) attributes

/-- What an attribute is declared as: a leaf as it is, an operation as a variable that equals it and
has a new identity. -/
inductive DeclaredAs (new : NodeId → Prop) : String × Expr → String × Expr → Prop
  | leaf {name e id} : e.isOperation = false → e.id? = some id → DeclaredAs new (name, e) (name, e)
  | operation {name e id type} : e.isOperation = true → e.elemType = .ok type → new id →
      DeclaredAs new (name, e) (name, .boundVar id type e)

theorem DeclaredAs.imp {new new' : NodeId → Prop} (h : ∀ id, new id → new' id)
    {entry entry' : String × Expr} (he : DeclaredAs new entry entry') :
    DeclaredAs new' entry entry' := by
  cases he with
  | leaf hop hid => exact .leaf hop hid
  | operation hop htype hnew => exact .operation hop htype (h _ hnew)

theorem DeclaredAs.exists_id {new : NodeId → Prop} {entry entry' : String × Expr}
    (h : DeclaredAs new entry entry') : ∃ id, entry'.2.id? = some id := by
  cases h with
  | leaf _ hid => exact ⟨_, hid⟩
  | operation _ _ _ => exact ⟨_, rfl⟩

/-! ## One attribute -/

def entrySymbol? (entry : String × Expr) : Option Symbol :=
  entry.2.id?.map fun id => ⟨id, entry.1⟩

def Entities.adding (s : Entities) (entries : List (String × Expr)) : Entities where
  symbols := s.symbols ++ entries.filterMap entrySymbol?
  parameters := s.parameters ++ entries.filter fun entry => entry.2.isParameter
  decisions := s.decisions ++ entries.filter fun entry => !entry.2.isParameter

@[simp] theorem Entities.adding_nil (s : Entities) : s.adding [] = s := by
  simp [adding]

@[simp] theorem Entities.adding_adding (s : Entities) (entries entries' : List (String × Expr)) :
    (s.adding entries).adding entries' = s.adding (entries ++ entries') := by
  simp [adding]

/-- What an attribute holds once an operation in it is a variable, and the identities taken for it. -/
inductive Bound (n : Nat) : Expr → Expr → Nat → Prop
  | leaf {e} : e.isOperation = false → Bound n e e n
  | operation {e type} : e.isOperation = true → e.elemType = .ok type →
      Bound n e (.boundVar ⟨n⟩ type e) (n + 1)

theorem Bound.le {n k : Nat} {e e' : Expr} (h : Bound n e e' k) : n ≤ k := by
  cases h with
  | leaf _ => exact Nat.le_refl n
  | operation _ _ => exact Nat.le_succ n

theorem bindVar_eq_ok {e e' : Expr} {n n' : Nat} (hop : e.isOperation = true)
    (h : e.bindVar.run n = (.ok e', n')) : Bound n e e' n' := by
  simp only [Expr.bindVar, Expr.bindingType, if_pos hop, build_bind_eq_ok, build_lift_eq_ok,
    build_pure_eq_ok, fresh_eq_ok] at h
  obtain ⟨type, k, ⟨htype, rfl⟩, id, k', ⟨rfl, rfl⟩, rfl, rfl⟩ := h
  exact .operation hop htype

theorem declareAll_cons_eq_ok {s r : Entities} {used : List String} {name : String} {e : Expr}
    {attributes : List (String × Expr)} {n n' : Nat}
    (h : (s.declareAll used ((name, e) :: attributes)).run n = (.ok r, n')) :
    Identifier.require name = .ok () ∧ name ∉ used ∧ ∃ e' k s', Bound n e e' k ∧
      s.declare name e' = .ok s' ∧
      (s'.declareAll (name :: used) attributes).run k = (.ok r, n') := by
  simp only [Entities.declareAll, build_bind_eq_ok, build_lift_eq_ok] at h
  obtain ⟨_, k, ⟨hname, rfl⟩, h⟩ := h
  refine ⟨hname, ?_⟩
  by_cases hused : name ∈ used
  · rw [if_pos hused, build_bind_eq_ok] at h
    obtain ⟨_, _, hthrow, -⟩ := h
    exact absurd hthrow build_throw_ne_ok
  · rw [if_neg hused] at h
    refine ⟨hused, ?_⟩
    by_cases hop : e.isOperation = true
    · simp only [if_pos hop, build_bind_eq_ok, build_lift_eq_ok] at h
      obtain ⟨e', k', he', s', k'', ⟨hs', rfl⟩, h⟩ := h
      exact ⟨e', k'', s', bindVar_eq_ok hop he', hs', h⟩
    · simp only [if_neg hop, build_bind_eq_ok, build_lift_eq_ok, build_pure_eq_ok] at h
      obtain ⟨e', k', ⟨rfl, rfl⟩, s', k'', ⟨hs', rfl⟩, h⟩ := h
      exact ⟨e, k'', s', .leaf (by simpa using hop), hs', h⟩

theorem isSome_nameOf? {s : Entities} {id : NodeId} :
    (s.nameOf? id).isSome = true ↔ id ∈ s.symbols.map Symbol.id := by
  simp [Entities.nameOf?, Symbol.lookup, List.find?_isSome]

theorem declare_eq_ok {s s' : Entities} {name : String} {e : Expr}
    (h : s.declare name e = .ok s') :
    (s' = s ∧ ∀ id, e.id? = some id → id ∈ s.symbols.map Symbol.id) ∨
      ∃ id, e.id? = some id ∧ id ∉ s.symbols.map Symbol.id ∧ s' = s.adding [(name, e)] := by
  unfold Entities.declare at h
  cases hid : e.id? with
  | none =>
      simp only [hid, pure_eq_ok] at h
      exact .inl ⟨h.symm, by simp⟩
  | some id =>
      simp only [hid] at h
      by_cases hname : (s.nameOf? id).isSome = true
      · rw [if_pos hname, pure_eq_ok] at h
        exact .inl ⟨h.symm, by simpa using isSome_nameOf?.1 hname⟩
      · rw [if_neg hname] at h
        simp only [bind_eq_ok, pure_eq_ok] at h
        obtain ⟨-, -, h⟩ := h
        refine .inr ⟨id, rfl, fun hmem => hname (isSome_nameOf?.2 hmem), ?_⟩
        rw [← h]
        by_cases hp : e.isParameter = true <;> simp [hp, Entities.adding, entrySymbol?, hid]

/-! ## All attributes -/

/-- The entities that are declared before some attribute: all identities and words differ, the
identities are below the next one, and those below `bound` are the ones in `held`. -/
structure Entities.Consistent (bound n : Nat) (held : List NodeId) (used : List String)
    (s : Entities) : Prop where
  ids_nodup : (s.symbols.map Symbol.id).Nodup
  words_nodup : (Symbol.words s.symbols).Nodup
  words_used : ∀ w ∈ Symbol.words s.symbols, w ∈ used
  ids_below : ∀ id ∈ s.symbols.map Symbol.id, id.number < n
  held_iff : ∀ id : NodeId, id.number < bound → (id ∈ held ↔ id ∈ s.symbols.map Symbol.id)

namespace Entities.Consistent

variable {bound n n' : Nat} {held held' : List NodeId} {used : List String} {s : Entities}

theorem empty (n : Nat) : Entities.empty.Consistent n n [] [] :=
  ⟨List.nodup_nil, List.nodup_nil, by simp [Entities.empty, Symbol.words],
    by simp [Entities.empty], by simp [Entities.empty]⟩

theorem skip (h : s.Consistent bound n held used) (name : String) :
    s.Consistent bound n held (name :: used) :=
  { h with words_used := fun w hw => List.mem_cons_of_mem _ (h.words_used w hw) }

theorem add (h : s.Consistent bound n held used) {name : String} {e : Expr} {id : NodeId}
    (hid : e.id? = some id) (hmem : id ∉ s.symbols.map Symbol.id) (hname : name ∉ used)
    (hn : n ≤ n') (hbelow : id.number < n')
    (hheld : ∀ id' : NodeId, id'.number < bound → (id' ∈ held' ↔ id' ∈ held ∨ id' = id)) :
    (s.adding [(name, e)]).Consistent bound n' held' (name :: used) := by
  have hsymbols : (s.adding [(name, e)]).symbols = s.symbols ++ [⟨id, name⟩] := by
    simp [Entities.adding, entrySymbol?, hid]
  have hwords : name ∉ Symbol.words s.symbols := fun hw => hname (h.words_used name hw)
  constructor
  · rw [hsymbols, List.map_append]
    exact List.nodup_append.2 ⟨h.ids_nodup, List.nodup_singleton _, by simpa using hmem⟩
  · rw [hsymbols, Symbol.words, List.map_append]
    exact List.nodup_append.2 ⟨h.words_nodup, List.nodup_singleton _, by
      simpa [Symbol.words] using hwords⟩
  · intro w hw
    rw [hsymbols, Symbol.words, List.map_append] at hw
    rcases List.mem_append.1 hw with hw | hw
    · exact List.mem_cons_of_mem _ (h.words_used w hw)
    · rw [List.mem_singleton.1 hw]
      exact List.mem_cons_self
  · intro id' hid'
    rw [hsymbols, List.map_append] at hid'
    rcases List.mem_append.1 hid' with hid' | hid'
    · exact Nat.lt_of_lt_of_le (h.ids_below id' hid') hn
    · rw [List.mem_singleton.1 hid']
      exact hbelow
  · intro id' hid'
    rw [hheld id' hid', h.held_iff id' hid', hsymbols, List.map_append, List.mem_append]
    simp

end Entities.Consistent

/-- One attribute is declared if it is a claimant, and keeps the entities consistent. -/
theorem declare_consistent {bound n k : Nat} {held : List NodeId} {used : List String}
    {s s' : Entities} {name : String} {e e' : Expr} (hs : s.Consistent bound n held used)
    (hn : bound ≤ n) (he : ∀ id, e.id? = some id → id.number < bound) (hused : name ∉ used)
    (hbound : Bound n e e' k) (hdeclare : s.declare name e' = .ok s') :
    ∃ claims entries held',
      (∀ attributes, claimants held ((name, e) :: attributes) =
        claims ++ claimants held' attributes) ∧
      List.Forall₂ (DeclaredAs fun id => bound ≤ id.number) claims entries ∧
      s' = s.adding entries ∧ s'.Consistent bound k held' (name :: used) := by
  cases hbound with
  | leaf hop =>
      have hneg : ¬ e.isOperation = true := by simp [hop]
      rcases declare_eq_ok hdeclare with ⟨rfl, hids⟩ | ⟨id, hid, hmem, rfl⟩
      · -- The attribute is not an entity, or its entity has a name.
        refine ⟨[], [], held, fun attributes => ?_, .nil, by simp, hs.skip name⟩
        rw [claimants, if_neg hneg, List.nil_append]
        cases hid : e.id? with
        | none => rfl
        | some id => exact if_pos ((hs.held_iff id (he id hid)).2 (hids id hid))
      · have hheld : id ∉ held := fun hheld => hmem ((hs.held_iff id (he id hid)).1 hheld)
        refine ⟨[(name, e)], [(name, e)], id :: held, fun attributes => ?_,
          .cons (.leaf hop hid) .nil, rfl, ?_⟩
        · rw [claimants, if_neg hneg, hid]
          exact if_neg hheld
        · refine hs.add hid hmem hused (Nat.le_refl n) (Nat.lt_of_lt_of_le (he id hid) hn) ?_
          intro id' _
          rw [List.mem_cons, or_comm]
  | @operation type hop htype =>
      -- The identity that is taken is new, so the variable has no name yet.
      have hmem : (⟨n⟩ : NodeId) ∉ s.symbols.map Symbol.id := by
        intro hmem
        exact absurd (hs.ids_below _ hmem) (Nat.lt_irrefl n)
      rcases declare_eq_ok hdeclare with ⟨rfl, hids⟩ | ⟨id, hid, -, rfl⟩
      · exact absurd (hids _ rfl) hmem
      · cases hid
        refine ⟨[(name, e)], [(name, .boundVar ⟨n⟩ type e)], held, fun attributes => ?_,
          .cons (.operation hop htype hn) .nil, rfl, ?_⟩
        · rw [claimants, if_pos hop]
          rfl
        · refine hs.add rfl hmem hused (Nat.le_succ n) (Nat.lt_succ_self n) fun id' hid' => ?_
          have hne : id' ≠ ⟨n⟩ := by
            rintro rfl
            exact absurd (Nat.lt_of_lt_of_le hid' hn) (Nat.lt_irrefl n)
          simp [hne]

/-- The run over the attributes declares the claimants, each as what it holds. -/
theorem declareAll_eq_ok {bound : Nat} {attributes : List (String × Expr)}
    (hbelow : ∀ entry ∈ attributes, ∀ id, entry.2.id? = some id → id.number < bound)
    {s r : Entities} {used : List String} {held : List NodeId} {n n' : Nat}
    (hs : s.Consistent bound n held used) (hn : bound ≤ n)
    (h : (s.declareAll used attributes).run n = (.ok r, n')) :
    ∃ entries, List.Forall₂ (DeclaredAs fun id => bound ≤ id.number) (claimants held attributes)
        entries ∧ r = s.adding entries ∧ ∃ held' used', r.Consistent bound n' held' used' := by
  induction attributes generalizing s used held n with
  | nil =>
      rw [Entities.declareAll, build_pure_eq_ok] at h
      obtain ⟨rfl, rfl⟩ := h
      exact ⟨[], .nil, by simp, held, used, hs⟩
  | cons entry attributes ih =>
      obtain ⟨name, e⟩ := entry
      obtain ⟨he, hbelow⟩ := List.forall_mem_cons.1 hbelow
      obtain ⟨-, hused, e', k, s', hbound, hdeclare, hrest⟩ := declareAll_cons_eq_ok h
      obtain ⟨claims, entries, held', hclaims, hentries, rfl, hs'⟩ :=
        declare_consistent hs hn he hused hbound hdeclare
      obtain ⟨entries', hentries', rfl, hr⟩ := ih hbelow hs' (Nat.le_trans hn hbound.le) hrest
      rw [hclaims]
      exact ⟨entries ++ entries', List.rel_append hentries hentries', by simp, hr⟩

/-- What is declared is what attributes hold, under their names. -/
theorem declareAll_entries {attributes : List (String × Expr)} {s r : Entities}
    {used : List String} {n n' : Nat} (h : (s.declareAll used attributes).run n = (.ok r, n')) :
    ∃ entries, r = s.adding entries ∧
      ∀ entry ∈ entries, ∃ e k k', (entry.1, e) ∈ attributes ∧ Bound k e entry.2 k' := by
  induction attributes generalizing s used n with
  | nil =>
      rw [Entities.declareAll, build_pure_eq_ok] at h
      exact ⟨[], by simp [h.1], by simp⟩
  | cons first attributes ih =>
      obtain ⟨name, e⟩ := first
      obtain ⟨-, -, e', k, s', hbound, hdeclare, hrest⟩ := declareAll_cons_eq_ok h
      obtain ⟨entries, rfl, hentries⟩ := ih hrest
      have hlater : ∀ entry ∈ entries, ∃ e₁ k k', (entry.1, e₁) ∈ (name, e) :: attributes ∧
          Bound k e₁ entry.2 k' := by
        intro entry hentry
        obtain ⟨e₁, k, k', hmem, hb⟩ := hentries entry hentry
        exact ⟨e₁, k, k', List.mem_cons_of_mem _ hmem, hb⟩
      rcases declare_eq_ok hdeclare with ⟨rfl, -⟩ | ⟨id, -, -, rfl⟩
      · exact ⟨entries, rfl, hlater⟩
      · refine ⟨(name, e') :: entries, by simp, List.forall_mem_cons.2 ⟨?_, hlater⟩⟩
        exact ⟨e, n, k, List.mem_cons_self, hbound⟩

/-! ## Resolved models -/

/-- What a resolved model is made of: declared attributes, the enumerations in their reach, and the
constraints and the objective, which have been checked. -/
theorem resolve_eq_ok {model : Model} {n n' : Nat} {r : ResolvedModel}
    (h : model.resolve.run n = (.ok r, n')) :
    (∀ c ∈ model.constraints, c.requireStatement = .ok ()) ∧
      (Entities.empty.declareAll [] model.attributes).run n = (.ok r.toEntities, n') ∧
      r.enumerations = distinctByName (allEnumerations
        ((r.parameters ++ r.decisions).map Prod.snd ++ r.constraints ++
          r.objective.value?.toList)) ∧
      (∀ e ∈ r.enumerations, Identifier.requireAll e = .ok ()) ∧
      model.objective.require = .ok () ∧ r.constraints = model.constraints ∧
      r.objective = model.objective := by
  simp only [Model.resolve, build_bind_eq_ok, build_lift_eq_ok, build_pure_eq_ok,
    build_forM_eq_ok] at h
  obtain ⟨_, k₁, ⟨hconstraints, rfl⟩, s, k₂, hentities, _, k₃, ⟨henumerations, rfl⟩, _, k₄,
    ⟨hobjective, rfl⟩, rfl, rfl⟩ := h
  exact ⟨hconstraints, hentities, rfl, henumerations, hobjective, rfl, rfl⟩

/-- The enumerations that a model finds once its entities are known, in order and with repetitions. -/
def Model.reach (m : Model) (s : Entities) : List Enumeration :=
  allEnumerations ((s.parameters ++ s.decisions).map Prod.snd ++ m.constraints ++
    m.objective.value?.toList)

/-- A model resolves once its parts are accepted. -/
theorem resolve_of_parts {model : Model} {n n' : Nat} {s : Entities}
    (hconstraints : ∀ c ∈ model.constraints, c.requireStatement = .ok ())
    (hentities : (Entities.empty.declareAll [] model.attributes).run n = (.ok s, n'))
    (henumerations : ∀ e ∈ distinctByName (model.reach s), Identifier.requireAll e = .ok ())
    (hobjective : model.objective.require = .ok ()) :
    model.resolve.run n = (.ok ⟨s, distinctByName (model.reach s), model.constraints,
      model.objective⟩, n') := by
  simp only [Model.resolve, build_bind_eq_ok, build_lift_eq_ok, build_pure_eq_ok,
    build_forM_eq_ok]
  exact ⟨(), n, ⟨hconstraints, rfl⟩, s, n', hentities, (), n', ⟨henumerations, rfl⟩, (), n',
    ⟨hobjective, rfl⟩, rfl, rfl⟩

/-- A resolved model declares the claimants of its attributes, with new identities for operations. -/
theorem resolve_entities {model : Model} {n n' : Nat} {r : ResolvedModel}
    (hids : ∀ id ∈ model.ids, id.number < n) (h : model.resolve.run n = (.ok r, n')) :
    ∃ entries,
      List.Forall₂ (DeclaredAs fun id => id ∉ model.ids) (claimants [] model.attributes) entries ∧
      r.toEntities = Entities.empty.adding entries ∧
      (r.symbols.map Symbol.id).Nodup ∧ (Symbol.words r.symbols).Nodup := by
  obtain ⟨-, hrun, -⟩ := resolve_eq_ok h
  have hbelow : ∀ entry ∈ model.attributes, ∀ id, entry.2.id? = some id → id.number < n := by
    intro entry hentry id hid
    refine hids id (List.mem_append_left _ (List.mem_append_left _ ?_))
    exact List.mem_flatMap.2 ⟨entry, hentry, Expr.mem_ids_of_id hid⟩
  obtain ⟨entries, hentries, hr, held, used, hconsistent⟩ :=
    declareAll_eq_ok hbelow (.empty n) (Nat.le_refl n) hrun
  refine ⟨entries, ?_, hr, hconsistent.ids_nodup, hconsistent.words_nodup⟩
  refine hentries.imp fun _ _ hentry => hentry.imp fun id hid hmem => ?_
  have hlt := hids id hmem
  omega

/-! ## Declarations -/

theorem symbolOf_id {v : Vocabulary} {e : Expr} {s : Symbol} (h : v.symbolOf e = .ok s) :
    e.id? = some s.id := by
  obtain ⟨id, hid, hs⟩ := symbolOf_eq_ok.1 h
  have hkey : s.id = id := by simpa using List.find?_some hs
  rw [hid, hkey]

theorem nameOf?_eq_some {s : Entities} (hids : (s.symbols.map Symbol.id).Nodup) {t : Symbol}
    (ht : t ∈ s.symbols) : s.nameOf? t.id = some t.word := by
  rw [Entities.nameOf?, Symbol.lookup, find?_key_eq hids ht]
  rfl

variable {r : ResolvedModel} {p : Program}

theorem declarations_eq (h : r.program = .ok p) :
    List.Forall₂ (fun entry d => Expr.declaration (.ofModel r) entry.1 entry.2 = .ok d)
      (r.parameters ++ r.decisions) p.declarations := by
  obtain ⟨hparameters, hdecisions, -, -⟩ := program_eq_ok h
  refine List.rel_append hparameters ?_
  rw [List.forall₂_map_right_iff]
  exact hdecisions.imp fun _ _ hd => (variableDeclaration_eq_ok hd).1

theorem symbols_declarations {v : Vocabulary} {entries : List (String × Expr)}
    {ds : List Declaration}
    (h : List.Forall₂ (fun entry d => Expr.declaration v entry.1 entry.2 = .ok d) entries ds) :
    ds.map Declaration.symbol = entries.filterMap entrySymbol? := by
  induction h with
  | nil => rfl
  | @cons entry d entries ds hd _ ih =>
      obtain ⟨id, hid, hsymbol, -⟩ := declaration_eq_ok hd
      have hentry : entrySymbol? entry = some d.symbol := by
        rw [entrySymbol?, hid, hsymbol]
        rfl
      rw [List.map_cons, List.filterMap_cons_some hentry, ih]

theorem forall₂_entrySymbol? {entries : List (String × Expr)}
    (h : ∀ entry ∈ entries, ∃ id, entry.2.id? = some id) :
    List.Forall₂ (fun entry s => entry.2.id? = some s.id ∧ entry.1 = s.word) entries
      (entries.filterMap entrySymbol?) := by
  induction entries with
  | nil => exact .nil
  | cons entry entries ih =>
      obtain ⟨⟨id, hid⟩, hentries⟩ := List.forall_mem_cons.1 h
      have hentry : entrySymbol? entry = some ⟨id, entry.1⟩ := by
        rw [entrySymbol?, hid]
        rfl
      rw [List.filterMap_cons_some hentry]
      exact .cons ⟨hid, rfl⟩ (ih hentries)

/-- Every entity that a program mentions is in the table of its model. -/
theorem mem_symbols_of_shows
    (hentries : ∀ s ∈ (r.parameters ++ r.decisions).filterMap entrySymbol?, s ∈ r.symbols)
    {t : Term} (ht : r.Shows t) {s : Symbol} (hs : s ∈ t.entities) : s ∈ r.symbols := by
  have hterm {e : Expr} {t : Term} (heq : e.term (.ofModel r) [] = .ok t) (hs : s ∈ t.entities) :
      s ∈ r.symbols := by
    obtain ⟨l, -, hl⟩ := (term_names heq).leaf s hs
    obtain ⟨id, -, hlookup⟩ := symbolOf_eq_ok.1 hl
    exact List.mem_of_find?_eq_some hlookup
  cases ht with
  | spelled _ heq => exact hterm heq hs
  | interval _ _ => cases hs
  | @equation name id type value t hentry heq =>
      rcases List.mem_cons.1 hs with rfl | hs
      · exact hentries _ (List.mem_filterMap.2 ⟨_, List.mem_append_right _ hentry, rfl⟩)
      · exact hterm heq hs

/-- The parameters and the decisions together are the entries in another order. -/
theorem perm_symbols {entries : List (String × Expr)}
    (hr : r.toEntities = Entities.empty.adding entries) :
    ((r.parameters ++ r.decisions).filterMap entrySymbol?).Perm r.symbols := by
  rw [hr]
  exact (List.filter_append_perm _ entries).filterMap _

/-- A mention of an entity is by its name, and that name is declared once, for it. -/
theorem mention_eq (hp : r.program = .ok p)
    (hperm : ((r.parameters ++ r.decisions).filterMap entrySymbol?).Perm r.symbols)
    (hids : (r.symbols.map Symbol.id).Nodup) (hwords : (Symbol.words r.symbols).Nodup) {t : Term}
    (ht : t ∈ p.terms) {s : Symbol} (hs : s ∈ t.entities) :
    r.nameOf? s.id = some s.word ∧
      (p.declarations.map Declaration.symbol).filter (fun d => d.word == s.word) = [s] := by
  have hmem : s ∈ r.symbols :=
    mem_symbols_of_shows (fun s hs => hperm.mem_iff.1 hs) (shows_of_mem_terms hp ht) hs
  refine ⟨nameOf?_eq_some hids hmem, ?_⟩
  rw [symbols_declarations (declarations_eq hp)]
  exact filter_key_eq ((hperm.map Symbol.word).nodup_iff.2 hwords) (hperm.mem_iff.2 hmem)

theorem exists_mentions (hp : r.program = .ok p) {e : Expr} (he : e ∈ r.spelled) :
    ∃ t, e.term (.ofModel r) [] = .ok t ∧
      (t ∈ p.terms ∨ ∃ s, Term.binary .eq (.entity s) t ∈ p.terms) ∧
      (∀ s ∈ t.entities, ∃ l ∈ e.leaves, l.id? = some s.id) ∧
      ∀ l ∈ e.leaves, ∃ s ∈ t.entities, l.id? = some s.id := by
  obtain ⟨t, heq, ht⟩ := exists_term_of_spelled hp he
  have hleaves := term_names heq
  refine ⟨t, heq, ht, fun s hs => ?_, fun l hl => ?_⟩
  · obtain ⟨l, hl, hsymbol⟩ := hleaves.leaf s hs
    exact ⟨l, hl, symbolOf_id hsymbol⟩
  · obtain ⟨s, hs, hsymbol⟩ := hleaves.named l hl
    exact ⟨s, hs, symbolOf_id hsymbol⟩

/-- The names of a resolved model and of its program. All names and identities differ. What claims a
name is declared under it, with the parameters and with the decisions in the order of the attributes;
an operation is declared as a variable whose identity is nowhere else. Every mention of an entity in
the program is by the name of that entity, and that name is declared once, for it; and every leaf that
is spelled is mentioned, so it has a name. -/
theorem resolve_names {model : Model} {n n' : Nat} {r : ResolvedModel}
    (hids : ∀ id ∈ model.ids, id.number < n) (h : model.resolve.run n = (.ok r, n')) :
    (r.symbols.map Symbol.id).Nodup ∧ (Symbol.words r.symbols).Nodup ∧
    (∃ entries,
      List.Forall₂ (DeclaredAs fun id => id ∉ model.ids) (claimants [] model.attributes) entries ∧
      List.Forall₂ (fun entry s => entry.2.id? = some s.id ∧ entry.1 = s.word) entries r.symbols ∧
      r.parameters = entries.filter (fun entry => entry.2.isParameter) ∧
      r.decisions = entries.filter (fun entry => !entry.2.isParameter)) ∧
    ∀ p, r.program = .ok p →
      List.Forall₂ (fun entry d => Expr.declaration (.ofModel r) entry.1 entry.2 = .ok d)
        (r.parameters ++ r.decisions) p.declarations ∧
      (∀ t ∈ p.terms, ∀ s ∈ t.entities, r.nameOf? s.id = some s.word ∧
        (p.declarations.map Declaration.symbol).filter (fun d => d.word == s.word) = [s]) ∧
      ∀ e ∈ r.spelled, ∃ t, e.term (.ofModel r) [] = .ok t ∧
        (t ∈ p.terms ∨ ∃ s, Term.binary .eq (.entity s) t ∈ p.terms) ∧
        (∀ s ∈ t.entities, ∃ l ∈ e.leaves, l.id? = some s.id) ∧
        ∀ l ∈ e.leaves, ∃ s ∈ t.entities, l.id? = some s.id := by
  obtain ⟨entries, hentries, hr, hidsNodup, hwords⟩ := resolve_entities hids h
  have hnamed : ∀ entry ∈ entries, ∃ id, entry.2.id? = some id := by
    intro entry hentry
    obtain ⟨_, -, hdeclared⟩ := exists_of_mem_right hentries hentry
    exact hdeclared.exists_id
  have hsymbols : r.symbols = entries.filterMap entrySymbol? := congrArg Entities.symbols hr
  have hparameters := congrArg Entities.parameters hr
  have hdecisions := congrArg Entities.decisions hr
  refine ⟨hidsNodup, hwords, ⟨entries, hentries, ?_, hparameters, hdecisions⟩, fun p hp => ?_⟩
  · rw [hsymbols]
    exact forall₂_entrySymbol? hnamed
  · refine ⟨declarations_eq hp, fun t ht s hs => ?_, fun e he => exists_mentions hp he⟩
    exact mention_eq hp (perm_symbols hr) hidsNodup hwords ht hs

/-- An array under two names, of which the second is not declared, and the sum of its elements. -/
def aliasedModel : Model :=
  let array := .varArray ⟨0⟩ (.range (.literal (.int 0)) (.param ⟨1⟩ (.int 5))) ⟨[2]⟩
  { attributes := [("a", array), ("b", array), ("limit", .param ⟨1⟩ (.int 5)),
      ("total", .aggregate .sum [array])]
    constraints := [.binary .lt (.view array [.index (.literal (.int 0))]) (.param ⟨1⟩ (.int 5))]
    objective := .satisfy }

theorem resolve_names_aliasedModel : ∃ r n' p, aliasedModel.resolve.run 2 = (.ok r, n') ∧
    r.program = .ok p ∧ p.statements =
      ["int: limit;", "array[0..1] of var 0..(limit - 1): a;", "var int: total;",
        "constraint (total == sum(a));", "constraint (a[0] < limit);", "solve satisfy;"] ∧
    ∀ t ∈ p.terms, ∀ s ∈ t.entities, r.nameOf? s.id = some s.word ∧
      (p.declarations.map Declaration.symbol).filter (fun d => d.word == s.word) = [s] := by
  refine ⟨_, _, _, rfl, rfl, by decide, ?_⟩
  have hids : ∀ id ∈ aliasedModel.ids, id.number < 2 := by decide
  obtain ⟨-, -, -, hprogram⟩ := resolve_names hids (rfl : aliasedModel.resolve.run 2 = (.ok _, _))
  exact (hprogram _ rfl).2.1

end ConstraintModel
