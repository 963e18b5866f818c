import ConstraintModel.Proofs.Enumerations
import ConstraintModel.Proofs.Lexeme
import Mathlib.Data.List.Perm.Basic

/-!
# Identifiers

The words that a program declares at its top level: the names of its entities, and the names and
the variants of its enumerations. Every one is a valid identifier. The names of entities differ
from each other and so do those of enumerations; words of different kinds, and variants, are not
compared.
-/

namespace ConstraintModel

open Source

/-! ## Words of attributes -/

/-- What the words of attributes are once all have been declared: valid, and all different. -/
theorem declareAll_words {attributes : List (String × Expr)} {s r : Entities} {used : List String}
    {n n' : Nat} (hnodup : (Symbol.words s.symbols).Nodup)
    (hused : ∀ w ∈ Symbol.words s.symbols, w ∈ used)
    (h : (s.declareAll used attributes).run n = (.ok r, n')) :
    (Symbol.words r.symbols).Nodup ∧ ∃ entries, r = s.adding entries ∧
      ∀ entry ∈ entries, Identifier.require entry.1 = .ok () := by
  induction attributes generalizing s used n with
  | nil =>
      rw [Entities.declareAll, build_pure_eq_ok] at h
      obtain ⟨rfl, -⟩ := h
      exact ⟨hnodup, [], by simp, by simp⟩
  | cons entry attributes ih =>
      obtain ⟨name, e⟩ := entry
      obtain ⟨hvalid, hnew, e', k, s', -, hdeclare, hrest⟩ := declareAll_cons_eq_ok h
      -- An attribute is skipped, or it adds its word, which was not in use.
      rcases declare_eq_ok hdeclare with ⟨rfl, -⟩ | ⟨id, hid, -, rfl⟩
      · exact ih hnodup (fun w hw => List.mem_cons_of_mem _ (hused w hw)) hrest
      · have hwords : Symbol.words (s.adding [(name, e')]).symbols =
            Symbol.words s.symbols ++ [name] := by
          simp [Entities.adding, entrySymbol?, hid, Symbol.words]
        have hnodup' : (Symbol.words s.symbols ++ [name]).Nodup := by
          refine List.nodup_append'.2 ⟨hnodup, List.nodup_singleton _, ?_⟩
          exact List.disjoint_singleton.2 fun hname => hnew (hused name hname)
        have hused' : ∀ w ∈ Symbol.words s.symbols ++ [name], w ∈ name :: used := by
          intro w hw
          rcases List.mem_append.1 hw with hw | hw
          · exact List.mem_cons_of_mem _ (hused w hw)
          · rw [List.mem_singleton.1 hw]
            exact List.mem_cons_self
        rw [← hwords] at hnodup' hused'
        obtain ⟨hr, entries, rfl, hentries⟩ := ih hnodup' hused' hrest
        exact ⟨hr, (name, e') :: entries, by simp, List.forall_mem_cons.2 ⟨hvalid, hentries⟩⟩

theorem mem_words_entries {entries : List (String × Expr)} {w : String}
    (h : w ∈ Symbol.words (entries.filterMap entrySymbol?)) : ∃ entry ∈ entries, entry.1 = w := by
  obtain ⟨s, hs, rfl⟩ := List.mem_map.1 h
  obtain ⟨entry, hentry, hsymbol⟩ := List.mem_filterMap.1 hs
  obtain ⟨id, -, rfl⟩ := Option.map_eq_some_iff.1 hsymbol
  exact ⟨entry, hentry, rfl⟩

/-! ## Words of a program -/

section Words

variable {model : Model} {n n' : Nat} {r : ResolvedModel}

/-- The words of a resolved model are valid, and those of its entities differ. -/
theorem resolve_words (h : model.resolve.run n = (.ok r, n')) :
    (Symbol.words r.symbols).Nodup ∧
      ((r.parameters ++ r.decisions).filterMap entrySymbol?).Perm r.symbols ∧
      ∀ w ∈ Symbol.words r.symbols ++ r.enumerationWords, Identifier.require w = .ok () := by
  obtain ⟨-, hrun, -, henumerations, -⟩ := resolve_eq_ok h
  obtain ⟨hnodup, entries, hr, hentries⟩ :=
    declareAll_words (s := .empty) List.nodup_nil (by simp [Entities.empty, Symbol.words]) hrun
  refine ⟨hnodup, perm_symbols hr, fun w hw => ?_⟩
  rcases List.mem_append.1 hw with hw | hw
  · rw [hr] at hw
    obtain ⟨entry, hentry, rfl⟩ :=
      mem_words_entries (by simpa [Entities.adding, Entities.empty] using hw)
    exact hentries entry hentry
  · obtain ⟨e, he, hw⟩ := List.mem_flatMap.1 hw
    exact require_of_requireAll (henumerations e he) w hw

end Words

namespace Source.Program

/-- The words of the entities that a program declares. -/
def entityWords (p : Program) : List String :=
  Symbol.words (p.declarations.map Declaration.symbol)

/-- The words that a program declares at its top level. -/
def identifiers (p : Program) : List String :=
  p.entityWords ++ p.enumerations.flatMap fun e => e.name :: e.variants

theorem perm_identifiers (p : Program) : p.identifiers.Perm
    (p.entityWords ++
      (p.enumerations.map Enumeration.name ++ p.enumerations.flatMap Enumeration.variants)) :=
  List.Perm.append_left _ (List.map_append_flatMap_perm _ _ _).symm

end Source.Program

/-- The top-level words of a compiled model. All are valid identifiers. The words of entities
differ, and so do the names of enumerations. Then all words differ exactly if all variants do and
no word is of two kinds. -/
theorem compile_identifiers {model : Model} {n n' : Nat} {c : CompiledModel}
    (h : model.compile.run n = (.ok c, n')) :
    (∀ w ∈ c.program.identifiers, Identifier.require w = .ok ()) ∧ c.program.entityWords.Nodup ∧
      (c.program.enumerations.map Enumeration.name).Nodup ∧
      (c.program.identifiers.Nodup ↔
        (c.program.enumerations.flatMap Enumeration.variants).Nodup ∧
          (∀ w ∈ c.program.enumerations.map Enumeration.name,
            w ∉ c.program.enumerations.flatMap Enumeration.variants) ∧
          ∀ w ∈ c.program.entityWords, w ∉ c.program.enumerations.map Enumeration.name ++
            c.program.enumerations.flatMap Enumeration.variants) := by
  obtain ⟨hresolve, hprogram⟩ := compile_eq_ok h
  obtain ⟨hnodup, hperm, hvalid⟩ := resolve_words hresolve
  have hwords : c.program.entityWords.Perm (Symbol.words c.resolved.symbols) := by
    rw [Program.entityWords, symbols_declarations (declarations_eq hprogram)]
    exact hperm.map _
  have hentities : c.program.entityWords.Nodup := hwords.nodup_iff.2 hnodup
  have hnames : (c.program.enumerations.map Enumeration.name).Nodup := by
    rw [compile_enumerations h]
    exact distinctByName_nodup _
  refine ⟨fun w hw => hvalid w ?_, hentities, hnames, ?_⟩
  · rw [Program.identifiers, program_enumerations hprogram] at hw
    exact (hwords.append_right _).mem_iff.1 hw
  · rw [c.program.perm_identifiers.nodup_iff, List.nodup_append', List.nodup_append']
    simp only [hentities, hnames, true_and, and_assoc, List.disjoint_left]

/-- A variable over an enumeration. -/
def singleModel : Model :=
  { attributes := [("x", .var ⟨0⟩ (.enumeration colors))]
    constraints := []
    objective := .satisfy }

theorem compile_identifiers_singleModel : ∃ c n', singleModel.compile.run 1 = (.ok c, n') ∧
    c.program.identifiers = ["x", "Color", "Red", "Green"] ∧ c.program.identifiers.Nodup :=
  ⟨_, _, rfl, by decide,
    (compile_identifiers (rfl : singleModel.compile.run 1 = (.ok _, _))).2.2.2.2 (by decide)⟩

/-- A variable with the name of the enumeration that it ranges over. -/
def collidingModel : Model :=
  { attributes := [("Color", .var ⟨0⟩ (.enumeration colors))]
    constraints := []
    objective := .satisfy }

/-- One word names a variable and an enumeration. -/
theorem collidingModel_not_nodup : ∃ c n', collidingModel.compile.run 1 = (.ok c, n') ∧
    c.program.lines = ["enum Color = {Red, Green};", "var Color: Color;", "solve satisfy;"] ∧
    ¬ c.program.identifiers.Nodup :=
  ⟨_, _, rfl, by decide, by decide⟩

end ConstraintModel
