import ConstraintModel.Proofs.Marks
import ConstraintModel.Proofs.Shown

/-!
# Marked terms

What the text of a term shows is what its nodes show: the calls of functions and the floats. The words
of a term have to be identifiers for that, or one of them could be written like a call. They are, as
far as they are the words of entities and iterators.
-/

namespace ConstraintModel

open Source

namespace Source.Term

/-! ## Marks -/

/-- What the text of a literal shows, repetitions aside. -/
def literalMarks : Literal → List Mark
  | .float _ => [.floatLiteral]
  | _ => []

/-- What the text of a term shows outside its parts, repetitions aside. -/
def ownMarks : Term → List Mark
  | literal v => literalMarks v
  | set members => members.flatMap literalMarks
  | unary .absolute _ => [.call "abs"]
  | call function _ => [.call function.name]
  | comprehension op _ _ => [.call op.name]
  | _ => []

/-- Whether the words of the node are identifiers and its numbers finite, where no enumeration has
a say. -/
def Lexical : Term → Prop
  | literal v => v.requireFinite = .ok ()
  | set members => ∀ v ∈ members, v.requireFinite = .ok ()
  | entity s | iterator s | element s _ => Identifier.require s.word = .ok ()
  | comprehension _ heads _ => ∀ head ∈ heads, Identifier.require head.1.word = .ok ()
  | _ => True

end Source.Term

namespace Source

variable {m : Mark}

theorem mem_marks_literal {l : Literal} (hfinite : l.requireFinite = .ok ())
    (hvalid : ∀ x ∈ l.enumerations, Identifier.requireAll x = .ok ()) :
    m ∈ marks l.text.toList ↔ m ∈ Term.literalMarks l := by
  cases l with
  | int v => exact iff_of_eq (congrArg (m ∈ ·) (marks_int v))
  | float x =>
      have hx := isFinite_of_requireFinite hfinite
      exact (mem_marks_float hx).trans List.mem_singleton.symm
  | bool b => cases b <;> rfl
  | enumeration v =>
      have hvariant := require_of_requireAll (hvalid v.type (List.mem_singleton_self _)) v.name
        (List.mem_cons_of_mem _ v.name_mem)
      exact iff_of_eq (congrArg (m ∈ ·) (marks_identifier hvariant))

/-- Items with commas between them show what they show alone. -/
theorem mem_marks_commaSeparated {items : List String} :
    m ∈ marks (Term.commaSeparated items).toList ↔ ∃ s ∈ items, m ∈ marks s.toList := by
  rw [Term.commaSeparated, String.toList_intercalate,
    mem_marks_intercalate (fun _ => rfl) (fun _ => rfl)]
  simp

theorem Term.texts_eq (ts : List Term) : Term.texts ts = ts.map Term.text := by
  induction ts with
  | nil => rfl
  | cons t ts ih => rw [Term.texts, ih, List.map_cons]

theorem Term.headTexts_eq (heads : List (Symbol × Term)) :
    Term.headTexts heads = heads.map fun head => head.1.word ++ " in " ++ head.2.text := by
  induction heads with
  | nil => rfl
  | cons head heads ih => rw [Term.headTexts, ih, List.map_cons]

/-- What stands around a text without going on with its words adds no marks. -/
theorem marks_delimited {a b : String} (ha : ∀ r, marks (a.toList ++ r) = marks r)
    (hb : stops b.toList = true) (hnone : marks b.toList = []) (s : String) :
    marks (a ++ s ++ b).toList = marks s.toList := by
  rw [String.toList_append, String.toList_append, List.append_assoc, ha, marks_append hb, hnone,
    List.append_nil]

/-! ### Functions -/

/-- What the names of functions other than global constraints begin with. -/
def Function.stems : List String :=
  ["pow", "max", "index_set", "slice_", "array"] ++ Aggregate.all.map Aggregate.name

theorem Function.exists_stem (f : Function) : (∃ kind, f = .global kind) ∨
    ∃ stem ∈ stems, stem.toList <+: f.name.toList := by
  cases f with
  | power => exact .inr ⟨"pow", by simp [stems], List.prefix_rfl⟩
  | last => exact .inr ⟨"max", by simp [stems], List.prefix_rfl⟩
  | indexSet dim rank => exact .inr ⟨"index_set", by simp [stems], indexSet_begins dim rank⟩
  | slice rank =>
      refine .inr ⟨"slice_", by simp [stems], ?_⟩
      simp only [Function.name, String.toList_append, List.append_assoc]
      exact List.prefix_append _ _
  | reshape rank =>
      refine .inr ⟨"array", by simp [stems], ?_⟩
      simp only [Function.name, String.toList_append, List.append_assoc]
      exact List.prefix_append _ _
  | aggregate op =>
      refine .inr ⟨op.name, ?_, List.prefix_rfl⟩
      cases op <;> simp [stems, Aggregate.all]
  | global kind => exact .inl ⟨kind, rfl⟩

/-- A word that begins like no other function names a global constraint only. -/
theorem Function.name_eq {f : Function} {w : String}
    (hw : stems.all (fun stem => !stem.toList.isPrefixOf w.toList) = true) (h : f.name = w) :
    ∃ kind : GlobalKind, f = .global kind ∧ kind.name = w := by
  rcases f.exists_stem with ⟨kind, rfl⟩ | ⟨stem, hstem, hbegins⟩
  · exact ⟨kind, rfl, h⟩
  · have hnone := List.all_eq_true.1 hw stem hstem
    rw [h, ← List.isPrefixOf_iff_prefix] at hbegins
    simp [hbegins] at hnone

theorem find?_globalKind (kind : GlobalKind) :
    GlobalKind.all.find? (·.name == kind.name) = some kind := by
  cases kind <;> rfl

theorem Function.name_eq_global {f : Function} {kind : GlobalKind} :
    f.name = kind.name ↔ f = .global kind := by
  constructor
  · intro h
    obtain ⟨k, rfl, hk⟩ := name_eq (by cases kind <;> decide) h
    have hfind := find?_globalKind k
    rw [hk, find?_globalKind kind, Option.some.injEq] at hfind
    rw [hfind]
  · rintro rfl
    rfl

theorem Function.name_ne (f : Function) : f.name ≠ "float" ∧ f.name ≠ "include" := by
  constructor
  · intro h
    obtain ⟨kind, -, hkind⟩ := name_eq (by decide) h
    revert hkind
    cases kind <;> decide
  · intro h
    obtain ⟨kind, -, hkind⟩ := name_eq (by decide) h
    revert hkind
    cases kind <;> decide

theorem marks_application (f : Function) (s : List Char) :
    marks (f.name.toList ++ '(' :: s) = .call f.name :: marks s :=
  marks_call (isWellFormed_function f) f.name_ne.1 f.name_ne.2 s

namespace Term

theorem mem_marks_binary {op : BinaryOp} {a b : String} :
    m ∈ marks ("(" ++ a ++ " " ++ op.symbol ++ " " ++ b ++ ")").toList ↔
      m ∈ marks a.toList ∨ m ∈ marks b.toList := by
  have hsymbol (s : List Char) :
      marks (" ".toList ++ (op.symbol.toList ++ (" ".toList ++ s))) = marks s := by
    cases op <;> rfl
  have hopen (s : List Char) : marks ("(".toList ++ s) = marks s := rfl
  have hclose : marks ")".toList = [] := rfl
  simp only [String.toList_append, List.append_assoc]
  rw [hopen, marks_append rfl, hsymbol, marks_append rfl, hclose, List.append_nil, List.mem_append]

theorem mem_marks_comprehension {op : Aggregate} {heads body : String} :
    m ∈ marks (comprehensionText op heads body).toList ↔
      m = .call op.name ∨ m ∈ marks heads.toList ∨ m ∈ marks body.toList := by
  have hcall (r : List Char) :
      marks (op.name.toList ++ ("(".toList ++ r)) = .call op.name :: marks r :=
    marks_application (.aggregate op) r
  have harray (r : List Char) :
      marks (op.name.toList ++ ("([".toList ++ r)) = .call op.name :: marks r :=
    marks_application (.aggregate op) ('[' :: r)
  have hbody (r : List Char) : marks (")(".toList ++ r) = marks r := rfl
  have hbar (r : List Char) : marks (" | ".toList ++ r) = marks r := rfl
  have hclose : marks ")".toList = [] := rfl
  have hend : marks "])".toList = [] := rfl
  cases op with
  | least | greatest =>
      simp only [comprehensionText, String.toList_append, List.append_assoc]
      rw [harray, marks_append rfl, hbar, marks_append rfl, hend, List.append_nil,
        List.mem_cons, List.mem_append, or_comm (a := m ∈ marks body.toList)]
  | sum | product | count | every | any =>
      simp only [comprehensionText, String.toList_append, List.append_assoc]
      rw [hcall, marks_append rfl, hbody, marks_append rfl, hclose, List.append_nil,
        List.mem_cons, List.mem_append]

theorem mem_marks_heads {heads : List (Symbol × Term)}
    (h : ∀ head ∈ heads, Identifier.require head.1.word = .ok ()) :
    m ∈ marks (commaSeparated (headTexts heads)).toList ↔
      ∃ t ∈ heads.map Prod.snd, m ∈ marks t.text.toList := by
  have hhead : ∀ head ∈ heads,
      marks (head.1.word ++ " in " ++ head.2.text).toList = marks head.2.text.toList := by
    intro head hmem
    have hin (s : List Char) : marks (" in ".toList ++ s) = marks s := rfl
    simp only [String.toList_append, List.append_assoc]
    rw [marks_append rfl, marks_identifier (h head hmem), hin, List.nil_append]
  rw [mem_marks_commaSeparated, headTexts_eq]
  constructor
  · rintro ⟨s, hs, hm⟩
    obtain ⟨head, hmem, rfl⟩ := List.mem_map.1 hs
    exact ⟨head.2, List.mem_map_of_mem hmem, hhead head hmem ▸ hm⟩
  · rintro ⟨t, ht, hm⟩
    obtain ⟨head, hmem, rfl⟩ := List.mem_map.1 ht
    exact ⟨_, List.mem_map_of_mem hmem, (hhead head hmem).symm ▸ hm⟩

/-- Where its own words are identifiers, the text of a term shows the marks of its node and of its
parts. -/
theorem mem_marks_text {t : Term} (ht : t.Lexical)
    (hvalid : ∀ x ∈ t.enumerations, Identifier.requireAll x = .ok ()) :
    m ∈ marks t.text.toList ↔ m ∈ t.ownMarks ∨ ∃ s ∈ t.parts, m ∈ marks s.text.toList := by
  have hclose : marks ")".toList = [] := rfl
  have htexts (ts : List Term) : m ∈ marks (commaSeparated (texts ts)).toList ↔
      ∃ s ∈ ts, m ∈ marks s.text.toList := by
    rw [mem_marks_commaSeparated, texts_eq]
    simp
  cases t with
  | literal v =>
      have hvalid : ∀ x ∈ v.enumerations, Identifier.requireAll x = .ok () := by
        simpa [enumerations, constants, Constant.enumerations] using hvalid
      simpa [text, ownMarks, parts] using mem_marks_literal ht hvalid
  | entity s | iterator s => simp [text, ownMarks, parts, marks_identifier ht]
  | enumeration e =>
      have he : Identifier.requireAll e = .ok () := hvalid e (List.mem_singleton_self e)
      have hname := marks_identifier (require_of_requireAll he e.name List.mem_cons_self)
      simp [text, ownMarks, parts, hname]
  | set members =>
      have hmember : ∀ l ∈ members, m ∈ marks l.text.toList ↔ m ∈ literalMarks l := by
        intro l hl
        refine mem_marks_literal (ht l hl) fun x hx => hvalid x ?_
        exact Term.mem_enumerations.2 ⟨.literal l, List.mem_map_of_mem hl, hx⟩
      rw [text, marks_delimited (fun _ => rfl) rfl rfl, mem_marks_commaSeparated]
      simp only [List.mem_map, exists_exists_and_eq_and, ownMarks, parts, List.mem_flatMap,
        List.not_mem_nil, false_and, exists_false, or_false]
      exact exists_congr fun l => and_congr_right fun hl => hmember l hl
  | list ts =>
      rw [text, marks_delimited (fun _ => rfl) rfl rfl, htexts]
      simp [ownMarks, parts]
  | span float a b =>
      have hdots (s : List Char) : marks ("..".toList ++ s) = marks s := rfl
      rw [text, String.toList_append, String.toList_append, List.append_assoc,
        marks_append rfl, hdots]
      simp [ownMarks, parts]
  | unary op a =>
      cases op with
      | not | negate =>
          rw [text, unaryText, marks_delimited (fun _ => rfl) rfl rfl]
          simp [ownMarks, parts]
      | absolute =>
          have habs (s : List Char) : marks ("abs(".toList ++ s) = .call "abs" :: marks s := rfl
          rw [text, unaryText, String.toList_append, String.toList_append, List.append_assoc, habs,
            marks_append rfl, hclose]
          simp [ownMarks, parts]
  | binary op a b =>
      rw [text, mem_marks_binary]
      simp [ownMarks, parts]
  | element s ts =>
      have hopen (r : List Char) : marks ((s.word ++ "[").toList ++ r) = marks r := by
        rw [String.toList_append, List.append_assoc, marks_append rfl, marks_identifier ht]
        rfl
      rw [text, marks_delimited hopen rfl rfl, htexts]
      simp [ownMarks, parts]
  | call f ts =>
      have hcall (r : List Char) :
          marks (f.name.toList ++ ("(".toList ++ r)) = .call f.name :: marks r :=
        marks_application f r
      rw [text]
      simp only [String.toList_append, List.append_assoc]
      rw [hcall, marks_append rfl, hclose, List.append_nil, List.mem_cons, htexts]
      simp [ownMarks, parts]
  | comprehension op heads body =>
      rw [text, mem_marks_comprehension, mem_marks_heads ht]
      simp only [ownMarks, parts, List.mem_append, List.mem_singleton, or_and_right, exists_or,
        exists_eq_left]

/-- Where its words are identifiers, a term shows in its text what the nodes that it shows have as
their marks. -/
theorem mem_marks {t : Term} (ht : ∀ s, t.Shows s → s.Lexical)
    (hvalid : ∀ x ∈ t.enumerations, Identifier.requireAll x = .ok ()) :
    m ∈ marks t.text.toList ↔ t.Has (m ∈ ·.ownMarks) := by
  refine iff_has (P := fun s => m ∈ marks s.text.toList) fun s hs => ?_
  exact mem_marks_text (ht s hs) fun x hx => hvalid x (enumerations_of_shows hs hx)

/-! ## Marks of features -/

/-- A node is a call of a global constraint if it uses one. -/
theorem call_mem_ownMarks {kind : GlobalKind} {t : Term} :
    .call kind.name ∈ t.ownMarks ↔ .global kind ∈ t.ownFeatures := by
  have hliteral (v : Literal) :
      .call kind.name ∉ literalMarks v ∧ .global kind ∉ literalFeatures v := by
    cases v <;> simp [literalMarks, literalFeatures]
  cases t with
  | literal v => simp [ownMarks, ownFeatures, hliteral v]
  | set members => simp [ownMarks, ownFeatures, hliteral]
  | unary op a =>
      cases op with
      | absolute =>
          have habs : kind.name ≠ "abs" := by cases kind <;> decide
          simp [ownMarks, ownFeatures, habs]
      | not | negate => simp [ownMarks, ownFeatures]
  | call f ts =>
      rw [ownMarks, ownFeatures, List.mem_singleton, Mark.call.injEq, eq_comm,
        Function.name_eq_global]
      cases f <;> simp [Function.features, eq_comm]
  | comprehension op heads body =>
      have hop : kind.name ≠ op.name := by
        intro h
        cases Function.name_eq_global (f := .aggregate op).1 h.symm
      simp [ownMarks, ownFeatures, hop]
  | span float a b => simp [ownMarks, ownFeatures]
  | _ => simp [ownMarks, ownFeatures]

theorem not_mem_ownMarks (t : Term) : .floatType ∉ t.ownMarks ∧ .inclusion ∉ t.ownMarks := by
  have hliteral (v : Literal) : .floatType ∉ literalMarks v ∧ .inclusion ∉ literalMarks v := by
    cases v <;> simp [literalMarks]
  cases t with
  | literal v => exact hliteral v
  | set members => simp [ownMarks, hliteral]
  | unary op a => cases op <;> simp [ownMarks]
  | _ => simp [ownMarks]

end Term

end Source

/-! ## Spelled terms -/

section Spelling

variable {v : Vocabulary}

/-- Whether the words of symbols are identifiers. -/
def Symbol.AllValid (symbols : List Symbol) : Prop :=
  ∀ s ∈ symbols, Identifier.require s.word = .ok ()

theorem lexical_eq : Term.Lexical = Term.Worded fun w => Identifier.require w = .ok () := by
  funext t
  cases t <;> rfl

theorem nodeRules_lexical (hv : Symbol.AllValid v.symbols) :
    NodeRules v Symbol.AllValid Term.Lexical := by
  rw [lexical_eq]
  exact nodeRules_worded (W := fun w => Identifier.require w = .ok ()) hv (nextIterator_valid v)

end Spelling

end ConstraintModel
