import ConstraintModel.Proofs.Floats
import ConstraintModel.Proofs.Identifiers
import ConstraintModel.Proofs.MarkedTerms

/-!
# Features and inclusions

What a program uses can be read off its text. A global constraint is used if its name is called, and
floats are used if the text has one or their type, or if a range of floats is spelled. One file is
included for each global constraint that is used, in front of everything else.
-/

namespace ConstraintModel

open Source

/-! ## Statements -/

namespace Source

variable {m : Mark}

/-- A base shows that it is the type of floats, or what its term shows. -/
theorem mem_marks_base {b : Base} (hb : ∀ x ∈ b.enumerations, Identifier.require x.name = .ok ()) :
    m ∈ marks b.text.toList ↔
      (m = .floatType ∧ b = .type .float) ∨ ∃ t ∈ b.terms, m ∈ marks t.text.toList := by
  cases b with
  | span t => simp [Base.text, Base.terms]
  | type t =>
      cases t with
      | int =>
          have hint : marks (Base.text (.type .int)).toList = [] := rfl
          simp [hint, Base.terms]
      | bool =>
          have hbool : marks (Base.text (.type .bool)).toList = [] := rfl
          simp [hbool, Base.terms]
      | float =>
          have hfloat : marks (Base.text (.type .float)).toList = [.floatType] := rfl
          simp [hfloat, Base.terms]
      | enumeration x =>
          have hname := marks_identifier (hb x (List.mem_singleton_self x))
          simp [Base.text, ElemType.text, hname, Base.terms]

theorem marks_indexSets (shape : Shape) : marks shape.indexSets.toList = [] := by
  refine List.eq_nil_iff_forall_not_mem.2 fun m hm => ?_
  obtain ⟨s, hs, hm⟩ := mem_marks_commaSeparated.1 hm
  obtain ⟨n, -, rfl⟩ := List.mem_map.1 hs
  have hzero (r : List Char) : marks ("0..".toList ++ r) = marks r := rfl
  rw [Shape.indexSet, String.toList_append, hzero,
    marks_digits fun _ => isDigit_of_mem_toString] at hm
  cases hm

theorem marks_declaredType (type : DeclaredType) :
    marks type.text.toList = marks type.base.text.toList := by
  have hsearch (search : Bool) (r : List Char) :
      marks ((searchMark search).toList ++ r) = marks r := by
    cases search <;> rfl
  have harray (r : List Char) : marks ("array[".toList ++ r) = marks r := rfl
  have hof (r : List Char) : marks ("] of ".toList ++ r) = marks r := rfl
  have hset (r : List Char) : marks ("set of ".toList ++ r) = marks r := rfl
  cases type with
  | scalar search base =>
      rw [DeclaredType.text, String.toList_append, hsearch]
      rfl
  | array shape search base =>
      simp only [DeclaredType.text, String.toList_append, List.append_assoc]
      rw [harray, marks_append rfl, marks_indexSets, hof, hsearch]
      rfl
  | set search base =>
      simp only [DeclaredType.text, String.toList_append, List.append_assoc]
      rw [hsearch, hset]
      rfl

/-- A declaration shows what its base does, and its definition. -/
theorem mem_marks_declaration {d : Declaration}
    (hbase : ∀ x ∈ d.type.base.enumerations, Identifier.require x.name = .ok ())
    (hword : Identifier.require d.symbol.word = .ok ()) :
    m ∈ marks d.text.toList ↔
      (m = .floatType ∧ d.type.base = .type .float) ∨ ∃ t ∈ d.terms, m ∈ marks t.text.toList := by
  have hterms : d.type.terms = d.type.base.terms := by
    cases d.type <;> rfl
  have hcolon (r : List Char) : marks (": ".toList ++ r) = marks r := rfl
  have hequals (r : List Char) : marks (" = ".toList ++ r) = marks r := rfl
  have hend : marks ";".toList = [] := rfl
  have hnone : marks ("".toList ++ ";".toList) = [] := rfl
  have htext : m ∈ marks d.text.toList ↔ m ∈ marks d.type.base.text.toList ∨
      ∃ t ∈ d.definition.toList, m ∈ marks t.text.toList := by
    obtain ⟨type, symbol, definition⟩ := d
    cases definition with
    | none =>
        simp only [Declaration.text, String.toList_append, List.append_assoc]
        rw [marks_append rfl, marks_declaredType, hcolon, marks_append rfl, marks_identifier hword,
          hnone]
        simp
    | some t =>
        simp only [Declaration.text, String.toList_append, List.append_assoc]
        rw [marks_append rfl, marks_declaredType, hcolon, marks_append rfl, marks_identifier hword,
          hequals, marks_append rfl, hend]
        simp
  rw [htext, mem_marks_base hbase, Declaration.terms, hterms]
  simp only [List.mem_append, or_and_right, exists_or, or_assoc]

theorem marks_enumerationText {x : Enumeration} (hx : Identifier.requireAll x = .ok ()) :
    marks (enumerationText x).toList = [] := by
  have hvalid := require_of_requireAll hx
  have henum (r : List Char) : marks ("enum ".toList ++ r) = marks r := rfl
  have hopen (r : List Char) : marks (" = \x7b".toList ++ r) = marks r := rfl
  have hclose : marks "\x7d;".toList = [] := rfl
  have hvariants : marks (Term.commaSeparated x.variants).toList = [] := by
    refine List.eq_nil_iff_forall_not_mem.2 fun m hm => ?_
    obtain ⟨s, hs, hm⟩ := mem_marks_commaSeparated.1 hm
    rw [marks_identifier (hvalid s (List.mem_cons_of_mem _ hs))] at hm
    cases hm
  simp only [enumerationText, String.toList_append, List.append_assoc]
  rw [henum, marks_append rfl, marks_identifier (hvalid x.name List.mem_cons_self), hopen,
    marks_append rfl, hvariants, hclose]
  rfl

theorem marks_constraintText (t : Term) : marks (constraintText t).toList = marks t.text.toList :=
  marks_delimited (fun _ => rfl) rfl rfl _

theorem mem_marks_goal {g : Goal} :
    m ∈ marks g.text.toList ↔ ∃ t ∈ g.terms, m ∈ marks t.text.toList := by
  cases g with
  | satisfy =>
      have hsatisfy : marks (Goal.text .satisfy).toList = [] := rfl
      simp [hsatisfy, Goal.terms]
  | minimize t | maximize t =>
      unfold Goal.text
      rw [marks_delimited (fun _ => rfl) rfl rfl]
      simp [Goal.terms]

/-! ## Programs -/

namespace Program

/-- Whether the words that a program declares, and those of the types that it declares them with, are
identifiers. -/
structure Worded (p : Program) : Prop where
  enumerations : ∀ x ∈ p.enumerations, Identifier.requireAll x = .ok ()
  entities : ∀ d ∈ p.declarations, Identifier.require d.symbol.word = .ok ()
  types : ∀ d ∈ p.declarations, ∀ x ∈ d.type.base.enumerations,
    Identifier.require x.name = .ok ()

/-- Whether an entity of a program is declared with the type of floats. -/
def DeclaresFloat (p : Program) : Prop :=
  ∃ d ∈ p.declarations, d.type.base = .type .float

/-- What is gathered from all statements is gathered from the types of floats and the terms, if that is
so for each declaration. -/
theorem exists_statement_iff {p : Program} {D : Declaration → Prop} {P : Term → Prop} {F : Prop}
    (hD : ∀ d ∈ p.declarations,
      (D d ↔ (F ∧ d.type.base = .type .float) ∨ ∃ t ∈ d.terms, P t)) :
    ((∃ d ∈ p.declarations, D d) ∨ (∃ d ∈ p.decisions, ∃ t ∈ d.equation?.toList, P t) ∨
      (∃ t ∈ p.constraints, P t) ∨ ∃ t ∈ p.goal.terms, P t) ↔
      (F ∧ p.DeclaresFloat) ∨ ∃ t ∈ p.terms, P t := by
  have hdeclarations : (∃ d ∈ p.declarations, D d) ↔
      (F ∧ p.DeclaresFloat) ∨ ∃ d ∈ p.declarations, ∃ t ∈ d.terms, P t := by
    rw [exists_congr fun d => and_congr_right (hD d)]
    simp only [and_or_left, exists_or, DeclaresFloat, ← exists_and_left, and_left_comm]
  have hterms : (∃ t ∈ p.terms, P t) ↔ (∃ d ∈ p.declarations, ∃ t ∈ d.terms, P t) ∨
      (∃ d ∈ p.decisions, ∃ t ∈ d.equation?.toList, P t) ∨
      (∃ t ∈ p.constraints, P t) ∨ ∃ t ∈ p.goal.terms, P t := by
    simp only [mem_terms, or_and_right, exists_or]
    grind
  rw [hdeclarations, hterms, or_assoc]

/-- A program uses floats if it declares some, and otherwise what its terms use. -/
theorem mem_features {p : Program} {f : Feature} :
    f ∈ p.features ↔ (f = .floats ∧ p.DeclaresFloat) ∨ ∃ t ∈ p.terms, f ∈ t.features := by
  have hbase (d : Declaration) : f ∈ d.features ↔
      (f = .floats ∧ d.type.base = .type .float) ∨ ∃ t ∈ d.terms, f ∈ t.features := by
    have htype : f ∈ d.type.features ↔
        (f = .floats ∧ d.type.base = .type .float) ∨ ∃ t ∈ d.type.terms, f ∈ t.features := by
      cases d.type <;> rename_i base <;> rcases base with (_ | _ | _ | _) | t <;>
        simp [DeclaredType.features, DeclaredType.base, DeclaredType.terms, Base.features,
          Base.terms]
    rw [Declaration.features, List.mem_append, htype, Declaration.terms]
    simp only [List.mem_append, List.mem_flatMap, or_and_right, exists_or, or_assoc]
  rw [← exists_statement_iff fun d _ => hbase d]
  have hgoal : f ∈ p.goal.features ↔ ∃ t ∈ p.goal.terms, f ∈ t.features := by
    cases p.goal <;> simp [Goal.features, Goal.terms]
  simp only [features, declarations, VariableDeclaration.features, List.mem_append,
    List.mem_flatMap, List.mem_map, hgoal]
  grind

/-- The statements show the types of floats that are declared, and what the terms show. -/
theorem mem_marks_statements {p : Program} (hp : p.Worded) :
    (∃ line ∈ p.statements, m ∈ marks line.toList) ↔
      (m = .floatType ∧ p.DeclaresFloat) ∨ ∃ t ∈ p.terms, m ∈ marks t.text.toList := by
  have henumerations : ¬ ∃ x ∈ p.enumerations, m ∈ marks (enumerationText x).toList := by
    rintro ⟨x, hx, hm⟩
    rw [marks_enumerationText (hp.enumerations x hx)] at hm
    cases hm
  have hlines (d : VariableDeclaration) : (∃ line ∈ d.lines, m ∈ marks line.toList) ↔
      m ∈ marks d.declaration.text.toList ∨
        ∃ t ∈ d.equation?.toList, m ∈ marks t.text.toList := by
    rw [VariableDeclaration.lines]
    cases d.equation? <;> simp [marks_constraintText]
  rw [← exists_statement_iff fun d hd => mem_marks_declaration (hp.types d hd) (hp.entities d hd)]
  have hdecisions : (∃ line ∈ p.decisions.flatMap VariableDeclaration.lines,
      m ∈ marks line.toList) ↔ (∃ d ∈ p.decisions, m ∈ marks d.declaration.text.toList) ∨
        ∃ d ∈ p.decisions, ∃ t ∈ d.equation?.toList, m ∈ marks t.text.toList := by
    simp only [List.mem_flatMap, ← exists_or, ← and_or_left, ← hlines]
    grind
  simp only [statements, declarations, List.mem_append, or_and_right, exists_or, List.mem_map,
    exists_exists_and_eq_and, henumerations, false_or, hdecisions, marks_constraintText,
    List.mem_singleton, exists_eq_left, mem_marks_goal]
  grind

/-! ## Inclusions -/

/-- The global constraints that a program uses, in the order of their kinds. -/
def required (p : Program) : List GlobalKind :=
  GlobalKind.all.filter fun kind => p.features.contains (.global kind)

theorem mem_required {p : Program} {kind : GlobalKind} :
    kind ∈ p.required ↔ .global kind ∈ p.features := by
  have hall : kind ∈ GlobalKind.all := by cases kind <;> decide
  rw [required, List.mem_filter, and_iff_right hall, List.contains_iff_mem]

theorem required_nodup (p : Program) : p.required.Nodup := by
  have hall : GlobalKind.all.Nodup := by decide
  exact hall.filter _

/-- The line that includes the file of a global constraint. -/
def includeLine (kind : GlobalKind) : String :=
  "include \"" ++ kind.file ++ "\";"

theorem includeLines_features (p : Program) :
    Feature.includeLines p.features = p.required.map includeLine := by
  have hfile (kind : GlobalKind) : ((Feature.global kind).file?.map fun file =>
      "include \"" ++ file ++ "\";") = some (includeLine kind) := rfl
  have hfloats : ([Feature.floats].filter (p.features.contains ·)).filterMap
      (fun f => f.file?.map fun file => "include \"" ++ file ++ "\";") = [] := by
    rw [List.filter_singleton]
    cases p.features.contains .floats <;> rfl
  rw [Feature.includeLines, Feature.ordered, Feature.all, List.filter_append,
    List.filterMap_append, hfloats, List.append_nil, List.filter_map, List.filterMap_map]
  simp only [required, Function.comp_def, hfile, List.filterMap_eq_map']

theorem marks_includeLine (kind : GlobalKind) :
    marks (includeLine kind).toList = [.inclusion] := by
  cases kind <;> rfl

/-- The lines that include files show nothing else, so the rest is shown by statements. -/
theorem mem_marks_text {p : Program} (hm : m ≠ .inclusion) :
    m ∈ marks p.text.toList ↔ ∃ line ∈ p.statements, m ∈ marks line.toList := by
  have hincludes : ¬ ∃ line ∈ Feature.includeLines p.features, m ∈ marks line.toList := by
    rw [includeLines_features]
    rintro ⟨line, hline, hmark⟩
    obtain ⟨kind, -, rfl⟩ := List.mem_map.1 hline
    rw [marks_includeLine, List.mem_singleton] at hmark
    exact hm hmark
  rw [text, String.toList_intercalate, mem_marks_intercalate (fun _ => rfl) (fun _ => rfl), lines]
  simp only [List.mem_map, exists_exists_and_eq_and, List.mem_append, or_and_right, exists_or,
    hincludes, false_or]

end Program

end Source

/-! ## Features of terms -/

section Terms

variable {t : Term}

theorem global_mem_features {kind : GlobalKind} :
    .global kind ∈ t.features ↔ t.Has (.call kind.name ∈ ·.ownMarks) := by
  rw [Term.mem_features]
  exact Term.has_congr fun _ => Term.call_mem_ownMarks.symm

/-- A term uses floats if it has a literal or a range of them; sets do not count. -/
theorem floats_mem_features :
    .floats ∈ t.features ↔ t.HasFloat .literal ∨ t.HasFloat .range := by
  have hnode (s : Term) : .floats ∈ s.ownFeatures ↔ s.IsFloat .literal ∨ s.IsFloat .range := by
    cases s with
    | literal l =>
        cases l <;> simp [Term.ownFeatures, literalFeatures, Term.IsFloat, Literal.elemType]
    | span float _ _ => cases float <;> simp [Term.ownFeatures, Term.IsFloat]
    | call f _ => cases f <;> simp [Term.ownFeatures, Function.features, Term.IsFloat]
    | _ => simp [Term.ownFeatures, Term.IsFloat]
  rw [Term.mem_features, Term.has_congr hnode, Term.has_or]
  rfl

/-- A text has float literals where its term has them, or a set of them. -/
theorem has_floatLiteral : t.Has (.floatLiteral ∈ ·.ownMarks) ↔
    t.HasFloat .literal ∨ t.HasFloat .member := by
  have hliteral (l : Literal) : .floatLiteral ∈ Term.literalMarks l ↔ l.elemType = .float := by
    cases l <;> simp [Term.literalMarks, Literal.elemType]
  have hnode (s : Term) :
      .floatLiteral ∈ s.ownMarks ↔ s.IsFloat .literal ∨ s.IsFloat .member := by
    cases s with
    | literal l => simp [Term.ownMarks, Term.IsFloat, hliteral]
    | set members => simp [Term.ownMarks, Term.IsFloat, hliteral]
    | unary op _ => cases op <;> simp [Term.ownMarks, Term.IsFloat]
    | _ => simp [Term.ownMarks, Term.IsFloat]
  rw [Term.has_congr hnode, Term.has_or]
  rfl

end Terms

/-! ## Compiled models -/

section Compiled

variable {r : ResolvedModel} {p : Program}

/-- The terms of a program have the floats of the expressions that are spelled. -/
theorem program_floats (hp : r.program = .ok p) (form : FloatForm) :
    (∃ t ∈ p.terms, t.HasFloat form) ↔ ∃ e ∈ r.spelled, e.HasFloat form := by
  have hequation (s : Symbol) (t : Term) :
      (Term.binary .eq (.entity s) t).HasFloat form ↔ t.HasFloat form := by
    have hentity : ¬ (Term.entity s).HasFloat form := by
      rw [Term.hasFloat_parts id]
      simp [Term.parts]
    rw [(collects_hasFloat form).binary, or_iff_right hentity]
  constructor
  · rintro ⟨t, ht, hfloat⟩
    cases shows_of_mem_terms hp ht with
    | spelled he heq => exact ⟨_, he, (term_floats heq).1 hfloat⟩
    | interval _ _ =>
        rw [(collects_hasFloat form).span] at hfloat
        rcases hfloat with hfloat | hfloat
        · exact absurd hfloat ((collects_hasFloat form).int _)
        · exact absurd hfloat ((collects_hasFloat form).int _)
    | equation hentry heq =>
        rw [hequation] at hfloat
        exact ⟨_, mem_spelled.2 (.inr (.inl ⟨_, hentry, rfl⟩)), (term_floats heq).1 hfloat⟩
  · rintro ⟨e, he, hfloat⟩
    obtain ⟨t, heq, ht | ⟨s, ht⟩⟩ := exists_term_of_spelled hp he
    · exact ⟨t, ht, (term_floats heq).2 hfloat⟩
    · exact ⟨_, ht, (hequation s t).2 ((term_floats heq).2 hfloat)⟩

/-- Where all words of a resolved model are identifiers, its terms are lexical. -/
theorem program_lexical (hp : r.program = .ok p) (hwords : Symbol.AllValid r.symbols)
    (hentries : ∀ s ∈ (r.parameters ++ r.decisions).filterMap entrySymbol?, s ∈ r.symbols) :
    ∀ t ∈ p.terms, ∀ s, t.Shows s → s.Lexical := by
  refine program_nodes (nodeRules_lexical hwords) (by simp [Symbol.AllValid]) hp ?_
  intro name id type value hentry
  exact hentries _ (List.mem_filterMap.2 ⟨_, List.mem_append_right _ hentry, rfl⟩)

variable {model : Model} {n n' : Nat} {c : CompiledModel}

theorem compile_worded (h : model.compile.run n = (.ok c, n')) : c.program.Worded := by
  obtain ⟨hresolve, hprogram⟩ := compile_eq_ok h
  obtain ⟨-, -, -, henumerations, -⟩ := resolve_eq_ok hresolve
  obtain ⟨-, hperm, hwords⟩ := resolve_words hresolve
  rw [← program_enumerations hprogram] at henumerations
  refine ⟨henumerations, fun d hd => ?_, fun d hd x hx => ?_⟩
  · have hmem : d.symbol ∈ c.program.declarations.map Declaration.symbol :=
      List.mem_map_of_mem hd
    rw [symbols_declarations (declarations_eq hprogram), hperm.mem_iff] at hmem
    exact hwords _ (List.mem_append_left _ (List.mem_map_of_mem hmem))
  · -- An enumeration that a type mentions shares its name with one that is declared.
    have hmentioned : x ∈ c.program.mentioned :=
      List.mem_append_left _ (List.mem_flatMap.2 ⟨d, hd, hx⟩)
    obtain ⟨e, -, hfilter, -⟩ :=
      declared_of_mem_reach h (mentioned_subset_reach hprogram hmentioned)
    have he : e ∈ c.program.enumerations.filter (·.name == x.name) := by simp [hfilter]
    rw [List.mem_filter, beq_iff_eq] at he
    rw [← he.2]
    exact require_of_requireAll (henumerations e he.1) e.name List.mem_cons_self

theorem compile_lexical (h : model.compile.run n = (.ok c, n')) :
    ∀ t ∈ c.program.terms, ∀ s, t.Shows s → s.Lexical := by
  obtain ⟨hresolve, hprogram⟩ := compile_eq_ok h
  obtain ⟨-, hperm, hwords⟩ := resolve_words hresolve
  exact program_lexical hprogram
    (fun s hs => hwords _ (List.mem_append_left _ (List.mem_map_of_mem hs)))
    fun s hs => hperm.mem_iff.1 hs

/-- The statements of a compiled model show the types of floats that are declared, and what the nodes
of its terms show. -/
theorem compile_marks (h : model.compile.run n = (.ok c, n'))
    (hvalid : ∀ t ∈ c.program.terms, ∀ x ∈ t.enumerations, x ∉ c.program.enumerations →
      Identifier.requireAll x = .ok ()) {m : Mark} :
    (∃ line ∈ c.program.statements, m ∈ marks line.toList) ↔
      (m = .floatType ∧ c.program.DeclaresFloat) ∨
        ∃ t ∈ c.program.terms, t.Has (m ∈ ·.ownMarks) := by
  have hworded := compile_worded h
  have henumerations : ∀ t ∈ c.program.terms, ∀ x ∈ t.enumerations,
      Identifier.requireAll x = .ok () := by
    intro t ht x hx
    by_cases hdeclared : x ∈ c.program.enumerations
    · exact hworded.enumerations x hdeclared
    · exact hvalid t ht x hx hdeclared
  rw [Program.mem_marks_statements hworded]
  refine or_congr_right (exists_congr fun t => and_congr_right fun ht => ?_)
  exact Term.mem_marks (compile_lexical h t ht) (henumerations t ht)

/-- What a compiled model uses is what its text shows. A global constraint is used exactly if a
statement calls it. Floats are used exactly if the text has a float literal or the type of floats, or
if a range of floats is spelled; the bounds of slices do not count. The text begins with one inclusion
for each global constraint that is used, in their order, and no statement has one. The sets that
are spelled have to be made by their constructor, and an enumeration that is shown without being
declared has to have identifiers as its words. -/
theorem compile_features (h : model.compile.run n = (.ok c, n'))
    (hsets : ∀ e ∈ c.resolved.spelled, ∀ values, e.Shows (.setLiteral values) →
      Expr.setOf values = .ok (.setLiteral values))
    (hvalid : ∀ t ∈ c.program.terms, ∀ x ∈ t.enumerations, x ∉ c.program.enumerations →
      Identifier.requireAll x = .ok ()) :
    (∀ kind, .global kind ∈ c.program.features ↔
      ∃ line ∈ c.program.statements, .call kind.name ∈ marks line.toList) ∧
    (.floats ∈ c.program.features ↔
      .floatLiteral ∈ marks c.program.text.toList ∨ .floatType ∈ marks c.program.text.toList ∨
        ∃ e ∈ c.resolved.spelled, ∃ start stop, e.Shows (.range start stop) ∧
          (Expr.range start stop).elemType = .ok .float) ∧
    (∀ kind, kind ∈ c.program.required ↔ .global kind ∈ c.program.features) ∧
    c.program.required.Nodup ∧
    c.program.text =
      "\n".intercalate (c.program.required.map Program.includeLine ++ c.program.statements) ∧
    ∀ line ∈ c.program.statements, .inclusion ∉ marks line.toList := by
  have hmarks {m : Mark} := compile_marks h hvalid (m := m)
  have hfloats (form : FloatForm) := program_floats (compile_eq_ok h).2 form
  refine ⟨fun kind => ?_, ?_, fun _ => Program.mem_required, c.program.required_nodup, ?_,
    fun line hline hm => ?_⟩
  · rw [hmarks, Program.mem_features]
    simp [global_mem_features]
  · have hmember : ¬ ∃ e ∈ c.resolved.spelled, e.HasFloat .member :=
      fun ⟨e, he, hfloat⟩ => not_hasFloat_member (hsets e he) hfloat
    have htype : ¬ ∃ t ∈ c.program.terms, t.Has (.floatType ∈ ·.ownMarks) :=
      fun ⟨_, _, s, _, hs⟩ => (Term.not_mem_ownMarks s).1 hs
    have hliteral : .floatLiteral ∈ marks c.program.text.toList ↔
        ∃ e ∈ c.resolved.spelled, e.HasFloat .literal := by
      rw [Program.mem_marks_text (by decide), hmarks]
      simp only [has_floatLiteral, and_or_left, exists_or, hfloats, hmember, or_false,
        reduceCtorEq, false_and, false_or]
    have hdeclared : .floatType ∈ marks c.program.text.toList ↔ c.program.DeclaresFloat := by
      rw [Program.mem_marks_text (by decide), hmarks, or_iff_left htype]
      simp
    rw [Program.mem_features, hliteral, hdeclared]
    simp only [floats_mem_features, and_or_left, exists_or, hfloats, Expr.hasFloat_range, true_and]
    exact or_left_comm
  · rw [Program.text, Program.lines, Program.includeLines_features]
  · obtain ⟨hm, -⟩ | ⟨t, -, s, -, hs⟩ := hmarks.1 ⟨line, hline, hm⟩
    · cases hm
    · exact (Term.not_mem_ownMarks s).2 hs

/-- A quotient of two parameters, which is a float. -/
def ratio : Expr :=
  .binary .divide (.param ⟨0⟩ (.int 4)) (.param ⟨1⟩ (.int 2))

def row : Expr :=
  .varArray ⟨2⟩ .int ⟨[5]⟩

/-- Calls of two global constraints, one of them twice, and a variable over a range of floats. -/
def tunedModel : Model where
  attributes := [("p", .param ⟨0⟩ (.int 4)), ("q", .param ⟨1⟩ (.int 2)), ("a", row),
    ("x", .var ⟨3⟩ (.range (.literal (.int 0)) ratio))]
  constraints := [.global .circuit [row],
    .global .allDifferentExcept [row, .setLiteral [.int 1, .int 3]], .global .circuit [row]]
  objective := .satisfy

/-- What the model prints, at any depth. -/
def tunedParts : List Expr :=
  [.range (.literal (.int 0)) ratio, .literal (.int 0), ratio, .param ⟨0⟩ (.int 4),
    .param ⟨1⟩ (.int 2), .global .circuit [row], row,
    .global .allDifferentExcept [row, .setLiteral [.int 1, .int 3]], .setLiteral [.int 1, .int 3]]

theorem compile_features_tunedModel : ∃ c n', tunedModel.compile.run 4 = (.ok c, n') ∧
    c.program.statements = ["int: p;", "int: q;", "array[0..4] of var int: a;",
      "var 0..(p / q): x;", "constraint circuit(a);",
      "constraint alldifferent_except(array1d(a), \x7b1, 3\x7d);", "constraint circuit(a);",
      "solve satisfy;"] ∧
    c.program.text = "\n".intercalate (["include \"alldifferent_except.mzn\";",
      "include \"circuit.mzn\";"] ++ c.program.statements) ∧
    .floats ∈ c.program.features ∧
    ∃ line ∈ c.program.statements, .call "circuit" ∈ marks line.toList := by
  refine ⟨_, _, rfl, by decide, ?_⟩
  have hclosed : ∀ e ∈ tunedParts, ∀ s ∈ e.parts ++ e.selectors, s ∈ tunedParts := by
    simp [tunedParts, Expr.parts, Expr.selectors, ratio, row]
  have hsets (e : Expr) (he : e ∈ tunedParts) (values : List Literal)
      (hs : e.Shows (.setLiteral values)) :
      Expr.setOf values = .ok (.setLiteral values) := by
    have hmem := Expr.mem_of_shows hclosed he hs
    obtain rfl : values = [.int 1, .int 3] := by simpa [tunedParts, ratio, row] using hmem
    rfl
  have hspelled : (.range (.literal (.int 0)) ratio :: tunedModel.constraints) ⊆ tunedParts := by
    simp [tunedParts, tunedModel]
  obtain ⟨hglobals, hfloats, -, -, htext, -⟩ :=
    compile_features (rfl : tunedModel.compile.run 4 = (.ok _, _))
      (fun e he => hsets e (hspelled he)) (by decide)
  refine ⟨htext, hfloats.2 (.inr (.inr ?_)), (hglobals .circuit).1 (by decide)⟩
  exact ⟨_, List.mem_cons_self, _, _, .refl, rfl⟩

def slicedRow : Expr :=
  .view row [.slice (.literal (.int 0)) ratio]

def slicedModel : Model where
  attributes := [("p", .param ⟨0⟩ (.int 4)), ("q", .param ⟨1⟩ (.int 2)), ("a", row)]
  constraints := [.binary .eq (.aggregate .sum [slicedRow]) (.literal (.int 0))]
  objective := .satisfy

/-- The range of a slice that the selection has made has floats, and is printed as if it had
integers; no use of floats is noted. -/
theorem slicedModel_unmarked :
    row.select [.slice none (some ratio) none] = .ok slicedRow ∧
    (∃ c n', slicedModel.compile.run 3 = (.ok c, n') ∧
      c.program.lines = ["int: p;", "int: q;", "array[0..4] of var int: a;",
        "constraint (sum(slice_1d(a, [0..((p / q) - 1)], 0..((p / q) - 1))) == 0);",
        "solve satisfy;"] ∧
      .floats ∉ c.program.features) ∧
    (Expr.range (.literal (.int 0)) ratio).elemType = .ok .float :=
  ⟨rfl, ⟨_, _, rfl, by decide, by decide⟩, rfl⟩

end Compiled

end ConstraintModel
