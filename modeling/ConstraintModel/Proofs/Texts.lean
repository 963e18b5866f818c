import ConstraintModel.Proofs.Inclusions

/-!
# Texts of programs

All texts of a program are put together in a few ways: something stands around a text, between two
texts or in front of one. A property of texts that these ways keep, and that names, numbers and
fixed words have, is one of every statement up to its semicolon.
-/

namespace ConstraintModel

open Source

namespace Source

/-! ## Rules -/

/-- What stands around texts, maybe with a text in front of it. -/
def enclosures : List (String × String) :=
  [("(", ")"), ("[", "]"), ("\x7b", "\x7d"), ("([", "])"), ("(not ", ")"), ("(-", ")")]

/-- What stands between texts. -/
def joints : List String :=
  ["..", " in ", " | ", " of ", ": ", " = "] ++ BinaryOp.all.map fun op => " " ++ op.symbol ++ " "

/-- What stands in front of texts. -/
def openings : List String :=
  ["var ", "set of ", "enum ", "constraint ", "solve minimize ", "solve maximize "]

/-- The words of statements and terms that are no names. -/
def fixedTexts : List String :=
  ["", "0", "abs", "array", "bool", "false", "float", "int", "solve satisfy", "true"]

/-- A property of texts that the texts of programs have, once it holds of the names in them. -/
structure TextRules (P : String → Prop) : Prop where
  applied : ∀ p ∈ enclosures, ∀ f s, P f → P s → P (f ++ p.1 ++ s ++ p.2)
  joined : ∀ sep ∈ joints, ∀ s t, P s → P t → P (s ++ sep ++ t)
  opened : ∀ a ∈ openings, ∀ s, P s → P (a ++ s)
  separated : ∀ items, (∀ s ∈ items, P s) → P (Term.commaSeparated items)
  fixed : ∀ s ∈ fixedTexts, P s
  function : ∀ f : Function, P f.name
  number : ∀ n : Nat, P (toString n)
  literal : ∀ l : Literal, l.requireFinite = .ok () → l.enumerations = [] → P l.text
  iterator : ∀ (v : Vocabulary) (scope : Scope), P (v.nextIterator scope)
  inclusion : ∀ kind : GlobalKind, P ("include \"" ++ kind.file ++ "\"")

/-- The words of an enumeration. -/
def enumerationNames (x : Enumeration) : List String :=
  x.name :: x.variants

namespace TextRules

variable {P : String → Prop} (rules : TextRules P)

include rules

theorem enclosed {p : String × String} (hp : p ∈ enclosures) {s : String} (hs : P s) :
    P (p.1 ++ s ++ p.2) := by
  have h := rules.applied p hp "" s (rules.fixed "" (by decide)) hs
  rwa [String.empty_append] at h

/-! ## Terms -/

theorem unary {op : UnaryOp} {a : String} (ha : P a) : P (Term.unaryText op a) := by
  cases op with
  | not => exact rules.enclosed (p := ("(not ", ")")) (by decide) ha
  | negate => exact rules.enclosed (p := ("(-", ")")) (by decide) ha
  | absolute => exact rules.applied ("(", ")") (by decide) "abs" a (rules.fixed _ (by decide)) ha

theorem binary {op : BinaryOp} {a b : String} (ha : P a) (hb : P b) :
    P ("(" ++ a ++ " " ++ op.symbol ++ " " ++ b ++ ")") := by
  have hjoint : " " ++ op.symbol ++ " " ∈ joints :=
    List.mem_append_right _ (List.mem_map.2 ⟨op, by cases op <;> decide, rfl⟩)
  have h := rules.enclosed (p := ("(", ")")) (by decide) (rules.joined _ hjoint a b ha hb)
  simpa only [String.append_assoc] using h

theorem comprehension {op : Aggregate} {heads body : String} (hheads : P heads) (hbody : P body) :
    P (Term.comprehensionText op heads body) := by
  have hname : P op.name := rules.function (.aggregate op)
  cases op with
  | least | greatest =>
      have hjoint := rules.joined " | " (by decide) body heads hbody hheads
      have h := rules.applied ("([", "])") (by decide) _ _ hname hjoint
      simpa only [Term.comprehensionText, String.append_assoc] using h
  | sum | product | count | every | any =>
      have hcall := rules.applied ("(", ")") (by decide) _ _ hname hheads
      have h := rules.applied ("(", ")") (by decide) _ _ hcall hbody
      have hseam : ")(" = ")" ++ "(" := rfl
      simpa only [Term.comprehensionText, hseam, String.append_assoc] using h

theorem literal_text {l : Literal} (hl : l.requireFinite = .ok ())
    (hnames : ∀ x ∈ l.enumerations, ∀ w ∈ enumerationNames x, P w) : P l.text := by
  cases l with
  | enumeration v =>
      exact hnames v.type (List.mem_singleton_self _) v.name (List.mem_cons_of_mem _ v.name_mem)
  | int v | float v | bool v => exact rules.literal _ hl rfl

/-- The text of a term has the property, if its nodes and the enumerations in it do. -/
theorem term {t : Term} (ht : ∀ s, t.Shows s → s.Worded P)
    (hnames : ∀ x ∈ t.enumerations, ∀ w ∈ enumerationNames x, P w) : P t.text := by
  -- A node puts the texts of its parts together and adds words that it has by itself (`hnode`).
  induction t using Term.parts_induction with
  | step t ih =>
      have hparts : ∀ s ∈ t.parts, P s.text := fun s hs =>
        ih s hs (fun u hu => ht u (.head hs hu))
          fun x hx => hnames x (Term.enumerations_of_mem_parts hs hx)
      have hitems (ts : List Term) (hts : ∀ s ∈ ts, s ∈ t.parts) :
          P (Term.commaSeparated (Term.texts ts)) := by
        rw [Term.texts_eq]
        exact rules.separated _ (List.forall_mem_map.2 fun s hs => hparts s (hts s hs))
      have hnode := ht t .refl
      cases t with
      | literal v =>
          refine rules.literal_text hnode fun x hx => hnames x ?_
          exact Term.mem_enumerations.2 ⟨.literal v, List.mem_singleton_self _, hx⟩
      | entity s | iterator s => exact hnode
      | enumeration e => exact hnames e (List.mem_singleton_self e) e.name List.mem_cons_self
      | set members =>
          refine rules.enclosed (p := ("\x7b", "\x7d")) (by decide) (rules.separated _ ?_)
          refine List.forall_mem_map.2 fun l hl => rules.literal_text (hnode l hl) fun x hx => ?_
          exact hnames x (Term.mem_enumerations.2 ⟨.literal l, List.mem_map_of_mem hl, hx⟩)
      | list ts =>
          exact rules.enclosed (p := ("[", "]")) (by decide) (hitems ts fun _ hs => hs)
      | span float a b =>
          exact rules.joined ".." (by decide) _ _ (hparts a (by simp [Term.parts]))
            (hparts b (by simp [Term.parts]))
      | unary op a => exact rules.unary (hparts a (List.mem_singleton_self a))
      | binary op a b =>
          exact rules.binary (hparts a (by simp [Term.parts])) (hparts b (by simp [Term.parts]))
      | element s ts =>
          exact rules.applied ("[", "]") (by decide) _ _ hnode (hitems ts fun _ hs => hs)
      | call f ts =>
          exact rules.applied ("(", ")") (by decide) _ _ (rules.function f)
            (hitems ts fun _ hs => hs)
      | comprehension op heads body =>
          refine rules.comprehension ?_ (hparts body (by simp [Term.parts]))
          rw [Term.headTexts_eq]
          refine rules.separated _ (List.forall_mem_map.2 fun head hhead => ?_)
          refine rules.joined " in " (by decide) _ _ (hnode head hhead) (hparts head.2 ?_)
          exact List.mem_append_left _ (List.mem_map_of_mem hhead)

/-! ## Statements -/

theorem base {b : Base} (hb : ∀ x ∈ b.enumerations, P x.name) (hterms : ∀ t ∈ b.terms, P t.text) :
    P b.text := by
  cases b with
  | span t => exact hterms t (List.mem_singleton_self t)
  | type type =>
      cases type with
      | int | bool | float => exact rules.fixed _ (by decide)
      | enumeration x => exact hb x (List.mem_singleton_self x)

theorem declaredType {type : DeclaredType} (hbase : P type.base.text) : P type.text := by
  have hsearch (search : Bool) {s : String} (hs : P s) : P (searchMark search ++ s) := by
    cases search
    · rwa [searchMark, if_neg Bool.false_ne_true, String.empty_append]
    · exact rules.opened "var " (by decide) s hs
  cases type with
  | scalar search base => exact hsearch search hbase
  | array shape search base =>
      have hsets : P shape.indexSets := by
        refine rules.separated _ (List.forall_mem_map.2 fun n _ => ?_)
        exact rules.joined ".." (by decide) "0" _ (rules.fixed _ (by decide)) (rules.number _)
      have hword : P "array" := rules.fixed _ (by decide)
      have harray := rules.applied ("[", "]") (by decide) "array" _ hword hsets
      have h := rules.joined " of " (by decide) _ _ harray (hsearch search hbase)
      have hopen : "array[" = "array" ++ "[" := rfl
      have hclose : "] of " = "]" ++ " of " := rfl
      simpa only [DeclaredType.text, DeclaredType.base, hopen, hclose, String.append_assoc] using h
  | set search base =>
      have h := hsearch search (rules.opened "set of " (by decide) _ hbase)
      simpa only [DeclaredType.text, DeclaredType.base, String.append_assoc] using h

/-- A declaration up to its semicolon. -/
theorem declaration {d : Declaration} (hword : P d.symbol.word)
    (hbase : ∀ x ∈ d.type.base.enumerations, P x.name) (hterms : ∀ t ∈ d.terms, P t.text) :
    ∃ s, d.text = s ++ ";" ∧ P s := by
  have hsame : d.type.terms = d.type.base.terms := by
    cases d.type <;> rfl
  have htype : P d.type.text := rules.declaredType (rules.base hbase fun t ht =>
    hterms t (List.mem_append_left _ (hsame ▸ ht)))
  have htyped := rules.joined ": " (by decide) _ _ htype hword
  obtain ⟨type, symbol, definition⟩ := d
  cases definition with
  | none => exact ⟨_, by simp [Declaration.text], htyped⟩
  | some t =>
      have ht := hterms t (List.mem_append_right _ (List.mem_singleton_self t))
      refine ⟨_, ?_, rules.joined " = " (by decide) _ _ htyped ht⟩
      simp only [Declaration.text, String.append_assoc]

theorem enumerationText {x : Enumeration} (hx : ∀ w ∈ enumerationNames x, P w) :
    ∃ s, enumerationText x = s ++ ";" ∧ P s := by
  obtain ⟨hname, hvariants⟩ := List.forall_mem_cons.1 hx
  have hset := rules.enclosed (p := ("\x7b", "\x7d")) (by decide) (rules.separated _ hvariants)
  have h := rules.opened "enum " (by decide) _ (rules.joined " = " (by decide) _ _ hname hset)
  refine ⟨_, ?_, h⟩
  have hopen : " = \x7b" = " = " ++ "\x7b" := rfl
  have hclose : "\x7d;" = "\x7d" ++ ";" := rfl
  simp only [Source.enumerationText, hopen, hclose, String.append_assoc]

theorem constraint {t : Term} (ht : P t.text) : ∃ s, constraintText t = s ++ ";" ∧ P s :=
  ⟨_, rfl, rules.opened "constraint " (by decide) _ ht⟩

theorem goal {g : Goal} (hterms : ∀ t ∈ g.terms, P t.text) : ∃ s, g.text = s ++ ";" ∧ P s := by
  cases g with
  | satisfy => exact ⟨"solve satisfy", rfl, rules.fixed _ (by decide)⟩
  | minimize t =>
      exact ⟨_, rfl, rules.opened "solve minimize " (by decide) _ (hterms t (by simp [Goal.terms]))⟩
  | maximize t =>
      exact ⟨_, rfl, rules.opened "solve maximize " (by decide) _ (hterms t (by simp [Goal.terms]))⟩

theorem includeLine (kind : GlobalKind) : ∃ s, Program.includeLine kind = s ++ ";" ∧ P s := by
  refine ⟨_, ?_, rules.inclusion kind⟩
  have hend : "\";" = "\"" ++ ";" := rfl
  simp only [Program.includeLine, hend, String.append_assoc]

end TextRules

/-! ## Programs -/

namespace Program

/-- The enumerations that a program shows in the types of declarations and in terms. -/
def shown (p : Program) : List Enumeration :=
  p.declarations.flatMap (fun d => d.type.base.enumerations) ++ p.terms.flatMap Term.enumerations

/-- The names that a program declares or shows. -/
def names (p : Program) : List String :=
  p.identifiers ++ p.shown.flatMap enumerationNames

theorem enumerationNames_subset {p : Program} {x : Enumeration}
    (hx : x ∈ p.enumerations ++ p.shown) : enumerationNames x ⊆ p.names := by
  intro w hw
  have hflat : w ∈ (p.enumerations ++ p.shown).flatMap enumerationNames :=
    List.mem_flatMap.2 ⟨x, hx, hw⟩
  rw [List.flatMap_append] at hflat
  rw [names, identifiers, List.append_assoc]
  exact List.mem_append_right _ hflat

end Program

/-- Every line of a program is a text with the property and a semicolon, if the names in the program
and the nodes of its terms have it. -/
theorem TextRules.lines {P : String → Prop} (rules : TextRules P) {p : Program}
    (hnodes : ∀ t ∈ p.terms, ∀ s, t.Shows s → s.Worded P) (hnames : ∀ w ∈ p.names, P w) :
    ∀ line ∈ p.lines, ∃ s, line = s ++ ";" ∧ P s := by
  have hshown : ∀ x ∈ p.enumerations ++ p.shown, ∀ w ∈ enumerationNames x, P w :=
    fun x hx w hw => hnames w (Program.enumerationNames_subset hx hw)
  have hterm : ∀ t ∈ p.terms, P t.text := by
    refine fun t ht => rules.term (hnodes t ht) fun x hx => hshown x ?_
    exact List.mem_append_right _ (List.mem_append_right _ (List.mem_flatMap.2 ⟨t, ht, hx⟩))
  have hdeclaration : ∀ d ∈ p.declarations, ∃ s, d.text = s ++ ";" ∧ P s := by
    intro d hd
    have hword : d.symbol.word ∈ p.entityWords := List.mem_map_of_mem (List.mem_map_of_mem hd)
    refine rules.declaration (hnames _ (List.mem_append_left _ (List.mem_append_left _ hword)))
      (fun x hx => hshown x ?_ x.name List.mem_cons_self)
      fun t ht => hterm t (Program.mem_terms.2 (.inl ⟨d, hd, ht⟩))
    exact List.mem_append_right _ (List.mem_append_left _ (List.mem_flatMap.2 ⟨d, hd, hx⟩))
  rw [Program.lines, Program.includeLines_features, Program.statements]
  simp only [List.forall_mem_append, List.forall_mem_map, List.forall_mem_flatMap,
    List.forall_mem_singleton]
  refine ⟨fun kind _ => rules.includeLine kind, ⟨⟨⟨fun x hx => ?_, fun d hd => ?_⟩,
    fun d hd => ?_⟩, fun t ht => ?_⟩, rules.goal fun t ht => ?_⟩
  · exact rules.enumerationText (hshown x (List.mem_append_left _ hx))
  · exact hdeclaration d (List.mem_append_left _ hd)
  · rw [VariableDeclaration.lines, List.forall_mem_cons]
    refine ⟨hdeclaration _ (List.mem_append_right _ (List.mem_map_of_mem hd)), fun line hline => ?_⟩
    obtain ⟨t, ht, rfl⟩ := Option.map_eq_some_iff.1 (Option.mem_toList.1 hline)
    have hequation := Program.mem_terms.2 (.inr (.inl ⟨d, hd, Option.mem_toList.2 ht⟩))
    exact rules.constraint (hterm t hequation)
  · exact rules.constraint (hterm t (Program.mem_terms.2 (.inr (.inr (.inl ht)))))
  · exact hterm t (Program.mem_terms.2 (.inr (.inr (.inr ht))))

end Source

/-! ## Compiled models -/

section Compiled

variable {model : Model} {n n' : Nat} {c : CompiledModel} {P : String → Prop}

/-- The nodes of a compiled model have the words of its entities and of iterators. -/
theorem compile_nodes (rules : TextRules P) (h : model.compile.run n = (.ok c, n'))
    (hentities : ∀ w ∈ c.program.entityWords, P w) :
    ∀ t ∈ c.program.terms, ∀ s, t.Shows s → s.Worded P := by
  obtain ⟨hresolve, hprogram⟩ := compile_eq_ok h
  obtain ⟨-, hperm, -⟩ := resolve_words hresolve
  have hrules : NodeRules (.ofModel c.resolved) (fun scope => ∀ s ∈ scope, P s.word)
      (Term.Worded P) := by
    refine nodeRules_worded (fun s hs => hentities s.word ?_) (rules.iterator _)
    have hdeclared : s ∈ c.program.declarations.map Declaration.symbol := by
      rw [symbols_declarations (declarations_eq hprogram)]
      exact hperm.mem_iff.2 hs
    exact List.mem_map_of_mem hdeclared
  refine program_nodes hrules (by simp) hprogram fun name id type value hentry => ?_
  exact hperm.mem_iff.1 (List.mem_filterMap.2 ⟨_, List.mem_append_right _ hentry, rfl⟩)

/-- Every line of a compiled model is a text with the property and a semicolon, if the names in its
program have it. -/
theorem compile_lines (rules : TextRules P) (h : model.compile.run n = (.ok c, n'))
    (hnames : ∀ w ∈ c.program.names, P w) :
    ∀ line ∈ c.program.lines, ∃ s, line = s ++ ";" ∧ P s :=
  rules.lines (compile_nodes rules h fun w hw =>
    hnames w (List.mem_append_left _ (List.mem_append_left _ hw))) hnames

end Compiled

end ConstraintModel
