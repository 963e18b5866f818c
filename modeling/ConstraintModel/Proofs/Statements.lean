import ConstraintModel.Proofs.Texts

/-!
# Statements

The text of a compiled model is a list of statements, one a line. Each line ends with its only
semicolon and closes the bracket that was opened last first. Names are identifiers, so none of them
can end a statement, begin another one or unbalance its brackets.
-/

namespace ConstraintModel

open Source

namespace Source

/-! ## Brackets -/

/-- The bracket that closes another one. -/
def closing? : Char → Option Char
  | '(' => some ')'
  | '[' => some ']'
  | '{' => some '}'
  | _ => none

/-- The brackets that are to be closed after a character, innermost first, where the given ones are
before it. Only the innermost one can be closed. -/
def unclosedAfter (unclosed : List Char) (c : Char) : Option (List Char) :=
  match closing? c with
  | some d => some (d :: unclosed)
  | none =>
    if c ∈ [')', ']', '}'] then
      if unclosed.head? = some c then some unclosed.tail else none
    else some unclosed

/-- Whether the brackets of a text are balanced and nested. -/
def IsBalanced (s : List Char) : Prop :=
  s.foldlM unclosedAfter [] = some []

instance (s : List Char) : Decidable (IsBalanced s) :=
  inferInstanceAs (Decidable (_ = _))

example : IsBalanced "f([a | i in 0..2])".toList ∧ ¬ IsBalanced "([)]".toList := by
  decide

/-! ## Parts of statements -/

/-- The characters that end statements and lines, and brackets. -/
def reservedChars : List Char :=
  ['(', ')', '[', ']', '{', '}', ';', '\n']

theorem unclosedAfter_of_not_mem {c : Char} (h : c ∉ reservedChars) (unclosed : List Char) :
    unclosedAfter unclosed c = some unclosed := by
  have hopening : closing? c = none := by
    unfold closing?
    split
    · exact absurd (by decide) h
    · exact absurd (by decide) h
    · exact absurd (by decide) h
    · rfl
  have hclosing : c ∉ [')', ']', '}'] := fun hc => h (by
    simp only [List.mem_cons, List.not_mem_nil, or_false] at hc
    rcases hc with rfl | rfl | rfl <;> decide)
  rw [unclosedAfter, hopening]
  exact if_neg hclosing

/-- Whether a text has none of these characters. -/
def IsPlain (s : List Char) : Prop :=
  ∀ c ∈ s, c ∉ reservedChars

instance (s : List Char) : Decidable (IsPlain s) :=
  List.decidableBAll _ s

theorem isPlain_of_all {p : Char → Bool} (hnone : reservedChars.all (!p ·) = true) {s : List Char}
    (h : ∀ c ∈ s, p c = true) : IsPlain s := by
  intro c hc hmem
  have hnot := List.all_eq_true.1 hnone c hmem
  rw [h c hc] at hnot
  cases hnot

/-- A text that ends neither a statement nor a line, and closes what it opens, whatever is to be
closed around it. -/
structure Neat (s : List Char) : Prop where
  semicolon : ';' ∉ s
  newline : '\n' ∉ s
  nested : ∀ unclosed, s.foldlM unclosedAfter unclosed = some unclosed

namespace Neat

variable {a b s : List Char}

theorem append (ha : Neat a) (hb : Neat b) : Neat (a ++ b) where
  semicolon h := (List.mem_append.1 h).elim ha.semicolon hb.semicolon
  newline h := (List.mem_append.1 h).elim ha.newline hb.newline
  nested unclosed := by
    rw [List.foldlM_append, ha.nested]
    exact hb.nested unclosed

theorem plain (h : IsPlain s) : Neat s where
  semicolon hc := h _ hc (by decide)
  newline hc := h _ hc (by decide)
  nested unclosed := by
    induction s with
    | nil => rfl
    | cons c s ih =>
        obtain ⟨hc, hs⟩ := List.forall_mem_cons.1 h
        rw [List.foldlM_cons, unclosedAfter_of_not_mem hc]
        exact ih hs

/-- A text between brackets that belong together. -/
theorem between {left right : List Char} (hsemicolon : ';' ∉ left ++ right)
    (hnewline : '\n' ∉ left ++ right) (hmatch : ∀ unclosed, ∃ inner,
      left.foldlM unclosedAfter unclosed = some inner ∧
        right.foldlM unclosedAfter inner = some unclosed) (hs : Neat s) :
    Neat (left ++ (s ++ right)) where
  semicolon h := by
    rcases List.mem_append.1 h with h | h
    · exact hsemicolon (List.mem_append_left _ h)
    · rcases List.mem_append.1 h with h | h
      · exact hs.semicolon h
      · exact hsemicolon (List.mem_append_right _ h)
  newline h := by
    rcases List.mem_append.1 h with h | h
    · exact hnewline (List.mem_append_left _ h)
    · rcases List.mem_append.1 h with h | h
      · exact hs.newline h
      · exact hnewline (List.mem_append_right _ h)
  nested unclosed := by
    -- The left brackets are to be closed around the text, which leaves them to the right ones.
    obtain ⟨inner, hinner, hback⟩ := hmatch unclosed
    rw [List.foldlM_append, hinner, Option.bind_eq_bind, Option.bind_some, List.foldlM_append,
      hs.nested]
    exact hback

theorem intercalate {sep : List Char} (hsep : Neat sep) {ss : List (List Char)}
    (h : ∀ s ∈ ss, Neat s) : Neat (sep.intercalate ss) := by
  induction ss with
  | nil =>
      rw [List.intercalate_nil]
      exact .plain (by decide)
  | cons s ss ih =>
      obtain ⟨hs, hss⟩ := List.forall_mem_cons.1 h
      cases ss with
      | nil => simpa using hs
      | cons s' ss =>
          rw [List.intercalate_cons_cons]
          exact (hs.append hsep).append (ih hss)

end Neat

/-! ## Texts of programs -/

theorem neat_word {s : List Char} (h : Identifier.isWellFormed s = true) : Neat s :=
  .plain (isPlain_of_all (by decide) (isWordChar_of_isWellFormed h))

theorem neat_number {s : List Char} (h : ∀ c ∈ s, isNumberChar c = true) : Neat s :=
  .plain (isPlain_of_all (by decide) h)

theorem neat_inclusion (kind : GlobalKind) :
    Neat ("include \"" ++ kind.file ++ "\"").toList := by
  cases kind <;> exact .plain (by decide)

/-- What stands around texts in a program closes what it opens. -/
theorem enclosures_match {p : String × String} (hp : p ∈ enclosures) (unclosed : List Char) :
    ∃ inner, p.1.toList.foldlM unclosedAfter unclosed = some inner ∧
      p.2.toList.foldlM unclosedAfter inner = some unclosed := by
  simp only [enclosures, List.mem_cons, List.not_mem_nil, or_false] at hp
  rcases hp with rfl | rfl | rfl | rfl | rfl | rfl <;> exact ⟨_, rfl, rfl⟩

theorem textRules_neat : TextRules fun s => Neat s.toList where
  applied p hp f s hf hs := by
    have hsemicolon : ∀ p ∈ enclosures, ';' ∉ p.1.toList ++ p.2.toList := by decide
    have hnewline : ∀ p ∈ enclosures, '\n' ∉ p.1.toList ++ p.2.toList := by decide
    simp only [String.toList_append, List.append_assoc]
    exact hf.append (.between (hsemicolon p hp) (hnewline p hp) (enclosures_match hp) hs)
  joined sep hsep s t hs ht := by
    have hplain : ∀ sep ∈ joints, IsPlain sep.toList := by decide
    simp only [String.toList_append]
    exact (hs.append (.plain (hplain sep hsep))).append ht
  opened a ha s hs := by
    have hplain : ∀ a ∈ openings, IsPlain a.toList := by decide
    rw [String.toList_append]
    exact .append (.plain (hplain a ha)) hs
  separated items h := by
    rw [Term.commaSeparated, String.toList_intercalate]
    exact .intercalate (.plain (by decide)) (List.forall_mem_map.2 h)
  fixed s hs := by
    have hplain : ∀ s ∈ fixedTexts, IsPlain s.toList := by decide
    exact .plain (hplain s hs)
  function f := neat_word (isWellFormed_function f)
  number n := neat_number fun _ hc => isNumberChar_of_isDigit (isDigit_of_mem_toString hc)
  literal l hl hnone := by
    rcases literal_chars hl hnone with htext | htext | hchars
    · rw [htext]
      exact .plain (by decide)
    · rw [htext]
      exact .plain (by decide)
    · exact neat_number hchars
  iterator v scope := neat_word (require_eq_ok.1 (nextIterator_valid v scope)).1
  inclusion := neat_inclusion

/-- A text that is split at the separator of its lines gives the lines. -/
theorem Program.splitOn_text {p : Program} (h : ∀ line ∈ p.lines, '\n' ∉ line.toList) :
    p.text.toList.splitOn '\n' = p.lines.map String.toList := by
  have hne : p.lines.map String.toList ≠ [] := by
    simp [Program.lines, Program.statements]
  have hnewline : "\n".toList = ['\n'] := rfl
  rw [Program.text, String.toList_intercalate, hnewline]
  exact List.splitOn_intercalate '\n' (List.forall_mem_map.2 h) hne

end Source

/-! ## Compiled models -/

section Compiled

variable {model : Model} {n n' : Nat} {c : CompiledModel}

theorem equation?_isSome {v : Vocabulary} {e : Expr} {name : String} {d : VariableDeclaration}
    (h : e.variableDeclaration v name = .ok d) : d.equation?.isSome = e.boundValue?.isSome := by
  have hvalue := (variableDeclaration_eq_ok h).2
  rw [VariableDeclaration.equation?, Option.isSome_map]
  generalize d.value = w at hvalue ⊢
  generalize e.boundValue? = o at hvalue ⊢
  cases hvalue <;> rfl

/-- The names in a compiled model are neat, if enumerations that are shown without being declared
have identifiers as their words. -/
theorem compile_names_neat (h : model.compile.run n = (.ok c, n'))
    (hvalid : ∀ x ∈ c.program.shown, x ∉ c.program.enumerations →
      Identifier.requireAll x = .ok ()) :
    ∀ w ∈ c.program.names, Neat w.toList := by
  have hidentifier {w : String} (hw : Identifier.require w = .ok ()) : Neat w.toList :=
    neat_word (require_eq_ok.1 hw).1
  intro w hw
  rcases List.mem_append.1 hw with hw | hw
  · exact hidentifier ((compile_identifiers h).1 w hw)
  · obtain ⟨x, hx, hw⟩ := List.mem_flatMap.1 hw
    refine hidentifier (require_of_requireAll ?_ w hw)
    -- The words of declared enumerations are checked when the model is resolved.
    by_cases hdeclared : x ∈ c.program.enumerations
    · exact (compile_worded h).enumerations x hdeclared
    · exact hvalid x hx hdeclared

/-- The source of a compiled model is a list of statements. Split at newlines it gives one line for
each library file, enumeration, parameter, variable, bound variable and constraint and one for the
objective, in this order but for the equation of a bound variable, which comes right after its
declaration. Each line ends with its only semicolon, and its brackets are balanced and nested. An
enumeration that is shown without being declared has to have identifiers as its words. -/
theorem compile_statements (h : model.compile.run n = (.ok c, n'))
    (hvalid : ∀ x ∈ c.program.shown, x ∉ c.program.enumerations →
      Identifier.requireAll x = .ok ()) :
    c.program.text.toList.splitOn '\n' =
      (c.program.required.map Program.includeLine ++
        c.program.enumerations.map enumerationText ++ c.program.parameters.map Declaration.text ++
        c.program.decisions.flatMap VariableDeclaration.lines ++
        c.program.constraints.map constraintText ++ [c.program.goal.text]).map String.toList ∧
    List.Forall₂ (fun entry d => d.symbol.word = entry.1) c.resolved.parameters
      c.program.parameters ∧
    List.Forall₂ (fun entry d => d.declaration.symbol.word = entry.1 ∧
      d.equation?.isSome = entry.2.boundValue?.isSome) c.resolved.decisions c.program.decisions ∧
    c.program.constraints.length = model.constraints.length ∧
    ∀ line ∈ c.program.lines,
      (∃ s, line = s ++ ";" ∧ ';' ∉ s.toList) ∧ IsBalanced line.toList := by
  have hlines := compile_lines textRules_neat h (compile_names_neat h hvalid)
  have hend : IsBalanced ";".toList := by decide
  obtain ⟨hresolve, hprogram⟩ := compile_eq_ok h
  obtain ⟨hparameters, hdecisions, hconstraints, -⟩ := program_eq_ok hprogram
  have hsplit := Program.splitOn_text fun line hline => by
    obtain ⟨s, rfl, hs⟩ := hlines line hline
    simpa using hs.newline
  have hdeclared : List.Forall₂ (fun entry d => d.symbol.word = entry.1) c.resolved.parameters
      c.program.parameters := hparameters.imp fun entry d hd => by
    obtain ⟨id, -, hsymbol, -⟩ := declaration_eq_ok hd
    rw [hsymbol]
  have hbound : List.Forall₂ (fun entry d => d.declaration.symbol.word = entry.1 ∧
      d.equation?.isSome = entry.2.boundValue?.isSome) c.resolved.decisions c.program.decisions :=
    hdecisions.imp fun entry d hd => by
      obtain ⟨id, -, hsymbol, -⟩ := declaration_eq_ok (variableDeclaration_eq_ok hd).1
      rw [hsymbol]
      exact ⟨rfl, equation?_isSome hd⟩
  have hlength : c.program.constraints.length = model.constraints.length := by
    rw [← hconstraints.length_eq, (resolve_eq_ok hresolve).2.2.2.2.2.1]
  refine ⟨?_, hdeclared, hbound, hlength, fun line hline => ?_⟩
  · rw [hsplit, Program.lines, Program.includeLines_features, Program.statements]
    simp only [List.append_assoc]
  · obtain ⟨s, rfl, hs⟩ := hlines line hline
    refine ⟨⟨s, rfl, hs.semicolon⟩, ?_⟩
    rw [IsBalanced, String.toList_append, List.foldlM_append, hs.nested]
    exact hend

/-- A model with a statement of every kind. -/
def tiledModel : Model where
  attributes := [("p", .param ⟨0⟩ (.int 4)), ("hue", .var ⟨1⟩ (.enumeration colors)),
    ("a", .varArray ⟨2⟩ .int ⟨[3]⟩), ("total", .aggregate .sum [.varArray ⟨2⟩ .int ⟨[3]⟩])]
  constraints := [.global .allDifferent [.varArray ⟨2⟩ .int ⟨[3]⟩],
    .binary .ne (.var ⟨1⟩ (.enumeration colors)) (.literal (.enumeration red))]
  objective := .minimize (.param ⟨0⟩ (.int 4))

theorem compile_statements_tiledModel : ∃ c n', tiledModel.compile.run 3 = (.ok c, n') ∧
    c.program.lines = ["include \"alldifferent.mzn\";", "enum Color = \x7bRed, Green\x7d;",
      "int: p;", "var Color: hue;", "array[0..2] of var int: a;", "var int: total;",
      "constraint (total == sum(a));", "constraint alldifferent(array1d(a));",
      "constraint (hue != Red);", "solve minimize p;"] ∧
    ∀ line ∈ c.program.lines,
      (∃ s, line = s ++ ";" ∧ ';' ∉ s.toList) ∧ IsBalanced line.toList := by
  refine ⟨_, _, rfl, by decide, ?_⟩
  have hstatements := compile_statements (rfl : tiledModel.compile.run 3 = (.ok _, _)) (by decide)
  exact hstatements.2.2.2.2

end Compiled

end ConstraintModel
