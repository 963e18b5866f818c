import ConstraintModel.Proofs.Meaning
import ConstraintModel.Proofs.Reproducible
import ConstraintModel.Proofs.Statements
import ConstraintModel.Proofs.Streams
import ConstraintModel.Solver.Run

/-!
# Runs

Compiling a model, having its source solved and reading the solutions, as one path. The answer is a
function of what the compilation gives out, so a model is answered alike whenever it is solved. If the
backend runs a program, there is an answer unless the model, the program or a block of what it prints
fails, and what it prints is what comes back. If the solutions of a backend satisfy the source that it is
given, they satisfy the model.
-/

namespace ConstraintModel

open Solver Source

/-! ## Answers -/

/-- What a backend makes of a compilation. -/
def Solver.Backend.answer (backend : Backend) (settings : Settings) :
    Except ModelError Artifact → Except Failure Result
  | .error e => .error (.model e)
  | .ok artifact => backend ⟨artifact.source, artifact.data, settings⟩

/-- The answer depends on the model only by what compiling it gives out. -/
theorem solve_eq (m : Model) (backend : Backend) (settings : Settings) (n : Nat) :
    (m.solve backend settings).run n =
      (backend.answer settings (m.outcome n), (m.compile.run n).2) := by
  change (m.solve backend settings) n = _
  simp only [Model.solve, Model.outcome, bind, StateT.bind]
  cases m.compile.run n with
  | mk result n' => cases result <;> rfl

/-- A model is answered alike whenever it is solved, so what it was first compiled to can be kept. Only
the identities in an error of the model may be others. -/
theorem solve_again (m : Model) {n k : Nat} (hn : ∀ id ∈ m.ids, id.number < n)
    (hk : ∀ id ∈ m.ids, id.number < k) (backend : Backend) (settings : Settings) :
    ((m.solve backend settings).run k).1 = ((m.solve backend settings).run n).1 ∨
    ∃ e σ, Function.Injective σ ∧ (∀ id ∈ m.ids, σ id = id) ∧
      ((m.solve backend settings).run n).1 = .error (.model e) ∧
      ((m.solve backend settings).run k).1 = .error (.model (e.rename σ)) := by
  obtain ⟨σ, hσ, hfixed, houtcome⟩ := exists_outcome_again m hn hk
  simp only [solve_eq, houtcome]
  cases m.outcome n with
  | error e => exact .inr ⟨e, σ, hσ, hfixed, rfl, rfl⟩
  | ok artifact => exact .inl rfl

section Compiled

variable {model : Model} {n n' : Nat} {c : CompiledModel}

theorem solve_of_compile (h : model.compile.run n = (.ok c, n')) (backend : Backend)
    (settings : Settings) :
    (model.solve backend settings).run n = (backend (c.request settings), n') := by
  rw [solve_eq, Model.outcome, h]
  rfl

/-! ## Programs that are run -/

/-- What is wrong with what a program leaves behind: it was not run, it failed, or a line that it
printed is faulty. -/
inductive Solver.Spoiled : Option Output → Failure → Prop
  | notRun : Spoiled none .notRun
  | failed {output} : output.succeeded = false →
      Spoiled (some output) (.solver (String.ofList (trim output.stderr.toList)))
  | printed {output f} : output.succeeded = true → FirstFault (lines output.stdout) f →
      Spoiled (some output) f

theorem ofOutput_eq_error_iff {output : Option Output} {f : Failure} :
    Result.ofOutput output = .error f ↔ Spoiled output f := by
  constructor
  · intro h
    cases output with
    | none =>
        cases h
        exact .notRun
    | some output =>
        cases hsucceeded : output.succeeded with
        | true =>
            refine .printed hsucceeded (ofStream_eq_error_iff.1 ?_)
            simpa [Result.ofOutput, hsucceeded] using h
        | false =>
            simp only [Result.ofOutput, hsucceeded] at h
            cases h
            exact .failed hsucceeded
  · intro h
    cases h with
    | notRun => rfl
    | failed hfailed => simp [Result.ofOutput, hfailed]; rfl
    | printed hsucceeded hfault =>
        simpa [Result.ofOutput, hsucceeded] using ofStream_eq_error_iff.2 hfault

/-- Solving with a program fails in these ways only: the model cannot be compiled, and then nothing is
run, or the program is run on the source and the data of the model and what it leaves is spoiled. -/
theorem solve_running_eq_error_iff {run : Runner} {sourceFile dataFile : String}
    {settings : Settings} {f : Failure} :
    ((model.solve (.running run sourceFile dataFile) settings).run n).1 = .error f ↔
      (∃ e n', model.compile.run n = (.error e, n') ∧ f = .model e) ∨
      ∃ c n', model.compile.run n = (.ok c, n') ∧
        Spoiled (run settings.executable ((c.request settings).arguments sourceFile dataFile)
          c.program.text (c.request settings).data?) f := by
  constructor
  · intro h
    cases hcompile : model.compile.run n with
    | mk result n' =>
        cases result with
        | error e =>
            rw [solve_eq, Model.outcome, hcompile] at h
            cases h
            exact .inl ⟨e, n', rfl, rfl⟩
        | ok c =>
            rw [solve_of_compile hcompile] at h
            exact .inr ⟨c, n', rfl, ofOutput_eq_error_iff.1 h⟩
  · rintro (⟨e, n', hcompile, rfl⟩ | ⟨c, n', hcompile, hspoiled⟩)
    · rw [solve_eq, Model.outcome, hcompile]
      rfl
    · rw [solve_of_compile hcompile]
      exact ofOutput_eq_error_iff.2 hspoiled

/-- What a program prints on the source and the data of a model comes back from solving: the printed
assignments in their order, and the status. -/
theorem solve_transcript (h : model.compile.run n = (.ok c, n')) {run : Runner}
    {sourceFile dataFile : String} {settings : Settings} {output : Output}
    (hrun : run settings.executable ((c.request settings).arguments sourceFile dataFile)
      c.program.text (c.request settings).data? = some output) (hsucceeded : output.succeeded = true)
    {as : List Solver.Assignment} {blocks : List (List (List Char))}
    {ending : List (List Char)} {complete : Bool}
    (hblocks : List.Forall₂ (Prints (c.resolved.decisions.map Prod.fst)) as blocks)
    (hending : Ends complete ending) (hs : lines output.stdout = blocks.flatten ++ ending) :
    (model.solve (.running run sourceFile dataFile) settings).run n =
      (.ok ⟨if complete then .complete else if as = [] then .unknown else .satisfied, as⟩, n') := by
  have hnames : ∀ name ∈ c.resolved.decisions.map Prod.fst, isInternal name = false :=
    fun name hname => not_isInternal_of_require (decisions_valid (compile_eq_ok h).1 hname)
  have hread := Reading.ofStream_blocks hnames hblocks hending hs
  have houtput : Result.ofOutput (some output) = Result.ofStream output.stdout := by
    simp [Result.ofOutput, hsucceeded]
  rw [solve_of_compile h, Backend.running]
  exact Prod.ext ((congrArg Result.ofOutput hrun).trans (houtput.trans hread)) rfl

/-! ## Solutions of the source -/

/-- Under these values, every line of a source that is a constraint holds. -/
def Source.Satisfies (lib : Library) (env : Environment) (source : String) : Prop :=
  ∀ body : String, ("constraint " ++ body ++ ";").toList ∈ source.toList.splitOn '\n' →
    Denotes lib env body (some (.bool true))

/-- What a model asks of its solutions: its constraints, and of a variable that stands for an operation
to be equal to it. -/
def ResolvedModel.demands (m : ResolvedModel) : List Expr :=
  m.constraints ++ m.decisions.flatMap fun entry =>
    (entry.2.boundValue?.map fun v => .binary .eq entry.2 v).toList

theorem lookup_decision (hids : ∀ id ∈ model.ids, id.number < n)
    (h : model.resolve.run n = (.ok c.resolved, n')) {name : String} {e : Expr} {id : NodeId}
    (hentry : (name, e) ∈ c.resolved.decisions) (hid : e.id? = some id) :
    Symbol.lookup id c.resolved.symbols = some ⟨id, name⟩ := by
  obtain ⟨entries, -, hr, hnodup, -⟩ := resolve_entities hids h
  have hsymbol : ⟨id, name⟩ ∈ c.resolved.symbols := by
    refine (perm_symbols hr).subset (List.mem_filterMap.2 ⟨_, List.mem_append_right _ hentry, ?_⟩)
    rw [entrySymbol?, hid]
    rfl
  rw [Symbol.lookup, find?_key_eq hnodup hsymbol]

/-- Each thing that a model asks for is a constraint in its program. -/
theorem exists_constraint (hids : ∀ id ∈ model.ids, id.number < n)
    (h : model.compile.run n = (.ok c, n')) {e : Expr} (he : e ∈ c.resolved.demands) :
    ∃ t, e.term (.ofModel c.resolved) [] = .ok t ∧ constraintText t ∈ c.program.lines := by
  obtain ⟨hresolve, hprogram⟩ := compile_eq_ok h
  obtain ⟨-, hdecisions, hconstraints, -⟩ := program_eq_ok hprogram
  rcases List.mem_append.1 he with he | he
  · obtain ⟨t, ht, hterm⟩ := exists_of_mem_left hconstraints he
    refine ⟨t, hterm, ?_⟩
    simp [Program.lines, Program.statements, List.mem_map_of_mem ht]
  · obtain ⟨⟨name, x⟩, hentry, he⟩ := List.mem_flatMap.1 he
    obtain ⟨v, hv, rfl⟩ := Option.map_eq_some_iff.1 (Option.mem_toList.1 he)
    obtain ⟨d, hd, hdeclared⟩ := exists_of_mem_left hdecisions hentry
    obtain ⟨hdeclaration, hvalue⟩ := variableDeclaration_eq_ok hdeclared
    obtain ⟨id, hid, hsymbol, -⟩ := declaration_eq_ok hdeclaration
    have hlookup := lookup_decision hids hresolve hentry hid
    obtain ⟨t, ht, hterm⟩ : ∃ t, d.value = some t ∧ v.term (.ofModel c.resolved) [] = .ok t := by
      rw [hv] at hvalue
      generalize d.value = value at hvalue ⊢
      cases hvalue with
      | some hterm => exact ⟨_, rfl, hterm⟩
    have hentity : x.term (.ofModel c.resolved) [] = .ok (.entity d.declaration.symbol) := by
      rw [term_of_id hid, symbolOf_eq_ok.2 ⟨id, hid, hlookup⟩, hsymbol]
      rfl
    refine ⟨.binary .eq (.entity d.declaration.symbol) t, ?_, ?_⟩
    · rw [Expr.term, if_neg (by simp [BinaryOp.isIntegerDivision]), hentity, hterm]
      rfl
    · have hequation : constraintText (.binary .eq (.entity d.declaration.symbol) t) ∈ d.lines := by
        simp [VariableDeclaration.lines, VariableDeclaration.equation?, ht]
      simp only [Program.lines, Program.statements, List.mem_append, List.mem_flatMap]
      exact .inr (.inl (.inl (.inr ⟨d, hd, hequation⟩)))

/-- If values satisfy the source of a compiled model, they satisfy the model: each readable expression
that it asks for is true. -/
theorem demand_holds (lib : Library) (σ : Assignment) (hids : ∀ id ∈ model.ids, id.number < n)
    (h : model.compile.run n = (.ok c, n'))
    (hvalid : ∀ x ∈ c.program.shown, x ∉ c.program.enumerations → Identifier.requireAll x = .ok ())
    (hwords : (Symbol.words c.resolved.symbols ++ c.resolved.enumerationWords).Nodup)
    (hsource : Satisfies lib (c.resolved.environment σ) c.program.text) {e : Expr}
    (he : e ∈ c.resolved.demands) (hread : e.Readable c.resolved σ) :
    e.value lib σ [] = some (.bool true) := by
  obtain ⟨t, hterm, hline⟩ := exists_constraint hids h he
  have hlines := compile_lines textRules_neat h (compile_names_neat h hvalid)
  have hsplit := Program.splitOn_text fun line hline => by
    obtain ⟨s, rfl, hs⟩ := hlines line hline
    simpa using hs.newline
  have htrue : Denotes lib (c.resolved.environment σ) t.text (some (.bool true)) :=
    hsource t.text (hsplit ▸ List.mem_map_of_mem hline)
  have hmeans := term_meansAt lib σ (compile_eq_ok h).1 hwords hterm
  exact ((hmeans hread (.nil _)).denotes [] rfl).unique htrue

/-- A backend whose solutions satisfy the source that it is given, once they are read as values, gives
solutions of the model: in each of them every readable expression that the model asks for is true. -/
theorem solve_sound (lib : Library) (read : Solver.Assignment → Assignment)
    (hids : ∀ id ∈ model.ids, id.number < n) (h : model.compile.run n = (.ok c, n'))
    (hvalid : ∀ x ∈ c.program.shown, x ∉ c.program.enumerations → Identifier.requireAll x = .ok ())
    (hwords : (Symbol.words c.resolved.symbols ++ c.resolved.enumerationWords).Nodup)
    {backend : Backend} {settings : Settings}
    (hbackend : ∀ r, backend (c.request settings) = .ok r → ∀ a ∈ r.solutions,
      Satisfies lib (c.resolved.environment (read a)) (c.request settings).source)
    {r : Result} (hr : ((model.solve backend settings).run n).1 = .ok r) :
    ∀ a ∈ r.solutions, ∀ e ∈ c.resolved.demands, e.Readable c.resolved (read a) →
      e.value lib (read a) [] = some (.bool true) := by
  intro a ha e he hread
  rw [solve_of_compile h] at hr
  exact demand_holds lib (read a) hids h hvalid hwords (hbackend r hr a ha) he hread

end Compiled

/-- A variable below three, and its double. -/
def doubledModel : Model :=
  let x : Expr := .var ⟨0⟩ .int
  { attributes := [("x", x), ("double", .binary .add x x)]
    constraints := [.binary .lt x (.literal (.int 3))]
    objective := .satisfy }

/-- The integers that a solution gives to the variable and to its double. -/
def doubledReading (a : Solver.Assignment) : Assignment := fun id =>
  match a.lookup (if id = ⟨0⟩ then "x" else "double") with
  | some (.int v) => .int v
  | _ => .bool false

/-- A backend that finds one solution. -/
def doubledBackend : Backend := fun _ =>
  .ok ⟨.satisfied, [[("double", .int 4), ("x", .int 2)]]⟩

/-- The source of the model. -/
def doubledSource : String :=
  "var int: x;\nvar int: double;\nconstraint (double == (x + x));\nconstraint (x < 3);\n" ++
    "solve satisfy;"

theorem doubledSource_satisfied :
    Satisfies (fun _ _ => none) [("x", .int 2), ("double", .int 4)] doubledSource := by
  intro body hbody
  have hsplit : doubledSource.toList.splitOn '\n' = ["var int: x;", "var int: double;",
      "constraint (double == (x + x));", "constraint (x < 3);", "solve satisfy;"].map
        String.toList := by decide +kernel
  rw [hsplit] at hbody
  obtain ⟨line, hline, heq⟩ := List.mem_map.1 hbody
  obtain rfl := String.toList_injective heq
  have hx : DenotesAtom (fun _ _ => none) [("x", .int 2), ("double", .int 4)]
      (Term.entity ⟨⟨0⟩, "x"⟩).text (some (.int 2)) := entity_denotes rfl rfl
  have hdouble : DenotesAtom (fun _ _ => none) [("x", .int 2), ("double", .int 4)]
      (Term.entity ⟨⟨1⟩, "double"⟩).text (some (.int 4)) := entity_denotes rfl rfl
  have hsum := (hdouble.denotes.binary .eq (hx.denotes.binary .add hx.denotes).denotes).denotes
  have hless := (hx.denotes.binary .lt (denotes_int 3).denotes).denotes
  have hbody_eq (b : String) (h : "constraint " ++ body ++ ";" = "constraint " ++ b ++ ";") :
      body = b := by simpa using h
  simp only [List.mem_cons, List.not_mem_nil, or_false] at hline
  rcases hline with h | h | h | h | h
  · simpa using congrArg (fun s => s.toList.head?) h
  · simpa using congrArg (fun s => s.toList.head?) h
  · rw [hbody_eq "(double == (x + x))" h]
    exact hsum
  · rw [hbody_eq "(x < 3)" h]
    exact hless
  · simpa using congrArg (fun s => s.toList.head?) h

/-- The solution that the backend finds is one of the model. -/
theorem doubledModel_solved : ∃ c n' r, doubledModel.compile.run 1 = (.ok c, n') ∧
    c.program.text = doubledSource ∧
    ((doubledModel.solve doubledBackend .standard).run 1).1 = .ok r ∧ r.solutions ≠ [] ∧
    ∀ a ∈ r.solutions, ∀ e ∈ c.resolved.demands, e.Readable c.resolved (doubledReading a) →
      e.value (fun _ _ => none) (doubledReading a) [] = some (.bool true) := by
  obtain ⟨c, n', hcompile, htext, hshown, hwords, henvironment⟩ : ∃ c n',
      doubledModel.compile.run 1 = (.ok c, n') ∧ c.program.text = doubledSource ∧
      c.program.shown = [] ∧
      Symbol.words c.resolved.symbols ++ c.resolved.enumerationWords = ["x", "double"] ∧
      c.resolved.environment (doubledReading [("double", .int 4), ("x", .int 2)]) =
        [("x", .int 2), ("double", .int 4)] := ⟨_, _, rfl, by decide +kernel, rfl, rfl, rfl⟩
  have hanswer : ((doubledModel.solve doubledBackend .standard).run 1).1 =
      .ok ⟨.satisfied, [[("double", .int 4), ("x", .int 2)]]⟩ := rfl
  refine ⟨c, n', _, hcompile, htext, hanswer, by simp, ?_⟩
  refine solve_sound (fun _ _ => none) doubledReading (by decide) hcompile (by simp [hshown])
    (by simp [hwords]) ?_ hanswer
  rintro r ⟨⟩ a ha
  obtain rfl := List.mem_singleton.1 ha
  rw [henvironment]
  change Satisfies _ _ c.program.text
  rw [htext]
  exact doubledSource_satisfied

end ConstraintModel
