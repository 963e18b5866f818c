import ConstraintModel.Proofs.Identifiers
import ConstraintModel.Proofs.Lexeme
import ConstraintModel.Proofs.Scanning

/-!
# Transcripts of a search

What a solver prints while it searches: solutions, each over lines of its own with a mark below, and
perhaps a mark that the search is complete. Reading a transcript gives back the assignments that were
printed, in their order, without the names that the solver adds.
-/

namespace ConstraintModel

namespace Solver

/-! ## Lines -/

/-- Whether a reading passes the line over: it is blank or a comment. -/
def IsPassing (line : List Char) : Prop :=
  trim line = [] ∨ ∃ cs, trim line = '%' :: cs

theorem startsWith_percent {s : String} :
    s.startsWith "%" = true ↔ ∃ cs, s.toList = '%' :: cs := by
  rw [String.startsWith_string_iff]
  exact ⟨fun ⟨cs, h⟩ => ⟨cs, h.symm⟩, fun ⟨cs, h⟩ => ⟨cs, h.symm⟩⟩

theorem isInternal_iff {name : String} :
    isInternal name = true ↔ ∃ cs, name.toList = '_' :: cs := by
  rw [isInternal, String.startsWith_string_iff]
  exact ⟨fun ⟨cs, h⟩ => ⟨cs, h.symm⟩, fun ⟨cs, h⟩ => ⟨cs, h.symm⟩⟩

theorem ofChars_of_isPassing {l : List Char} (h : IsPassing l) : Line.ofChars l = .ignored := by
  rcases h with h | ⟨cs, h⟩
  · rw [Line.ofChars, h]
    rfl
  · have hlist : (String.ofList (trim l)).toList = '%' :: cs := by rw [String.toList_ofList, h]
    unfold Line.ofChars Line.ofTrimmed
    split <;> rename_i hline <;> try (rw [hline] at hlist; simp at hlist)
    rw [startsWith_percent.2 ⟨cs, hlist⟩, Bool.or_true, if_pos rfl]

/-- A line that begins neither as a comment nor as a mark is a part of a solution. -/
theorem ofChars_eq_part {l : List Char} (h : trim l ≠ [])
    (hmarks : ∀ cs, trim l ≠ '%' :: cs ∧ trim l ≠ '=' :: cs ∧ trim l ≠ '-' :: '-' :: cs) :
    Line.ofChars l = .part (String.ofList (trim l)) := by
  have hlist : (String.ofList (trim l)).toList = trim l := String.toList_ofList
  unfold Line.ofChars Line.ofTrimmed
  split <;> rename_i hline <;> try (rw [hline] at hlist)
  · exact absurd hlist.symm (hmarks _).2.2
  · exact absurd hlist.symm (hmarks _).2.1
  · exact absurd hlist.symm (hmarks _).2.1
  · exact absurd hlist.symm (hmarks _).2.1
  · exact absurd hlist.symm (hmarks _).2.1
  · exact absurd hlist.symm (hmarks _).2.1
  · exact absurd hlist.symm (hmarks _).2.1
  · have hempty : (String.ofList (trim l)).isEmpty = false := by
      rw [Bool.eq_false_iff, ne_eq, String.isEmpty_iff, ← String.toList_eq_nil_iff, hlist]
      exact h
    have hcomment : (String.ofList (trim l)).startsWith "%" = false := by
      rw [Bool.eq_false_iff, ne_eq, startsWith_percent]
      rintro ⟨cs, hcs⟩
      exact (hmarks cs).1 (hlist.symm.trans hcs)
    rw [hempty, hcomment]
    rfl

/-! ## Layouts -/

/-- The lines that lay out the lines of a text: each with any white space around it, in their order,
with blank lines and comments anywhere between them. -/
inductive LaysOut : List (List Char) → List (List Char) → Prop
  | nil : LaysOut [] []
  | line {l shown ls rest} : trim shown = trim l → LaysOut ls rest →
      LaysOut (l :: ls) (shown :: rest)
  | passing {shown ls rest} : IsPassing shown → LaysOut ls rest → LaysOut ls (shown :: rest)

/-- A solution as it is printed: an object with the members of the assignment and others that the
solver adds, laid out over lines, and a mark. -/
inductive Prints (names : List String) : Assignment → List (List Char) → Prop
  | intro {text members body mark} : Json.parse? text = some (.object members) →
      (∀ member ∈ members, member.1 ∈ names ∨ isInternal member.1 = true) →
      LaysOut (lines text) body → trim mark = "----------".toList →
      Prints names (members.filter fun member => member.1 ∈ names) (body ++ [mark])

/-- The lines after the last solution: nothing, or a mark that the search is complete. -/
inductive Ends : Bool → List (List Char) → Prop
  | incomplete {ls} : (∀ l ∈ ls, IsPassing l) → Ends false ls
  | complete {before mark after} : (∀ l ∈ before, IsPassing l) →
      trim mark = "==========".toList → (∀ l ∈ after, IsPassing l) →
      Ends true (before ++ mark :: after)

/-! ## Readings -/

/-- The reading after some more lines. -/
def Reading.run (r : Reading) (ls : List (List Char)) : Except Failure Reading :=
  (ls.map Line.ofChars).foldlM Reading.step r

namespace Reading

theorem ofStream_eq (s : String) :
    Result.ofStream s = Reading.result <$> start.run (lines s) :=
  rfl

theorem run_append (r : Reading) (ls ls' : List (List Char)) :
    r.run (ls ++ ls') = r.run ls >>= fun r' => r'.run ls' := by
  rw [run, List.map_append, List.foldlM_append]
  rfl

theorem run_cons (r : Reading) (l : List Char) (ls : List (List Char)) :
    r.run (l :: ls) = r.step (Line.ofChars l) >>= fun r' => r'.run ls :=
  rfl

theorem run_passing {ls : List (List Char)} (h : ∀ l ∈ ls, IsPassing l) (r : Reading) :
    r.run ls = .ok r := by
  induction ls with
  | nil => rfl
  | cons l ls ih =>
      obtain ⟨hl, hls⟩ := List.forall_mem_cons.1 h
      rw [run_cons, ofChars_of_isPassing hl]
      exact ih hls

/-- A layout is collected as the lines that it lays out. -/
theorem run_laysOut {ls body : List (List Char)} (h : LaysOut ls body)
    (hmarks : ∀ l ∈ ls, ∀ cs, trim l ≠ '%' :: cs ∧ trim l ≠ '=' :: cs ∧
      trim l ≠ '-' :: '-' :: cs) (result : Result) (block : List Char) :
    run ⟨result, String.ofList block⟩ body =
      .ok ⟨result, String.ofList (block ++ Json.compact ls)⟩ := by
  induction h generalizing block with
  | nil => rw [Json.compact, List.flatMap_nil, List.append_nil]; rfl
  | @passing shown ls rest hpassing _ ih =>
      rw [run_cons, ofChars_of_isPassing hpassing]
      exact ih hmarks block
  | @line l shown ls rest htrim _ ih =>
      obtain ⟨hl, hls⟩ := List.forall_mem_cons.1 hmarks
      by_cases hblank : trim l = []
      · rw [run_cons, ofChars_of_isPassing (.inl (htrim.trans hblank)),
          Json.compact_cons_blank hblank]
        exact ih hls block
      · have hpart : Line.ofChars shown = .part (String.ofList (trim l)) := by
          rw [Line.ofChars, htrim]
          exact ofChars_eq_part hblank hl
        have hblock : String.ofList block ++ String.ofList (trim l) ++ "\n" =
            String.ofList (block ++ trim l ++ ['\n']) := by
          apply String.toList_injective
          simp
        rw [run_cons, hpart, Json.compact_cons hblank]
        change run ⟨result, String.ofList block ++ String.ofList (trim l) ++ "\n"⟩ rest = _
        rw [hblock, ih hls]
        simp

/-- A printed solution is read as its assignment. -/
theorem run_prints {names : List String} (hnames : ∀ name ∈ names, isInternal name = false)
    {a : Assignment} {block : List (List Char)} (h : Prints names a block) (result : Result) :
    run ⟨result, ""⟩ block = .ok ⟨⟨.satisfied, result.solutions ++ [a]⟩, ""⟩ := by
  cases h with
  | @intro text members body mark hparse hkeys hlayout hmark =>
      obtain ⟨hvalue, hmarks⟩ := Json.parse?_compact hparse
      have hseparator : Line.ofChars mark = .separator := by
        rw [Line.ofChars, hmark, String.ofList_toList]
        rfl
      have hfilter : members.filter (fun member => !isInternal member.1) =
          members.filter fun member => member.1 ∈ names := by
        refine List.filter_congr fun member hmember => ?_
        by_cases hname : member.1 ∈ names
        · simp [hname, hnames _ hname]
        · simp [hname, (hkeys member hmember).resolve_left hname]
      have hbody := run_laysOut hlayout hmarks result []
      rw [List.nil_append] at hbody
      change run ⟨result, String.ofList []⟩ (body ++ [mark]) = _
      rw [run_append, hbody]
      change run _ [mark] = _
      rw [run_cons, hseparator, ← hfilter]
      simp only [step, assignmentOf, hvalue]
      rfl

theorem run_blocks {names : List String} (hnames : ∀ name ∈ names, isInternal name = false)
    {as : List Assignment} {blocks : List (List (List Char))}
    (h : List.Forall₂ (Prints names) as blocks) (result : Result) :
    run ⟨result, ""⟩ blocks.flatten = .ok
      ⟨⟨if as = [] then result.status else .satisfied, result.solutions ++ as⟩, ""⟩ := by
  induction h generalizing result with
  | nil => simp [run]; rfl
  | @cons a block as blocks hblock _ ih =>
      rw [List.flatten_cons, run_append, run_prints hnames hblock]
      change run _ blocks.flatten = _
      rw [ih]
      simp

theorem run_ends {complete : Bool} {ls : List (List Char)} (h : Ends complete ls) (r : Reading) :
    r.run ls =
      .ok { r with result.status := if complete then .complete else r.result.status } := by
  cases h with
  | incomplete hpassing => exact run_passing hpassing r
  | @complete before mark after hbefore hmark hafter =>
      have hcomplete : Line.ofChars mark = .status .complete := by
        rw [Line.ofChars, hmark, String.ofList_toList]
        rfl
      rw [run_append, run_passing hbefore]
      change r.run (mark :: after) = _
      rw [run_cons, hcomplete]
      exact run_passing hafter _

/-- Printed assignments and an ending are read as these assignments. -/
theorem ofStream_blocks {names : List String} (hnames : ∀ name ∈ names, isInternal name = false)
    {s : String} {as : List Assignment} {blocks : List (List (List Char))}
    {ending : List (List Char)} {complete : Bool} (hblocks : List.Forall₂ (Prints names) as blocks)
    (hending : Ends complete ending) (hs : lines s = blocks.flatten ++ ending) :
    Result.ofStream s =
      .ok ⟨if complete then .complete else if as = [] then .unknown else .satisfied, as⟩ := by
  have hread := run_blocks hnames hblocks ⟨.unknown, []⟩
  rw [ofStream_eq, hs, run_append, start, hread]
  exact congrArg (Except.map Reading.result) (run_ends hending _)

end Reading

end Solver

open Solver Source

/-- A valid identifier begins with a letter, so no solver adds it for itself. -/
theorem not_isInternal_of_require {name : String} (h : Identifier.require name = .ok ()) :
    isInternal name = false := by
  rw [Bool.eq_false_iff, ne_eq, isInternal_iff]
  rintro ⟨cs, hcs⟩
  have hformed := (require_eq_ok.1 h).1
  rw [hcs, Identifier.isWellFormed] at hformed
  exact absurd (Bool.and_eq_true_iff.1 hformed).1 (by decide)

theorem decisions_valid {model : Model} {n n' : Nat} {r : ResolvedModel}
    (h : model.resolve.run n = (.ok r, n')) {name : String}
    (hname : name ∈ r.decisions.map Prod.fst) : Identifier.require name = .ok () := by
  obtain ⟨-, hrun, -⟩ := resolve_eq_ok h
  obtain ⟨-, entries, hr, hentries⟩ :=
    declareAll_words (s := .empty) List.nodup_nil (by simp [Entities.empty, Symbol.words]) hrun
  obtain ⟨entry, hentry, rfl⟩ := List.mem_map.1 hname
  refine hentries entry ?_
  rw [hr, Entities.adding, Entities.empty, List.nil_append] at hentry
  exact (List.mem_filter.1 hentry).1

/-- A transcript of a search for a compiled model is read without failing, and the result holds the
printed assignments in their order: every declared name is kept and none that the solver adds. The
last one is the best, and the status tells whether the search was complete and else whether anything
was found. -/
theorem ofStream_transcript {model : Model} {n n' : Nat} {c : CompiledModel}
    (hcompile : model.compile.run n = (.ok c, n')) {s : String}
    {as : List Solver.Assignment} {blocks : List (List (List Char))}
    {ending : List (List Char)} {complete : Bool}
    (hblocks : List.Forall₂ (Prints (c.resolved.decisions.map Prod.fst)) as blocks)
    (hending : Ends complete ending) (hs : lines s = blocks.flatten ++ ending) :
    ∃ r, Result.ofStream s = .ok r ∧ r.solutions = as ∧ r.best? = as.getLast? ∧
      (∀ a ∈ r.solutions, ∀ member ∈ a, isInternal member.1 = false) ∧
      r.status = if complete then .complete else if as = [] then .unknown else .satisfied := by
  have hnames : ∀ name ∈ c.resolved.decisions.map Prod.fst, isInternal name = false :=
    fun name hname =>
      not_isInternal_of_require (decisions_valid (compile_eq_ok hcompile).1 hname)
  refine ⟨_, Reading.ofStream_blocks hnames hblocks hending hs, rfl, rfl, ?_, rfl⟩
  intro a ha member hmember
  obtain ⟨block, -, hprints⟩ := exists_of_mem_left hblocks ha
  cases hprints
  exact hnames _ (of_decide_eq_true (List.mem_filter.1 hmember).2)

/-- A model with one variable, which is minimized. -/
def soughtModel : Model where
  attributes := [("x", .var ⟨0⟩ .int)]
  constraints := []
  objective := .minimize (.var ⟨0⟩ .int)

/-- The lines of a first solution, indented and around a comment. -/
def firstBody : List (List Char) :=
  ["% first", "  \x7b\"x\": 2,\r", "% between", "", "\t\"_objective\": 2\x7d"].map String.toList

/-- Two solutions and the end of a search. -/
def soughtStream : String :=
  "% first\n  \x7b\"x\": 2,\r\n% between\n\n\t\"_objective\": 2\x7d\n----------\r\n" ++
    "\x7b\"x\":1\x7d\n----------\n==========\n"

theorem firstBody_prints :
    Prints ["x"] [("x", .int 2)] (firstBody ++ ["----------\r".toList]) := by
  have hnesting : Json.Document.parse? "\x7b\"x\": 2,\n\"_objective\": 2\x7d" =
      some (.object [("x".toList, .word ['2']), ("_objective".toList, .word ['2'])]) := rfl
  have hmembers : Json.Document.memberValues? 126
      [("x".toList, .word ['2']), ("_objective".toList, .word ['2'])] =
      some [("x", .int 2), ("_objective", .int 2)] := rfl
  have hsorted : Json.sorted [("x", .int 2), ("_objective", .int 2)] =
      [("_objective", .int 2), ("x", .int 2)] := rfl
  have hparse : Json.parse? "\x7b\"x\": 2,\n\"_objective\": 2\x7d" =
      some (.object [("_objective", .int 2), ("x", .int 2)]) := by
    rw [Json.parse?, hnesting, ← hsorted]
    simp only [Option.bind_some, Json.maxDepth, Json.Document.value?, hmembers, Option.map_some]
  have hkeys : ∀ member ∈ [("_objective", Json.int 2), ("x", Json.int 2)],
      member.1 ∈ ["x"] ∨ isInternal member.1 = true :=
    List.forall_mem_cons.2 ⟨.inr (isInternal_iff.2 ⟨_, rfl⟩), by simp⟩
  have hlayout : LaysOut (lines "\x7b\"x\": 2,\n\"_objective\": 2\x7d") firstBody :=
    .passing (.inr ⟨_, rfl⟩) (.line rfl (.passing (.inr ⟨_, rfl⟩) (.passing (.inl rfl)
      (.line rfl .nil))))
  exact Prints.intro hparse hkeys hlayout rfl

theorem ofStream_transcript_soughtModel : ∃ c n', soughtModel.compile.run 1 = (.ok c, n') ∧
    c.resolved.decisions.map Prod.fst = ["x"] ∧
    ∃ r, Result.ofStream soughtStream = .ok r ∧
      r.solutions = [[("x", .int 2)], [("x", .int 1)]] ∧ r.best? = some [("x", .int 1)] ∧
      r.status = .complete := by
  refine ⟨_, _, rfl, rfl, ?_⟩
  have hparse : Json.parse? "\x7b\"x\":1\x7d" = some (.object [("x", .int 1)]) := rfl
  have hsecond : Prints ["x"] [("x", .int 1)]
      (["\x7b\"x\":1\x7d".toList] ++ ["----------".toList]) :=
    Prints.intro hparse (by simp) (.line rfl .nil) rfl
  have hends : Ends true ("==========".toList :: [[]]) :=
    @Ends.complete [] _ _ (by simp) rfl (by simp [IsPassing, trim])
  obtain ⟨r, hr, hsolutions, hbest, -, hstatus⟩ := ofStream_transcript
    (rfl : soughtModel.compile.run 1 = (.ok _, _)) (.cons firstBody_prints (.cons hsecond .nil))
    hends (by decide : lines soughtStream = _)
  exact ⟨r, hr, hsolutions, hbest, hstatus⟩

end ConstraintModel
