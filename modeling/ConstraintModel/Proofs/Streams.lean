import Mathlib.Data.List.DropRight
import ConstraintModel.Proofs.Transcript

/-!
# Streams as a whole

What the stream of a solver says is told by its lines: the first that cannot be read, how many end a
solution, and the last that bears a status. A stream that follows another is read as if it stood alone,
and its result comes after the other's.
-/

namespace ConstraintModel.Solver

/-! ## What a line says -/

/-- Whether the line ends a solution. -/
def EndsSolution (line : List Char) : Prop :=
  trim line = "----------".toList

instance : DecidablePred EndsSolution :=
  fun line => inferInstanceAs (Decidable (trim line = _))

/-- The lines that bear a status, with the status that they set. -/
def statusMarks : List (String × Status) :=
  [("----------", .satisfied), ("==========", .complete),
    ("=====UNSATISFIABLE=====", .unsatisfiable), ("=====UNBOUNDED=====", .unbounded),
    ("=====UNSATorUNBOUNDED=====", .unknown), ("=====UNKNOWN=====", .unknown)]

/-- The status that the line sets, if it bears one. -/
def statusOf? (line : List Char) : Option Status :=
  statusMarks.lookup (String.ofList (trim line))

/-- Whether the line reports that the solver gives up. -/
def ReportsError (line : List Char) : Prop :=
  trim line = "=====ERROR=====".toList

instance : DecidablePred ReportsError :=
  fun line => inferInstanceAs (Decidable (trim line = _))

instance : DecidablePred IsPassing := fun line =>
  decidable_of_iff (trim line = [] ∨ (trim line).head? = some '%')
    (by rw [IsPassing, List.head?_eq_some_iff])

/-- Whether the line is a part of a solution: it is no mark, and it is not passed over. -/
def IsText (line : List Char) : Prop :=
  statusOf? line = none ∧ ¬ReportsError line ∧ ¬IsPassing line

instance : DecidablePred IsText :=
  fun line => inferInstanceAs (Decidable (statusOf? line = none ∧ _))

theorem trim_eq_toList_iff {l : List Char} {t : String} :
    trim l = t.toList ↔ String.ofList (trim l) = t := by
  rw [← String.toList_inj, String.toList_ofList]

theorem isPassing_iff {l : List Char} :
    IsPassing l ↔ ((String.ofList (trim l)).isEmpty ||
      (String.ofList (trim l)).startsWith "%") = true := by
  rw [Bool.or_eq_true, startsWith_percent, String.toList_ofList, String.isEmpty_iff,
    ← String.toList_eq_nil_iff, String.toList_ofList]
  rfl

/-- How a line is read is told by the mark that it is. -/
theorem ofChars_eq (l : List Char) :
    Line.ofChars l =
      if EndsSolution l then .separator
      else match statusOf? l with
        | some s => .status s
        | none =>
          if ReportsError l then .failure
          else if IsPassing l then .ignored
          else .part (String.ofList (trim l)) := by
  simp only [Line.ofChars, EndsSolution, ReportsError, statusOf?, trim_eq_toList_iff, isPassing_iff]
  generalize String.ofList (trim l) = t
  unfold Line.ofTrimmed
  split
  case h_8 hseparator hcomplete hunsatisfiable hunbounded hneither hunknown herror =>
    have hnone : statusMarks.lookup t = none := by
      rw [List.lookup_eq_none_iff]
      simpa [statusMarks] using
        ⟨hseparator, hcomplete, hunsatisfiable, hunbounded, hneither, hunknown⟩
    rw [if_neg hseparator, hnone]
    exact (if_neg herror).symm
  all_goals rfl

/-! ## What lines say -/

/-- The status that is set last, or the given one where no line bears a status. -/
def statusAfter (s : Status) (ls : List (List Char)) : Status :=
  (ls.filterMap statusOf?).getLast?.getD s

/-- The text of the solution that is begun when the lines end: the parts since the last end of a
solution, without the white space around them and each with a line feed. -/
def begun (ls : List (List Char)) : List Char :=
  ((ls.rtakeWhile fun l => ¬EndsSolution l).filter IsText).flatMap fun l => trim l ++ ['\n']

/-- What is wrong with a line that comes after the given ones. -/
inductive Faulty (before : List (List Char)) (line : List Char) : Failure → Prop
  | error : ReportsError line → Faulty before line (.solver "the solver reported an error")
  | malformed : EndsSolution line →
      (∀ members, Json.parse? (String.ofList (begun before)) ≠ some (.object members)) →
      Faulty before line .malformed

/-- Whether no line is faulty. -/
def Faultless (ls : List (List Char)) : Prop :=
  ∀ before line after f, ls = before ++ line :: after → ¬Faulty before line f

/-- Whether the first faulty line has the given fault. -/
def FirstFault (ls : List (List Char)) (f : Failure) : Prop :=
  ∃ before line after, ls = before ++ line :: after ∧ Faultless before ∧ Faulty before line f

theorem faultless_nil : Faultless [] := by
  intro before line after f h
  simp at h

theorem faultless_concat {ls : List (List Char)} {l : List Char} :
    Faultless (ls ++ [l]) ↔ Faultless ls ∧ ∀ f, ¬Faulty ls l f := by
  constructor
  · intro h
    exact ⟨fun before line after f hls => h before line (after ++ [l]) f (by simp [hls]),
      fun f => h ls l [] f rfl⟩
  · rintro ⟨hls, hl⟩ before line after f heq
    rcases List.eq_nil_or_concat after with rfl | ⟨after, last, rfl⟩
    · obtain ⟨rfl, hline⟩ := List.append_inj' heq rfl
      obtain rfl : l = line := by simpa using hline
      exact hl f
    · rw [List.concat_eq_append, ← List.cons_append, ← List.append_assoc] at heq
      exact hls before line after f (List.append_inj' heq rfl).1

theorem statusAfter_concat (s : Status) (ls : List (List Char)) (l : List Char) :
    statusAfter s (ls ++ [l]) = (statusOf? l).getD (statusAfter s ls) := by
  rw [statusAfter, List.filterMap_append]
  cases h : statusOf? l <;> simp [h, statusAfter]

theorem begun_of_endsSolution {ls : List (List Char)} {l : List Char} (h : EndsSolution l) :
    begun (ls ++ [l]) = [] := by
  simp [begun, h]

theorem begun_of_not_isText {ls : List (List Char)} {l : List Char} (h : ¬EndsSolution l)
    (htext : ¬IsText l) : begun (ls ++ [l]) = begun ls := by
  simp [begun, h, htext]

theorem begun_of_isText {ls : List (List Char)} {l : List Char} (h : ¬EndsSolution l)
    (htext : IsText l) : begun (ls ++ [l]) = begun ls ++ trim l ++ ['\n'] := by
  simp [begun, h, htext]

theorem statusOf?_of_endsSolution {l : List Char} (h : EndsSolution l) :
    statusOf? l = some .satisfied := by
  rw [statusOf?, trim_eq_toList_iff.1 h]
  rfl

/-- Only the end of a solution says that there is one. -/
theorem endsSolution_of_statusOf? {l : List Char} (h : statusOf? l = some .satisfied) :
    EndsSolution l := by
  obtain ⟨before, after, hmarks, -⟩ := List.lookup_eq_some_iff.1 h
  have hmem : (String.ofList (trim l), Status.satisfied) ∈ statusMarks := by simp [hmarks]
  rw [EndsSolution, trim_eq_toList_iff]
  simpa [statusMarks] using hmem

theorem not_reportsError_of_endsSolution {l : List Char} (h : EndsSolution l) :
    ¬ReportsError l := by
  rw [ReportsError, h]
  decide

theorem statusOf?_of_reportsError {l : List Char} (h : ReportsError l) : statusOf? l = none := by
  rw [statusOf?, trim_eq_toList_iff.1 h]
  rfl

/-! ## Readings -/

namespace Reading

/-- A line that is not faulty is read, and adds a solution if it ends one. -/
theorem step_of_not_faulty {ls : List (List Char)} {l : List Char} (h : ∀ f, ¬Faulty ls l f) :
    ∃ as : List Assignment, as.length = [l].countP EndsSolution ∧ ∀ result : Result,
      step ⟨result, String.ofList (begun ls)⟩ (Line.ofChars l) =
        .ok ⟨⟨(statusOf? l).getD result.status, result.solutions ++ as⟩,
          String.ofList (begun (ls ++ [l]))⟩ := by
  have herror : ¬ReportsError l := fun herror => h _ (.error herror)
  rw [ofChars_eq]
  by_cases hend : EndsSolution l
  · obtain ⟨members, hmembers⟩ : ∃ members,
        Json.parse? (String.ofList (begun ls)) = some (.object members) := by
      by_contra hnone
      exact h _ (.malformed hend (not_exists.1 hnone))
    refine ⟨[members.filter fun member => !isInternal member.1], by simp [hend], fun result => ?_⟩
    rw [if_pos hend, statusOf?_of_endsSolution hend, begun_of_endsSolution hend]
    simp only [step, assignmentOf, hmembers]
    rfl
  · refine ⟨[], by simp [hend], fun result => ?_⟩
    rw [if_neg hend, List.append_nil]
    cases hstatus : statusOf? l with
    | some s =>
        rw [begun_of_not_isText hend fun htext => by simp [htext.1] at hstatus]
        rfl
    | none =>
        by_cases hpassing : IsPassing l
        · rw [begun_of_not_isText hend fun htext => htext.2.2 hpassing]
          simp only [if_neg herror, if_pos hpassing]
          rfl
        · rw [begun_of_isText hend ⟨hstatus, herror, hpassing⟩]
          simp only [if_neg herror, if_neg hpassing, step, Option.getD_none]
          congr 2
          apply String.toList_injective
          simp

/-- The fault of a line is what reading it fails with. -/
theorem step_of_faulty {ls : List (List Char)} {l : List Char} {f : Failure} (h : Faulty ls l f)
    (result : Result) :
    step ⟨result, String.ofList (begun ls)⟩ (Line.ofChars l) = .error f := by
  rw [ofChars_eq]
  cases h with
  | error herror =>
      rw [if_neg fun hend => not_reportsError_of_endsSolution hend herror,
        statusOf?_of_reportsError herror]
      simp only [if_pos herror]
      rfl
  | malformed hend hnone =>
      rw [if_pos hend]
      have hmalformed : assignmentOf (String.ofList (begun ls)) = .error .malformed := by
        unfold assignmentOf
        split
        · rename_i members hmembers
          exact absurd hmembers (hnone members)
        · rfl
      simp only [step, hmalformed]
      rfl

/-- Faultless lines are read after any result: they add their solutions to it, one for each line that
ends one, and leave its status where none of them bears one. -/
theorem run_of_faultless {ls : List (List Char)} (h : Faultless ls) :
    ∃ as : List Assignment, as.length = ls.countP EndsSolution ∧ ∀ result : Result,
      run ⟨result, ""⟩ ls =
        .ok ⟨⟨statusAfter result.status ls, result.solutions ++ as⟩, String.ofList (begun ls)⟩ := by
  induction ls using List.reverseRecOn with
  | nil => exact ⟨[], rfl, fun result => by simp [run, statusAfter, begun]; rfl⟩
  | append_singleton ls l ih =>
      obtain ⟨hls, hl⟩ := faultless_concat.1 h
      obtain ⟨as, has, hrun⟩ := ih hls
      obtain ⟨added, hadded, hstep⟩ := step_of_not_faulty hl
      refine ⟨as ++ added, by rw [List.length_append, List.countP_append, has, hadded],
        fun result => ?_⟩
      rw [run_append, hrun, statusAfter_concat, ← List.append_assoc]
      change run _ [l] = _
      rw [run_cons, hstep]
      rfl

/-- A run ends at the first faulty line. -/
theorem run_of_firstFault {ls : List (List Char)} {f : Failure} (h : FirstFault ls f)
    (result : Result) : run ⟨result, ""⟩ ls = .error f := by
  obtain ⟨before, line, after, rfl, hbefore, hline⟩ := h
  obtain ⟨as, -, hrun⟩ := run_of_faultless hbefore
  rw [run_append, hrun]
  change run _ (line :: after) = _
  rw [run_cons, step_of_faulty hline]
  rfl

end Reading

theorem faultless_or_firstFault (ls : List (List Char)) : Faultless ls ∨ ∃ f, FirstFault ls f := by
  induction ls using List.reverseRecOn with
  | nil => exact .inl faultless_nil
  | append_singleton ls l ih =>
      rcases ih with hls | ⟨f, before, line, after, rfl, hbefore, hline⟩
      · by_cases hl : ∃ f, Faulty ls l f
        · obtain ⟨f, hf⟩ := hl
          exact .inr ⟨f, ls, l, [], rfl, hls, hf⟩
        · exact .inl (faultless_concat.2 ⟨hls, not_exists.1 hl⟩)
      · exact .inr ⟨f, before, line, after ++ [l], by simp, hbefore, hline⟩

/-! ## Streams -/

theorem lines_eq_splitOn (s : String) : lines s = s.toList.splitOn '\n' := by
  unfold lines
  induction s.toList with
  | nil => rfl
  | cons c cs ih =>
      obtain ⟨line, rest, hcs⟩ :=
        List.exists_cons_of_ne_nil (List.splitOnP_ne_nil (· == '\n') cs)
      have hcons : (c :: cs).splitOn '\n' =
          if c = '\n' then [] :: line :: rest else (c :: line) :: rest := by
        rw [List.splitOn, List.splitOnP_cons_eq_if_modifyHead, hcs]
        simp
      rw [List.foldr_cons, ih, hcons, List.splitOn, hcs]
      by_cases hc : c = '\n' <;> simp [hc]

/-- After a line feed come the lines of what follows. -/
theorem lines_append {s : String} (h : s.toList.getLast? = some '\n') (t : String) :
    lines (s ++ t) = (lines s).dropLast ++ lines t := by
  obtain ⟨cs, hcs⟩ := List.getLast?_eq_some_iff.1 h
  have hadded : ∀ more, (cs ++ '\n' :: more).splitOn '\n' = cs.splitOn '\n' ++ more.splitOn '\n' :=
    fun more => List.splitOnP_append_cons cs more (by simp)
  have hempty : ([] : List Char).splitOn '\n' = [[]] := rfl
  rw [lines_eq_splitOn, lines_eq_splitOn, lines_eq_splitOn, String.toList_append, hcs,
    List.append_assoc, List.singleton_append, hadded, hadded, hempty, List.dropLast_concat]

/-- Nothing stands on the last line of a text that ends in a line feed. -/
theorem lines_eq_concat {s : String} (h : s.toList.getLast? = some '\n') :
    lines s = (lines s).dropLast ++ [[]] := by
  have happend := lines_append h ""
  rwa [String.append_empty] at happend

/-- A status before the lines counts only where none of them bears one. -/
theorem statusAfter_eq (s s' : Status) (ls : List (List Char)) :
    statusAfter s ls =
      if ∃ line ∈ ls, (statusOf? line).isSome then statusAfter s' ls else s := by
  rw [statusAfter, statusAfter]
  cases hlast : (ls.filterMap statusOf?).getLast? with
  | none =>
      have hnone : ∀ line ∈ ls, statusOf? line = none :=
        List.filterMap_eq_nil_iff.1 (List.getLast?_eq_none_iff.1 hlast)
      rw [if_neg (by rintro ⟨line, hline, hsome⟩; simp [hnone line hline] at hsome)]
      rfl
  | some last =>
      obtain ⟨line, hline, hstatus⟩ := List.mem_filterMap.1 (List.mem_of_getLast? hlast)
      rw [if_pos ⟨line, hline, by rw [hstatus]; rfl⟩]
      rfl

/-- The status tells of a solution only after the end of one. -/
theorem exists_endsSolution {ls : List (List Char)}
    (h : statusAfter .unknown ls = .satisfied) : ∃ line ∈ ls, EndsSolution line := by
  have hlast : (ls.filterMap statusOf?).getLast? = some .satisfied := by
    rw [statusAfter] at h
    cases hlast : (ls.filterMap statusOf?).getLast? with
    | none => rw [hlast] at h; cases h
    | some last => rw [hlast] at h; exact congrArg some h
  obtain ⟨line, hline, hstatus⟩ := List.mem_filterMap.1 (List.mem_of_getLast? hlast)
  exact ⟨line, hline, endsSolution_of_statusOf? hstatus⟩

theorem ofStream_eq_error {s : String} {f : Failure} (h : FirstFault (lines s) f) :
    Result.ofStream s = .error f := by
  rw [Reading.ofStream_eq, Reading.start, Reading.run_of_firstFault h]
  rfl

theorem ofStream_eq_error_iff {s : String} {f : Failure} :
    Result.ofStream s = .error f ↔ FirstFault (lines s) f := by
  refine ⟨fun h => ?_, ofStream_eq_error⟩
  rcases faultless_or_firstFault (lines s) with hs | ⟨f', hf'⟩
  · obtain ⟨as, -, hrun⟩ := Reading.run_of_faultless hs
    rw [Reading.ofStream_eq, Reading.start, hrun] at h
    cases h
  · rw [ofStream_eq_error hf'] at h
    cases h
    exact hf'

theorem faultless_of_ofStream {s : String} {r : Result} (h : Result.ofStream s = .ok r) :
    Faultless (lines s) := by
  rcases faultless_or_firstFault (lines s) with hs | ⟨f, hf⟩
  · exact hs
  · rw [ofStream_eq_error hf] at h
    cases h

/-- What a stream without faults reports, and what it adds to any other result. -/
theorem ofStream_of_faultless {s : String} (h : Faultless (lines s)) :
    ∃ as : List Assignment, as.length = (lines s).countP EndsSolution ∧
      Result.ofStream s = .ok ⟨statusAfter .unknown (lines s), as⟩ ∧
      ∀ result : Result, Reading.run ⟨result, ""⟩ (lines s) =
        .ok ⟨⟨statusAfter result.status (lines s), result.solutions ++ as⟩,
          String.ofList (begun (lines s))⟩ := by
  obtain ⟨as, has, hrun⟩ := Reading.run_of_faultless h
  refine ⟨as, has, ?_, hrun⟩
  rw [Reading.ofStream_eq, Reading.start, hrun]
  rfl

/-- A stream that comes after another is read as if it stood alone, where the other ends in a line feed
and begins no solution that it does not end. -/
theorem ofStream_append {s t : String} {r r' : Result} (hs : Result.ofStream s = .ok r)
    (ht : Result.ofStream t = .ok r') (hend : s.toList.getLast? = some '\n')
    (hbegun : begun (lines s) = []) :
    Result.ofStream (s ++ t) =
      .ok ⟨if ∃ line ∈ lines t, (statusOf? line).isSome then r'.status else r.status,
        r.solutions ++ r'.solutions⟩ := by
  obtain ⟨as, -, hfirst, hrun⟩ := ofStream_of_faultless (faultless_of_ofStream hs)
  obtain ⟨as', -, hsecond, hrun'⟩ := ofStream_of_faultless (faultless_of_ofStream ht)
  obtain rfl : r = _ := Except.ok.inj (hs.symm.trans hfirst)
  obtain rfl : r' = _ := Except.ok.inj (ht.symm.trans hsecond)
  -- The empty last line of the first stream is passed over, so the run stops before it.
  have hbefore : Reading.start.run (lines s).dropLast =
      .ok ⟨⟨statusAfter .unknown (lines s), as⟩, ""⟩ := by
    have hlast : (fun r : Reading => r.run [[]]) = pure :=
      funext fun r => Reading.run_passing (by simp [IsPassing, trim]) r
    have hwhole := Reading.run_append .start (lines s).dropLast [[]]
    rw [hlast, bind_pure, ← lines_eq_concat hend, Reading.start, hrun, hbegun] at hwhole
    exact hwhole.symm
  rw [Reading.ofStream_eq, lines_append hend, Reading.run_append, hbefore]
  change Reading.result <$> Reading.run _ (lines t) = _
  rw [hrun', statusAfter_eq _ .unknown]
  rfl

/-- A stream fails where a line reports an error, or ends a solution whose text is no JSON object. -/
theorem exists_error_iff {s : String} :
    (∃ f, Result.ofStream s = .error f) ↔
      ∃ before line after, lines s = before ++ line :: after ∧
        (ReportsError line ∨ EndsSolution line ∧
          ∀ members, Json.parse? (String.ofList (begun before)) ≠ some (.object members)) := by
  constructor
  · rintro ⟨f, hf⟩
    obtain ⟨before, line, after, hlines, -, hfaulty⟩ := ofStream_eq_error_iff.1 hf
    refine ⟨before, line, after, hlines, ?_⟩
    cases hfaulty with
    | error herror => exact .inl herror
    | malformed hend hnone => exact .inr ⟨hend, hnone⟩
  · rintro ⟨before, line, after, hlines, hfaulty⟩
    rcases faultless_or_firstFault (lines s) with hs | ⟨f, hf⟩
    · rcases hfaulty with herror | ⟨hend, hnone⟩
      · exact absurd (.error herror) (hs before line after _ hlines)
      · exact absurd (.malformed hend hnone) (hs before line after _ hlines)
    · exact ⟨f, ofStream_eq_error hf⟩

/-- A stream fails exactly where it has a faulty line, and with the fault of the first one. If it does
not fail, then there is a solution for each line that ends one, the status is the last that a line
bears, and a stream that comes after it, where it ends in a line feed and no solution is begun, is
read as if it stood alone: its solutions are added, and its status counts if any of its lines bears
one. -/
theorem ofStream_compositional (s : String) :
    ((∃ f, Result.ofStream s = .error f) ↔
      ∃ before line after, lines s = before ++ line :: after ∧
        (ReportsError line ∨ EndsSolution line ∧
          ∀ members, Json.parse? (String.ofList (begun before)) ≠ some (.object members))) ∧
    (∀ f, Result.ofStream s = .error f ↔ FirstFault (lines s) f) ∧
    ∀ r, Result.ofStream s = .ok r →
      r.solutions.length = (lines s).countP EndsSolution ∧
      r.status = statusAfter .unknown (lines s) ∧
      (r.status = .satisfied → r.solutions ≠ []) ∧
      (r.isSatisfied = true ↔ ∃ line ∈ lines s, EndsSolution line) ∧
      ∀ t r', s.toList.getLast? = some '\n' → begun (lines s) = [] →
        Result.ofStream t = .ok r' →
        Result.ofStream (s ++ t) =
          .ok ⟨if ∃ line ∈ lines t, (statusOf? line).isSome then r'.status else r.status,
            r.solutions ++ r'.solutions⟩ := by
  refine ⟨exists_error_iff, fun f => ofStream_eq_error_iff, fun r hr => ?_⟩
  obtain ⟨as, has, hread, -⟩ := ofStream_of_faultless (faultless_of_ofStream hr)
  obtain rfl : r = _ := Except.ok.inj (hr.symm.trans hread)
  have hsome : as ≠ [] ↔ ∃ line ∈ lines s, EndsSolution line := by
    rw [← List.length_pos_iff, has, List.countP_pos_iff]
    simp only [decide_eq_true_eq]
  refine ⟨has, rfl, fun hstatus => hsome.2 (exists_endsSolution hstatus), ?_,
    fun t r' hend hbegun ht => ofStream_append hr ht hend hbegun⟩
  rw [← hsome, Result.isSatisfied, Bool.not_eq_true', List.isEmpty_eq_false_iff]

/-- A first solution below a comment, and a better one that comes later. -/
def improvedStreams : String × String :=
  ("% seeking\n\x7b\"x\":2\x7d\r\n----------\r\n",
    "\x7b\"x\":1\x7d\n----------\n==========\n")

theorem ofStream_compositional_improvedStreams :
    Result.ofStream (improvedStreams.1 ++ improvedStreams.2) =
      .ok ⟨.complete, [[("x", .int 2)], [("x", .int 1)]]⟩ ∧
    ∃ r, Result.ofStream improvedStreams.1 = .ok r ∧ r.isSatisfied = true := by
  have hnames : ∀ name ∈ ["x"], isInternal name = false := by
    intro name hname
    rw [List.mem_singleton.1 hname, Bool.eq_false_iff, ne_eq, isInternal_iff]
    rintro ⟨cs, hcs⟩
    cases hcs
  have hparse : Json.parse? "\x7b\"x\":2\x7d" = some (.object [("x", .int 2)]) := rfl
  have hparse' : Json.parse? "\x7b\"x\":1\x7d" = some (.object [("x", .int 1)]) := rfl
  have hprints : Prints ["x"] [("x", .int 2)]
      (["% seeking".toList, "\x7b\"x\":2\x7d\r".toList] ++ ["----------\r".toList]) :=
    .intro hparse (by simp) (.passing (.inr ⟨_, rfl⟩) (.line rfl .nil)) rfl
  have hprints' : Prints ["x"] [("x", .int 1)]
      (["\x7b\"x\":1\x7d".toList] ++ ["----------".toList]) :=
    .intro hparse' (by simp) (.line rfl .nil) rfl
  have hlines : lines improvedStreams.1 =
      (["% seeking".toList, "\x7b\"x\":2\x7d\r".toList] ++ ["----------\r".toList]) ++ [[]] := by
    decide
  have hlines' : lines improvedStreams.2 =
      (["\x7b\"x\":1\x7d".toList] ++ ["----------".toList]) ++ ["==========".toList, []] := by
    decide
  have hfirst : Result.ofStream improvedStreams.1 = .ok ⟨.satisfied, [[("x", .int 2)]]⟩ := by
    rw [Reading.ofStream_eq, hlines, Reading.run_append, Reading.start,
      Reading.run_prints hnames hprints]
    rfl
  have hsecond : Result.ofStream improvedStreams.2 = .ok ⟨.complete, [[("x", .int 1)]]⟩ := by
    rw [Reading.ofStream_eq, hlines', Reading.run_append, Reading.start,
      Reading.run_prints hnames hprints']
    rfl
  obtain ⟨-, -, hread⟩ := ofStream_compositional improvedStreams.1
  obtain ⟨-, -, -, hsatisfied, hcontinued⟩ := hread _ hfirst
  refine ⟨(hcontinued _ _ (by decide) (by decide) hsecond).trans ?_, _, hfirst, hsatisfied.2 ?_⟩
  · rw [if_pos (by decide)]
    rfl
  · exact ⟨"----------\r".toList, by decide, by decide⟩

end ConstraintModel.Solver
