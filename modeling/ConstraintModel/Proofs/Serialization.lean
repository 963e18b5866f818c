import ConstraintModel.Proofs.ReadJson
import ConstraintModel.Proofs.Streams

/-!
# Results as text

A result that was read off a stream is written as JSON text and read back from it. Around its
solutions the text has two more levels of nesting, and it may nest no deeper than a solution in a
stream. So a result survives exactly if its solutions nest two levels less deep than they may.
-/

namespace ConstraintModel.Solver

/-! ## Solutions of a stream -/

/-- Whether an assignment is one that is read: its values are, and it nests no deeper than it may. -/
def IsRead (a : Assignment) : Prop :=
  (Json.object a).IsRead ∧ (Json.object a).depth ≤ Json.maxDepth

theorem IsRead.filter {a : Assignment} (h : IsRead a) (p : String × Json → Bool) :
    IsRead (a.filter p) := by
  obtain ⟨hread, hdepth⟩ := h
  have hdepths := Json.membersDepth_le.1 (Nat.le_of_succ_le_succ hdepth)
  cases hread with
  | object hsorted hvalues =>
      exact ⟨.object (hsorted.filter p) fun m hm => hvalues m (List.mem_of_mem_filter hm),
        Nat.succ_le_succ (Json.membersDepth_le.2 fun m hm => hdepths m (List.mem_of_mem_filter hm))⟩

theorem assignmentOf_isRead {block : String} {a : Assignment} (h : assignmentOf block = .ok a) :
    IsRead a := by
  unfold assignmentOf at h
  split at h
  · next members hparse =>
      cases h
      obtain ⟨d, -, hvalue⟩ := Option.bind_eq_some_iff.1 hparse
      exact IsRead.filter (Json.value?_isRead hvalue) _
  · cases h

namespace Reading

theorem step_isRead {r r' : Reading} {l : Line} (h : r.step l = .ok r')
    (hr : ∀ a ∈ r.result.solutions, IsRead a) : ∀ a ∈ r'.result.solutions, IsRead a := by
  cases l with
  | separator =>
      obtain ⟨a, ha, ⟨⟩⟩ := bind_eq_ok.1 h
      exact List.forall_mem_append.2 ⟨hr, List.forall_mem_singleton.2 (assignmentOf_isRead ha)⟩
  | failure => cases h
  | status _ | ignored | part _ =>
      cases h
      exact hr

theorem run_isRead {r r' : Reading} {ls : List (List Char)} (h : r.run ls = .ok r')
    (hr : ∀ a ∈ r.result.solutions, IsRead a) : ∀ a ∈ r'.result.solutions, IsRead a := by
  induction ls generalizing r with
  | nil =>
      cases h
      exact hr
  | cons l ls ih =>
      rw [run_cons] at h
      obtain ⟨next, hstep, hrun⟩ := bind_eq_ok.1 h
      exact ih hrun (step_isRead hstep hr)

end Reading

/-- All solutions that a stream reports were read. -/
theorem ofStream_isRead {s : String} {r : Result} (h : Result.ofStream s = .ok r) :
    ∀ a ∈ r.solutions, IsRead a := by
  obtain ⟨last, hrun, ⟨⟩⟩ := bind_eq_ok.1 h
  exact Reading.run_isRead hrun (List.forall_mem_nil _)

/-- The text of an object is read as one solution, where no name is one that the solver adds. -/
theorem ofStream_block {text : String} {members : Assignment}
    (h : Json.parse? text = some (.object members))
    (hnames : ∀ member ∈ members, isInternal member.1 = false) :
    Result.ofStream (text ++ "\n----------\n") = .ok ⟨.satisfied, [members]⟩ := by
  have hlayout (ls : List (List Char)) : LaysOut ls ls := by
    induction ls with
    | nil => exact .nil
    | cons l ls ih => exact .line rfl ih
  have hlines : lines (text ++ "\n----------\n") =
      (lines text ++ ["----------".toList]) ++ [[]] := by
    rw [lines_eq_splitOn, lines_eq_splitOn, String.toList_append]
    exact (List.splitOnP_append_cons text.toList _ (by decide)).trans (by simp; rfl)
  have hfilter : (members.filter fun member => member.1 ∈ members.map Prod.fst) = members :=
    List.filter_eq_self.2 fun member hmember => by simpa using ⟨member.2, hmember⟩
  have hprints : Prints (members.map Prod.fst)
      (members.filter fun member => member.1 ∈ members.map Prod.fst)
      (lines text ++ ["----------".toList]) :=
    .intro h (fun member hmember => .inl (List.mem_map_of_mem hmember)) (hlayout _) rfl
  rw [hfilter] at hprints
  rw [Reading.ofStream_eq, hlines, Reading.run_append, Reading.start,
    Reading.run_prints (by simpa using hnames) hprints]
  rfl

/-! ## Text of a result -/

/-- The result as an object, as its text has it. -/
def Result.json (r : Result) : Json :=
  .object [("status", .string r.status.name), ("solutions", .array (r.solutions.map .object))]

/-- The result as a list of its status and its solutions. -/
def Result.pair (r : Result) : Json :=
  .array [.string r.status.name, .array (r.solutions.map .object)]

theorem Result.text_eq (r : Result) : r.text = r.json.text := by
  have hstatus : (Json.quote "status").toList = "\"status\"".toList := by decide
  have hsolutions : (Json.quote "solutions").toList = "\"solutions\"".toList := by decide
  apply String.toList_injective
  simp [text, json, Json.text, Json.memberTexts, hstatus, hsolutions]

theorem Status.ofName?_name (s : Status) : ofName? s.name = some s := by
  cases s <;> decide

/-! ## Reading a result -/

namespace Result

theorem assignment?_document {a : Assignment} (hfree : (Json.object a).FloatFree)
    (hread : (Json.object a).IsRead) (n : Nat) :
    assignment? n (Json.object a).document =
      if (Json.object a).depth ≤ n then some a else none := by
  rw [assignment?, hfree.value?_document hread]
  split_ifs <;> rfl

theorem status?_document (s : Status) : status? (Json.string s.name).document = some s := by
  rw [Json.document, status?, Json.string?_escaped, Option.bind_some, s.ofName?_name]

theorem solutions?_document {as : List Assignment}
    (hfree : ∀ a ∈ as, (Json.object a).FloatFree) (hread : ∀ a ∈ as, IsRead a) :
    solutions? (Json.array (as.map .object)).document =
      if ∀ a ∈ as, (Json.object a).depth ≤ Json.maxDepth - 2 then some as else none := by
  change (Json.itemDocuments (as.map .object)).mapM (assignment? (Json.maxDepth - 2)) = _
  induction as with
  | nil => rfl
  | cons a as ih =>
      obtain ⟨hfree, hrest⟩ := List.forall_mem_cons.1 hfree
      obtain ⟨hread, hreads⟩ := List.forall_mem_cons.1 hread
      rw [List.map_cons, Json.itemDocuments, List.mapM_cons, assignment?_document hfree hread.1,
        ih hrest hreads]
      simp only [List.forall_mem_cons]
      by_cases ha : (Json.object a).depth ≤ Json.maxDepth - 2
      · by_cases has : ∀ a ∈ as, (Json.object a).depth ≤ Json.maxDepth - 2
        · rw [if_pos ha, if_pos has, if_pos ⟨ha, has⟩]
          rfl
        · rw [if_pos ha, if_neg has, if_neg (not_and_of_not_right _ has)]
          rfl
      · rw [if_neg ha, if_neg (not_and_of_not_left _ ha)]
        rfl

/-- An object with a status and solutions holds the same result as the list of the two. -/
theorem ofDocument?_json (r : Result) :
    ofDocument? r.json.document = ofDocument? r.pair.document := by
  have hkeys (status solutions : Json) :
      keyed? (Json.memberDocuments [("status", status), ("solutions", solutions)]) =
        some [("status", status.document), ("solutions", solutions.document)] := by
    simp [keyed?, Json.memberDocuments, Json.string?_escaped]
  rw [json, Json.document, ofDocument?, hkeys]
  rfl

section

variable {r : Result} (hfree : ∀ a ∈ r.solutions, (Json.object a).FloatFree)

include hfree

theorem solutions_floatFree : (Json.array (r.solutions.map .object)).FloatFree := by
  refine .array fun j hj => ?_
  obtain ⟨a, ha, rfl⟩ := List.mem_map.1 hj
  exact hfree a ha

theorem json_floatFree : r.json.FloatFree := by
  refine .object (List.forall_mem_cons.2 ⟨.string _, List.forall_mem_singleton.2 ?_⟩)
  exact solutions_floatFree hfree

theorem pair_floatFree : r.pair.FloatFree := by
  refine .array (List.forall_mem_cons.2 ⟨.string _, List.forall_mem_singleton.2 ?_⟩)
  exact solutions_floatFree hfree

variable (hread : ∀ a ∈ r.solutions, IsRead a)

include hread

theorem ofDocument?_pair : ofDocument? r.pair.document =
    if ∀ a ∈ r.solutions, (Json.object a).depth ≤ Json.maxDepth - 2 then some r else none := by
  change (status? (Json.string r.status.name).document).bind (fun status =>
    (solutions? (Json.array (r.solutions.map .object)).document).bind fun solutions =>
      some (Result.mk status solutions)) = _
  rw [status?_document, solutions?_document hfree hread]
  split_ifs <;> rfl

/-- Of a result without floats, either text is read back unless a solution nests too deep. -/
theorem read?_eq : read? r.text = read? r.pair.text ∧ read? r.pair.text =
    if ∀ a ∈ r.solutions, (Json.object a).depth ≤ Json.maxDepth - 2 then some r else none := by
  rw [read?, read?, text_eq, (json_floatFree hfree).parse?_text, (pair_floatFree hfree).parse?_text]
  exact ⟨ofDocument?_json r, ofDocument?_pair hfree hread⟩

end

end Result

/-- The solutions of a stream nest no deeper than a text may. Where no float is in them, the result is
read back from its text, and also from the list of its status and its solutions, if and only if every
solution nests two levels less deep. -/
theorem result_read_back {s : String} {r : Result} (h : Result.ofStream s = .ok r)
    (hfree : ∀ a ∈ r.solutions, (Json.object a).FloatFree) :
    (∀ a ∈ r.solutions, (Json.object a).depth ≤ Json.maxDepth) ∧
    Result.read? r.text = (if ∀ a ∈ r.solutions, (Json.object a).depth ≤ Json.maxDepth - 2
      then some r else none) ∧
    Result.read? r.pair.text = (if ∀ a ∈ r.solutions, (Json.object a).depth ≤ Json.maxDepth - 2
      then some r else none) := by
  have hread := ofStream_isRead h
  obtain ⟨htext, hpair⟩ := Result.read?_eq hfree hread
  exact ⟨fun a ha => (hread a ha).2, htext.trans hpair, hpair⟩

/-- Lists around a value of each kind. -/
def nestedValue : Nat → Json
  | 0 => .array [.null, .bool true, .int 18446744073709551615, .string "\"\n"]
  | n + 1 => .array [nestedValue n]

/-- A solution with one value, two levels deeper than its lists. -/
def nestedSolution (n : Nat) : Assignment :=
  [("x", nestedValue n)]

/-- The solution as a solver prints it. -/
def nestedStream (n : Nat) : String :=
  (Json.object (nestedSolution n)).text ++ "\n----------\n"

theorem nestedSolution_spec (n : Nat) : (Json.object (nestedSolution n)).depth = n + 2 ∧
    (Json.object (nestedSolution n)).FloatFree ∧ (Json.object (nestedSolution n)).IsRead := by
  have hvalue : (nestedValue n).depth = n + 1 ∧ (nestedValue n).FloatFree ∧
      (nestedValue n).IsRead := by
    induction n with
    | zero =>
        refine ⟨rfl, .array ?_, .array ?_⟩
        · simpa using ⟨.null, .bool true, .int _, .string _⟩
        · simpa using ⟨.null, .bool true, .int ⟨by decide, by decide⟩, .string _⟩
    | succ n ih =>
        obtain ⟨hdepth, hfree, hread⟩ := ih
        exact ⟨by simp [nestedValue, Json.depth, Json.itemsDepth, hdepth],
          .array (List.forall_mem_singleton.2 hfree), .array (List.forall_mem_singleton.2 hread)⟩
  obtain ⟨hdepth, hfree, hread⟩ := hvalue
  exact ⟨by simp [nestedSolution, Json.depth, Json.membersDepth, hdepth],
    .object (List.forall_mem_singleton.2 hfree),
    .object (List.pairwise_singleton _ _) (List.forall_mem_singleton.2 hread)⟩

theorem ofStream_nestedStream {n : Nat} (h : n + 2 ≤ Json.maxDepth) :
    Result.ofStream (nestedStream n) = .ok ⟨.satisfied, [nestedSolution n]⟩ := by
  obtain ⟨hdepth, hfree, hread⟩ := nestedSolution_spec n
  refine ofStream_block ?_ (List.forall_mem_singleton.2 ?_)
  · rw [hfree.parse?_eq hread, hdepth, if_pos h]
  · change isInternal "x" = false
    rw [Bool.eq_false_iff, ne_eq, isInternal_iff]
    rintro ⟨cs, hcs⟩
    cases hcs

theorem result_read_back_nestedStream : ∃ r, Result.ofStream (nestedStream 123) = .ok r ∧
    (∀ a ∈ r.solutions, (Json.object a).depth = Json.maxDepth - 2) ∧
    Result.read? r.text = some r ∧ Result.read? r.pair.text = some r := by
  obtain ⟨hdepth, hfree, -⟩ := nestedSolution_spec 123
  have hstream := ofStream_nestedStream (n := 123) (by decide)
  obtain ⟨-, htext, hpair⟩ := result_read_back hstream (List.forall_mem_singleton.2 hfree)
  have hfits : ∀ a ∈ [nestedSolution 123], (Json.object a).depth ≤ Json.maxDepth - 2 :=
    List.forall_mem_singleton.2 hdepth.le
  exact ⟨_, hstream, List.forall_mem_singleton.2 hdepth, htext.trans (if_pos hfits),
    hpair.trans (if_pos hfits)⟩

/-- A solution that nests one level deeper is read from a stream, but not from the text of its
result. -/
theorem nestedStream_not_read : ∃ r, Result.ofStream (nestedStream 124) = .ok r ∧
    (∀ a ∈ r.solutions, (Json.object a).FloatFree) ∧
    Result.read? r.text = none ∧ Result.read? r.pair.text = none := by
  obtain ⟨hdepth, hfree, hread⟩ := nestedSolution_spec 124
  have hfrees : ∀ a ∈ [nestedSolution 124], (Json.object a).FloatFree :=
    List.forall_mem_singleton.2 hfree
  have hdeep : ¬ ∀ a ∈ [nestedSolution 124], (Json.object a).depth ≤ Json.maxDepth - 2 := by
    rw [List.forall_mem_singleton, hdepth]
    decide
  have hstream := ofStream_nestedStream (n := 124) (by decide)
  obtain ⟨htext, hpair⟩ := Result.read?_eq (r := ⟨.satisfied, [nestedSolution 124]⟩) hfrees
    (List.forall_mem_singleton.2 ⟨hread, hdepth.trans_le (by decide)⟩)
  have hnone := hpair.trans (if_neg hdeep)
  exact ⟨_, hstream, hfrees, htext.trans hnone, hnone⟩

end ConstraintModel.Solver
