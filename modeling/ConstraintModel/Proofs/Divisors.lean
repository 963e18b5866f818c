import ConstraintModel.Construct.Operation
import ConstraintModel.Proofs.Origins

/-!
# Divisors

Integer division by what is known to be zero has no term, so that no program shows one. The functions
that build a division refuse the same divisors before any term is taken.
-/

namespace ConstraintModel

open Source

/-! ## Known zeros -/

/-- Whether a term is known to be zero: it is a literal, or a parameter that a literal is given to. -/
inductive ResolvedModel.KnowsZero (r : ResolvedModel) : Term → Prop
  | literal {l : Literal} : l.isZero = true → r.KnowsZero (.literal l)
  | param {s : Symbol} {l : Literal} : (s.word, .param s.id l) ∈ r.parameters → l.isZero = true →
      r.KnowsZero (.entity s)

/-- The term of what is not known to be zero is not known to be zero either. -/
theorem not_knowsZero {r : ResolvedModel} {v : Vocabulary} {scope : Scope} {e b : Expr} {y : Term}
    (hr : r.Identifies r.parameters) (he : e ∈ r.spelled) (hb : e.Shows b) (hy : b.term v scope = .ok y)
    (hzero : b.isZero = false) : ¬ r.KnowsZero y := by
  obtain ⟨hliteral, -, hentity⟩ := leaf_of_term hy
  intro hknown
  cases hknown with
  | @literal l hl =>
      rw [hliteral l rfl, Expr.isZero, hl] at hzero
      cases hzero
  | @param s l hs hl =>
      rw [hr _ hs e he b hb (hentity s rfl), Expr.isZero, hl] at hzero
      cases hzero

/-! ## Failing nodes -/

variable {v : Vocabulary} {scope : Scope}

/-- Whether the node of an operation on the given right operand is a division by zero: it fails as one
whatever stands on the left, and the right operand does not fail so by itself. -/
def BinaryOp.DividesByZero (op : BinaryOp) (v : Vocabulary) (scope : Scope) (b : Expr) : Prop :=
  (∀ a, (Expr.binary op a b).term v scope = .error .divisionByZero) ∧
    b.term v scope ≠ .error .divisionByZero

/-- What is known to be zero is a leaf, and no leaf fails as a division. -/
theorem term_ne_divisionByZero {b : Expr} (h : b.isZero = true) :
    b.term v scope ≠ .error .divisionByZero := by
  cases b with
  | literal l =>
      rw [Expr.term, ne_eq, bind_pure_eq_error]
      cases l with
      | float x =>
          rw [Literal.requireFinite]
          split_ifs
          · exact pure_ne_error
          · simp [throw_eq_error]
      | _ => exact pure_ne_error
  | param id l =>
      unfold Expr.term Vocabulary.symbolOf
      rw [ne_eq, bind_pure_eq_error]
      split
      · exact pure_ne_error
      · simp [throw_eq_error]
  | _ => cases h

/-- The nodes that fail by themselves are the integer divisions by what is known to be zero. -/
theorem dividesByZero_iff {op : BinaryOp} (hop : op.isIntegerDivision = true) {b : Expr} :
    op.DividesByZero v scope b ↔ b.isZero = true := by
  constructor
  · rintro ⟨hnode, hright⟩
    by_contra hzero
    have hcheck : ¬ (op.isIntegerDivision && b.isZero) = true := by simp [hzero]
    -- On the right of a literal the node fails only if its right operand does.
    have hterm := hnode (.literal (.int 0))
    rw [Expr.term, if_neg hcheck, bind_eq_error] at hterm
    rcases hterm with hleft | ⟨_, _, hterm⟩
    · cases hleft
    · exact hright (bind_pure_eq_error.1 hterm)
  · intro hzero
    have hcheck : (op.isIntegerDivision && b.isZero) = true := by simp [hop, hzero]
    refine ⟨fun a => ?_, term_ne_divisionByZero hzero⟩
    rw [Expr.term, if_pos hcheck]
    exact throw_eq_error.2 rfl

/-- The functions that build a division refuse exactly the divisors that its node fails on, and
otherwise build the node. -/
theorem require_node {op : BinaryOp} (hop : op.isIntegerDivision = true) {b e : Expr} :
    ((do Expr.requireNonZero b; return e) = .error ModelError.divisionByZero ↔
      op.DividesByZero v scope b) ∧
    (¬ op.DividesByZero v scope b → (do Expr.requireNonZero b; return e) = .ok e) := by
  rw [dividesByZero_iff hop, Expr.requireNonZero]
  cases b.isZero with
  | true => exact ⟨iff_of_true rfl rfl, fun h => absurd rfl h⟩
  | false => exact ⟨iff_of_false nofun nofun, fun _ => rfl⟩

/-! ## Compiled models -/

theorem isIntegerDivision_iff {op : BinaryOp} :
    op.isIntegerDivision = true ↔ op.symbol = "div" ∨ op.symbol = "mod" := by
  cases op <;> simp [BinaryOp.isIntegerDivision, BinaryOp.symbol]

/-- No compiled model divides integers by what is known to be zero. A division that its source shows,
at any depth, is that of an expression which the model spells; the divisor there is not known to be
zero, and neither is its term. The functions that build divisions fail exactly where the nodes of the
operators do. -/
theorem compile_divisors {model : Model} {n n' : Nat} {c : CompiledModel}
    (h : model.compile.run n = (.ok c, n')) :
    (∀ t ∈ c.program.terms, ∀ op x y, t.Shows (.binary op x y) →
      op.symbol = "div" ∨ op.symbol = "mod" →
      (∃ e ∈ c.resolved.spelled, ∃ a b scope, e.Shows (.binary op a b) ∧
        b.term (.ofModel c.resolved) scope = .ok y ∧ b.isZero = false) ∧
      (∀ l, y = .literal l → l.isZero = false) ∧
      (c.resolved.Identifies c.resolved.parameters → ¬ c.resolved.KnowsZero y)) ∧
    ∀ (v : Vocabulary) (scope : Scope) (a b : Expr),
      ((a.floorDiv b = .error .divisionByZero ↔ BinaryOp.quotient.DividesByZero v scope b) ∧
        (¬ BinaryOp.quotient.DividesByZero v scope b → a.floorDiv b = .ok (a / b))) ∧
      (a.modulo b = .error .divisionByZero ↔ BinaryOp.remainder.DividesByZero v scope b) ∧
        (¬ BinaryOp.remainder.DividesByZero v scope b → a.modulo b = .ok (a % b)) := by
  refine ⟨fun t ht op x y hs hsymbol => ?_, fun v scope a b => ⟨require_node rfl, require_node rfl⟩⟩
  have hop := isIntegerDivision_iff.2 hsymbol
  cases prints_of_mem_terms (compile_eq_ok h).2 ht _ hs with
  | @origin e _ he horigin =>
      obtain ⟨a, b, scope, hshows, -, hy, hzero⟩ := horigin.exists_division hop
      have hb : e.Shows b := hshows.tail (by simp [Expr.parts])
      refine ⟨⟨e, he, a, b, scope, hshows, hy, hzero⟩, fun l hl => ?_, fun hidentifies =>
        not_knowsZero hidentifies he hb hy hzero⟩
      rw [(leaf_of_term hy).1 l hl] at hzero
      exact hzero
  | equation _ _ => cases hop

def people : Expr :=
  .param ⟨0⟩ (.int 3)

/-- A parameter that is zero. -/
def absent : Expr :=
  .param ⟨1⟩ (.int 0)

def seats : Expr :=
  .varArray ⟨3⟩ .int ⟨[5]⟩

/-- The seat that a variable numbers, counted around by a parameter. -/
def seat : Expr :=
  .view seats [.index (.var ⟨2⟩ .int % people)]

/-- A remainder inside an index, and a quotient with a zero on its left. -/
def seatedModel : Model where
  attributes := [("p", people), ("q", absent), ("x", .var ⟨2⟩ .int), ("a", seats)]
  constraints := [.binary .eq seat (absent / people)]
  objective := .satisfy

/-- What the model prints, at any depth. -/
def seatedParts : List Expr :=
  [.binary .eq seat (absent / people), seat, absent / people, seats, .var ⟨2⟩ .int % people,
    .var ⟨2⟩ .int, people, absent]

theorem compile_divisors_seatedModel : ∃ c n', seatedModel.compile.run 4 = (.ok c, n') ∧
    c.program.lines = ["int: p;", "int: q;", "var int: x;", "array[0..4] of var int: a;",
      "constraint (a[(x mod p)] == (q div p));", "solve satisfy;"] ∧
    c.resolved.KnowsZero (.entity ⟨⟨1⟩, "q"⟩) ∧ ¬ c.resolved.KnowsZero (.entity ⟨⟨0⟩, "p"⟩) ∧
    people.modulo absent = .error .divisionByZero := by
  refine ⟨_, _, rfl, by decide, .param (List.mem_cons_of_mem _ List.mem_cons_self) rfl, ?_⟩
  obtain ⟨hdivisions, hbuilders⟩ :=
    compile_divisors (rfl : seatedModel.compile.run 4 = (.ok _, _))
  have hclosed : ∀ e ∈ seatedParts, ∀ s ∈ e.parts ++ e.selectors, s ∈ seatedParts := by
    simp [seatedParts, Expr.parts, Expr.selectors, Position.operands, seat, seats, absent, people,
      HDiv.hDiv, Div.div, HMod.hMod, Mod.mod]
  refine ⟨?_, ?_⟩
  · refine (hdivisions _ List.mem_cons_self .remainder _ _
      (.tail (.tail .refl List.mem_cons_self) List.mem_cons_self) (.inr rfl)).2.2 ?_
    intro entry hentry e he s hs hid
    have hmem : s ∈ seatedParts :=
      Expr.mem_of_shows hclosed (List.mem_of_mem_head? (List.mem_singleton.1 he ▸ rfl)) hs
    have hparameter : entry = ("p", people) ∨ entry = ("q", absent) := by
      simpa using List.mem_cons.1 hentry
    simp only [seatedParts, List.mem_cons, List.not_mem_nil, or_false] at hmem
    rcases hparameter with rfl | rfl <;>
      rcases hmem with rfl | rfl | rfl | rfl | rfl | rfl | rfl | rfl <;>
        first | rfl | exact absurd hid (by decide)
  · exact (hbuilders (.ofModel ⟨.empty, [], [], .satisfy⟩) [] people absent).2.1.2
      ((dividesByZero_iff rfl).2 rfl)

end ConstraintModel
