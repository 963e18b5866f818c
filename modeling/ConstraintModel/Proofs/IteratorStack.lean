import ConstraintModel.Proofs.Lexeme
import ConstraintModel.Proofs.Rewording

/-!
# The stack of iterators

`Expr.render` spells an expression as `Expr.term` does, but keeps the iterators in scope on one stack:
a generator pushes its iterator, and a comprehension cuts the stack back to its former depth behind
the body. The stack outlives failures and remembers every scope that it has held. Words are found by a
loop that appends underscores while a word is in use. The loop always ends, the iterators on the stack
never share a word, and a success leaves the stack as it was: `iterators_always_named`.
-/

namespace ConstraintModel

open Source

namespace Source

/-! ## The loop for a free word -/

/-- The loop for a free word: one that is in use gets another underscore. -/
inductive Settles (inUse : String → Prop) : String → String → Prop
  | free {word} : ¬ inUse word → Settles inUse word word
  | next {word settled} : inUse word → Settles inUse (word.push '_') settled →
      Settles inUse word settled

theorem underscored_zero (word : String) : underscored word 0 = word := by
  simp [underscored]

theorem underscored_succ (word : String) (k : Nat) :
    underscored word (k + 1) = underscored (word.push '_') k := by
  apply String.ext
  simp [underscored, List.replicate_succ]

theorem settles_iff_exists {inUse : String → Prop} {word settled : String} :
    Settles inUse word settled ↔ ∃ k, settled = underscored word k ∧ ¬ inUse settled ∧
      ∀ j < k, inUse (underscored word j) := by
  constructor
  · intro h
    induction h with
    | @free word hfree => exact ⟨0, (underscored_zero word).symm, hfree, by simp⟩
    | @next word settled hused _ ih =>
        obtain ⟨k, heq, hfree, hbefore⟩ := ih
        refine ⟨k + 1, heq.trans (underscored_succ word k).symm, hfree, fun j hj => ?_⟩
        cases j with
        | zero => rwa [underscored_zero]
        | succ j =>
            rw [underscored_succ]
            exact hbefore j (by omega)
  · rintro ⟨k, rfl, hfree, hbefore⟩
    induction k generalizing word with
    | zero =>
        rw [underscored_zero] at hfree ⊢
        exact .free hfree
    | succ k ih =>
        have hword : inUse word := by
          simpa [underscored_zero] using hbefore 0 (Nat.succ_pos k)
        rw [underscored_succ] at hfree ⊢
        refine .next hword (ih hfree fun j hj => ?_)
        rw [← underscored_succ]
        exact hbefore (j + 1) (by omega)

/-- The loop ends, and with the word that the bounded search finds. -/
theorem settles_iff {used : List String} {word settled : String} :
    Settles (· ∈ used) word settled ↔ settled = freeWord word used := by
  obtain ⟨k, heq, hfree, hbefore⟩ := exists_freeWord word used
  rw [settles_iff_exists, heq]
  constructor
  · rintro ⟨k', rfl, hfree', hbefore'⟩
    have hle : k ≤ k' := Nat.le_of_not_lt fun hlt => hfree' (hbefore k' hlt)
    have hge : k' ≤ k := Nat.le_of_not_lt fun hlt => hfree (hbefore' k hlt)
    rw [Nat.le_antisymm hle hge]
  · rintro rfl
    exact ⟨k, rfl, hfree, hbefore⟩

/-! ## Renderings -/

/-- The iterators in scope, innermost first, and every scope that there has been. -/
structure Stack where
  scope : Scope
  past : List Scope

/-- A rendering that may fail. The stack stays as it is at the failure. -/
abbrev Rendering := ExceptT ModelError (StateM Stack)

namespace Stack

def start : Stack := ⟨[], [[]]⟩

/-- The stack when another scope has come about. -/
def enter (k : Stack) (scope : Scope) : Stack :=
  ⟨scope, scope :: k.past⟩

end Stack

namespace Rendering

def scope : Rendering Scope :=
  return (← get).scope

/-- Names the next iterator and pushes it. -/
def pushIterator (v : Vocabulary) (id : NodeId) : Rendering Symbol :=
  modifyGet fun k =>
    let s : Symbol := ⟨id, v.nextIterator k.scope⟩
    (s, k.enter (s :: k.scope))

/-- Drops the iterators above the given depth. -/
def truncate (depth : Nat) : Rendering Unit :=
  modify fun k => k.enter (k.scope.drop (k.scope.length - depth))

/-- Runs `heads`, which may push iterators, and then `body`, behind which they are dropped whether it
succeeds or not. A failure of `heads` leaves on the stack what was pushed. -/
def enclose {α β : Type} (heads : Rendering α) (body : Rendering β) : Rendering (α × β) := do
  let depth := (← scope).length
  let a ← heads
  let b ← ExceptT.lift body.run
  truncate depth
  return (a, ← liftM b)

end Rendering

end Source

mutual

/-- The term of an expression, spelled with a stack of iterators. -/
def Expr.render (v : Vocabulary) : Expr → Rendering Term
  | .literal l => do
    l.requireFinite
    return .literal l
  | .setLiteral values => do
    liftM (values.forM Literal.requireFinite)
    return .set values
  | .view array positions => do
    let s ← v.symbolOf array
    let shape ← arrayShape array
    return viewTerm s shape.rank (← renderCuts v positions)
  | .range start stop => do
    requireRange start stop
    let type ← (Expr.range start stop).elemType
    if type = .float then
      let first ← start.render v
      let last ← stop.render v
      return .span true first last
    else
      let last ← stop.render v
      let first ← start.render v
      return .span false first (lastBelow stop last)
  | .sequence items => return .list (← renderTerms v items)
  | .enumeration e => return .enumeration e
  | .iterator id _ => do
    let scope ← Rendering.scope
    return .iterator (← scope.symbolOf id)
  | .unary op operand => return .unary op (← operand.render v)
  | .binary op left right => do
    if op.isIntegerDivision && right.isZero then throw .divisionByZero
    let a ← left.render v
    let b ← right.render v
    return .binary op a b
  | .power base exponent => do
    let a ← base.render v
    let b ← exponent.render v
    return .call .power [a, b]
  | .size array dim => do
    let s ← v.symbolOf array
    let shape ← arrayShape array
    return sizeTerm s shape.rank dim
  | .aggregate op args => do
    return .call (.aggregate op) (← renderArgs v (op == .count) args)
  | .comprehension op generators body => do
    let (heads, t) ← Rendering.enclose (renderHeads v generators) (body.render v)
    return .comprehension op heads t
  | .global kind args => do
    return .call (.global kind) (← renderArgs v kind.flattens args)
  | e => return .entity (← v.symbolOf e)

def renderTerms (v : Vocabulary) : List Expr → Rendering (List Term)
  | [] => return []
  | e :: es => do
    let t ← e.render v
    return t :: (← renderTerms v es)

def renderArgs (v : Vocabulary) (flatten : Bool) : List Expr → Rendering (List Term)
  | [] => return []
  | e :: es => do
    let t ← e.render v
    return argTerm flatten e t :: (← renderArgs v flatten es)

/-- What positions take. The bounds of a slice are spelled for its span, and again for the length of
its index set. -/
def renderCuts (v : Vocabulary) : List Position → Rendering (List Cut)
  | [] => return []
  | .index i :: ps => do
    let t ← i.render v
    return .index t :: (← renderCuts v ps)
  | .slice start stop :: ps => do
    let last ← stop.render v
    let first ← start.render v
    let span := Term.span false first (lastBelow stop last)
    let last ← stop.render v
    let first ← start.render v
    let indexSet := Term.span false (.int 0) (lastIndex start stop first last)
    return .slice span indexSet :: (← renderCuts v ps)

/-- The iterators of generators with their domains. Each stays on the stack. -/
def renderHeads (v : Vocabulary) : List Generator → Rendering (List (Symbol × Term))
  | [] => return []
  | .over id _ domain :: gs => do
    let t ← domain.render v
    let s ← Rendering.pushIterator v id
    return (s, t) :: (← renderHeads v gs)

end

/-! ## Words on the stack -/

namespace Source

/-- Every iterator has a valid word, which no entity, no enumeration and no other iterator has. -/
structure Scope.Named (v : Vocabulary) (scope : Scope) : Prop extends Scope.Free v scope where
  valid : ∀ s ∈ scope, Identifier.require s.word = .ok ()

namespace Scope.Named

variable {v : Vocabulary} {scope : Scope}

theorem nil (v : Vocabulary) : Scope.Named v [] :=
  ⟨.nil v, by simp⟩

theorem cons (h : Scope.Named v scope) (id : NodeId) :
    Scope.Named v (⟨id, v.nextIterator scope⟩ :: scope) :=
  ⟨h.toFree.cons id, List.forall_mem_cons.2 ⟨nextIterator_valid v scope, h.valid⟩⟩

theorem drop (h : Scope.Named v scope) (n : Nat) : Scope.Named v (scope.drop n) where
  nodup := h.nodup.sublist ((scope.drop_sublist n).map _)
  not_entity s hs := h.not_entity s (List.mem_of_mem_drop hs)
  not_enumeration s hs := h.not_enumeration s (List.mem_of_mem_drop hs)
  valid s hs := h.valid s (List.mem_of_mem_drop hs)

end Scope.Named

namespace Stack

variable {v : Vocabulary}

/-- Whether the words are in order in the scope, and were so in every scope before it. -/
structure Named (v : Vocabulary) (k : Stack) : Prop where
  scope : Scope.Named v k.scope
  past : ∀ scope ∈ k.past, Scope.Named v scope

theorem Named.start (v : Vocabulary) : Stack.start.Named v :=
  ⟨.nil v, by simp [Stack.start, Scope.Named.nil]⟩

theorem Named.enter {k : Stack} (h : k.Named v) {scope : Scope} (hscope : Scope.Named v scope) :
    (k.enter scope).Named v :=
  ⟨hscope, List.forall_mem_cons.2 ⟨hscope, h.past⟩⟩

end Stack

end Source

/-! ## Renderings as functions of the scope -/

namespace Source

variable {v : Vocabulary} {α β : Type}

theorem Rendering.run_bind (m : Rendering α) (g : α → Rendering β) (k : Stack) :
    (m >>= g).run k = match m.run k with
      | (.ok a, k') => (g a).run k'
      | (.error e, k') => (.error e, k') := by
  change ExceptT.bindCont g (m.run k).1 (m.run k).2 = _
  rcases m.run k with ⟨e | a, k'⟩ <;> rfl

/-- A rendering is told by a function of the scope: it succeeds with the result of the function and
leaves its scope, fails as the function does, and keeps the words on the stack in order either way. -/
structure Tracks (v : Vocabulary) (m : Rendering α)
    (f : Scope → Except ModelError (α × Scope)) : Prop where
  ok {k a scope} : f k.scope = .ok (a, scope) → ∃ k', m.run k = (.ok a, k') ∧ k'.scope = scope
  error {k e} : f k.scope = .error e → ∃ k', m.run k = (.error e, k')
  named {k} : k.Named v → (m.run k).2.Named v

theorem Tracks.bind {m : Rendering α} {f : Scope → Except ModelError (α × Scope)}
    {g : α → Rendering β} {h : α → Scope → Except ModelError (β × Scope)} (hm : Tracks v m f)
    (hg : ∀ a, Tracks v (g a) (h a)) : Tracks v (m >>= g) fun s => f s >>= fun p => h p.1 p.2 where
  ok {k b scope} heq := by
    obtain ⟨⟨a, s⟩, hf, hh⟩ := bind_eq_ok.1 heq
    obtain ⟨k', hrun, rfl⟩ := hm.ok hf
    rw [Rendering.run_bind, hrun]
    exact (hg a).ok hh
  error {k e} heq := by
    rw [Rendering.run_bind]
    rcases bind_eq_error.1 heq with hf | ⟨⟨a, s⟩, hf, hh⟩
    · obtain ⟨k', hrun⟩ := hm.error hf
      exact ⟨k', by rw [hrun]⟩
    · obtain ⟨k', hrun, rfl⟩ := hm.ok hf
      rw [hrun]
      exact (hg a).error hh
  named {k} hk := by
    have hnamed := hm.named hk
    rw [Rendering.run_bind]
    rcases hrun : m.run k with ⟨r, k'⟩
    rw [hrun] at hnamed
    cases r with
    | error e => exact hnamed
    | ok a => exact (hg a).named hnamed

theorem Tracks.pushIterator (id : NodeId) : Tracks v (Rendering.pushIterator v id) fun s =>
    .ok (⟨id, v.nextIterator s⟩, ⟨id, v.nextIterator s⟩ :: s) where
  ok h := by cases h; exact ⟨_, rfl, rfl⟩
  error h := by cases h
  named hk := hk.enter (hk.scope.cons id)

/-- A rendering that leaves the scope as it is when it succeeds. -/
def Restores (v : Vocabulary) (m : Rendering α) (f : Scope → Except ModelError α) : Prop :=
  Tracks v m fun s => f s >>= fun a => Pure.pure (a, s)

namespace Restores

variable {m : Rendering α} {f : Scope → Except ModelError α}

theorem lift (x : Except ModelError α) : Restores v (liftM x) fun _ => x where
  ok h := by
    simp only [bind_eq_ok, pure_eq_ok, Prod.mk.injEq] at h
    obtain ⟨a, rfl, rfl, rfl⟩ := h
    exact ⟨_, rfl, rfl⟩
  error h := by
    cases bind_pure_eq_error.1 h
    exact ⟨_, rfl⟩
  named hk := by cases x <;> exact hk

theorem pure (a : α) : Restores v (Pure.pure a) fun _ => Pure.pure a :=
  lift (.ok a)

theorem throw (e : ModelError) : Restores (α := α) v (MonadExcept.throw e) fun _ => .error e :=
  lift (.error e)

theorem scope : Restores v Rendering.scope Pure.pure where
  ok h := by cases h; exact ⟨_, rfl, rfl⟩
  error h := by cases h
  named hk := hk

theorem bind {g : α → Rendering β} {h : α → Scope → Except ModelError β} (hm : Restores v m f)
    (hg : ∀ a, Restores v (g a) (h a)) :
    Restores v (m >>= g) fun s => f s >>= fun a => h a s := by
  have hsteps := Tracks.bind hm hg
  simp only [bind_assoc, pure_bind] at hsteps
  rw [Restores]
  simpa only [bind_assoc] using hsteps

end Restores

theorem Rendering.run_enclose (heads : Rendering α) (body : Rendering β) (k : Stack) :
    (Rendering.enclose heads body).run k = match heads.run k with
      | (.error e, k₁) => (.error e, k₁)
      | (.ok a, k₁) => match body.run k₁ with
        | (b, k₂) => (b.map fun b => (a, b),
            k₂.enter (k₂.scope.drop (k₂.scope.length - k.scope.length))) := by
  rw [Rendering.enclose, Rendering.run_bind]
  change (heads >>= _ : Rendering (α × β)).run k = _
  rw [Rendering.run_bind]
  rcases heads.run k with ⟨e | a, k₁⟩
  · rfl
  · change (ExceptT.lift body.run >>= _ : Rendering (α × β)).run k₁ = _
    have hlift : (ExceptT.lift body.run : Rendering _).run k₁ =
        (.ok (body.run k₁).1, (body.run k₁).2) := rfl
    rw [Rendering.run_bind, hlift]
    dsimp only
    rcases body.run k₁ with ⟨e | b, k₂⟩ <;> rfl

/-- Behind the body the stack is cut back to where the heads began, if they have only pushed. -/
theorem Restores.enclose {heads : Rendering α} {headsAt : Scope → Except ModelError (α × Scope)}
    {body : Rendering β} {bodyAt : Scope → Except ModelError β} (hheads : Tracks v heads headsAt)
    (hbody : Restores v body bodyAt)
    (hpushed : ∀ s a inner, headsAt s = .ok (a, inner) → ∃ pushed, inner = pushed ++ s) :
    Restores v (Rendering.enclose heads body) fun s =>
      headsAt s >>= fun p => bodyAt p.2 >>= fun b => Pure.pure (p.1, b) where
  ok {k r scope} heq := by
    simp only [bind_assoc, pure_bind, bind_eq_ok, pure_eq_ok, Prod.mk.injEq] at heq
    obtain ⟨⟨a, inner⟩, hat, b, hbodyAt, rfl, rfl⟩ := heq
    obtain ⟨pushed, rfl⟩ := hpushed _ _ _ hat
    obtain ⟨k₁, hrun₁, hscope₁⟩ := hheads.ok hat
    obtain ⟨k₂, hrun₂, hscope₂⟩ := hbody.ok (k := k₁) (bind_eq_ok.2 ⟨b, hscope₁ ▸ hbodyAt, rfl⟩)
    rw [Rendering.run_enclose, hrun₁]
    dsimp only
    rw [hrun₂]
    refine ⟨_, rfl, ?_⟩
    simp [Stack.enter, hscope₁, hscope₂]
  error {k e} heq := by
    rw [Rendering.run_enclose]
    simp only [bind_assoc, pure_bind] at heq
    rcases bind_eq_error.1 heq with hat | ⟨⟨a, inner⟩, hat, heq⟩
    · obtain ⟨k₁, hrun₁⟩ := hheads.error hat
      exact ⟨k₁, by rw [hrun₁]⟩
    · obtain ⟨k₁, hrun₁, rfl⟩ := hheads.ok hat
      have hbodyAt := bind_pure_eq_error.1 heq
      obtain ⟨k₂, hrun₂⟩ := hbody.error (bind_pure_eq_error.2 hbodyAt)
      exact ⟨_, by rw [hrun₁]; dsimp only; rw [hrun₂]; rfl⟩
  named {k} hk := by
    have hk₁ := hheads.named hk
    rw [Rendering.run_enclose]
    rcases hrun : heads.run k with ⟨r, k₁⟩
    rw [hrun] at hk₁
    cases r with
    | error e => exact hk₁
    | ok a =>
        have hk₂ := hbody.named hk₁
        exact hk₂.enter (hk₂.scope.drop _)

end Source

mutual

theorem Expr.render_restores (v : Vocabulary) :
    ∀ e : Expr, Restores v (e.render v) fun s => e.term v s
  | .literal l => by
      simp only [Expr.render, Expr.term]
      exact (Restores.lift _).bind fun _ => .pure _
  | .setLiteral ls => by
      simp only [Expr.render, Expr.term]
      exact (Restores.lift _).bind fun _ => .pure _
  | .view array positions => by
      simp only [Expr.render, Expr.term]
      refine (Restores.lift _).bind fun s => (Restores.lift _).bind fun shape => ?_
      exact (renderCuts_restores v positions).bind fun cs => .pure _
  | .range start stop => by
      simp only [Expr.render, Expr.term, rangeSpan]
      refine (Restores.lift _).bind fun _ => (Restores.lift _).bind fun type => ?_
      split
      · refine (Expr.render_restores v start).bind fun a => ?_
        exact (Expr.render_restores v stop).bind fun b => .pure _
      · refine (Expr.render_restores v stop).bind fun b => ?_
        exact (Expr.render_restores v start).bind fun a => .pure _
  | .sequence items => by
      simp only [Expr.render, Expr.term]
      exact (renderTerms_restores v items).bind fun ts => .pure _
  | .enumeration e => by
      simp only [Expr.render, Expr.term]
      exact .pure _
  | .iterator id type => by
      simp only [Expr.render, Expr.term]
      exact Restores.scope.bind fun s => (Restores.lift _).bind fun s => .pure _
  | .unary op e => by
      simp only [Expr.render, Expr.term]
      exact (Expr.render_restores v e).bind fun t => .pure _
  | .binary op e₁ e₂ => by
      simp only [Expr.render, Expr.term]
      split
      · exact .throw _
      · refine (Expr.render_restores v e₁).bind fun a => ?_
        exact (Expr.render_restores v e₂).bind fun b => .pure _
  | .power e₁ e₂ => by
      simp only [Expr.render, Expr.term]
      refine (Expr.render_restores v e₁).bind fun a => ?_
      exact (Expr.render_restores v e₂).bind fun b => .pure _
  | .size array dim => by
      simp only [Expr.render, Expr.term]
      exact (Restores.lift _).bind fun s => (Restores.lift _).bind fun shape => .pure _
  | .aggregate op args => by
      simp only [Expr.render, Expr.term]
      exact (renderArgs_restores v _ args).bind fun ts => .pure _
  | .comprehension op gs body => by
      simp only [Expr.render, Expr.term]
      have henclosed := Restores.enclose (renderHeads_tracks v gs) (Expr.render_restores v body)
        fun s hs inner h => ⟨_, (heads_spelled h).inner_eq⟩
      have hterm := henclosed.bind fun p => .pure (Term.comprehension op p.1 p.2)
      simpa only [bind_assoc, pure_bind] using hterm
  | .global kind args => by
      simp only [Expr.render, Expr.term]
      exact (renderArgs_restores v _ args).bind fun ts => .pure _
  | .var .. | .boundVar .. | .param .. | .derivedParam .. | .varArray .. | .paramArray ..
  | .varSet .. | .paramSet .. => by
      simp only [Expr.render, Expr.term]
      exact (Restores.lift _).bind fun s => .pure _

theorem renderTerms_restores (v : Vocabulary) :
    ∀ es : List Expr, Restores v (renderTerms v es) fun s => terms v s es
  | [] => by
      simp only [renderTerms, terms]
      exact .pure _
  | e :: es => by
      simp only [renderTerms, terms]
      refine (Expr.render_restores v e).bind fun t => ?_
      exact (renderTerms_restores v es).bind fun ts => .pure _

theorem renderArgs_restores (v : Vocabulary) (flatten : Bool) :
    ∀ es : List Expr, Restores v (renderArgs v flatten es) fun s => argTerms v s flatten es
  | [] => by
      simp only [renderArgs, argTerms]
      exact .pure _
  | e :: es => by
      simp only [renderArgs, argTerms]
      refine (Expr.render_restores v e).bind fun t => ?_
      exact (renderArgs_restores v flatten es).bind fun ts => .pure _

theorem renderCuts_restores (v : Vocabulary) :
    ∀ ps : List Position, Restores v (renderCuts v ps) fun s => cuts v s ps
  | [] => by
      simp only [renderCuts, cuts]
      exact .pure _
  | .index i :: ps => by
      simp only [renderCuts, cuts]
      refine (Expr.render_restores v i).bind fun t => ?_
      exact (renderCuts_restores v ps).bind fun cs => .pure _
  | .slice start stop :: ps => by
      have hcuts := (Expr.render_restores v stop).bind fun last =>
        (Expr.render_restores v start).bind fun first =>
        (Expr.render_restores v stop).bind fun last' =>
        (Expr.render_restores v start).bind fun first' =>
        (renderCuts_restores v ps).bind fun cs => .pure
          (Cut.slice (.span false first (lastBelow stop last))
            (.span false (.int 0) (lastIndex start stop first' last')) :: cs)
      -- The bounds have the same terms when they are spelled again.
      have hagain : (fun s => cuts v s (.slice start stop :: ps)) = fun s => do
          let last ← stop.term v s
          let first ← start.term v s
          let last' ← stop.term v s
          let first' ← start.term v s
          let cs ← cuts v s ps
          return Cut.slice (.span false first (lastBelow stop last))
            (.span false (.int 0) (lastIndex start stop first' last')) :: cs := by
        funext s
        rw [cuts]
        cases stop.term v s <;> cases start.term v s <;> rfl
      rw [renderCuts, hagain]
      exact hcuts

theorem renderHeads_tracks (v : Vocabulary) :
    ∀ gs : List Generator, Tracks v (renderHeads v gs) fun s => heads v s gs
  | [] => by
      simp only [renderHeads, heads]
      exact Restores.pure []
  | .over id type domain :: gs => by
      have hheads := Tracks.bind (Expr.render_restores v domain) fun t =>
        (Tracks.pushIterator id).bind fun s =>
        (renderHeads_tracks v gs).bind fun hs => Restores.pure ((s, t) :: hs)
      simp only [renderHeads, heads]
      simp only [bind_assoc, pure_bind] at hheads
      exact hheads

end

/-! ## Words of iterators -/

/-- Whether a word is in use where the next iterator is named. -/
def ResolvedModel.Occupied (m : ResolvedModel) (scope : Scope) (word : String) : Prop :=
  m.isTaken word = true ∨ word ∈ Symbol.words scope

theorem ResolvedModel.isTaken_iff {m : ResolvedModel} {word : String} :
    m.isTaken word = true ↔ word ∈ Symbol.words m.symbols ∨ word ∈ m.enumerationWords := by
  simp [isTaken]

theorem ResolvedModel.occupied_iff {m : ResolvedModel} {scope : Scope} {word : String} :
    m.Occupied scope word ↔ word ∈ (Vocabulary.ofModel m).used scope := by
  simp [Occupied, isTaken_iff, Vocabulary.used, Vocabulary.ofModel, or_assoc]

/-- Whatever iterators are on the stack, the loop for the word of the next one ends with one word, which
is valid, not taken by the model and not on the stack. While expressions are spelled one after another,
failures included, all words on the stack are such and differ from each other; the term of an
expression depends on the stack's scope only, and a success leaves that scope as it was. -/
theorem iterators_always_named (m : ResolvedModel) :
    (∀ scope : Scope, ∃ word, Identifier.require word = .ok () ∧ m.isTaken word = false ∧
      word ∉ Symbol.words scope ∧
      ∀ w, Settles (m.Occupied scope) (iteratorWord scope.length) w ↔ w = word) ∧
    (∀ (es : List Expr), ∀ scope ∈ ((renderTerms (.ofModel m) es).run Stack.start).2.past,
      (Symbol.words scope).Nodup ∧
      ∀ s ∈ scope, Identifier.require s.word = .ok () ∧ m.isTaken s.word = false) ∧
    ∀ (e : Expr) (k : Stack), ((e.render (.ofModel m)).run k).1 = e.term (.ofModel m) k.scope ∧
      ∀ t k', (e.render (.ofModel m)).run k = (.ok t, k') → k'.scope = k.scope := by
  have hfree {word : String} (hentity : word ∉ Symbol.words m.symbols)
      (henum : word ∉ m.enumerationWords) : m.isTaken word = false := by
    rw [Bool.eq_false_iff, ne_eq, ResolvedModel.isTaken_iff, not_or]
    exact ⟨hentity, henum⟩
  refine ⟨fun scope => ?_, fun es scope hscope => ?_, fun e k => ?_⟩
  · obtain ⟨hentity, henum, hstack⟩ := (Vocabulary.ofModel m).nextIterator_not_mem scope
    have hused : m.Occupied scope = (· ∈ (Vocabulary.ofModel m).used scope) :=
      funext fun w => propext ResolvedModel.occupied_iff
    exact ⟨_, nextIterator_valid _ scope, hfree hentity henum, hstack, fun w => hused ▸ settles_iff⟩
  · have hnamed := (renderTerms_restores (.ofModel m) es).named (Stack.Named.start _)
    have h := hnamed.past scope hscope
    exact ⟨h.nodup, fun s hs => ⟨h.valid s hs, hfree (h.not_entity s hs) (h.not_enumeration s hs)⟩⟩
  · have hrestores := e.render_restores (.ofModel m)
    cases hterm : e.term (.ofModel m) k.scope with
    | error err =>
        obtain ⟨k', hrun⟩ := hrestores.error (bind_pure_eq_error.2 hterm)
        rw [hrun]
        exact ⟨rfl, fun t k' h => by cases h⟩
    | ok t =>
        obtain ⟨k', hrun, hscope⟩ := hrestores.ok (bind_eq_ok.2 ⟨t, hterm, rfl⟩)
        rw [hrun]
        exact ⟨rfl, fun t' k'' h => by cases h; exact hscope⟩

/-- A model that has the first two words for an outermost iterator. -/
def crowdedModel : ResolvedModel :=
  ⟨⟨[⟨⟨0⟩, "i"⟩, ⟨⟨1⟩, "i_"⟩], [], [("i", .var ⟨0⟩ .int), ("i_", .var ⟨1⟩ .int)]⟩, [], [], .satisfy⟩

/-- A sum over two iterators, the second of which has the first in its domain, of sums over a third. -/
def nestedSum : Expr :=
  .comprehension .sum
    [.over ⟨2⟩ .int (.range (.literal (.int 0)) (.var ⟨0⟩ .int)),
      .over ⟨3⟩ .int (.range (.iterator ⟨2⟩ .int) (.var ⟨1⟩ .int))]
    (.comprehension .sum [.over ⟨4⟩ .int (.range (.literal (.int 0)) (.iterator ⟨3⟩ .int))]
      (.iterator ⟨4⟩ .int))

theorem iterators_always_named_nestedSum :
    ∃ t k', (nestedSum.render (.ofModel crowdedModel)).run Stack.start = (.ok t, k') ∧
      t.text = "sum(i__ in 0..(i - 1), j in i__..(i_ - 1))(sum(k in 0..(j - 1))(k))" ∧
      k'.past.map Symbol.words =
        [[], ["j", "i__"], ["k", "j", "i__"], ["j", "i__"], ["i__"], []] ∧
      k'.scope = Stack.start.scope := by
  obtain ⟨-, -, hrun⟩ := iterators_always_named crowdedModel
  obtain ⟨-, hrestored⟩ := hrun nestedSum Stack.start
  exact ⟨_, _, rfl, by decide, by decide, hrestored _ _ rfl⟩

end ConstraintModel
