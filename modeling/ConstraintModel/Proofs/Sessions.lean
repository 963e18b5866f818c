import ConstraintModel.Construct.Operation
import ConstraintModel.Proofs.Domains
import ConstraintModel.Proofs.Selections
import ConstraintModel.Proofs.Tables

/-!
# Sessions

What is made with the constructors, call after call, out of what was made before. A node that has an
identity takes the next number, so all identities in hand are below the counter, and two nodes with one
identity are one node. A model that is put together from what is in hand therefore leaves the counter
above its identities, and each entity that it declares is all that is printed with its identity.
-/

namespace ConstraintModel

/-! ## What a node is made of -/

def Generator.id : Generator → NodeId
  | .over id _ _ => id

namespace Expr

/-- The expressions that a node is made of, printed or not. -/
def children : Expr → List Expr
  | var _ domain | varArray _ domain _ | varSet _ domain => domain.bounds
  | view array positions => array :: positions.flatMap Position.operands
  | range a b | binary _ a b | power a b => [a, b]
  | sequence es | aggregate _ es | global _ es => es
  | comprehension _ generators body => generators.map Generator.domain ++ [body]
  | boundVar _ _ e | derivedParam _ e | unary _ e | size e _ => [e]
  | _ => []

/-- The identity of a node, and those of the iterators that it is or binds. -/
def ownIds : Expr → List NodeId
  | iterator id _ => [id]
  | comprehension _ generators _ => generators.map Generator.id
  | e => e.id?.toList

/-- The second expression is somewhere inside the first, printed or not. -/
abbrev Contains : Expr → Expr → Prop :=
  Relation.ReflTransGen fun e s => s ∈ e.children

end Expr

theorem mem_allIds {id : NodeId} {es : List Expr} : id ∈ allIds es ↔ ∃ e ∈ es, id ∈ e.ids := by
  induction es with
  | nil => simp [allIds]
  | cons e es ih => simp [allIds, ih]

theorem mem_positionIds {id : NodeId} {ps : List Position} :
    id ∈ positionIds ps ↔ ∃ e ∈ ps.flatMap Position.operands, id ∈ e.ids := by
  induction ps with
  | nil => simp [positionIds]
  | cons p ps ih => cases p <;> simp [positionIds, Position.operands, ih, or_and_right, exists_or]

theorem mem_generatorsIds {id : NodeId} {gs : List Generator} : id ∈ generatorsIds gs ↔
    id ∈ gs.map Generator.id ∨ ∃ e ∈ gs.map Generator.domain, id ∈ e.ids := by
  induction gs with
  | nil => simp [generatorsIds]
  | cons g gs ih =>
      obtain ⟨i, type, domain⟩ := g
      simp [generatorsIds, Generator.id, Generator.domain, ih, eq_comm, or_assoc, or_left_comm]

theorem Domain.mem_ids {id : NodeId} {domain : Domain} :
    id ∈ domain.ids ↔ ∃ e ∈ domain.bounds, id ∈ e.ids := by
  cases domain <;> simp [ids, bounds]

namespace Expr

/-- The identities in an expression are its own and those in what it is made of. -/
theorem mem_ids {id : NodeId} {e : Expr} :
    id ∈ e.ids ↔ id ∈ e.ownIds ∨ ∃ s ∈ e.children, id ∈ s.ids := by
  cases e <;>
    simp [ids, ownIds, id?, children, mem_allIds, mem_positionIds, mem_generatorsIds, Domain.mem_ids,
      or_assoc]

theorem mem_children_of_part {e s : Expr} (h : s ∈ e.parts ++ e.selectors) : s ∈ e.children := by
  cases e <;> simp_all [parts, selectors, children]

theorem mem_children_of_boundValue {e v : Expr} (h : e.boundValue? = some v) : v ∈ e.children := by
  cases e <;> simp_all [boundValue?, children]

theorem Contains.ids_subset {e s : Expr} (h : e.Contains s) : s.ids ⊆ e.ids := by
  induction h with
  | refl => exact fun _ hid => hid
  | tail _ hs ih => exact fun id hid => ih (mem_ids.2 (.inr ⟨_, hs, hid⟩))

end Expr

/-! ## Calls -/

/-- The index of a selection, or the bounds that it gives. -/
def Selection.operands : Selection → List Expr
  | .index i => [i]
  | .slice start stop _ => start.toList ++ stop.toList

/-- The constructors that take no identity, on expressions and generators in hand. -/
inductive Composes (es : List Expr) (gs : List Generator) : Except ModelError Expr → Prop
  | literal (l) : Composes es gs (pure (.literal l))
  | enumeration (type) : Composes es gs (pure (.enumeration type))
  | setOf (ls) : Composes es gs (Expr.setOf ls)
  | sequence {items} : items ⊆ es → Composes es gs (pure (.sequence items))
  | rangeBy {a b} (step) : a ∈ es → b ∈ es → Composes es gs (a.rangeBy b step)
  | upTo {b} : b ∈ es → Composes es gs (pure (.upTo b))
  | select {array selections} : array ∈ es → (∀ s ∈ selections, s.operands ⊆ es) →
      Composes es gs (array.select selections)
  | extentOf {array} (dim) : array ∈ es → Composes es gs (array.extentOf dim)
  | unary (op) {e} : e ∈ es → Composes es gs (pure (.unary op e))
  | binary (op) {a b} : a ∈ es → b ∈ es → Composes es gs (pure (.binary op a b))
  | floorDiv {a b} : a ∈ es → b ∈ es → Composes es gs (a.floorDiv b)
  | modulo {a b} : a ∈ es → b ∈ es → Composes es gs (a.modulo b)
  | powMod {a b} (modulus) : a ∈ es → b ∈ es → Composes es gs (a.powMod b modulus)
  | aggregateOf (op) {args} : args ⊆ es → Composes es gs (Expr.aggregateOf op args)
  | comprehend (op) {generators body} : generators ⊆ gs → body ∈ es →
      Composes es gs (Expr.comprehend op generators body)
  | globalOf (kind) {e} : e ∈ es → Composes es gs (Expr.globalOf kind e)
  | allDifferent {e except} (exceptZero) : e ∈ es → except.toList ⊆ es →
      Composes es gs (e.allDifferent exceptZero except)
  | cumulative {a b c d} : a ∈ es → b ∈ es → c ∈ es → d ∈ es →
      Composes es gs (a.cumulative b c d)
  | disjoint (kind) {a b} : a ∈ es → b ∈ es → Composes es gs (Expr.disjoint kind a b)
  | rowOf {a b} : a ∈ es → b ∈ es → Composes es gs (a.rowOf b)

/-- The constructors of nodes with an identity, on expressions in hand. -/
inductive TakesId (es : List Expr) : Build Expr → Prop
  | newVar {domain} : domain.bounds ⊆ es → TakesId es (Expr.newVar domain)
  | bindVar {e} : e ∈ es → TakesId es e.bindVar
  | newParam (l) : TakesId es (Expr.newParam l)
  | bindParam {e} : e ∈ es → TakesId es e.bindParam
  | newVarArray {domain} (shape) : domain.bounds ⊆ es → TakesId es (Expr.newVarArray domain shape)
  | newParamArray (data) : TakesId es (Expr.newParamArray data)
  | newVarSet {domain} : domain.bounds ⊆ es → TakesId es (Expr.newVarSet domain)
  | newParamSet (ls) : TakesId es (Expr.newParamSet ls)
  | newParamInterval (start stop) : TakesId es (Expr.newParamInterval start stop)

/-- In hand, or put in by a constructor itself: a literal or an extent of an array in hand. -/
def IsAtHand (es : List Expr) (s : Expr) : Prop :=
  s ∈ es ∨ (∃ l, s = .literal l) ∨ ∃ array ∈ es, ∃ dim, s = .size array dim

variable {es : List Expr} {gs : List Generator} {e : Expr}

/-- What a constructor makes that takes no identity: it binds iterators that are in hand, and is made
of what is at hand. -/
structure IsComposed (es : List Expr) (gs : List Generator) (e : Expr) : Prop where
  id_eq : e.id? = none
  ownIds : e.ownIds ⊆ gs.map Generator.id
  children : ∀ s ∈ e.children, IsAtHand es s

theorem IsComposed.of_children (hid : e.id? = none) (hown : e.ownIds = []) (h : e.children ⊆ es) :
    IsComposed es gs e :=
  ⟨hid, hown ▸ List.nil_subset _, fun _ hs => .inl (h hs)⟩

theorem pair_subset {a b : Expr} (ha : a ∈ es) (hb : b ∈ es) : [a, b] ⊆ es :=
  List.cons_subset.2 ⟨ha, List.cons_subset.2 ⟨hb, List.nil_subset _⟩⟩

/-- A constraint whose type is found is made of its arguments. -/
theorem isComposed_global {kind : GlobalKind} {args : List Expr} (h : args ⊆ es)
    (he : (Expr.global kind args).typed = .ok e) : IsComposed es gs e := by
  obtain ⟨-, rfl⟩ := typed_eq_ok.1 he
  exact .of_children rfl rfl h

theorem isComposed_aggregate {op : Aggregate} {args : List Expr} (h : args ⊆ es)
    (he : Expr.aggregateOf op args = .ok e) : IsComposed es gs e := by
  have hnode : (Expr.aggregate op args).typed = .ok e := by
    unfold Expr.aggregateOf at he
    split at he
    · split_ifs at he
      · exact he
      · cases he
    · exact he
  obtain ⟨-, rfl⟩ := typed_eq_ok.1 hnode
  exact .of_children rfl rfl h

theorem isComposed_allDifferent {items : Expr} {except : Option Expr} {exceptZero : Bool}
    (hitems : items ∈ es) (hexcept : except.toList ⊆ es)
    (he : items.allDifferent exceptZero except = .ok e) : IsComposed es gs e := by
  have hsingle : [items] ⊆ es := by simpa using hitems
  unfold Expr.allDifferent at he
  obtain ⟨-, he⟩ := check_bind_eq_ok.1 he
  split at he
  · cases he
  · exact isComposed_global hsingle he
  · exact isComposed_global hsingle he
  · obtain ⟨-, he⟩ := check_bind_eq_ok.1 he
    exact isComposed_global (List.cons_subset.2 ⟨hitems, hexcept⟩) he

theorem isComposed_select {array : Expr} {selections : List Selection} (harray : array ∈ es)
    (hselections : ∀ s ∈ selections, s.operands ⊆ es) (he : array.select selections = .ok e) :
    IsComposed es gs e := by
  obtain ⟨shape, hshape⟩ := exists_shape_of_select he
  obtain ⟨-, -, rfl⟩ := (select_eq_ok_iff hshape).1 he
  refine ⟨rfl, List.nil_subset _, fun s hs => ?_⟩
  rcases List.mem_cons.1 hs with rfl | hs
  · exact .inl harray
  obtain ⟨p, hp, hs⟩ := List.mem_flatMap.1 hs
  obtain ⟨k, rfl⟩ := exists_completed_of_mem hp
  have hselection : ((selections.getD k .all).operands) ⊆ es := by
    rw [List.getD_eq_getElem?_getD]
    cases hk : selections[k]? with
    | none => exact List.nil_subset _
    | some selection => exact hselections selection (List.mem_of_getElem? hk)
  cases hselected : selections.getD k .all with
  | index i =>
      rw [hselected] at hselection hs
      exact .inl (hselection hs)
  | slice start stop step =>
      rw [hselected] at hselection hs
      simp only [Selection.completed, Position.operands, List.mem_cons, List.not_mem_nil,
        or_false] at hs
      rcases hs with rfl | rfl
      · cases start with
        | none => exact .inr (.inl ⟨_, rfl⟩)
        | some start => exact .inl (hselection (by simp [Selection.operands]))
      · cases stop with
        | none => exact .inr (.inr ⟨array, harray, _, rfl⟩)
        | some stop => exact .inl (hselection (by simp [Selection.operands]))

theorem isComposed_comprehension {op : Aggregate} {generators : List Generator} {body : Expr}
    (hgs : ∀ g ∈ gs, g.domain ∈ es) (hgenerators : generators ⊆ gs) (hbody : body ∈ es)
    (he : Expr.comprehend op generators body = .ok e) : IsComposed es gs e := by
  obtain ⟨-, rfl⟩ := typed_eq_ok.1 he
  refine ⟨rfl, List.map_subset _ hgenerators, fun s hs => .inl ?_⟩
  rcases List.mem_append.1 hs with hs | hs
  · obtain ⟨g, hg, rfl⟩ := List.mem_map.1 hs
    exact hgs g (hgenerators hg)
  · rwa [List.mem_singleton.1 hs]

/-- A constructor that takes no identity makes a node of what is at hand. -/
theorem Composes.isComposed {call : Except ModelError Expr} (hgs : ∀ g ∈ gs, g.domain ∈ es)
    (h : Composes es gs call) (he : call = .ok e) : IsComposed es gs e := by
  cases h with
  | literal | enumeration =>
      cases he
      exact .of_children rfl rfl (List.nil_subset _)
  | setOf ls =>
      obtain ⟨-, he⟩ := check_bind_eq_ok.1 he
      cases he
      exact .of_children rfl rfl (List.nil_subset _)
  | sequence hitems =>
      cases he
      exact .of_children rfl rfl hitems
  | rangeBy step ha hb =>
      obtain ⟨-, he⟩ := check_bind_eq_ok.1 he
      obtain ⟨-, he⟩ := check_bind_eq_ok.1 he
      cases he
      exact .of_children rfl rfl (pair_subset ha hb)
  | upTo hb =>
      cases he
      refine ⟨rfl, List.nil_subset _, List.forall_mem_cons.2 ⟨.inr (.inl ⟨_, rfl⟩), ?_⟩⟩
      exact List.forall_mem_singleton.2 (.inl hb)
  | select harray hselections => exact isComposed_select harray hselections he
  | extentOf dim harray =>
      unfold Expr.extentOf at he
      split at he
      · exact absurd he throw_ne_ok
      · split_ifs at he
        cases he
        exact .of_children rfl rfl (List.cons_subset.2 ⟨harray, List.nil_subset _⟩)
  | unary op ha =>
      cases he
      exact .of_children rfl rfl (List.cons_subset.2 ⟨ha, List.nil_subset _⟩)
  | binary op ha hb =>
      cases he
      exact .of_children rfl rfl (pair_subset ha hb)
  | floorDiv ha hb | modulo ha hb =>
      obtain ⟨-, he⟩ := check_bind_eq_ok.1 he
      cases he
      exact .of_children rfl rfl (pair_subset ha hb)
  | powMod modulus ha hb =>
      obtain ⟨-, he⟩ := throw_ite_eq_ok.1 he
      cases he
      exact .of_children rfl rfl (pair_subset ha hb)
  | aggregateOf op hargs => exact isComposed_aggregate hargs he
  | comprehend op hgenerators hbody => exact isComposed_comprehension hgs hgenerators hbody he
  | globalOf kind ha =>
      obtain ⟨-, he⟩ := check_bind_eq_ok.1 he
      exact isComposed_global (by simpa using ha) he
  | allDifferent exceptZero ha hexcept => exact isComposed_allDifferent ha hexcept he
  | cumulative ha hb hc hd =>
      unfold Expr.cumulative at he
      split_ifs at he
      · cases he
      · obtain ⟨-, he⟩ := check_bind_eq_ok.1 he
        obtain ⟨-, he⟩ := check_bind_eq_ok.1 he
        obtain ⟨-, he⟩ := check_bind_eq_ok.1 he
        exact isComposed_global (by simpa using ⟨ha, hb, hc, hd⟩) he
  | disjoint kind ha hb =>
      obtain ⟨-, he⟩ := check_bind_eq_ok.1 he
      obtain ⟨-, he⟩ := check_bind_eq_ok.1 he
      exact isComposed_global (by simpa using ⟨ha, hb⟩) he
  | rowOf ha hb =>
      obtain ⟨-, rfl⟩ := rowOf_eq_ok.1 he
      exact .of_children rfl rfl (pair_subset ha hb)

/-- A node of expressions in hand that has the next number. -/
structure IsIdentified (es : List Expr) (n : Nat) (e : Expr) : Prop where
  id_eq : e.id? = some ⟨n⟩
  ownIds : e.ownIds = [⟨n⟩]
  children : e.children ⊆ es

/-- A constructor that checks something and then takes an identity. -/
theorem checked_fresh_eq_ok {α : Type} {check : Except ModelError α} {f : α → NodeId → Expr}
    {n n' : Nat} (h : (do let x ← check; return f x (← Build.fresh) : Build Expr).run n =
      (.ok e, n')) : ∃ x, e = f x ⟨n⟩ ∧ n' = n + 1 := by
  simp only [build_bind_eq_ok, build_lift_eq_ok, build_pure_eq_ok, fresh_eq_ok] at h
  obtain ⟨x, _, ⟨-, rfl⟩, _, _, ⟨rfl, rfl⟩, rfl, rfl⟩ := h
  exact ⟨x, rfl, rfl⟩

theorem TakesId.isIdentified {call : Build Expr} {n n' : Nat} (h : TakesId es call)
    (he : call.run n = (.ok e, n')) : IsIdentified es n e ∧ n' = n + 1 := by
  cases h with
  | newVar hdomain =>
      cases he
      exact ⟨⟨rfl, rfl, hdomain⟩, rfl⟩
  | bindVar ha =>
      obtain ⟨_, rfl, rfl⟩ := checked_fresh_eq_ok he
      exact ⟨⟨rfl, rfl, List.cons_subset.2 ⟨ha, List.nil_subset _⟩⟩, rfl⟩
  | newParam l =>
      cases he
      exact ⟨⟨rfl, rfl, List.nil_subset _⟩, rfl⟩
  | bindParam ha =>
      obtain ⟨rfl, -, rfl⟩ := bindParam_eq_ok he
      exact ⟨⟨rfl, rfl, List.cons_subset.2 ⟨ha, List.nil_subset _⟩⟩, rfl⟩
  | newVarArray shape hdomain =>
      obtain ⟨_, rfl, rfl⟩ := checked_fresh_eq_ok he
      exact ⟨⟨rfl, rfl, hdomain⟩, rfl⟩
  | newParamArray data =>
      obtain ⟨_, rfl, rfl⟩ := checked_fresh_eq_ok he
      exact ⟨⟨rfl, rfl, List.nil_subset _⟩, rfl⟩
  | newVarSet hdomain =>
      obtain ⟨_, rfl, rfl⟩ := checked_fresh_eq_ok he
      exact ⟨⟨rfl, rfl, hdomain⟩, rfl⟩
  | newParamSet ls | newParamInterval start stop =>
      obtain ⟨_, rfl, rfl⟩ := checked_fresh_eq_ok he
      exact ⟨⟨rfl, rfl, List.nil_subset _⟩, rfl⟩

/-! ## Sessions -/

/-- What has been made so far, and the number of the next identity. -/
structure Hand where
  next : Nat
  exprs : List Expr
  generators : List Generator

/-- What can be in hand. Calls that fail, and models that are compiled on the way, may take numbers that
no node in hand gets. -/
inductive Session : Hand → Prop
  | start (n) : Session ⟨n, [], []⟩
  | skip {hand n} : Session hand → hand.next ≤ n → Session { hand with next := n }
  | compose {hand call e} : Session hand → Composes hand.exprs hand.generators call → call = .ok e →
      Session { hand with exprs := e :: hand.exprs }
  | identify {hand call e n'} : Session hand → TakesId hand.exprs call →
      call.run hand.next = (.ok e, n') → Session ⟨n', e :: hand.exprs, hand.generators⟩
  | bind {hand domain g n'} : Session hand → domain ∈ hand.exprs →
      (Generator.bind domain).run hand.next = (.ok g, n') →
      Session ⟨n', g.iterator :: hand.exprs, g :: hand.generators⟩

namespace Hand

/-- The expression is in hand or inside one that is. -/
def Holds (hand : Hand) (s : Expr) : Prop :=
  ∃ e ∈ hand.exprs, e.Contains s

/-- All identities are below the counter, and nodes with one identity are one node. -/
structure Sound (hand : Hand) : Prop where
  domains : ∀ g ∈ hand.generators, g.domain ∈ hand.exprs
  iterators : ∀ g ∈ hand.generators, g.id.number < hand.next
  below : ∀ e ∈ hand.exprs, ∀ id ∈ e.ids, id.number < hand.next
  unique : ∀ a b id, hand.Holds a → hand.Holds b → a.id? = some id → b.id? = some id → a = b

namespace Sound

variable {hand : Hand} {e : Expr} {n : Nat}

theorem id_below (h : hand.Sound) {s : Expr} {id : NodeId} (hs : hand.Holds s) (hid : s.id? = some id) :
    id.number < hand.next := by
  obtain ⟨e, he, hcontains⟩ := hs
  exact h.below e he id (hcontains.ids_subset (Expr.mem_ids_of_id hid))

/-- What is inside a node of what is at hand is the node, or is held, or has no identity. -/
theorem holds_of_contains (hchildren : ∀ s ∈ e.children, IsAtHand hand.exprs s) {s : Expr}
    {id : NodeId} (hs : e.Contains s) (hid : s.id? = some id) : s = e ∨ hand.Holds s := by
  rcases Relation.ReflTransGen.cases_head hs with rfl | ⟨c, hc, hcs⟩
  · exact .inl rfl
  refine .inr ?_
  rcases hchildren c hc with hc | ⟨l, rfl⟩ | ⟨array, harray, dim, rfl⟩
  · exact ⟨c, hc, hcs⟩
  · rcases Relation.ReflTransGen.cases_head hcs with rfl | ⟨c, hc, -⟩
    · cases hid
    · cases hc
  · rcases Relation.ReflTransGen.cases_head hcs with rfl | ⟨c, hc, hcs⟩
    · cases hid
    · rw [List.mem_singleton.1 hc] at hcs
      exact ⟨array, harray, hcs⟩

theorem isAtHand_below (h : hand.Sound) {s : Expr} (hs : IsAtHand hand.exprs s) :
    ∀ id ∈ s.ids, id.number < hand.next := by
  rcases hs with hs | ⟨l, rfl⟩ | ⟨array, harray, dim, rfl⟩
  · exact h.below s hs
  · simp [Expr.ids]
  · exact h.below array harray

/-- A node of what is at hand is added, whose identity is new if it has one. -/
theorem add (h : hand.Sound) (hn : hand.next ≤ n)
    (hchildren : ∀ s ∈ e.children, IsAtHand hand.exprs s) (hown : ∀ id ∈ e.ownIds, id.number < n)
    (hid : ∀ id, e.id? = some id → hand.next ≤ id.number) :
    Sound ⟨n, e :: hand.exprs, hand.generators⟩ where
  domains g hg := List.mem_cons_of_mem _ (h.domains g hg)
  iterators g hg := Nat.lt_of_lt_of_le (h.iterators g hg) hn
  below := by
    refine List.forall_mem_cons.2 ⟨fun id hid => ?_, fun s hs id hid =>
      Nat.lt_of_lt_of_le (h.below s hs id hid) hn⟩
    rcases Expr.mem_ids.1 hid with hid | ⟨s, hs, hid⟩
    · exact hown id hid
    · exact Nat.lt_of_lt_of_le (h.isAtHand_below (hchildren s hs) id hid) hn
  unique a b id ha hb haid hbid := by
    have hheld {s : Expr} (hs : Holds ⟨n, e :: hand.exprs, hand.generators⟩ s)
        (hsid : s.id? = some id) : s = e ∨ hand.Holds s := by
      obtain ⟨r, hr, hcontains⟩ := hs
      rcases List.mem_cons.1 hr with rfl | hr
      · exact holds_of_contains hchildren hcontains hsid
      · exact .inr ⟨r, hr, hcontains⟩
    -- The identity of the added node is above those of all that are held.
    rcases hheld ha haid with ha' | ha' <;> rcases hheld hb hbid with hb' | hb'
    · rw [ha', hb']
    · exact absurd (h.id_below hb' hbid) (Nat.not_lt.2 (hid id (ha' ▸ haid)))
    · exact absurd (h.id_below ha' haid) (Nat.not_lt.2 (hid id (hb' ▸ hbid)))
    · exact h.unique a b id ha' hb' haid hbid

end Sound

end Hand

theorem Session.sound {hand : Hand} (h : Session hand) : hand.Sound := by
  induction h with
  | start n => exact ⟨nofun, nofun, nofun, fun _ _ _ ha => absurd ha (by simp [Hand.Holds])⟩
  | skip _ hn ih =>
      exact ⟨ih.domains, fun g hg => Nat.lt_of_lt_of_le (ih.iterators g hg) hn,
        fun e he id hid => Nat.lt_of_lt_of_le (ih.below e he id hid) hn, ih.unique⟩
  | @compose hand call e _ hcall he ih =>
      obtain ⟨hid, hown, hchildren⟩ := hcall.isComposed ih.domains he
      refine ih.add (Nat.le_refl _) hchildren (fun id hmem => ?_) (by simp [hid])
      obtain ⟨g, hg, rfl⟩ := List.mem_map.1 (hown hmem)
      exact ih.iterators g hg
  | @identify hand call e n' _ hcall he ih =>
      obtain ⟨⟨hid, hown, hchildren⟩, rfl⟩ := hcall.isIdentified he
      refine ih.add (Nat.le_succ _) (fun s hs => .inl (hchildren hs)) (by simp [hown]) ?_
      simp [hid]
  | @bind hand domain g n' _ hdomain hbind ih =>
      obtain ⟨type, -, rfl, rfl⟩ := generator_bind_eq_ok hbind
      have hiterator := ih.add (e := .iterator ⟨hand.next⟩ type) (Nat.le_succ _) nofun
        (List.forall_mem_singleton.2 (Nat.lt_succ_self _)) nofun
      refine ⟨List.forall_mem_cons.2 ⟨List.mem_cons_of_mem _ hdomain, hiterator.domains⟩,
        List.forall_mem_cons.2 ⟨Nat.lt_succ_self _, hiterator.iterators⟩, hiterator.below,
        hiterator.unique⟩

/-! ## Models -/

/-- The expressions that a model is put together from. -/
def Model.roots (model : Model) : List Expr :=
  model.attributes.map Prod.snd ++ model.constraints ++ model.objective.value?.toList

theorem Model.mem_ids {model : Model} {id : NodeId} :
    id ∈ model.ids ↔ ∃ e ∈ model.roots, id ∈ e.ids := by
  have hattributes : (∃ entry ∈ model.attributes, id ∈ entry.2.ids) ↔
      ∃ e ∈ model.attributes.map Prod.snd, id ∈ e.ids := by
    constructor
    · rintro ⟨entry, hentry, hid⟩
      exact ⟨entry.2, List.mem_map_of_mem hentry, hid⟩
    · rintro ⟨_, he, hid⟩
      obtain ⟨entry, hentry, rfl⟩ := List.mem_map.1 he
      exact ⟨entry, hentry, hid⟩
  simp only [ids, roots, List.mem_append, List.mem_flatMap, mem_allIds, or_and_right, exists_or,
    hattributes]

theorem claimants_subset {held : List NodeId} {attributes : List (String × Expr)} :
    claimants held attributes ⊆ attributes := by
  induction attributes generalizing held with
  | nil => exact List.nil_subset _
  | cons entry attributes ih =>
      obtain ⟨name, e⟩ := entry
      rw [claimants]
      split_ifs
      · exact List.cons_subset_cons _ ih
      · split
        · exact List.subset_cons_of_subset _ ih
        · split_ifs
          · exact List.subset_cons_of_subset _ ih
          · exact List.cons_subset_cons _ ih

theorem contains_of_shows {s : Expr} (h : e.Shows s) : e.Contains s := by
  induction h with
  | refl => exact .refl
  | tail _ hs ih => exact ih.tail (Expr.mem_children_of_part hs)

/-- What the declaration of an entity spells is inside the entity, or is a range of what is. -/
theorem contains_of_declared {d s : Expr} {id : NodeId} (hd : d ∈ e.declared) (hs : d.Shows s)
    (hid : s.id? = some id) : e.Contains s := by
  have hrange (domain : Domain) (hchildren : e.children = domain.bounds) (hd : d ∈ domain.ranges) :
      e.Contains s := by
    cases domain with
    | range start stop =>
        rw [List.mem_singleton.1 hd] at hs
        rcases Relation.ReflTransGen.cases_head hs with rfl | ⟨c, hc, hcs⟩
        · cases hid
        · exact .head (by rw [hchildren]; exact hc) (contains_of_shows hcs)
    | _ => cases hd
  cases e with
  | var i domain => exact hrange domain rfl hd
  | varArray i domain shape => exact hrange domain rfl hd
  | varSet i domain => exact hrange domain rfl hd
  | derivedParam i value =>
      rw [List.mem_singleton.1 hd] at hs
      exact .head List.mem_cons_self (contains_of_shows hs)
  | _ => cases hd

section Resolved

variable {model : Model} {n n' : Nat} {r : ResolvedModel}

/-- What is declared has an identity. It is an attribute, or the variable of one with an identity that
is new. -/
theorem declared_root (hids : ∀ id ∈ model.ids, id.number < n)
    (h : model.resolve.run n = (.ok r, n')) {entry : String × Expr}
    (hentry : entry ∈ r.parameters ++ r.decisions) :
    (∃ id, entry.2.id? = some id) ∧ (entry.2 ∈ model.roots ∨ ∃ id type e, e ∈ model.roots ∧
      id ∉ model.ids ∧ entry.2 = .boundVar id type e) := by
  obtain ⟨entries, hentries, hr, -⟩ := resolve_entities hids h
  have hmem : entry ∈ entries := by
    have hparameters := congrArg Entities.parameters hr
    have hdecisions := congrArg Entities.decisions hr
    simp only [Entities.adding, Entities.empty, List.nil_append] at hparameters hdecisions
    rw [hparameters, hdecisions, List.mem_append] at hentry
    exact hentry.elim List.mem_of_mem_filter List.mem_of_mem_filter
  obtain ⟨claimed, hclaimed, hdeclared⟩ := exists_of_mem_right hentries hmem
  have hroot : claimed.2 ∈ model.roots :=
    List.mem_append_left _ (List.mem_append_left _ (List.mem_map_of_mem (claimants_subset hclaimed)))
  refine ⟨hdeclared.exists_id, ?_⟩
  cases hdeclared with
  | leaf _ _ => exact .inl hroot
  | operation _ _ hnew => exact .inr ⟨_, _, _, hroot, hnew, rfl⟩

/-- An entity that is printed is inside what the model was put together from. -/
theorem root_of_shows (hids : ∀ id ∈ model.ids, id.number < n)
    (h : model.resolve.run n = (.ok r, n')) {e s : Expr} {id : NodeId} (he : e ∈ r.spelled)
    (hs : e.Shows s) (hid : s.id? = some id) : ∃ root ∈ model.roots, root.Contains s := by
  obtain ⟨-, -, -, -, -, hconstraints, hobjective⟩ := resolve_eq_ok h
  rcases mem_spelled.1 he with ⟨entry, hentry, he⟩ | ⟨entry, hentry, he⟩ | he | he
  · rcases (declared_root hids h hentry).2 with hroot | ⟨_, _, _, -, -, heq⟩
    · exact ⟨_, hroot, contains_of_declared he hs hid⟩
    · rw [heq] at he
      cases he
  · rcases (declared_root hids h (List.mem_append_right _ hentry)).2 with
      hroot | ⟨_, _, _, hv, -, heq⟩
    · exact ⟨_, hroot, .head (Expr.mem_children_of_boundValue he) (contains_of_shows hs)⟩
    · rw [heq] at he
      cases he
      exact ⟨_, hv, contains_of_shows hs⟩
  · rw [hconstraints] at he
    exact ⟨e, List.mem_append_left _ (List.mem_append_right _ he), contains_of_shows hs⟩
  · rw [hobjective] at he
    exact ⟨e, List.mem_append_right _ he, contains_of_shows hs⟩

/-- A model that is put together from what is in hand has its identities below the counter. Each entity
that it declares, once it is resolved, is all that is printed with its identity. -/
theorem Session.model_sound {hand : Hand} (hsession : Session hand) (hmodel : model.roots ⊆ hand.exprs) :
    (∀ id ∈ model.ids, id.number < hand.next) ∧
    ∀ n n' r, hand.next ≤ n → model.resolve.run n = (.ok r, n') →
      r.Identifies (r.parameters ++ r.decisions) := by
  have hbelow : ∀ id ∈ model.ids, id.number < hand.next := by
    intro id hid
    obtain ⟨e, he, hid⟩ := Model.mem_ids.1 hid
    exact hsession.sound.below e (hmodel he) id hid
  refine ⟨hbelow, fun n n' r hn h entry hentry e he l hl hsame => ?_⟩
  have hids (id : NodeId) (hid : id ∈ model.ids) : id.number < n :=
    Nat.lt_of_lt_of_le (hbelow id hid) hn
  obtain ⟨⟨id, hid⟩, hdeclared⟩ := declared_root hids h hentry
  obtain ⟨root, hroot, hcontains⟩ := root_of_shows hids h he hl (hsame.trans hid)
  rcases hdeclared with hentry | ⟨i, type, v, -, hnew, heq⟩
  · exact hsession.sound.unique l entry.2 id ⟨root, hmodel hroot, hcontains⟩
      ⟨entry.2, hmodel hentry, .refl⟩ (hsame.trans hid) hid
  · refine absurd (Model.mem_ids.2 ⟨root, hroot, hcontains.ids_subset ?_⟩) hnew
    refine Expr.mem_ids_of_id (hsame.trans ?_)
    rw [heq]
    rfl

end Resolved

/-- A variable, and another one up to it, are made from nothing. -/
theorem dependentModel_made : ∃ hand, Session hand ∧ dependentModel.roots ⊆ hand.exprs := by
  have hvar : TakesId [] (Expr.newVar .int) := .newVar (List.nil_subset _)
  have hx := Session.identify (.start 0) hvar rfl
  have hzero := hx.compose (.literal (.int 0)) rfl
  have hupTo : TakesId [.literal (.int 0), .var ⟨0⟩ .int]
      (Expr.newVar (.range (.literal (.int 0)) (.var ⟨0⟩ .int))) := .newVar fun _ h => h
  have hy := hzero.identify hupTo rfl
  exact ⟨_, hy, by simp [Model.roots, dependentModel, Objective.value?]⟩

end ConstraintModel
