import ConstraintModel.Proofs.Reading

/-!
# Denotation of terms

What the text of a term denotes, given what the texts inside it denote. There is a rule for each kind
of term, and each function name of a source leads to its function. A text denotes one thing only, so
what a text denotes is found by putting together what its parts do.
-/

namespace ConstraintModel.Source

variable {lib : Library} {env : Environment}

/-! ## Texts -/

theorem PhraseReads.atom_of_ne_span {s : List Char} {p : Phrase} (h : PhraseReads s p)
    (hne : ∀ first last, p ≠ .span first last) : AtomReads s p := by
  cases h with
  | atom h => exact h
  | span _ _ => exact absurd rfl (hne _ _)

section Texts

variable {s : String} {x y : Option Value}

theorem Denotes.unique (h : Denotes lib env s x) (h' : Denotes lib env s y) : x = y := by
  obtain ⟨p, hp, -, rfl⟩ := h
  obtain ⟨q, hq, -, rfl⟩ := h'
  rw [hp.unique hq]

namespace DenotesAtom

theorem denotes (h : DenotesAtom lib env s x) : Denotes lib env s x := by
  obtain ⟨p, hp, hnot, hx⟩ := h
  exact ⟨p, .atom hp, hnot, hx⟩

theorem isAtom (h : DenotesAtom lib env s x) : IsAtom s := by
  obtain ⟨p, hp, hnot, -⟩ := h
  exact ⟨p, hp, hnot⟩

end DenotesAtom

theorem Denotes.isPhrase (h : Denotes lib env s x) : IsPhrase s := by
  obtain ⟨p, hp, hnot, -⟩ := h
  exact ⟨p, hp, hnot⟩

theorem IsPhrase.denotes (lib : Library) (env : Environment) (h : IsPhrase s) :
    ∃ x, Denotes lib env s x := by
  obtain ⟨p, hp, hnot⟩ := h
  exact ⟨_, p, hp, hnot, rfl⟩

theorem IsAtom.denotes (lib : Library) (env : Environment) (h : IsAtom s) :
    ∃ x, DenotesAtom lib env s x := by
  obtain ⟨p, hp, hnot⟩ := h
  exact ⟨_, p, hp, hnot, rfl⟩

theorem IsAtom.isPhrase (h : IsAtom s) : IsPhrase s := by
  obtain ⟨p, hp, hnot⟩ := h
  exact ⟨p, .atom hp, hnot⟩

theorem Denotes.atom (h : Denotes lib env s x) (hs : IsAtom s) : DenotesAtom lib env s x := by
  obtain ⟨p, hp, hnot, hx⟩ := h
  obtain ⟨q, hq, -⟩ := hs
  obtain rfl : p = q := hp.unique (.atom hq)
  exact ⟨p, hq, hnot, hx⟩

/-- Only a span is no single operand, and a span denotes a set. -/
theorem Denotes.isAtom_of_int {i : Int} (h : Denotes lib env s (some (.int i))) : IsAtom s := by
  obtain ⟨p, hp, hnot, hx⟩ := h
  refine ⟨p, hp.atom_of_ne_span ?_, hnot⟩
  rintro first last rfl
  simp only [Phrase.value, Option.bind_eq_bind, Option.bind_eq_some_iff, Option.pure_def,
    Option.some.injEq] at hx
  obtain ⟨_, -, _, -, _, -, _, -, hset⟩ := hx
  cases hset

/-- A text that denotes something in several environments reads as one phrase in all of them. -/
theorem exists_phrase {ι : Type} {P : ι → Prop} {envs : ι → Environment} {xs : ι → Option Value}
    (hne : ∃ i, P i) (h : ∀ i, P i → Denotes lib (envs i) s (xs i)) :
    ∃ p, PhraseReads s.toList p ∧ ∀ i, P i → p.value lib (envs i) = xs i := by
  obtain ⟨i, hi⟩ := hne
  obtain ⟨p, hp, -⟩ := h i hi
  refine ⟨p, hp, fun j hj => ?_⟩
  obtain ⟨q, hq, -, hx⟩ := h j hj
  rw [hp.unique hq, hx]

/-- Texts denote values that are all there, or some of them are undefined. -/
theorem exists_items {ss : List String} {xs : List (Option Value)}
    (h : List.Forall₂ (Denotes lib env) ss xs) : ∃ items,
      List.Forall₂ ItemReads (ss.map String.toList) items ∧
      Phrase.allValues lib items env = xs.mapM id := by
  induction h with
  | nil => exact ⟨[], .nil, by simp [Phrase.allValues]⟩
  | cons h _ ih =>
      obtain ⟨p, hp, -, hx⟩ := h
      obtain ⟨items, hitems, hxs⟩ := ih
      exact ⟨(none, p) :: items, .cons hp.item hitems, by simp [Phrase.allValues, hx, hxs]⟩

end Texts

/-! ## Words -/

theorem denotes_word {w : String} (h : Identifier.require w = .ok ()) :
    DenotesAtom lib env w (env.lookup w) := by
  obtain ⟨hdigit, htrue, hfalse⟩ := not_literal_of_valid h
  refine ⟨_, .word (isWord_of_valid h), ?_, ?_⟩
  · rw [String.ofList_toList]
    exact isNot_of_valid h
  · simp [Phrase.value, wordValue?, hdigit, htrue, hfalse]

theorem ofList_toDigits (n : Nat) : String.ofList (Nat.toDigits 10 n) = n.repr := by
  rw [← Nat.toList_repr, String.ofList_toList]

theorem number?_digits (n : Nat) : number? (Nat.toDigits 10 n) = some (.int n) := by
  obtain ⟨_, _, -, hall⟩ := digits_eq_cons n
  rw [number?, if_pos (List.all_eq_true.2 hall), ofList_toDigits, Nat.toNat?_repr]
  rfl

/-- Digits denote their number, by the word that they are. -/
theorem digits_read (n : Nat) : AtomReads (Nat.toDigits 10 n)
      (.word (String.ofList (Nat.toDigits 10 n))) ∧
    (Phrase.word (String.ofList (Nat.toDigits 10 n))).isNot = false ∧
    ∀ lib env, (Phrase.word (String.ofList (Nat.toDigits 10 n))).value lib env = some (.int n) := by
  obtain ⟨c, cs, hcs, hall⟩ := digits_eq_cons n
  have hc : c.isDigit = true := hall c (by simp [hcs])
  refine ⟨.word (hcs ▸ .of_isDigit hc (hcs ▸ lexable_of_isDigit hall)), ?_, fun lib env => ?_⟩
  · rw [Phrase.isNot, beq_eq_false_iff_ne]
    intro hnot
    have hlist : Nat.toDigits 10 n = ['n', 'o', 't'] := by simpa using congrArg String.toList hnot
    have hn : 'n'.isDigit = true := hall _ (by simp [hlist])
    cases hn
  · rw [Phrase.value, wordValue?, String.toList_ofList, number?_digits, if_pos (by simp [hcs, hc])]
    rfl

theorem denotes_int (v : Int) : DenotesAtom lib env (Term.int v).text (some (.int v)) := by
  have htext : (Term.int v).text = toString v := by
    rw [Term.int, Term.text, Literal.text]
  rw [htext]
  cases v with
  | ofNat n =>
      obtain ⟨hread, hnot, hvalue⟩ := digits_read n
      refine ⟨_, ?_, hnot, hvalue lib env⟩
      rw [show toString (Int.ofNat n) = n.repr from rfl, Nat.toList_repr]
      exact hread
  | negSucc n =>
      obtain ⟨hread, -, hvalue⟩ := digits_read n.succ
      have hlist : (toString (Int.negSucc n)).toList = '-' :: Nat.toDigits 10 n.succ := by
        rw [← Nat.toList_repr]
        exact String.toList_append
      have hminus := hread.minus
      rw [← hlist] at hminus
      refine ⟨_, hminus, rfl, ?_⟩
      rw [Phrase.value, hvalue lib env]
      rfl

theorem denotes_bool (b : Bool) :
    DenotesAtom lib env (Literal.bool b).text (some (.bool b)) := by
  have hword : IsWord (Literal.bool b).text.toList := by
    refine isWord_of_isWellFormed ?_
    cases b <;> rfl
  refine ⟨_, .word hword, ?_, ?_⟩
  · cases b <;> rfl
  · cases b <;> rfl

/-! ## Functions -/

theorem leadingNumber?_digits (n : Nat) {s : List Char} (hs : s.head?.any Char.isDigit = false) :
    leadingNumber? (Nat.toDigits 10 n ++ s) = some (n, s) := by
  obtain ⟨_, _, -, hdigits⟩ := digits_eq_cons n
  have hrest : s.takeWhile Char.isDigit = [] ∧ s.dropWhile Char.isDigit = s := by
    cases s with
    | nil => exact ⟨rfl, rfl⟩
    | cons c s =>
        have hc : c.isDigit = false := by simpa using hs
        simp [hc]
  rw [leadingNumber?, List.takeWhile_append_of_pos hdigits, List.dropWhile_append_of_pos hdigits,
    hrest.1, hrest.2, List.append_nil, ofList_toDigits, Nat.toNat?_repr]
  rfl

theorem rankedFunction?_slice (rank : Nat) :
    rankedFunction? (Function.slice rank).name.toList = some (.slice rank) := by
  have hname : (Function.slice rank).name.toList =
      ['s', 'l', 'i', 'c', 'e', '_'] ++ (Nat.toDigits 10 rank ++ ['d']) := by
    simp [Function.name]
  have hnumber := leadingNumber?_digits rank (s := ['d']) rfl
  rw [hname, rankedFunction?, skip_append]
  simp [hnumber]

theorem rankedFunction?_reshape (rank : Nat) :
    rankedFunction? (Function.reshape rank).name.toList = some (.reshape rank) := by
  have hname : (Function.reshape rank).name.toList =
      ['a', 'r', 'r', 'a', 'y'] ++ (Nat.toDigits 10 rank ++ ['d']) := by
    simp [Function.name]
  have hnumber := leadingNumber?_digits rank (s := ['d']) rfl
  rw [hname, rankedFunction?, skip_append]
  simp [hnumber]

theorem rankedFunction?_indexSet (dim : Nat) {rank : Nat} (hrank : 1 < rank) :
    rankedFunction? (Function.indexSet dim rank).name.toList = some (.indexSet dim rank) := by
  have hname : (Function.indexSet dim rank).name.toList =
      ['i', 'n', 'd', 'e', 'x', '_', 's', 'e', 't', '_'] ++
        (Nat.toDigits 10 dim ++ (['o', 'f'] ++ (Nat.toDigits 10 rank ++ []))) := by
    simp [Function.name, hrank]
  have hrest := leadingNumber?_digits rank (s := []) rfl
  have hfirst := leadingNumber?_digits dim (s := 'o' :: 'f' :: Nat.toDigits 10 rank) rfl
  rw [List.append_nil] at hrest
  rw [hname, rankedFunction?, skip_append]
  simp [hfirst, hrest, hrank]

/-- The index set of an array of one dimension is that of no dimension among several. -/
theorem indexSet_apply_flat {dim rank : Nat} (hrank : ¬ 1 < rank) (xs : List Value) :
    (Function.indexSet dim rank).apply lib xs = (Function.indexSet 1 1).apply lib xs := by
  match xs with
  | [] | [.scalar _] | [.set _] | .scalar _ :: _ :: _ | .set _ :: _ :: _
  | .array _ _ :: _ :: _ => rfl
  | [.array _ _] => simp [Function.apply, hrank]

/-- The name of a function leads to a function that does the same. -/
theorem called?_name (f : Function) (xs : List Value) : called? lib f.name xs = f.apply lib xs := by
  have habs : f.name ≠ "abs" := by
    intro hname
    have hlist := congrArg String.toList hname
    cases f with
    | power | last => simp [Function.name] at hname
    | aggregate op => cases op <;> simp [Function.name, Aggregate.name] at hname
    | global kind => cases kind <;> simp [Function.name, GlobalKind.name] at hname
    | slice _ | reshape _ => simp [Function.name] at hlist
    | indexSet dim rank =>
        obtain ⟨s, hs⟩ := indexSet_begins dim rank
        rw [← hs] at hlist
        simp at hlist
  unfold called? function?
  rw [if_neg habs]
  cases f with
  | power | last => rfl
  | aggregate op => cases op <;> rfl
  | global kind => cases kind <;> rfl
  | slice rank => simp [rankedFunction?_slice]
  | reshape rank => simp [rankedFunction?_reshape]
  | indexSet dim rank =>
      by_cases hrank : 1 < rank
      · simp [rankedFunction?_indexSet dim hrank]
      · have hname : (Function.indexSet dim rank).name = "index_set" := if_neg hrank
        have hfunction : (rankedFunction? "index_set".toList).or (functions.lookup "index_set") =
            some (.indexSet 1 1) := rfl
        rw [hname, hfunction, Option.bind_some, indexSet_apply_flat hrank]

/-! ## Terms -/

section Terms

variable {a b : Term} {x y : Option Value} {ts : List Term} {xs : List (Option Value)}

theorem Denotes.unary (op : UnaryOp) (h : Denotes lib env a.text x) :
    DenotesAtom lib env (Term.unary op a).text (do op.apply (← x)) := by
  obtain ⟨p, hp, -, hx⟩ := h
  cases op with
  | not =>
      refine ⟨.negation p, ?_, rfl, by simp [Phrase.value, hx]⟩
      simpa [Term.text, Term.unaryText] using AtomReads.negation hp
  | negate =>
      refine ⟨.negated p, ?_, rfl, by simp [Phrase.value, hx]⟩
      simpa [Term.text, Term.unaryText] using AtomReads.negated hp
  | absolute =>
      have hword : IsWord "abs".toList := isWord_of_isWellFormed rfl
      refine ⟨.call "abs" [(none, p)], ?_, rfl, ?_⟩
      · simpa [Term.text, Term.unaryText, joined] using AtomReads.call hword (.cons hp.item .nil)
      · cases x <;> simp [Phrase.value, Phrase.allValues, hx, called?]

theorem Denotes.binary (op : BinaryOp) (h : Denotes lib env a.text x)
    (h' : Denotes lib env b.text y) :
    DenotesAtom lib env (Term.binary op a b).text (do op.apply (← x) (← y)) := by
  obtain ⟨p, hp, hnot, hx⟩ := h
  obtain ⟨q, hq, -, hy⟩ := h'
  refine ⟨.operation op p q, ?_, rfl, by simp [Phrase.value, hx, hy]⟩
  simpa [Term.text] using AtomReads.operation op hnot hp hq

theorem DenotesAtom.span (float : Bool) (h : DenotesAtom lib env a.text x)
    (h' : DenotesAtom lib env b.text y) :
    Denotes lib env (Term.span float a b).text (do
      let first ← (← x).int?
      let last ← (← y).int?
      return .intSet (integers first (last + 1))) := by
  obtain ⟨p, hp, -, hx⟩ := h
  obtain ⟨q, hq, -, hy⟩ := h'
  refine ⟨.span p q, ?_, rfl, by simp [Phrase.value, hx, hy]⟩
  simpa [Term.text] using PhraseReads.span hp hq

theorem denotes_list (h : List.Forall₂ (Denotes lib env) (ts.map Term.text) xs) :
    DenotesAtom lib env (Term.list ts).text (do return .list (← xs.mapM id)) := by
  obtain ⟨items, hitems, hvalues⟩ := exists_items h
  refine ⟨.list items, ?_, rfl, by simp [Phrase.value, hvalues]⟩
  simpa [Term.text, toList_commaSeparated, texts_eq_map] using AtomReads.list hitems

theorem denotes_set {ls : List Literal}
    (h : List.Forall₂ (Denotes lib env) (ls.map Literal.text) xs) :
    DenotesAtom lib env (Term.set ls).text (do
      return .set (Literal.membersOf (← (← xs.mapM id).mapM Value.scalar?))) := by
  obtain ⟨items, hitems, hvalues⟩ := exists_items h
  refine ⟨.set items, ?_, rfl, by simp [Phrase.value, hvalues]⟩
  simpa [Term.text, toList_commaSeparated] using AtomReads.set hitems

theorem denotes_element {s : Symbol} (hs : Identifier.require s.word = .ok ())
    (h : List.Forall₂ (Denotes lib env) (ts.map Term.text) xs) :
    DenotesAtom lib env (Term.element s ts).text (do
      let is ← (← xs.mapM id).mapM Value.int?
      (← env.lookup s.word).element? is) := by
  obtain ⟨items, hitems, hvalues⟩ := exists_items h
  refine ⟨.element s.word items, ?_, rfl, by simp [Phrase.value, hvalues]⟩
  simpa [Term.text, toList_commaSeparated, texts_eq_map] using
    AtomReads.element (isWord_of_valid hs) hitems

theorem denotes_call (f : Function) (h : List.Forall₂ (Denotes lib env) (ts.map Term.text) xs) :
    DenotesAtom lib env (Term.call f ts).text (do f.apply lib (← xs.mapM id)) := by
  obtain ⟨items, hitems, hvalues⟩ := exists_items h
  refine ⟨.call f.name items, ?_, rfl, by simp [Phrase.value, hvalues, called?_name]⟩
  simpa [Term.text, toList_commaSeparated, texts_eq_map] using
    AtomReads.call (isWord_function f) hitems

/-- An aggregate takes the bodies of all rounds, behind its iterators or in front of them. -/
theorem denotes_comprehension (op : Aggregate) {hs : List (Symbol × Term)} {heads : List Item}
    {p : Phrase} (hheads : List.Forall₂ ItemReads ((Term.headTexts hs).map String.toList) heads)
    (hp : PhraseReads b.text.toList p) :
    DenotesAtom lib env (Term.comprehension op hs b).text (do
      let rounds ← Phrase.rounds lib heads env
      op.ofValues (← rounds.mapM fun env => p.value lib env)) := by
  have hword : IsWord op.name.toList := isWord_function (.aggregate op)
  have hname (ys : List Value) : called? lib op.name [.list ys] = op.ofValues ys := by
    rw [show op.name = (Function.aggregate op).name from rfl, called?_name]
    cases op <;> rfl
  cases op with
  | least | greatest =>
      have hread := AtomReads.call hword
        (.cons (PhraseReads.atom (.generated hp hheads)).item .nil)
      refine ⟨_, by simpa [Term.text, Term.comprehensionText, toList_commaSeparated, joined] using
        hread, rfl, ?_⟩
      simp [Phrase.value, Phrase.allValues, hname, Option.bind_assoc]
  | sum | product | count | every | any =>
      have hread := AtomReads.quantified hword hheads hp
      refine ⟨_, by simpa [Term.text, Term.comprehensionText, toList_commaSeparated] using hread,
        rfl, ?_⟩
      simp [Phrase.value, hname]

end Terms

end ConstraintModel.Source
