import ConstraintModel.Proofs.Lexeme
import Mathlib.Order.Filter.AtTopBot.Basic

/-!
# Reading of phrases

Texts of terms are read back into phrases, which say what is applied to what and leave the words as
they are. Reading is a recursive descent from left to right that never goes back, with fuel for its
depth: a function of the text, so a text that is read as a phrase is read as that phrase only.
There is a rule for each way in which texts are put together, about texts that stand before
anything a text may stand before.
-/

namespace ConstraintModel.Source

/-- What a text reads as before its words are looked up. Where items are listed, an item may be
drawn from a domain by a word. -/
inductive Phrase
  | word (word : String)
  /-- A minus sign and what follows it. -/
  | negative (operand : Phrase)
  /-- A minus sign and what follows it, in parentheses. -/
  | negated (operand : Phrase)
  | negation (operand : Phrase)
  | operation (op : BinaryOp) (left right : Phrase)
  | span (first last : Phrase)
  | set (items : List (Option String × Phrase))
  | list (items : List (Option String × Phrase))
  /-- A body for each of the items that its words are drawn as, in brackets. -/
  | generated (body : Phrase) (heads : List (Option String × Phrase))
  | element (array : String) (indices : List (Option String × Phrase))
  | call (function : String) (args : List (Option String × Phrase))
  | quantified (function : String) (heads : List (Option String × Phrase)) (body : Phrase)

namespace Phrase

def word? : Phrase → Option String
  | word w => some w
  | _ => none

/-- Whether this is the word of a negation. -/
def isNot : Phrase → Bool
  | word w => w == "not"
  | _ => false

/-- What follows the minus sign at the front; of a span the sign is that of its first bound. -/
def unsigned? : Phrase → Option Phrase
  | negative p => some p
  | span (negative p) q => some (span p q)
  | _ => none

end Phrase

/-- A phrase among others, perhaps with the word that is drawn from it. -/
abbrev Item := Option String × Phrase

/-! ## Reading -/

/-- What follows a token. -/
def skip : List Char → List Char → Option (List Char)
  | [], s => some s
  | c :: token, d :: s => if c = d then skip token s else none
  | _ :: _, [] => none

/-- Whether a phrase can begin here. -/
def opens : List Char → Bool
  | [] => false
  | c :: _ => !([')', ']', '}', ' ', ','].contains c)

/-- The symbols of the modelling language that stand between two operands. -/
def operators : List (String × BinaryOp) :=
  [("+", .add), ("-", .sub), ("*", .mul), ("/", .divide), ("div", .quotient), ("mod", .remainder),
    ("==", .eq), ("!=", .ne), ("<", .lt), (">", .gt), ("<=", .le), (">=", .ge), ("/\\", .and),
    ("\\/", .or), ("xor", .xor), ("->", .implies), ("in", .member)]

/-- An operation by its symbol. -/
def operationOf? (w : List Char) : Option BinaryOp :=
  operators.lookup (String.ofList w)

mutual

def readPhrase : Nat → List Char → Option (Phrase × List Char)
  | 0, _ => none
  | n + 1, s => do
    let (p, s) ← readSigned n s
    match skip ['.', '.'] s with
    | some s => do
      let (q, s) ← readSigned n s
      return (.span p q, s)
    | none => return (p, s)

def readSigned : Nat → List Char → Option (Phrase × List Char)
  | 0, _ => none
  | n + 1, s =>
    match skip ['-'] s with
    | some s => do
      let (p, s) ← readSigned n s
      return (.negative p, s)
    | none => readAtom n s

def readAtom : Nat → List Char → Option (Phrase × List Char)
  | n + 1, c :: s =>
    if c = '(' then readParenthesis n s
    else if c = '[' then readBracket n s
    else if c = '\x7b' then do
      let (items, s) ← readItems n s
      let s ← skip ['\x7d'] s
      return (.set items, s)
    else readWord n (lexeme (c :: s)).1 (lexeme (c :: s)).2
  | _, _ => none

/-- The rest of an operation in parentheses. -/
def readParenthesis : Nat → List Char → Option (Phrase × List Char)
  | 0, _ => none
  | n + 1, s => do
    let (p, s) ← readPhrase n s
    match skip [')'] s with
    | some s => do
      -- Nothing but a negation is alone in parentheses, and its sign was read along.
      let q ← p.unsigned?
      return (.negated q, s)
    | none => do
      let s ← skip [' '] s
      if p.isNot then do
        let (q, s) ← readPhrase n s
        let s ← skip [')'] s
        return (.negation q, s)
      else do
        let op ← operationOf? (lexeme s).1
        let s ← skip [' '] (lexeme s).2
        let (q, s) ← readPhrase n s
        let s ← skip [')'] s
        return (.operation op p q, s)

/-- The rest of a list in brackets. -/
def readBracket : Nat → List Char → Option (Phrase × List Char)
  | 0, _ => none
  | n + 1, s => do
    let (items, s) ← readItems n s
    match skip [']'] s with
    | some s => return (.list items, s)
    | none => do
      let s ← skip [' ', '|', ' '] s
      -- What was read as an item was the body.
      let (_, body) ← items.head?
      let (heads, s) ← readItems n s
      let s ← skip [']'] s
      return (.generated body heads, s)

/-- What a word begins. -/
def readWord : Nat → List Char → List Char → Option (Phrase × List Char)
  | 0, _, _ => none
  | n + 1, w, s =>
    match skip ['('] s with
    | some s => do
      let (items, s) ← readItems n s
      let s ← skip [')'] s
      match skip ['('] s with
      | some s => do
        let (body, s) ← readPhrase n s
        let s ← skip [')'] s
        return (.quantified (String.ofList w) items body, s)
      | none => return (.call (String.ofList w) items, s)
    | none =>
      match skip ['['] s with
      | some s => do
        let (items, s) ← readItems n s
        let s ← skip [']'] s
        return (.element (String.ofList w) items, s)
      | none => return (.word (String.ofList w), s)

def readItem : Nat → List Char → Option (Item × List Char)
  | 0, _ => none
  | n + 1, s => do
    let (p, s) ← readPhrase n s
    match skip [' ', 'i', 'n', ' '] s with
    | some s => do
      let w ← p.word?
      let (domain, s) ← readPhrase n s
      return ((some w, domain), s)
    | none => return ((none, p), s)

def readItems : Nat → List Char → Option (List Item × List Char)
  | 0, _ => none
  | n + 1, s =>
    if opens s then do
      let (item, s) ← readItem n s
      match skip [',', ' '] s with
      | some s => do
        let (items, s) ← readItems n s
        return (item :: items, s)
      | none => return ([item], s)
    else return ([], s)

end

/-! ## What stands before what -/

@[simp] theorem skip_append (token s : List Char) : skip token (token ++ s) = some s := by
  induction token with
  | nil => cases s <;> rfl
  | cons c token ih => simp [skip, ih]

@[simp] theorem skip_cons {c d : Char} {token s : List Char} :
    skip (c :: token) (d :: s) = if c = d then skip token s else none := rfl

@[simp] theorem skip_done (s : List Char) : skip [] s = some s := by
  cases s <;> rfl

/-- What may follow an atom: what no phrase begins with, or the bound at the end of a span. -/
def atomEnds (rest : List Char) : Prop :=
  opens rest = false ∨ ∃ s, rest = '.' :: '.' :: s

/-- What may follow an item. -/
def itemEnds (rest : List Char) : Prop :=
  opens rest = false ∧ skip [' ', 'i', 'n', ' '] rest = none

theorem opens_eq_false {c : Char} {s : List Char} :
    opens (c :: s) = false ↔ c = ')' ∨ c = ']' ∨ c = '\x7d' ∨ c = ' ' ∨ c = ',' := by
  simp only [opens, List.contains_cons, List.contains_nil, Bool.or_false, Bool.not_eq_false',
    Bool.or_eq_true, beq_iff_eq]

theorem wordEnds_of_atomEnds {rest : List Char} (h : atomEnds rest) : wordEnds rest = true := by
  rcases h with h | ⟨s, rfl⟩
  · cases rest with
    | nil => rfl
    | cons c s => rcases opens_eq_false.1 h with rfl | rfl | rfl | rfl | rfl <;> rfl
  · rfl

theorem skip_of_atomEnds {rest : List Char} (h : atomEnds rest) :
    skip ['('] rest = none ∧ skip ['['] rest = none := by
  rcases h with h | ⟨s, rfl⟩
  · cases rest with
    | nil => exact ⟨rfl, rfl⟩
    | cons c s => rcases opens_eq_false.1 h with rfl | rfl | rfl | rfl | rfl <;> exact ⟨rfl, rfl⟩
  · exact ⟨rfl, rfl⟩

theorem skip_span_of_opens {rest : List Char} (h : opens rest = false) :
    skip ['.', '.'] rest = none := by
  cases rest with
  | nil => rfl
  | cons c s => rcases opens_eq_false.1 h with rfl | rfl | rfl | rfl | rfl <;> rfl

/-! ## Identifiers -/

section Identifiers

variable {w : String}

theorem isWord_of_valid (h : Identifier.require w = .ok ()) : IsWord w.toList :=
  isWord_of_isWellFormed (require_eq_ok.1 h).1

theorem isNot_of_valid (h : Identifier.require w = .ok ()) : (Phrase.word w).isNot = false := by
  rw [Phrase.isNot, beq_eq_false_iff_ne]
  rintro rfl
  exact (require_eq_ok.1 h).2 (by decide)

/-- A valid identifier is no number, and neither truth value. -/
theorem not_literal_of_valid (h : Identifier.require w = .ok ()) :
    w.toList.head?.any Char.isDigit = false ∧ w ≠ "true" ∧ w ≠ "false" := by
  obtain ⟨hformed, hreserved⟩ := require_eq_ok.1 h
  refine ⟨?_, ?_, ?_⟩
  · cases hw : w.toList with
    | nil => rfl
    | cons c cs =>
        rw [hw, Identifier.isWellFormed, Bool.and_eq_true] at hformed
        rw [List.head?_cons, Option.any_some, ← Bool.not_eq_true]
        intro hc
        rw [not_isAlpha_of_isDigit hc] at hformed
        cases hformed.1
  · rintro rfl
    exact hreserved (by decide)
  · rintro rfl
    exact hreserved (by decide)

end Identifiers

/-! ## Texts that are read -/

open Filter

/-- What holds from some fuel on does so if it holds with one more step of it. -/
theorem eventually_of_succ {P : Nat → Prop} (h : ∀ᶠ n in atTop, P (n + 1)) :
    ∀ᶠ n in atTop, P n := by
  rwa [← map_add_atTop_eq_nat 1, eventually_map]

/-- A text that reads as an atom, perhaps with signs, before all that may follow it. -/
structure AtomReads (s : List Char) (p : Phrase) : Prop where
  opens : opens s = true
  reads : ∀ᶠ n in atTop, ∀ rest, atomEnds rest → readSigned n (s ++ rest) = some (p, rest)

/-- A text that is an atom, or a span between two. -/
inductive PhraseReads : List Char → Phrase → Prop
  | atom {s p} : AtomReads s p → PhraseReads s p
  | span {s s' p q} : AtomReads s p → AtomReads s' q →
      PhraseReads (s ++ '.' :: '.' :: s') (.span p q)

/-- A text that reads as an item before all that may follow it. -/
structure ItemReads (s : List Char) (item : Item) : Prop where
  opens : opens s = true
  reads : ∀ᶠ n in atTop, ∀ rest, itemEnds rest → readItem n (s ++ rest) = some (item, rest)

theorem opens_append {s : List Char} (h : opens s = true) (rest : List Char) :
    opens (s ++ rest) = true := by
  cases s with
  | nil => cases h
  | cons c s => exact h

theorem AtomReads.minus {s : List Char} {p : Phrase} (h : AtomReads s p) :
    AtomReads ('-' :: s) (.negative p) where
  opens := rfl
  reads := by
    refine eventually_of_succ (h.reads.mono fun n hn rest hrest => ?_)
    simp [readSigned, hn rest hrest]

namespace PhraseReads

variable {s s' : List Char} {p q : Phrase}

theorem opens (h : PhraseReads s p) : opens s = true := by
  cases h with
  | atom h => exact h.opens
  | span h _ => exact opens_append h.opens _

theorem reads (h : PhraseReads s p) : ∀ᶠ n in atTop, ∀ rest, Source.opens rest = false →
    readPhrase n (s ++ rest) = some (p, rest) := by
  cases h with
  | atom h =>
      refine eventually_of_succ (h.reads.mono fun n hn rest hrest => ?_)
      simp [readPhrase, hn rest (.inl hrest), skip_span_of_opens hrest]
  | span h h' =>
      refine eventually_of_succ ((h.reads.and h'.reads).mono fun n ⟨hn, hn'⟩ rest hrest => ?_)
      rw [List.append_assoc]
      simp [readPhrase, hn _ (.inr ⟨_, rfl⟩), hn' rest (.inl hrest)]

/-- A minus sign goes to the first bound of a span. -/
theorem minus (h : PhraseReads s p) : ∃ q, PhraseReads ('-' :: s) q ∧ q.unsigned? = some p := by
  cases h with
  | atom h => exact ⟨_, .atom h.minus, rfl⟩
  | span h h' => exact ⟨_, .span h.minus h', rfl⟩

theorem item (h : PhraseReads s p) : ItemReads s (none, p) where
  opens := h.opens
  reads := by
    refine eventually_of_succ (h.reads.mono fun n hn rest hrest => ?_)
    simp [readItem, hn rest hrest.1, hrest.2]

/-- A word that is drawn from a domain. -/
theorem drawn {w : String} (hw : PhraseReads s (.word w)) (h : PhraseReads s' p) :
    ItemReads (s ++ ' ' :: 'i' :: 'n' :: ' ' :: s') (some w, p) where
  opens := opens_append hw.opens _
  reads := by
    refine eventually_of_succ ((hw.reads.and h.reads).mono fun n ⟨hn, hn'⟩ rest hrest => ?_)
    rw [List.append_assoc]
    simp [readItem, hn (' ' :: 'i' :: 'n' :: ' ' :: (s' ++ rest)) rfl, Phrase.word?,
      hn' rest hrest.1]

end PhraseReads

/-! ## Items -/

/-- Texts with commas between them. -/
def joined (texts : List (List Char)) : List Char :=
  [',', ' '].intercalate texts

theorem toList_commaSeparated (xs : List String) :
    (Term.commaSeparated xs).toList = joined (xs.map String.toList) :=
  String.toList_intercalate

theorem texts_eq_map (ts : List Term) : Term.texts ts = ts.map Term.text := by
  induction ts with
  | nil => rfl
  | cons t ts ih => rw [Term.texts, List.map_cons, ih]

theorem map_texts (ts : List Term) :
    (Term.texts ts).map String.toList = ts.map fun t => t.text.toList := by
  rw [texts_eq_map, List.map_map, Function.comp_def]

theorem ItemReads.all {texts : List (List Char)} {items : List Item}
    (h : List.Forall₂ ItemReads texts items) : ∀ᶠ n in atTop, ∀ rest, itemEnds rest →
      skip [',', ' '] rest = none → readItems n (joined texts ++ rest) = some (items, rest) := by
  induction h with
  | nil =>
      refine eventually_of_succ (Eventually.of_forall fun n rest hrest _ => ?_)
      simp [joined, readItems, hrest.1]
  | @cons s item texts items hitem hitems ih =>
      refine eventually_of_succ ((hitem.reads.and ih).mono fun n ⟨hn, hn'⟩ rest hrest hcomma => ?_)
      have hopens := opens_append hitem.opens
      -- The last item stands before the rest, and any other before a comma.
      cases hitems with
      | nil => simp [joined, readItems, hopens, hn rest hrest, hcomma]
      | @cons t item' texts items _ _ =>
          rw [joined, List.intercalate_cons_cons, ← joined]
          simp only [List.append_assoc]
          have hitem := hn (',' :: ' ' :: (joined (t :: texts) ++ rest)) ⟨rfl, rfl⟩
          simp [readItems, hopens, hitem, hn' rest hrest hcomma]

/-! ## Atoms -/

theorem lexable_symbol (op : BinaryOp) : Lexable op.symbol.toList := by
  refine .plain (List.all_eq_true.1 ?_)
  cases op <;> decide

theorem operationOf?_symbol (op : BinaryOp) : operationOf? op.symbol.toList = some op := by
  rw [operationOf?, String.ofList_toList]
  cases op <;> rfl

namespace AtomReads

variable {s s' : List Char} {p q : Phrase}

theorem of_readAtom {c : Char} (hc : c ≠ '-') (hopens : Source.opens (c :: s) = true)
    (h : ∀ᶠ n in atTop, ∀ rest, atomEnds rest → readAtom n (c :: (s ++ rest)) = some (p, rest)) :
    AtomReads (c :: s) p where
  opens := hopens
  reads := by
    refine eventually_of_succ (h.mono fun n hn rest hrest => ?_)
    simp [readSigned, hn rest hrest, Ne.symm hc]

/-! ### Words -/

/-- What a word begins, where the word ends. -/
theorem of_readWord {w tail : List Char} (hw : IsWord w)
    (htail : ∀ rest, atomEnds rest → wordEnds (tail ++ rest) = true)
    (h : ∀ᶠ n in atTop, ∀ rest, atomEnds rest → readWord n w (tail ++ rest) = some (p, rest)) :
    AtomReads (w ++ tail) p := by
  obtain @⟨c, w, hc, hlex⟩ := hw
  -- No sign and no bracket is a letter or a digit, so the other branches are closed.
  have hne (d : Char) (hd : d.isAlphanum = false) : c ≠ d := by
    rintro rfl
    rw [hc] at hd
    cases hd
  have hopens : Source.opens (c :: (w ++ tail)) = true := by
    rw [← Bool.not_eq_false, opens_eq_false]
    simp [hne]
  refine of_readAtom (hne '-' rfl) hopens
    (eventually_of_succ (h.mono fun n hn rest hrest => ?_))
  have hword := hlex (tail ++ rest) (htail rest hrest)
  simp only [List.cons_append] at hword
  simp [readAtom, hne, hword, hn rest hrest]

theorem word {w : List Char} (hw : IsWord w) : AtomReads w (.word (String.ofList w)) := by
  have htail (rest : List Char) (hrest : atomEnds rest) : wordEnds ([] ++ rest) = true :=
    wordEnds_of_atomEnds hrest
  simpa using of_readWord hw htail (eventually_of_succ (.of_forall fun n rest hrest => by
    simp [readWord, skip_of_atomEnds hrest]))

theorem element {w : List Char} (hw : IsWord w) {texts : List (List Char)} {items : List Item}
    (h : List.Forall₂ ItemReads texts items) :
    AtomReads (w ++ '[' :: (joined texts ++ [']'])) (.element (String.ofList w) items) := by
  refine of_readWord hw (fun _ _ => rfl)
    (eventually_of_succ ((ItemReads.all h).mono fun n hn rest _ => ?_))
  have hitems := hn (']' :: rest) ⟨rfl, rfl⟩ rfl
  simp [readWord, hitems]

theorem call {w : List Char} (hw : IsWord w) {texts : List (List Char)} {items : List Item}
    (h : List.Forall₂ ItemReads texts items) :
    AtomReads (w ++ '(' :: (joined texts ++ [')'])) (.call (String.ofList w) items) := by
  refine of_readWord hw (fun _ _ => rfl)
    (eventually_of_succ ((ItemReads.all h).mono fun n hn rest hrest => ?_))
  have hitems := hn (')' :: rest) ⟨rfl, rfl⟩ rfl
  simp [readWord, hitems, skip_of_atomEnds hrest]

theorem quantified {w : List Char} (hw : IsWord w) {texts : List (List Char)} {heads : List Item}
    (h : List.Forall₂ ItemReads texts heads) (hbody : PhraseReads s p) :
    AtomReads (w ++ '(' :: (joined texts ++ ')' :: '(' :: (s ++ [')'])))
      (.quantified (String.ofList w) heads p) := by
  refine of_readWord hw (fun _ _ => rfl)
    (eventually_of_succ (((ItemReads.all h).and hbody.reads).mono fun n ⟨hn, hn'⟩ rest hrest => ?_))
  have hitems := hn (')' :: '(' :: (s ++ ')' :: rest)) ⟨rfl, rfl⟩ rfl
  have hread := hn' (')' :: rest) rfl
  simp [readWord, hitems, hread]

/-! ### Parentheses -/

theorem of_readParenthesis
    (h : ∀ᶠ n in atTop, ∀ rest, readParenthesis n (s ++ rest) = some (p, rest)) :
    AtomReads ('(' :: s) p := by
  refine of_readAtom (by decide) rfl (eventually_of_succ (h.mono fun n hn rest _ => ?_))
  simp [readAtom, hn rest]

theorem negated (h : PhraseReads s p) : AtomReads ('(' :: '-' :: (s ++ [')'])) (.negated p) := by
  obtain ⟨q, hq, hunsigned⟩ := h.minus
  refine of_readParenthesis (eventually_of_succ (hq.reads.mono fun n hn rest => ?_))
  have hread := hn (')' :: rest) rfl
  simp only [List.cons_append, List.append_assoc, List.nil_append] at hread ⊢
  simp [readParenthesis, hread, hunsigned]

theorem negation (h : PhraseReads s p) :
    AtomReads ('(' :: 'n' :: 'o' :: 't' :: ' ' :: (s ++ [')'])) (.negation p) := by
  have hnot : IsWord ['n', 'o', 't'] := isWord_of_isWellFormed rfl
  refine of_readParenthesis (eventually_of_succ
    (((PhraseReads.atom (word hnot)).reads.and h.reads).mono fun n ⟨hn, hn'⟩ rest => ?_))
  have hword := hn (' ' :: (s ++ ')' :: rest)) rfl
  have hread := hn' (')' :: rest) rfl
  simp only [List.cons_append, List.append_assoc, List.nil_append] at hword hread ⊢
  simp [readParenthesis, hword, hread, Phrase.isNot]

theorem operation (op : BinaryOp) (hnot : p.isNot = false) (h : PhraseReads s p)
    (h' : PhraseReads s' q) :
    AtomReads ('(' :: (s ++ ' ' :: (op.symbol.toList ++ ' ' :: (s' ++ [')']))))
      (.operation op p q) := by
  refine of_readParenthesis
    (eventually_of_succ ((h.reads.and h'.reads).mono fun n ⟨hn, hn'⟩ rest => ?_))
  have hleft := hn (' ' :: (op.symbol.toList ++ ' ' :: (s' ++ ')' :: rest))) rfl
  have hright := hn' (')' :: rest) rfl
  have hsymbol := lexable_symbol op (' ' :: (s' ++ ')' :: rest)) rfl
  simp only [List.cons_append, List.append_assoc, List.nil_append]
  simp [readParenthesis, hleft, hnot, hsymbol, operationOf?_symbol, hright]

/-! ### Brackets and braces -/

theorem of_readBracket
    (h : ∀ᶠ n in atTop, ∀ rest, readBracket n (s ++ rest) = some (p, rest)) :
    AtomReads ('[' :: s) p := by
  refine of_readAtom (by decide) rfl (eventually_of_succ (h.mono fun n hn rest _ => ?_))
  simp [readAtom, hn rest]

theorem list {texts : List (List Char)} {items : List Item}
    (h : List.Forall₂ ItemReads texts items) :
    AtomReads ('[' :: (joined texts ++ [']'])) (.list items) := by
  refine of_readBracket (eventually_of_succ ((ItemReads.all h).mono fun n hn rest => ?_))
  have hitems := hn (']' :: rest) ⟨rfl, rfl⟩ rfl
  simp [readBracket, hitems]

theorem generated {texts : List (List Char)} {heads : List Item} (hbody : PhraseReads s p)
    (h : List.Forall₂ ItemReads texts heads) :
    AtomReads ('[' :: (s ++ ' ' :: '|' :: ' ' :: (joined texts ++ [']'])))
      (.generated p heads) := by
  have hitem := ItemReads.all (.cons hbody.item .nil)
  refine of_readBracket (eventually_of_succ
    ((hitem.and (ItemReads.all h)).mono fun n ⟨hn, hn'⟩ rest => ?_))
  have hread := hn (' ' :: '|' :: ' ' :: (joined texts ++ ']' :: rest)) ⟨rfl, rfl⟩ rfl
  have hheads := hn' (']' :: rest) ⟨rfl, rfl⟩ rfl
  simp only [joined, List.intercalate_singleton] at hread hheads ⊢
  simp [readBracket, hread, hheads]

theorem set {texts : List (List Char)} {items : List Item}
    (h : List.Forall₂ ItemReads texts items) :
    AtomReads ('\x7b' :: (joined texts ++ ['\x7d'])) (.set items) := by
  refine of_readAtom (by decide) rfl
    (eventually_of_succ ((ItemReads.all h).mono fun n hn rest _ => ?_))
  have hitems := hn ('\x7d' :: rest) ⟨rfl, rfl⟩ rfl
  simp [readAtom, hitems]

end AtomReads

/-- A text reads as one phrase only. -/
theorem PhraseReads.unique {s : List Char} {p q : Phrase} (hp : PhraseReads s p)
    (hq : PhraseReads s q) : p = q := by
  obtain ⟨n, hp, hq⟩ := (hp.reads.and hq.reads).exists
  have h := (hp [] rfl).symm.trans (hq [] rfl)
  simpa using h

end ConstraintModel.Source
