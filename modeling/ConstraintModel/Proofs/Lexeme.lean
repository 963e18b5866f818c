import ConstraintModel.Proofs.Partial
import ConstraintModel.Proofs.Scope
import Std.Data.String.ToInt

/-!
# Words in a text

Where a word of the source ends, and that identifiers, iterators, functions and numbers are words
that are read whole. A number begins with a digit, after its sign, and an identifier does not; an
integer has nothing but digits and a float has more.
-/

namespace ConstraintModel.Source

/-! ## Words -/

/-- The characters that stand between words. -/
def separators : List Char :=
  [' ', ',', '(', ')', '[', ']', '{', '}']

/-- Whether no word goes on here. A point belongs to a word if a digit follows it. -/
def wordEnds : List Char → Bool
  | [] => true
  | c :: s => separators.contains c || (c == '.' && !s.head?.any Char.isDigit)

/-- The word at the front of a text, and what follows it. -/
def lexeme : List Char → List Char × List Char
  | [] => ([], [])
  | c :: s => if wordEnds (c :: s) then ([], c :: s) else (c :: (lexeme s).1, (lexeme s).2)

/-- Whether a text is read as one word. -/
def Lexable (w : List Char) : Prop :=
  ∀ rest, wordEnds rest → lexeme (w ++ rest) = (w, rest)

/-- A character that belongs to a word wherever it stands. -/
def isPlain (c : Char) : Bool :=
  !separators.contains c && c != '.'

theorem isPlain_of_isAlphanum {c : Char} (h : c.isAlphanum = true) : isPlain c = true := by
  rw [isPlain, Bool.and_eq_true, Bool.not_eq_true', ← Bool.not_eq_true, List.contains_iff_mem,
    bne_iff_ne]
  constructor
  · intro hc
    simp only [separators, List.mem_cons, List.not_mem_nil, or_false] at hc
    rcases hc with rfl | rfl | rfl | rfl | rfl | rfl | rfl | rfl <;> revert h <;> decide
  · rintro rfl
    revert h
    decide

theorem isPlain_of_isDigit {c : Char} (h : c.isDigit = true) : isPlain c = true :=
  isPlain_of_isAlphanum (by simp [Char.isAlphanum, h])

namespace Lexable

theorem nil : Lexable [] := by
  intro rest hrest
  cases rest with
  | nil => rfl
  | cons c s => simp [lexeme, hrest]

theorem cons {c : Char} {w : List Char} (hc : isPlain c = true) (hw : Lexable w) :
    Lexable (c :: w) := by
  intro rest hrest
  rw [isPlain, Bool.and_eq_true, Bool.not_eq_true', bne_iff_ne] at hc
  have hends : wordEnds (c :: (w ++ rest)) = false := by
    simpa [wordEnds, hc.2] using hc.1
  rw [List.cons_append, lexeme, hends, hw rest hrest]
  rfl

theorem append {ds w : List Char} (hds : ∀ c ∈ ds, isPlain c = true) (hw : Lexable w) :
    Lexable (ds ++ w) := by
  induction ds with
  | nil => exact hw
  | cons c ds ih =>
      obtain ⟨hc, hds⟩ := List.forall_mem_cons.1 hds
      exact (ih hds).cons hc

theorem plain {w : List Char} (h : ∀ c ∈ w, isPlain c = true) : Lexable w := by
  simpa using append h nil

/-- A point and digits after it. -/
theorem point {d : Char} {w : List Char} (hd : d.isDigit = true) (hw : Lexable (d :: w)) :
    Lexable ('.' :: d :: w) := by
  intro rest hrest
  have hends : wordEnds ('.' :: d :: (w ++ rest)) = false := by
    simp [wordEnds, hd, separators]
  have h := hw rest hrest
  rw [List.cons_append] at h
  rw [List.cons_append, List.cons_append, lexeme, hends, h]
  rfl

end Lexable

/-! ## Identifiers -/

theorem require_eq_ok {w : String} : Identifier.require w = .ok () ↔
    Identifier.isWellFormed w.toList = true ∧ w ∉ Identifier.reserved := by
  unfold Identifier.require
  by_cases hformed : Identifier.isWellFormed w.toList = true
  · by_cases hreserved : w ∈ Identifier.reserved
    · simp [hformed, hreserved, throw_ne_ok]
    · simp [hformed, hreserved, pure_eq_ok]
  · simp [hformed, bind_eq_ok, throw_ne_ok]

theorem require_of_requireAll {x : Enumeration} (h : Identifier.requireAll x = .ok ()) :
    ∀ w ∈ x.name :: x.variants, Identifier.require w = .ok () := by
  simp only [Identifier.requireAll, bind_eq_ok, forM_eq_ok] at h
  obtain ⟨⟨⟩, hname, hvariants⟩ := h
  exact List.forall_mem_cons.2 ⟨hname, hvariants⟩

/-- A text that is read as one word and begins with a letter or a digit. -/
inductive IsWord : List Char → Prop
  | mk {c w} : c.isAlphanum = true → Lexable (c :: w) → IsWord (c :: w)

theorem IsWord.of_isDigit {c : Char} {w : List Char} (hc : c.isDigit = true)
    (hlex : Lexable (c :: w)) : IsWord (c :: w) :=
  ⟨by simp [Char.isAlphanum, hc], hlex⟩

theorem isWord_of_isWellFormed {w : List Char} (h : Identifier.isWellFormed w = true) :
    IsWord w := by
  cases w with
  | nil => cases h
  | cons c cs =>
      rw [Identifier.isWellFormed, Bool.and_eq_true, List.all_eq_true] at h
      obtain ⟨hc, hcs⟩ := h
      have hc : c.isAlphanum = true := by simp [Char.isAlphanum, hc]
      refine ⟨hc, .plain (List.forall_mem_cons.2 ⟨isPlain_of_isAlphanum hc, fun d hd => ?_⟩)⟩
      rcases Bool.or_eq_true_iff.1 (hcs d hd) with hd | hd
      · exact isPlain_of_isAlphanum hd
      · rw [beq_iff_eq.1 hd]
        rfl

/-! ## Iterators -/

theorem isDigit_of_mem_toString {n : Nat} {c : Char} (h : c ∈ (toString n).toList) :
    c.isDigit = true := by
  rw [show toString n = n.repr from rfl, Nat.toList_repr] at h
  exact Nat.isDigit_of_mem_toDigits (by decide) (by decide) h

theorem iteratorWord_chars (depth : Nat) : ∃ c ds, (iteratorWord depth).toList = c :: ds ∧
    c.isAlpha = true ∧ ∀ d ∈ ds, d.isDigit = true := by
  unfold iteratorWord
  match depth with
  | 0 | 1 | 2 | 3 | 4 | 5 => exact ⟨_, [], rfl, by decide, by simp⟩
  | n + 6 => exact ⟨'i', (toString (n + 6)).toList, by simp, by decide,
      fun d hd => isDigit_of_mem_toString hd⟩

/-- Words with no letter after their first are not reserved. -/
theorem not_mem_reserved {w : String} (h : w.toList.tail.any Char.isAlpha = false) :
    w ∉ Identifier.reserved := by
  have hreserved : ∀ r ∈ Identifier.reserved, r.toList.tail.any Char.isAlpha = true := by
    decide
  intro hw
  rw [hreserved w hw] at h
  cases h

theorem not_isAlpha_of_isDigit {c : Char} (h : c.isDigit = true) : c.isAlpha = false := by
  have hdigit : 48 ≤ c.val ∧ c.val ≤ 57 := by simpa [Char.isDigit] using h
  have hupper : c.isUpper = decide (c.val ≥ 65 ∧ c.val ≤ 90) := rfl
  have hlower : c.isLower = (decide (c.val ≥ 97) && decide (c.val ≤ 122)) := rfl
  have halpha : c.isAlpha = (c.isUpper || c.isLower) := rfl
  rw [halpha, hupper, hlower]
  grind

/-- The word of an iterator is a letter with digits and underscores after it. -/
theorem nextIterator_chars (v : Vocabulary) (scope : Scope) :
    ∃ c ds, (v.nextIterator scope).toList = c :: ds ∧ c.isAlpha = true ∧
      ∀ d ∈ ds, d.isDigit = true ∨ d = '_' := by
  obtain ⟨c, ds, hword, hc, hds⟩ := iteratorWord_chars scope.length
  obtain ⟨k, hk⟩ : ∃ k, (v.nextIterator scope).toList = c :: (ds ++ List.replicate k '_') :=
    ⟨_, by rw [Vocabulary.nextIterator, freeWord, underscored, String.toList_append, hword,
      String.toList_ofList]; rfl⟩
  refine ⟨c, _, hk, hc, fun d hd => ?_⟩
  exact (List.mem_append.1 hd).imp (hds d) List.eq_of_mem_replicate

theorem nextIterator_tail (v : Vocabulary) (scope : Scope) :
    (v.nextIterator scope).toList.tail.any Char.isAlpha = false := by
  obtain ⟨c, ds, hword, -, htail⟩ := nextIterator_chars v scope
  rw [hword, List.tail_cons, List.any_eq_false]
  intro d hd
  rcases htail d hd with hd | rfl
  · simp [not_isAlpha_of_isDigit hd]
  · decide

/-- The word of an iterator is a valid identifier. -/
theorem nextIterator_valid (v : Vocabulary) (scope : Scope) :
    Identifier.require (v.nextIterator scope) = .ok () := by
  obtain ⟨c, ds, hword, hc, htail⟩ := nextIterator_chars v scope
  refine require_eq_ok.2 ⟨?_, not_mem_reserved (nextIterator_tail v scope)⟩
  rw [hword, Identifier.isWellFormed, hc, Bool.true_and, List.all_eq_true]
  intro d hd
  rcases htail d hd with hd | rfl
  · simp [Char.isAlphanum, hd]
  · rfl

/-! ## Functions -/

theorem isWellFormed_append {a b : String} (ha : Identifier.isWellFormed a.toList = true)
    (hb : b.toList.all (fun d => d.isAlphanum || d == '_') = true) :
    Identifier.isWellFormed (a ++ b).toList = true := by
  rw [String.toList_append]
  cases h : a.toList with
  | nil => simp [h, Identifier.isWellFormed] at ha
  | cons c cs =>
      rw [h, Identifier.isWellFormed, Bool.and_eq_true] at ha
      rw [List.cons_append, Identifier.isWellFormed, List.all_append, ha.1, ha.2, hb]
      rfl

theorem all_toString (n : Nat) :
    (toString n).toList.all (fun d => d.isAlphanum || d == '_') = true := by
  rw [List.all_eq_true]
  intro d hd
  simp [Char.isAlphanum, isDigit_of_mem_toString hd]

theorem indexSet_begins (dim rank : Nat) :
    "index_set".toList <+: (Function.indexSet dim rank).name.toList := by
  rw [Function.name]
  split_ifs
  · simp only [String.toList_append, List.append_assoc]
    exact List.prefix_append _ _
  · exact List.prefix_rfl

/-- The names of functions are well-formed words. -/
theorem isWellFormed_function (f : Function) :
    Identifier.isWellFormed f.name.toList = true := by
  cases f with
  | power | last => rfl
  | aggregate op => cases op <;> rfl
  | global kind => cases kind <;> rfl
  | indexSet dim rank =>
      rw [Function.name]
      split_ifs
      · refine isWellFormed_append (isWellFormed_append (isWellFormed_append rfl ?_) rfl) ?_
        · exact all_toString dim
        · exact all_toString rank
      · rfl
  | slice rank => exact isWellFormed_append (isWellFormed_append rfl (all_toString rank)) rfl
  | reshape rank => exact isWellFormed_append (isWellFormed_append rfl (all_toString rank)) rfl

theorem isWord_function (f : Function) : IsWord f.name.toList :=
  isWord_of_isWellFormed (isWellFormed_function f)

/-! ## Numbers -/

/-- The text of a number: a word that begins with a digit, maybe behind a sign. -/
inductive IsNumeral : List Char → Prop
  | unsigned {c w} : c.isDigit = true → Lexable (c :: w) → IsNumeral (c :: w)
  | signed {c w} : c.isDigit = true → Lexable (c :: w) → IsNumeral ('-' :: c :: w)

/-- Whether a text has nothing but digits and signs. -/
def isIntegral (s : List Char) : Bool :=
  s.all fun c => c.isDigit || c == '-'

theorem digits_eq_cons (n : Nat) : ∃ c cs, Nat.toDigits 10 n = c :: cs ∧
    ∀ d ∈ Nat.toDigits 10 n, d.isDigit = true := by
  obtain ⟨c, cs, h⟩ := List.exists_cons_of_ne_nil (Nat.toDigits_ne_nil (b := 10) (n := n))
  exact ⟨c, cs, h, fun d hd => Nat.isDigit_of_mem_toDigits (by decide) (by decide) hd⟩

theorem lexable_of_isDigit {ds : List Char} (h : ∀ d ∈ ds, d.isDigit = true) : Lexable ds :=
  .plain fun d hd => isPlain_of_isDigit (h d hd)

theorem toString_int_numeral (v : Int) :
    IsNumeral (toString v).toList ∧ isIntegral (toString v).toList = true := by
  have hdigits (n : Nat) : ∃ c cs, n.repr.toList = c :: cs ∧ c.isDigit = true ∧
      Lexable (c :: cs) ∧ isIntegral n.repr.toList = true := by
    obtain ⟨c, cs, hcs, hall⟩ := digits_eq_cons n
    rw [Nat.toList_repr]
    refine ⟨c, cs, hcs, hall c (by simp [hcs]), hcs ▸ lexable_of_isDigit hall, ?_⟩
    simp only [isIntegral, List.all_eq_true, Bool.or_eq_true]
    exact fun d hd => .inl (hall d hd)
  cases v with
  | ofNat n =>
      obtain ⟨c, cs, hcs, hc, hlex, hint⟩ := hdigits n
      have htext : (toString (Int.ofNat n)).toList = n.repr.toList := rfl
      rw [htext]
      exact ⟨hcs ▸ .unsigned hc hlex, hint⟩
  | negSucc n =>
      obtain ⟨c, cs, hcs, hc, hlex, hint⟩ := hdigits n.succ
      have htext : (toString (Int.negSucc n)).toList = '-' :: n.succ.repr.toList :=
        String.toList_append
      rw [htext]
      refine ⟨hcs ▸ .signed hc hlex, ?_⟩
      rw [isIntegral, List.all_cons]
      exact hint

/-- The digits of a float: a digit leads, and a point or an exponent follows. -/
structure IsDecimal (s : List Char) : Prop where
  digit : ∃ c w, s = c :: w ∧ c.isDigit = true
  lexable : Lexable s
  not_integral : isIntegral s = false

theorem not_isIntegral {s : List Char} {c : Char} (hc : c ∈ s) (hdigit : c.isDigit = false)
    (hsign : c ≠ '-') : isIntegral s = false := by
  rw [isIntegral, List.all_eq_false]
  exact ⟨c, hc, by simp [hdigit, hsign]⟩

/-- Digits, a point, and digits again. -/
theorem isDecimal_point {ds es : List Char} (hds : ds ≠ []) (hes : es ≠ [])
    (hdigits : ∀ d ∈ ds, d.isDigit = true) (hdecimals : ∀ d ∈ es, d.isDigit = true) :
    IsDecimal (ds ++ '.' :: es) := by
  obtain ⟨c, cs, rfl⟩ := List.exists_cons_of_ne_nil hds
  obtain ⟨d, es, rfl⟩ := List.exists_cons_of_ne_nil hes
  refine ⟨⟨c, _, rfl, hdigits c (by simp)⟩, ?_, not_isIntegral (c := '.') (by simp) rfl (by decide)⟩
  refine .append (fun d hd => isPlain_of_isDigit (hdigits d hd)) ?_
  exact .point (hdecimals d (by simp)) (lexable_of_isDigit hdecimals)

/-- Positional notation is digits, a point, and digits again. -/
theorem positional_digits (d : Decimal.Digits) : ∃ ds es, Decimal.positional d = ds ++ '.' :: es ∧
    ds ≠ [] ∧ es ≠ [] ∧ (∀ c ∈ ds, c.isDigit = true) ∧ ∀ c ∈ es, c.isDigit = true := by
  obtain ⟨c, cs, hcs, hall⟩ := digits_eq_cons d.significand
  unfold Decimal.positional Decimal.digits
  simp only
  split_ifs with hexp
  · refine ⟨_, ['0'], rfl, by simp [hcs], List.cons_ne_nil _ _, ?_, List.all_eq_true.1 rfl⟩
    intro e he
    rcases List.mem_append.1 he with he | he
    · exact hall e he
    · rw [List.eq_of_mem_replicate he]
      rfl
  · generalize hpad : List.replicate _ '0' ++ Nat.toDigits 10 d.significand = padded
    have hpadded : ∀ e ∈ padded, e.isDigit = true := by
      intro e he
      rw [← hpad] at he
      rcases List.mem_append.1 he with he | he
      · rw [List.eq_of_mem_replicate he]
        rfl
      · exact hall e he
    have hlength : (-d.exponent).toNat + 1 ≤ padded.length := by
      rw [← hpad, List.length_append, List.length_replicate]
      omega
    refine ⟨_, _, rfl, ?_, ?_, fun e he => hpadded e (List.mem_of_mem_take he),
      fun e he => hpadded e (List.mem_of_mem_drop he)⟩
    · rw [← List.length_pos_iff, List.length_take]
      omega
    · rw [← List.length_pos_iff, List.length_drop]
      omega

theorem positional_isDecimal (d : Decimal.Digits) : IsDecimal (Decimal.positional d) := by
  obtain ⟨ds, es, heq, hds, hes, hdigits, hdecimals⟩ := positional_digits d
  exact heq ▸ isDecimal_point hds hes hdigits hdecimals

/-- Scientific notation is a digit, decimals if there are any, and an exponent. -/
theorem scientific_digits (d : Decimal.Digits) : ∃ c es sign ks, Decimal.scientific false d =
    c :: ((if es = [] then [] else '.' :: es) ++ 'e' :: (sign ++ ks)) ∧ c.isDigit = true ∧
      (∀ e ∈ es, e.isDigit = true) ∧ (sign = ['-'] ∨ sign = []) ∧
      ∀ k ∈ ks, k.isDigit = true := by
  obtain ⟨c, es, hdigits, hall⟩ := digits_eq_cons d.significand
  rw [hdigits] at hall
  obtain ⟨hc, hes⟩ := List.forall_mem_cons.1 hall
  unfold Decimal.scientific Decimal.digits
  simp only [hdigits, Bool.false_eq_true, if_false]
  generalize d.exponent + _ = power
  obtain ⟨-, -, -, hpower⟩ := digits_eq_cons power.natAbs
  refine ⟨c, es, if power < 0 then ['-'] else [], Nat.toDigits 10 power.natAbs, ?_, hc, hes, ?_,
    hpower⟩
  · cases es <;> simp
  · split_ifs <;> simp

theorem scientific_isDecimal (d : Decimal.Digits) : IsDecimal (Decimal.scientific false d) := by
  obtain ⟨c, es, sign, ks, heq, hc, hes, hsign, hks⟩ := scientific_digits d
  have hsuffix : ∀ k ∈ 'e' :: (sign ++ ks), isPlain k = true := by
    refine List.forall_mem_cons.2 ⟨rfl, List.forall_mem_append.2 ⟨?_, fun k hk => ?_⟩⟩
    · rcases hsign with rfl | rfl <;> simp [isPlain, separators]
    · exact isPlain_of_isDigit (hks k hk)
  rw [heq]
  refine ⟨⟨c, _, rfl, hc⟩, .cons (isPlain_of_isDigit hc) ?_, not_isIntegral (c := 'e') ?_ rfl
    (by decide)⟩
  · cases es with
    | nil => exact .plain hsuffix
    | cons e es =>
        have hplain : ∀ k ∈ e :: es, isPlain k = true := fun k hk => isPlain_of_isDigit (hes k hk)
        exact .point (hes e List.mem_cons_self) (.append hplain (.plain hsuffix))
  · simp

theorem isFinite_iff {x : Float} (h : x.isFinite = true) : x.isNaN = false ∧ x.isInf = false := by
  unfold Float.isFinite Float.Model.isFinite at h
  unfold Float.isNaN Float.isInf Float.Model.isNaN Float.Model.isInf
  generalize x.toModel.unpack = u at h ⊢
  cases u with
  | notANumber | infinity => cases h
  | zero | finite => exact ⟨rfl, rfl⟩

/-- A finite float is written with a sign or without, in one of the two notations. -/
theorem write_float_eq {x : Float} (h : x.isFinite = true) : ∃ sign d s,
    (Literal.floatLayout.write x).toList = sign ++ s ∧ (sign = ['-'] ∨ sign = []) ∧
      (s = Decimal.positional d ∨ s = Decimal.scientific false d) := by
  obtain ⟨hnan, hinf⟩ := isFinite_iff h
  have harrange (d : Decimal.Digits) : Literal.floatLayout.arrange d = Decimal.positional d ∨
      Literal.floatLayout.arrange d = Decimal.scientific false d := by
    unfold Decimal.Layout.arrange
    simp only
    split_ifs
    · exact .inl rfl
    · exact .inr rfl
  unfold Decimal.Layout.write
  simp only [hnan, hinf, Bool.false_eq_true, if_false, String.toList_append, String.toList_ofList]
  exact ⟨_, _, _, rfl, by split_ifs <;> simp, harrange _⟩

theorem isFinite_of_requireFinite {x : Float} (h : (Literal.float x).requireFinite = .ok ()) :
    x.isFinite = true := by
  rw [Literal.requireFinite] at h
  split_ifs at h with hx
  exact hx

/-- The characters of finite numbers. -/
def isNumberChar (c : Char) : Bool :=
  c.isDigit || c == '-' || c == '.' || c == 'e'

theorem isNumberChar_of_isDigit {c : Char} (h : c.isDigit = true) : isNumberChar c = true := by
  simp [isNumberChar, h]

theorem write_float_chars {x : Float} (h : x.isFinite = true) :
    ∀ c ∈ (Literal.floatLayout.write x).toList, isNumberChar c = true := by
  obtain ⟨sign, d, s, heq, hsign, hs⟩ := write_float_eq h
  have hdigits {ds : List Char} (hds : ∀ c ∈ ds, c.isDigit = true) :
      ∀ c ∈ ds, isNumberChar c = true := fun c hc => isNumberChar_of_isDigit (hds c hc)
  have hminus {ks : List Char} (hks : ks = ['-'] ∨ ks = []) : ∀ c ∈ ks, isNumberChar c = true := by
    rcases hks with rfl | rfl
    · exact List.forall_mem_singleton.2 rfl
    · exact List.forall_mem_nil _
  rw [heq, List.forall_mem_append]
  refine ⟨hminus hsign, ?_⟩
  rcases hs with rfl | rfl
  · obtain ⟨ds, es, heq, -, -, hds, hes⟩ := positional_digits d
    rw [heq, List.forall_mem_append, List.forall_mem_cons]
    exact ⟨hdigits hds, rfl, hdigits hes⟩
  · obtain ⟨c, es, sign, ks, heq, hc, hes, hsign, hks⟩ := scientific_digits d
    rw [heq, List.forall_mem_cons, List.forall_mem_append, List.forall_mem_cons,
      List.forall_mem_append]
    refine ⟨isNumberChar_of_isDigit hc, ?_, rfl, hminus hsign, hdigits hks⟩
    split_ifs
    · simp
    · exact List.forall_mem_cons.2 ⟨rfl, hdigits hes⟩

/-- A finite literal that is no value of an enumeration is a number or one of two words. -/
theorem literal_chars {l : Literal} (hl : l.requireFinite = .ok ()) (hnone : l.enumerations = []) :
    l.text = "true" ∨ l.text = "false" ∨ ∀ c ∈ l.text.toList, isNumberChar c = true := by
  cases l with
  | int v =>
      refine .inr (.inr fun c hc => ?_)
      cases v with
      | ofNat n => exact isNumberChar_of_isDigit (isDigit_of_mem_toString hc)
      | negSucc n =>
          have htext : (toString (Int.negSucc n)).toList = '-' :: (toString n.succ).toList :=
            String.toList_append
          rw [Literal.text, htext] at hc
          rcases List.mem_cons.1 hc with rfl | hc
          · rfl
          · exact isNumberChar_of_isDigit (isDigit_of_mem_toString hc)
  | float x => exact .inr (.inr (write_float_chars (isFinite_of_requireFinite hl)))
  | bool b => cases b <;> simp [Literal.text]
  | enumeration v => cases hnone

theorem write_float_numeral {x : Float} (h : x.isFinite = true) :
    IsNumeral (Literal.floatLayout.write x).toList ∧
      isIntegral (Literal.floatLayout.write x).toList = false := by
  obtain ⟨sign, d, s, heq, hsign, hs⟩ := write_float_eq h
  have hdecimal : IsDecimal s := by
    rcases hs with rfl | rfl
    · exact positional_isDecimal d
    · exact scientific_isDecimal d
  obtain ⟨⟨c, w, rfl, hc⟩, hlex, hint⟩ := hdecimal
  rw [heq]
  rcases hsign with rfl | rfl
  · exact ⟨.signed hc hlex, hint⟩
  · exact ⟨.unsigned hc hlex, hint⟩

end ConstraintModel.Source
