import ConstraintModel.Proofs.Lexeme

/-!
# Marks

What the words of a text show of what a source uses: calls, the type of floats, float literals and
inclusions. Marks are read off the characters alone. A text that is put together from others shows
what they show, as long as no word goes on across the seams.
-/

namespace ConstraintModel.Source

/-- Something that a word shows where it stands. -/
inductive Mark
  /-- A word with a parenthesis right after it. -/
  | call (name : String)
  /-- The word of the type of floats. -/
  | floatType
  /-- A word that begins with a digit and has other characters in it, or decimals after it. -/
  | floatLiteral
  /-- The word in front of a file that is included. -/
  | inclusion
  deriving DecidableEq

def isWordChar (c : Char) : Bool :=
  c.isAlphanum || c == '_'

/-- Whether a point and a digit are next. -/
def decimalsFollow : List Char → Bool
  | c :: s => c == '.' && s.head?.any Char.isDigit
  | [] => false

/-- What a word shows in front of a text; nothing if no word is there. -/
def wordMarks (w rest : List Char) : List Mark :=
  (if w ≠ [] ∧ rest.head? = some '(' then [.call (String.ofList w)] else []) ++
    (if w = "float".toList then [.floatType] else []) ++
    (if w = "include".toList then [.inclusion] else []) ++
    if w.head?.any Char.isDigit && (!w.all Char.isDigit || decimalsFollow rest) then [.floatLiteral]
    else []

/-- What the words of a text show, where `w` has been read of the first one. -/
def scanMarks (w : List Char) : List Char → List Mark
  | [] => wordMarks w []
  | c :: s => if isWordChar c then scanMarks (w ++ [c]) s else wordMarks w (c :: s) ++ scanMarks [] s

/-- What the words of a text show, in order and with repetitions. -/
def marks (s : List Char) : List Mark :=
  scanMarks [] s

/-! ## Seams -/

/-- Whether a word in front of the text ends there and is neither called nor given decimals. -/
def stops : List Char → Bool
  | [] => true
  | c :: s => !isWordChar c && c != '(' && !decimalsFollow (c :: s)

theorem wordMarks_nil (rest : List Char) : wordMarks [] rest = [] := by
  simp [wordMarks]

theorem wordMarks_of_stops {w rest : List Char} (h : stops rest = true) :
    wordMarks w rest = wordMarks w [] := by
  cases rest with
  | nil => rfl
  | cons c s =>
      simp only [stops, Bool.and_eq_true, Bool.not_eq_true', bne_iff_ne] at h
      have hcall : ¬ (w ≠ [] ∧ (c :: s).head? = some '(') :=
        fun hw => h.1.2 (Option.some.inj hw.2)
      have hnone : ¬ (w ≠ [] ∧ ([] : List Char).head? = some '(') := by simp
      have hdecimals : decimalsFollow [] = false := rfl
      rw [wordMarks, wordMarks, if_neg hcall, if_neg hnone, h.2, hdecimals]

theorem marks_cons {c : Char} (h : isWordChar c = false) (s : List Char) :
    marks (c :: s) = marks s := by
  simp [marks, scanMarks, h, wordMarks_nil]

/-- Where a text stops the words before it, it adds its own marks. -/
theorem scanMarks_append {w a b : List Char} (h : stops b = true) :
    scanMarks w (a ++ b) = scanMarks w a ++ marks b := by
  induction a generalizing w with
  | nil =>
      cases b with
      | nil => simp [scanMarks, marks, wordMarks_nil]
      | cons c s =>
          have hword : isWordChar c = false := by
            simp only [stops, Bool.and_eq_true, Bool.not_eq_true'] at h
            exact h.1.1
          simp [scanMarks, marks, hword, wordMarks_nil, wordMarks_of_stops h]
  | cons d a ih =>
      have hdecimals : decimalsFollow (d :: (a ++ b)) = decimalsFollow (d :: a) := by
        cases a with
        | cons _ _ => rfl
        | nil =>
            cases b with
            | nil => rfl
            | cons c s =>
                simp only [stops, isWordChar, Char.isAlphanum, Bool.and_eq_true,
                  Bool.not_eq_true', Bool.or_eq_false_iff] at h
                simp [decimalsFollow, h.1.1.1.2]
      have hmarks : wordMarks w (d :: (a ++ b)) = wordMarks w (d :: a) := by
        rw [wordMarks, hdecimals]
        rfl
      rw [List.cons_append, scanMarks, scanMarks]
      split_ifs with hword
      · exact ih
      · rw [hmarks, ih, List.append_assoc]

theorem marks_append {a b : List Char} (h : stops b = true) :
    marks (a ++ b) = marks a ++ marks b :=
  scanMarks_append h

-- A float with an exponent is seen at its point and again at its exponent.
example : marks "abs(x) in 1.5e-7..float".toList =
    [.call "abs", .floatLiteral, .floatLiteral, .floatType] := by
  decide

/-- Texts with a separator between them show what they show alone. -/
theorem mem_marks_intercalate {sep : List Char} (hstops : ∀ s, stops (sep ++ s) = true)
    (hsep : ∀ s, marks (sep ++ s) = marks s) {ss : List (List Char)} {m : Mark} :
    m ∈ marks (sep.intercalate ss) ↔ ∃ s ∈ ss, m ∈ marks s := by
  induction ss with
  | nil => simp [marks, scanMarks, wordMarks_nil]
  | cons s ss ih =>
      cases ss with
      | nil => simp
      | cons s' ss =>
          rw [List.intercalate_cons_cons, List.append_assoc, marks_append (hstops _), hsep,
            List.mem_append, ih]
          simp

/-! ## Words -/

theorem scanMarks_word {w v rest : List Char} (hv : ∀ c ∈ v, isWordChar c = true) :
    scanMarks w (v ++ rest) = scanMarks (w ++ v) rest := by
  induction v generalizing w with
  | nil => simp
  | cons c v ih =>
      obtain ⟨hc, hv⟩ := List.forall_mem_cons.1 hv
      rw [List.cons_append, scanMarks, if_pos hc, ih hv, List.append_assoc]
      rfl

/-- A word at the front of a text shows its marks. -/
theorem marks_word {w : List Char} (hw : ∀ c ∈ w, isWordChar c = true) (rest : List Char)
    (hrest : rest.head?.any isWordChar = false) :
    marks (w ++ rest) = wordMarks w rest ++ marks rest := by
  rw [marks, scanMarks_word hw, List.nil_append]
  cases rest with
  | nil => simp [scanMarks, marks, wordMarks_nil]
  | cons c s =>
      have hc : isWordChar c = false := by simpa using hrest
      rw [scanMarks, hc, marks_cons hc]
      rfl

/-- A word that begins with a letter and is none of those that are looked for shows a call or
nothing. -/
theorem wordMarks_of_isWellFormed {w : String} (hw : Identifier.isWellFormed w.toList = true)
    (hfloat : w ≠ "float") (hinclude : w ≠ "include") (rest : List Char) :
    wordMarks w.toList rest = if rest.head? = some '(' then [.call w] else [] := by
  obtain ⟨c, cs, hword⟩ : ∃ c cs, w.toList = c :: cs := by
    cases hlist : w.toList with
    | nil => simp [hlist, Identifier.isWellFormed] at hw
    | cons c cs => exact ⟨c, cs, rfl⟩
  have hdigit : c.isDigit = false := by
    rw [hword, Identifier.isWellFormed, Bool.and_eq_true] at hw
    by_contra hc
    rw [not_isAlpha_of_isDigit (by simpa using hc)] at hw
    exact Bool.false_ne_true hw.1
  have hnonempty : w.toList ≠ [] := by simp [hword]
  have hnumeral : w.toList.head?.any Char.isDigit = false := by simp [hword, hdigit]
  simp only [wordMarks, String.ofList_toList, String.toList_inj, if_neg hfloat, if_neg hinclude,
    hnumeral, Bool.false_and, hnonempty, ne_eq, not_false_eq_true, true_and, List.append_nil,
    Bool.false_eq_true, if_false]

theorem isWordChar_of_isWellFormed {w : List Char} (hw : Identifier.isWellFormed w = true) :
    ∀ c ∈ w, isWordChar c = true := by
  cases w with
  | nil => simp
  | cons c cs =>
      rw [Identifier.isWellFormed, Bool.and_eq_true, List.all_eq_true] at hw
      refine List.forall_mem_cons.2 ⟨?_, hw.2⟩
      simp [isWordChar, Char.isAlphanum, hw.1]

/-- The name of a function in front of its arguments is called. -/
theorem marks_call {f : String} (hf : Identifier.isWellFormed f.toList = true)
    (hfloat : f ≠ "float") (hinclude : f ≠ "include") (s : List Char) :
    marks (f.toList ++ '(' :: s) = .call f :: marks s := by
  rw [marks_word (isWordChar_of_isWellFormed hf) _ rfl, marks_cons rfl,
    wordMarks_of_isWellFormed hf hfloat hinclude]
  rfl

theorem marks_of_isWellFormed {w : String} (hw : Identifier.isWellFormed w.toList = true)
    (hfloat : w ≠ "float") (hinclude : w ≠ "include") : marks w.toList = [] := by
  have hmarks := marks_word (isWordChar_of_isWellFormed hw) [] rfl
  rw [List.append_nil, wordMarks_of_isWellFormed hw hfloat hinclude] at hmarks
  exact hmarks

/-- Identifiers show nothing, since the words that are looked for are reserved. -/
theorem marks_identifier {w : String} (h : Identifier.require w = .ok ()) : marks w.toList = [] := by
  obtain ⟨hw, hreserved⟩ := require_eq_ok.1 h
  refine marks_of_isWellFormed hw ?_ ?_
  · rintro rfl
    exact hreserved (by decide)
  · rintro rfl
    exact hreserved (by decide)

/-! ## Numbers -/

theorem isWordChar_of_isDigit {c : Char} (h : c.isDigit = true) : isWordChar c = true := by
  simp [isWordChar, Char.isAlphanum, h]

/-- A word that begins with a digit is neither the type of floats nor an inclusion. -/
theorem wordMarks_of_isDigit {c : Char} {w rest : List Char} (hc : c.isDigit = true)
    (hrest : rest.head? ≠ some '(') :
    wordMarks (c :: w) rest =
      if !(c :: w).all Char.isDigit || decimalsFollow rest then [.floatLiteral] else [] := by
  have hword {v : List Char} (hv : v.head?.any Char.isDigit = false) : c :: w ≠ v := by
    rintro rfl
    simp [hc] at hv
  rw [wordMarks, if_neg (fun h => hrest h.2), if_neg (hword (by decide)),
    if_neg (hword (by decide))]
  simp only [List.head?_cons, Option.any_some, hc, Bool.true_and, List.nil_append]

theorem marks_digits {ds : List Char} (h : ∀ d ∈ ds, d.isDigit = true) : marks ds = [] := by
  cases ds with
  | nil => rfl
  | cons d ds =>
      have hmarks := marks_word (fun c hc => isWordChar_of_isDigit (h c hc)) [] rfl
      rw [List.append_nil, wordMarks_of_isDigit (h d List.mem_cons_self) (by simp)] at hmarks
      have hall : (d :: ds).all Char.isDigit = true := List.all_eq_true.2 h
      rw [hmarks, hall]
      rfl

theorem marks_int (v : Int) : marks (toString v).toList = [] := by
  cases v with
  | ofNat n => exact marks_digits fun _ => isDigit_of_mem_toString
  | negSucc n =>
      have htext : (toString (Int.negSucc n)).toList = '-' :: (toString n.succ).toList :=
        String.toList_append
      rw [htext, marks_cons (by decide)]
      exact marks_digits fun _ => isDigit_of_mem_toString

/-- Digits with decimals after them are a float. -/
theorem marks_point {ds : List Char} {d : Char} (hne : ds ≠ [])
    (hds : ∀ c ∈ ds, c.isDigit = true) (hd : d.isDigit = true) (es : List Char) :
    marks (ds ++ '.' :: d :: es) = .floatLiteral :: marks (d :: es) := by
  obtain ⟨c, cs, rfl⟩ := List.exists_cons_of_ne_nil hne
  rw [marks_word (fun c hc => isWordChar_of_isDigit (hds c hc)) _ rfl, marks_cons (by decide),
    wordMarks_of_isDigit (hds c List.mem_cons_self) (by simp)]
  simp [decimalsFollow, hd]

/-- Digits with an exponent after them are a float. -/
theorem marks_exponent {ds ks sign : List Char} (hne : ds ≠ []) (hds : ∀ c ∈ ds, c.isDigit = true)
    (hks : ∀ c ∈ ks, c.isDigit = true) (hsign : sign = ['-'] ∨ sign = []) :
    marks (ds ++ 'e' :: (sign ++ ks)) = [.floatLiteral] := by
  obtain ⟨c, cs, rfl⟩ := List.exists_cons_of_ne_nil hne
  -- A sign ends the word, and the digits after it show nothing.
  have hword (vs rest : List Char) (hvs : ∀ c ∈ vs, c.isDigit = true)
      (hrest : rest.head?.any isWordChar = false) (hcall : rest.head? ≠ some '(') :
      marks (c :: (cs ++ 'e' :: vs) ++ rest) = .floatLiteral :: marks rest := by
    have hchars : ∀ d ∈ c :: (cs ++ 'e' :: vs), isWordChar d = true := by
      intro d hd
      rw [← List.cons_append, List.mem_append, List.mem_cons (a := d) (b := 'e')] at hd
      rcases hd with hd | he | hd
      · exact isWordChar_of_isDigit (hds d hd)
      · rw [he]
        decide
      · exact isWordChar_of_isDigit (hvs d hd)
    have hall : (c :: (cs ++ 'e' :: vs)).all Char.isDigit = false := by
      rw [List.all_eq_false]
      exact ⟨'e', by simp, by decide⟩
    rw [marks_word hchars _ hrest, wordMarks_of_isDigit (hds c List.mem_cons_self) hcall, hall]
    rfl
  rcases hsign with rfl | rfl
  · have hmarks := hword [] ('-' :: ks) (by simp) rfl (by simp)
    rw [marks_cons (by decide), marks_digits hks] at hmarks
    simpa using hmarks
  · simpa [marks, scanMarks, wordMarks_nil] using hword ks [] hks rfl (by simp)

/-- A float shows that it is one and nothing else. -/
theorem mem_marks_float {x : Float} (hx : x.isFinite = true) {m : Mark} :
    m ∈ marks (Literal.floatLayout.write x).toList ↔ m = .floatLiteral := by
  have hpositional (d : Decimal.Digits) : m ∈ marks (Decimal.positional d) ↔ m = .floatLiteral := by
    obtain ⟨ds, es, heq, hds, hes, hdigits, hdecimals⟩ := positional_digits d
    obtain ⟨e, es, rfl⟩ := List.exists_cons_of_ne_nil hes
    rw [heq, marks_point hds hdigits (hdecimals e List.mem_cons_self), marks_digits hdecimals,
      List.mem_singleton]
  have hscientific (d : Decimal.Digits) :
      m ∈ marks (Decimal.scientific false d) ↔ m = .floatLiteral := by
    obtain ⟨c, es, sign, ks, heq, hc, hes, hsign, hks⟩ := scientific_digits d
    have hlead : ∀ d ∈ [c], d.isDigit = true := List.forall_mem_singleton.2 hc
    rw [heq]
    cases es with
    | nil =>
        have hmarks := marks_exponent (List.cons_ne_nil c []) hlead hks hsign
        rw [List.cons_append, List.nil_append] at hmarks
        rw [if_pos rfl, List.nil_append, hmarks, List.mem_singleton]
    | cons e es =>
        -- The decimals show the float again, since an exponent follows them.
        have hmarks := marks_point (List.cons_ne_nil c []) hlead (hes e List.mem_cons_self)
          (es ++ 'e' :: (sign ++ ks))
        have hdecimals := marks_exponent (List.cons_ne_nil e es) hes hks hsign
        rw [List.cons_append] at hdecimals
        rw [hdecimals, List.cons_append, List.nil_append] at hmarks
        rw [if_neg (List.cons_ne_nil e es), List.cons_append, List.cons_append, hmarks]
        simp
  obtain ⟨sign, d, s, heq, hsign, hs⟩ := write_float_eq hx
  have hmarks : marks (sign ++ s) = marks s := by
    rcases hsign with rfl | rfl
    · exact marks_cons (by decide) s
    · rfl
  rw [heq, hmarks]
  rcases hs with rfl | rfl
  · exact hpositional d
  · exact hscientific d

end ConstraintModel.Source
