import ConstraintModel.Proofs.Scanning

/-!
# Documents of written values

The text of a JSON value is cut into tokens one after another, and these nest as the value does, so
that the text is read as the document of the value. In it, strings are read back through their escapes
and integers through their digits. Floats are left aside, since their digits may be rounded.
-/

namespace ConstraintModel.Json

/-! ## Strings -/

/-- The characters between the quotes around a string. -/
def escaped (s : String) : List Char :=
  s.toList.flatMap escapeChar

theorem toList_quote (s : String) : (quote s).toList = '"' :: escaped s ++ ['"'] := by
  rw [quote, String.toList_ofList, escaped, List.cons_append]

/-- How a character is written between quotes: as an escape of one letter, as an escape of its code unit
if it is another control character, and else as it is. -/
theorem escapeChar_cases (c : Char) :
    (∃ d, shortEscape? d = some c ∧ d ≠ 'u' ∧ escapeChar c = ['\\', d]) ∨
      (∃ x y, codeUnit? '0' '0' x y = some c.toNat ∧ c.toNat < 32 ∧ x ≠ '"' ∧ x ≠ '\\' ∧ y ≠ '"' ∧
        y ≠ '\\' ∧ escapeChar c = ['\\', 'u', '0', '0', x, y]) ∨
      c ≠ '"' ∧ c ≠ '\\' ∧ ¬ c.toNat < 32 ∧ escapeChar c = [c] := by
  have hunits : ∀ n < 32, codeUnit? '0' '0' (hexDigit (n / 16)) (hexDigit (n % 16)) = some n ∧
      hexDigit (n / 16) ≠ '"' ∧ hexDigit (n / 16) ≠ '\\' ∧ hexDigit (n % 16) ≠ '"' ∧
        hexDigit (n % 16) ≠ '\\' := by
    decide
  unfold escapeChar
  split
  case h_8 hquote hescape _ _ _ _ _ =>
    split_ifs with hcontrol
    · obtain ⟨hunit, hx, hx', hy, hy'⟩ := hunits c.toNat hcontrol
      exact .inr (.inl ⟨_, _, hunit, hcontrol, hx, hx', hy, hy', rfl⟩)
    · exact .inr (.inr ⟨hquote, hescape, hcontrol, rfl⟩)
  all_goals exact .inl ⟨_, rfl, by decide, rfl⟩

theorem isSpelled_escapeChar (c : Char) (cs : List Char) :
    isSpelled (escapeChar c ++ cs) = isSpelled cs := by
  obtain ⟨d, hd, hu, heq⟩ | ⟨x, y, hunit, -, -, -, -, -, heq⟩ | ⟨-, hescape, hcontrol, heq⟩ :=
    escapeChar_cases c
  · rw [heq, List.cons_append, List.cons_append, List.nil_append, isSpelled]
    · simp [hd]
    · exact fun _ _ _ _ _ hletter => absurd hletter hu
  · simp [heq, isSpelled, hunit]
  · rw [heq, List.cons_append, List.nil_append, isSpelled]
    · simp [hescape, Nat.not_lt.1 hcontrol]
    · exact fun _ _ _ _ _ hletter => absurd hletter hescape
    · exact fun _ _ hletter => absurd hletter hescape

theorem unescape?_escapeChar (c : Char) (cs : List Char) :
    unescape? (escapeChar c ++ cs) = (unescape? cs).map (c :: ·) := by
  obtain ⟨d, hd, hu, heq⟩ | ⟨x, y, hunit, hcontrol, -, -, -, -, heq⟩ | ⟨-, hescape, hcontrol, heq⟩ :=
    escapeChar_cases c
  · rw [heq, List.cons_append, List.cons_append, List.nil_append, unescape?, hd]
    · cases unescape? cs <;> rfl
    · exact fun _ _ _ _ _ hletter => absurd hletter hu
  · have hlow : isLow c.toNat = false := by simp [isLow]; omega
    have hhigh : isHigh c.toNat = false := by simp [isHigh]; omega
    rw [heq, List.cons_append, List.cons_append, List.cons_append, List.cons_append,
      List.cons_append, List.cons_append, List.nil_append, unescape?, hunit]
    simp only [Option.bind_eq_bind, Option.bind_some, hlow, hhigh, Char.ofNat_toNat]
    cases unescape? cs <;> rfl
  · rw [heq, List.cons_append, List.nil_append, unescape?, if_neg (by simp [hescape, hcontrol])]
    · cases unescape? cs <;> rfl
    · exact fun _ _ _ _ _ hletter => absurd hletter hescape
    · exact fun _ _ hletter => absurd hletter hescape

theorem isSpelled_escaped (s : String) : isSpelled (escaped s) = true := by
  unfold escaped
  induction s.toList with
  | nil => rfl
  | cons c cs ih => rw [List.flatMap_cons, isSpelled_escapeChar, ih]

/-- A string is read back from its escapes. -/
theorem string?_escaped (s : String) : Document.string? (escaped s) = some s := by
  have hchars (cs : List Char) : unescape? (cs.flatMap escapeChar) = some cs := by
    induction cs with
    | nil => rfl
    | cons c cs ih => rw [List.flatMap_cons, unescape?_escapeChar, ih, Option.map_some]
  rw [Document.string?, escaped, hchars, Option.map_some, String.ofList_toList]

/-! ## Integers -/

namespace Numeral

theorem natOf_toDigits (n : Nat) : natOf (Nat.toDigits 10 n) = n := by
  rw [natOf, ← Nat.ofDigitChars_eq_foldl, Nat.ofDigitChars_ten_toDigits]

theorem digits_of_forall {ds : List Char} (h : ∀ c ∈ ds, c.isDigit = true) :
    digits ds = (ds, []) := by
  rw [digits, List.span_eq_takeWhile_dropWhile, List.takeWhile_eq_self_iff.2 h,
    List.dropWhile_eq_nil_iff.2 h]

/-- No number but zero begins with a zero. -/
theorem head?_toDigits {n : Nat} (h : 0 < n) : (Nat.toDigits 10 n).head? ≠ some '0' := by
  induction n using Nat.strong_induction_on with
  | _ n ih =>
      rw [Nat.toDigits_eq_if (by decide)]
      split_ifs with hlt
      · simp [Nat.pos_iff_ne_zero.1 h]
      · rw [List.head?_append_of_ne_nil _ Nat.toDigits_ne_nil]
        exact ih (n / 10) (by omega) (by omega)

/-- The digits of a number, and with a sign before them, are those of a numeral. -/
theorem ofWord?_toDigits (n : Nat) :
    ofWord? (Nat.toDigits 10 n) = some ⟨false, Nat.toDigits 10 n, [], none⟩ ∧
      ofWord? ('-' :: Nat.toDigits 10 n) = some ⟨true, Nat.toDigits 10 n, [], none⟩ := by
  have hdigit : ∀ c ∈ Nat.toDigits 10 n, c.isDigit = true :=
    fun c hc => Nat.isDigit_of_mem_toDigits (by decide) (by decide) hc
  have hleading : ((Nat.toDigits 10 n).isEmpty || ((Nat.toDigits 10 n).length != 1 &&
      (Nat.toDigits 10 n).head? == some '0')) = false := by
    rcases Nat.eq_zero_or_pos n with rfl | hn
    · rfl
    · simp [head?_toDigits hn]
  have htail : tail? [] = some ([], none) := rfl
  constructor
  · unfold ofWord?
    split
    rename_i negative cs hsign
    split at hsign
    · next cs' hcs => exact absurd (hdigit '-' (by rw [hcs]; exact List.mem_cons_self)) (by decide)
    · cases hsign
      simp only [digits_of_forall hdigit, hleading, htail]
      rfl
  · simp only [ofWord?, digits_of_forall hdigit, hleading, htail]
    rfl

end Numeral

/-- Whether 64 bits hold an integer, with a sign or without. -/
def Fits (v : Int) : Prop :=
  -(Nat.pow 2 63 : Nat) ≤ v ∧ v < (Nat.pow 2 64 : Nat)

theorem toList_int (v : Int) : (toString v).toList =
    if v < 0 then '-' :: Nat.toDigits 10 v.natAbs else Nat.toDigits 10 v.natAbs := by
  cases v with
  | ofNat n => exact Nat.toList_repr
  | negSucc n =>
      rw [if_pos (Int.negSucc_lt_zero n), Int.natAbs_negSucc, ← Nat.toList_repr]
      exact String.toList_append

theorem ofWord?_int (v : Int) : Numeral.ofWord? (toString v).toList =
    some ⟨decide (v < 0), Nat.toDigits 10 v.natAbs, [], none⟩ := by
  rw [toList_int]
  split_ifs with hneg
  · rw [(Numeral.ofWord?_toDigits _).2, decide_eq_true hneg]
  · rw [(Numeral.ofWord?_toDigits _).1, decide_eq_false hneg]

/-- An integer is read back from its digits if 64 bits hold it. -/
theorem wordValue?_int {v : Int} (h : Fits v) :
    Document.wordValue? (toString v).toList = some (.int v) := by
  have hword := ofWord?_int v
  have hne (w : List Char) (hw : Numeral.ofWord? w = none) : (toString v).toList ≠ w := by
    rintro rfl
    rw [hw] at hword
    cases hword
  obtain ⟨hlow, hhigh⟩ := h
  rw [Document.wordValue?, if_neg (hne _ rfl), if_neg (hne _ rfl), if_neg (hne _ rfl), hword,
    Option.bind_some, Numeral.value?]
  simp only [List.isEmpty_nil, Option.isNone_none, Bool.and_self, if_true, Numeral.natOf_toDigits,
    decide_eq_true_eq]
  split_ifs with hneg hfits hfits
  · simp only [Option.some.injEq, Json.int.injEq]
    omega
  · omega
  · simp only [Option.some.injEq, Json.int.injEq]
    omega
  · omega

/-! ## Tokens -/

mutual

/-- The tokens of the text of a value. -/
def tokens : Json → List Token
  | string s => [.text (escaped s)]
  | array items => .openArray :: [Token.comma].intercalate (itemTokens items) ++ [.closeArray]
  | object members =>
    .openObject :: [Token.comma].intercalate (memberTokens members) ++ [.closeObject]
  | j => [.word j.text.toList]

def itemTokens : List Json → List (List Token)
  | [] => []
  | j :: js => j.tokens :: itemTokens js

def memberTokens : List (String × Json) → List (List Token)
  | [] => []
  | (k, j) :: members => (.text (escaped k) :: .colon :: j.tokens) :: memberTokens members

end

namespace Token

open Cursor

/-- The cursor behind a word that is read, if one is. -/
def Cursor.settled (s : Cursor) : Cursor :=
  match s.place with
  | .outside read => between (flush s.done read)
  | _ => s

/-- What is blank between tokens is blank around a line as well. -/
theorem solver_isBlank {c : Char} (h : isBlank c = true) : Solver.isBlank c = true := by
  simp only [isBlank, Bool.or_eq_true, beq_iff_eq] at h
  rcases h with ((rfl | rfl) | rfl) | rfl <;> decide

/-- A bracket, comma or colon is a token and ends the word before it. -/
theorem step_mark {c : Char} {t : Token} (h : ofChar? c = some t) (done : List Token)
    (read : List Char) : step ⟨done, .outside read⟩ c = between (t :: flush done read) := by
  have hquote : c ≠ '"' := by
    rintro rfl
    cases h
  have hblank : isBlank c = false := by
    rw [Bool.eq_false_iff]
    intro hblank
    rw [(ofChar?_of_isBlank (solver_isBlank hblank)).2.2] at h
    cases h
  simp [step, hquote, hblank, h]

theorem step_settled {c : Char} {t : Token} (h : ofChar? c = some t) (s : Cursor) :
    s.step c = s.settled.step c := by
  obtain ⟨done, read | read | read⟩ := s
  · rw [step_mark h, Cursor.settled, step_mark h]
    rfl
  · rfl
  · rfl

theorem finish_settled (s : Cursor) : s.settled.finish = s.finish := by
  obtain ⟨done, read | read | read⟩ := s <;> rfl

/-- The characters are scanned as the tokens, up to a word that may still go on behind them. -/
def Scans (cs : List Char) (ts : List Token) : Prop :=
  ∀ done, ((between done).run cs).settled = between (ts.reverse ++ done)

/-- The characters are scanned as the tokens, with nothing left over. -/
def Closes (cs : List Char) (ts : List Token) : Prop :=
  ∀ done, (between done).run cs = between (ts.reverse ++ done)

variable {cs ds : List Char} {ts us : List Token}

theorem Closes.scans (h : Closes cs ts) : Scans cs ts := by
  intro done
  rw [h]
  rfl

theorem Closes.scans_append (h : Closes cs ts) (h' : Scans ds us) : Scans (cs ++ ds) (ts ++ us) := by
  intro done
  rw [run_append, h, h', List.reverse_append, List.append_assoc]

theorem Closes.append (h : Closes cs ts) (h' : Closes ds us) : Closes (cs ++ ds) (ts ++ us) := by
  intro done
  rw [run_append, h, h', List.reverse_append, List.append_assoc]

theorem Closes.mark {c : Char} {t : Token} (ht : ofChar? c = some t) : Closes [c] [t] :=
  fun done => step_mark ht done []

theorem Scans.mark (h : Scans cs ts) {c : Char} {t : Token} (ht : ofChar? c = some t) :
    Closes (cs ++ [c]) (ts ++ [t]) := by
  intro done
  rw [run_append]
  change ((between done).run cs).step c = _
  rw [step_settled ht, h, List.reverse_append, List.append_assoc]
  exact step_mark ht _ []

theorem Scans.nil : Scans [] [] :=
  fun _ => rfl

/-- Commas keep texts apart. -/
theorem Scans.intercalate {texts : List (List Char)} {tokens : List (List Token)}
    (h : List.Forall₂ Scans texts tokens) :
    Scans ([','].intercalate texts) ([comma].intercalate tokens) := by
  induction h with
  | nil => exact .nil
  | cons hfirst hrest ih =>
      cases hrest with
      | nil => simpa using hfirst
      | cons _ _ =>
          rw [List.intercalate_cons_cons, List.intercalate_cons_cons]
          exact (hfirst.mark rfl).scans_append ih

/-- A character that words are made of. -/
def IsPlain (c : Char) : Prop :=
  c ≠ '"' ∧ isBlank c = false ∧ ofChar? c = none

instance : DecidablePred IsPlain :=
  fun c => inferInstanceAs (Decidable (c ≠ '"' ∧ _ ∧ _))

theorem Scans.word {raw : List Char} (hne : raw ≠ []) (h : ∀ c ∈ raw, IsPlain c) :
    Scans raw [.word raw] := by
  have hrun (cs : List Char) (hcs : ∀ c ∈ cs, IsPlain c) (done : List Token) (read : List Char) :
      run ⟨done, .outside read⟩ cs = ⟨done, .outside (cs.reverse ++ read)⟩ := by
    induction cs generalizing read with
    | nil => rfl
    | cons c cs ih =>
        obtain ⟨⟨hquote, hblank, hmark⟩, hcs⟩ := List.forall_mem_cons.1 hcs
        have hstep : step ⟨done, .outside read⟩ c = ⟨done, .outside (c :: read)⟩ := by
          simp [step, hquote, hblank, hmark]
        change (step ⟨done, .outside read⟩ c).run cs = _
        rw [hstep, ih hcs, List.reverse_cons, List.append_assoc]
        rfl
  intro done
  rw [hrun raw h, List.append_nil]
  obtain ⟨c, cs, hreverse⟩ := List.exists_cons_of_ne_nil (List.reverse_ne_nil_iff.2 hne)
  have hword : raw = (c :: cs).reverse := by rw [← hreverse, List.reverse_reverse]
  rw [hreverse, hword]
  rfl

/-- What is written between quotes is read on between them. -/
theorem run_escaped (done : List Token) (cs read : List Char) :
    run ⟨done, .quoted read⟩ (cs.flatMap escapeChar) =
      ⟨done, .quoted ((cs.flatMap escapeChar).reverse ++ read)⟩ := by
  induction cs generalizing read with
  | nil => rfl
  | cons c cs ih =>
      have hchar : run ⟨done, .quoted read⟩ (escapeChar c) =
          ⟨done, .quoted ((escapeChar c).reverse ++ read)⟩ := by
        obtain ⟨d, -, -, heq⟩ | ⟨x, y, -, -, hx, hx', hy, hy', heq⟩ | ⟨hquote, hescape, -, heq⟩ :=
          escapeChar_cases c
        · rw [heq]
          rfl
        · rw [heq]
          simp [run, step, hx, hx', hy, hy']
        · rw [heq]
          simp [run, step, hquote, hescape]
      rw [List.flatMap_cons, run_append, hchar, ih, List.reverse_append, List.append_assoc]

theorem Closes.quote (s : String) : Closes (Json.quote s).toList [.text (escaped s)] := by
  intro done
  have hquote : (between done).step '"' = ⟨done, .quoted []⟩ := rfl
  rw [toList_quote, List.cons_append]
  change ((between done).step '"').run (escaped s ++ ['"']) = _
  rw [hquote, run_append, escaped, run_escaped, List.append_nil]
  simp [run, step]

end Token

theorem isPlain_of_isDigit {c : Char} (h : c.isDigit = true) : Token.IsPlain c := by
  refine ⟨?_, ?_, ?_⟩
  · rintro rfl
    exact absurd h (by decide)
  · have hblank := not_isBlank_of_isPart (Numeral.isPart_of_isDigit h)
    exact Bool.eq_false_iff.2 fun h => by simp [Token.solver_isBlank h] at hblank
  · unfold Token.ofChar?
    split <;> first | rfl | exact absurd h (by decide)

/-! ## Written values -/

/-- Whether no float is in a value. -/
inductive FloatFree : Json → Prop
  | null : FloatFree null
  | bool (b : Bool) : FloatFree (bool b)
  | int (v : Int) : FloatFree (int v)
  | string (s : String) : FloatFree (string s)
  | array {items : List Json} : (∀ j ∈ items, FloatFree j) → FloatFree (array items)
  | object {members : List (String × Json)} : (∀ m ∈ members, FloatFree m.2) →
      FloatFree (object members)

theorem items_scan {items : List Json} (h : ∀ j ∈ items, Token.Scans j.text.toList j.tokens) :
    List.Forall₂ Token.Scans ((itemTexts items).map String.toList) (itemTokens items) := by
  induction items with
  | nil => exact .nil
  | cons j js ih =>
      obtain ⟨hj, hjs⟩ := List.forall_mem_cons.1 h
      exact .cons hj (ih hjs)

theorem members_scan {members : List (String × Json)}
    (h : ∀ m ∈ members, Token.Scans m.2.text.toList m.2.tokens) :
    List.Forall₂ Token.Scans ((memberTexts members).map String.toList) (memberTokens members) := by
  induction members with
  | nil => exact .nil
  | cons m members ih =>
      obtain ⟨k, j⟩ := m
      obtain ⟨hj, hmembers⟩ := List.forall_mem_cons.1 h
      refine .cons ?_ (ih hmembers)
      have hkey := ((Token.Closes.quote k).append (.mark (c := ':') rfl)).scans_append hj
      simpa using hkey

/-- The text of a value is cut into the tokens of the value. -/
theorem FloatFree.scans {j : Json} (h : j.FloatFree) : Token.Scans j.text.toList j.tokens := by
  induction h with
  | null => exact .word (by decide) (List.forall_iff_forall_mem.1 (by decide))
  | bool b => cases b <;> exact .word (by decide) (List.forall_iff_forall_mem.1 (by decide))
  | int v =>
      refine .word ?_ fun c hc => ?_
      · rw [text, toList_int]
        split_ifs <;> simp
      · rw [text, toList_int] at hc
        have hdigits : ∀ c ∈ Nat.toDigits 10 v.natAbs, Token.IsPlain c := fun c hc =>
          isPlain_of_isDigit (Nat.isDigit_of_mem_toDigits (by decide) (by decide) hc)
        split_ifs at hc
        · rcases List.mem_cons.1 hc with rfl | hc
          · decide
          · exact hdigits c hc
        · exact hdigits c hc
  | string s => exact (Token.Closes.quote s).scans
  | array _ ih =>
      rw [text, tokens]
      have hitems := (Token.Scans.intercalate (items_scan ih)).mark (c := ']') rfl
      have htext := (Token.Closes.mark (c := '[') rfl).append hitems
      simpa [String.toList_append, String.toList_intercalate] using htext.scans
  | object _ ih =>
      rw [text, tokens]
      have hmembers := (Token.Scans.intercalate (members_scan ih)).mark (c := '\x7d') rfl
      have htext := (Token.Closes.mark (c := '\x7b') rfl).append hmembers
      simpa [String.toList_append, String.toList_intercalate] using htext.scans

/-! ## Documents -/

mutual

/-- The document that the text of a value is. -/
def document : Json → Document
  | string s => .text (escaped s)
  | array items => .array (itemDocuments items)
  | object members => .object (memberDocuments members)
  | j => .word j.text.toList

def itemDocuments : List Json → List Document
  | [] => []
  | j :: js => j.document :: itemDocuments js

def memberDocuments : List (String × Json) → List (List Char × Document)
  | [] => []
  | (k, j) :: members => (escaped k, j.document) :: memberDocuments members

end

/-- Whether the tokens of a value nest as it does, wherever a value may stand. -/
def Nests (j : Json) : Prop :=
  ∀ frames, j.tokens.foldlM Document.step ⟨frames, .value⟩ =
    some (Document.complete j.document frames)

theorem items_nest {items : List Json} (h : ∀ j ∈ items, j.Nests) (hne : items ≠ [])
    (frames : List Document.Frame) (done : List Document) :
    ([Token.comma].intercalate (itemTokens items)).foldlM Document.step
        ⟨.array done :: frames, .value⟩ =
      some ⟨.array ((itemDocuments items).reverse ++ done) :: frames, .separator⟩ := by
  induction items generalizing done with
  | nil => exact absurd rfl hne
  | cons j js ih =>
      obtain ⟨hj, hjs⟩ := List.forall_mem_cons.1 h
      cases js with
      | nil =>
          simpa [itemTokens, itemDocuments, Document.complete] using hj (.array done :: frames)
      | cons j' js =>
          have hrest := ih hjs (List.cons_ne_nil _ _) (j.document :: done)
          simp only [itemTokens] at hrest ⊢
          rw [List.intercalate_cons_cons, List.append_assoc, List.foldlM_append, hj]
          simpa [itemDocuments, Document.complete, Document.step] using hrest

theorem members_nest {members : List (String × Json)} (h : ∀ m ∈ members, m.2.Nests)
    (hne : members ≠ []) (frames : List Document.Frame) (done : List (List Char × Document))
    (key : List Char) :
    ∃ last, ([Token.comma].intercalate (memberTokens members)).foldlM Document.step
        ⟨.object done key :: frames, .key⟩ =
      some ⟨.object ((memberDocuments members).reverse ++ done) last :: frames, .separator⟩ := by
  induction members generalizing done key with
  | nil => exact absurd rfl hne
  | cons m members ih =>
      obtain ⟨k, j⟩ := m
      obtain ⟨hj, hmembers⟩ := List.forall_mem_cons.1 h
      have hkey : Document.step ⟨.object done key :: frames, .key⟩ (.text (escaped k)) =
          some ⟨.object done (escaped k) :: frames, .colon⟩ := by
        simp [Document.step, Document.readKey, isSpelled_escaped]
      have hmember : (Token.text (escaped k) :: .colon :: j.tokens).foldlM Document.step
          ⟨.object done key :: frames, .key⟩ =
          some ⟨.object ((escaped k, j.document) :: done) (escaped k) :: frames, .separator⟩ := by
        rw [List.foldlM_cons, hkey]
        exact hj (.object done (escaped k) :: frames)
      cases members with
      | nil =>
          refine ⟨escaped k, ?_⟩
          simpa [memberTokens, memberDocuments] using hmember
      | cons m' members =>
          obtain ⟨last, hrest⟩ :=
            ih hmembers (List.cons_ne_nil _ _) ((escaped k, j.document) :: done) (escaped k)
          refine ⟨last, ?_⟩
          obtain ⟨k', j'⟩ := m'
          simp only [memberTokens] at hrest ⊢
          rw [List.intercalate_cons_cons, List.append_assoc, List.foldlM_append, hmember]
          simpa [memberDocuments, Document.step] using hrest

/-- A value begins with no bracket that closes. -/
theorem exists_tokens_eq_cons (j : Json) : ∃ t ts, j.tokens = t :: ts ∧ t ≠ .closeArray := by
  cases j <;> exact ⟨_, _, rfl, by simp⟩

theorem exists_intercalate_eq_cons (j : Json) (js : List Json) :
    ∃ t ts, [Token.comma].intercalate (itemTokens (j :: js)) = t :: ts ∧ t ≠ .closeArray := by
  obtain ⟨t, ts, hj, ht⟩ := exists_tokens_eq_cons j
  cases js with
  | nil => exact ⟨t, ts, by simp [itemTokens, hj], ht⟩
  | cons j' js => exact ⟨t, _, by simp [itemTokens, hj]; rfl, ht⟩

theorem Nests.array {items : List Json} (h : ∀ j ∈ items, j.Nests) : (array items).Nests := by
  intro frames
  have hopen : Document.step ⟨frames, .value⟩ .openArray = some ⟨.array [] :: frames, .item⟩ := rfl
  rw [tokens, document, List.cons_append, List.foldlM_cons, hopen]
  simp only [Option.bind_eq_bind, Option.bind_some, List.foldlM_append]
  cases items with
  | nil => rfl
  | cons j js =>
      have hitem : ([Token.comma].intercalate (itemTokens (j :: js))).foldlM Document.step
          ⟨.array [] :: frames, .item⟩ =
          ([Token.comma].intercalate (itemTokens (j :: js))).foldlM Document.step
            ⟨.array [] :: frames, .value⟩ := by
        obtain ⟨t, ts, hts, ht⟩ := exists_intercalate_eq_cons j js
        rw [hts, List.foldlM_cons, List.foldlM_cons]
        simp [Document.step, ht]
      rw [hitem, items_nest h (List.cons_ne_nil _ _)]
      simp [Document.step, Document.close]

theorem Nests.object {members : List (String × Json)} (h : ∀ m ∈ members, m.2.Nests) :
    (object members).Nests := by
  intro frames
  have hopen : Document.step ⟨frames, .value⟩ .openObject =
      some ⟨.object [] [] :: frames, .member⟩ := rfl
  rw [tokens, document, List.cons_append, List.foldlM_cons, hopen]
  simp only [Option.bind_eq_bind, Option.bind_some, List.foldlM_append]
  cases members with
  | nil => rfl
  | cons m members =>
      have hmember : ([Token.comma].intercalate (memberTokens (m :: members))).foldlM Document.step
          ⟨.object [] [] :: frames, .member⟩ =
          ([Token.comma].intercalate (memberTokens (m :: members))).foldlM Document.step
            ⟨.object [] [] :: frames, .key⟩ := by
        obtain ⟨k, j⟩ := m
        cases members <;> rfl
      obtain ⟨last, hnest⟩ := members_nest h (List.cons_ne_nil _ _) frames [] []
      rw [hmember, hnest]
      simp [Document.step, Document.close]

theorem FloatFree.nests {j : Json} (h : j.FloatFree) : j.Nests := by
  have hword {raw : List Char} (hraw : Document.isWord raw = true) (frames : List Document.Frame) :
      [Token.word raw].foldlM Document.step ⟨frames, .value⟩ =
        some (Document.complete (.word raw) frames) := by
    simp [Document.step, Document.beginValue, hraw]
  induction h with
  | null => exact hword rfl
  | bool b => cases b <;> exact hword rfl
  | int v =>
      refine hword ?_
      rw [text, Document.isWord, ofWord?_int, Option.isSome_some, Bool.or_true]
  | string s =>
      intro frames
      simp [tokens, document, Document.step, Document.beginValue, isSpelled_escaped]
  | array _ ih => exact .array ih
  | object _ ih => exact .object ih

/-- The text of a value is read as its document. -/
theorem FloatFree.parse?_text {j : Json} (h : j.FloatFree) :
    Document.parse? j.text = some j.document := by
  have hscan : Token.scan j.text = some j.tokens := by
    rw [Token.scan, Token.Cursor.scanFrom_eq, ← Token.finish_settled, h.scans, List.append_nil]
    exact congrArg some (List.reverse_reverse _)
  rw [Document.parse?, hscan]
  change (j.tokens.foldlM Document.step ⟨[], .value⟩).bind _ = _
  rw [h.nests]
  rfl

end ConstraintModel.Json
