import ConstraintModel.Proofs.Partial
import ConstraintModel.Solver.Stream
import Mathlib.Data.List.TakeDrop
import Mathlib.Data.List.TakeWhile

/-!
# Scanning line by line

A JSON text keeps its tokens when white space is taken from both ends of every line and the lines that
hold nothing else are left out. A text that has a value has no line feed inside quotes, so every line
is scanned on its own, and none of its words begins as the marks between solutions do.
-/

namespace ConstraintModel.Json

open Solver (trim)

/-! ## Words and quoted texts that are refused -/

/-- Whether characters begin no keyword and no number, whatever follows them. -/
def Barred (raw : List Char) : Prop :=
  (∃ c ∈ raw, Solver.isBlank c = true) ∨ (∃ cs, raw = '%' :: cs) ∨ (∃ cs, raw = '=' :: cs) ∨
    ∃ cs, raw = '-' :: '-' :: cs

theorem Barred.append {raw : List Char} (h : Barred raw) (cs : List Char) : Barred (raw ++ cs) := by
  rcases h with ⟨c, hc, hblank⟩ | ⟨_, rfl⟩ | ⟨_, rfl⟩ | ⟨_, rfl⟩
  · exact .inl ⟨c, List.mem_append_left cs hc, hblank⟩
  · exact .inr (.inl ⟨_, rfl⟩)
  · exact .inr (.inr (.inl ⟨_, rfl⟩))
  · exact .inr (.inr (.inr ⟨_, rfl⟩))

namespace Numeral

/-- The characters of which numbers are made. -/
def isPart (c : Char) : Bool :=
  c.isDigit || ['-', '+', '.', 'e', 'E'].contains c

theorem digits_spec (cs : List Char) :
    cs = (digits cs).1 ++ (digits cs).2 ∧ ∀ c ∈ (digits cs).1, c.isDigit = true := by
  rw [digits, List.span_eq_takeWhile_dropWhile]
  exact ⟨List.takeWhile_append_dropWhile.symm, fun c hc => List.mem_takeWhile_imp hc⟩

theorem isPart_of_isDigit {c : Char} (h : c.isDigit = true) : isPart c = true := by
  rw [isPart, h, Bool.true_or]

theorem digits_parts (cs : List Char) : ∀ c ∈ (digits cs).1, isPart c = true :=
  fun c hc => isPart_of_isDigit ((digits_spec cs).2 c hc)

theorem parts_of_digits {ds : List Char} (h : (digits ds).2.isEmpty = true) :
    ∀ c ∈ ds, isPart c = true := by
  intro c hc
  rw [(digits_spec ds).1, List.isEmpty_iff.1 h, List.append_nil] at hc
  exact digits_parts ds c hc

theorem exponent?_parts {cs : List Char} {e : Option Int} (h : exponent? cs = some e) :
    ∀ c ∈ cs, isPart c = true := by
  have hunsigned : ∀ (s : Int) (ds : List Char),
      (if ((digits ds).1.isEmpty || !(digits ds).2.isEmpty) = true then none
        else some (some (s * natOf (digits ds).1))) = some e → ∀ c ∈ ds, isPart c = true := by
    intro s ds hds
    split at hds
    · cases hds
    · rename_i hempty
      rw [Bool.or_eq_true, not_or, Bool.not_eq_true', Bool.not_eq_false] at hempty
      exact parts_of_digits hempty.2
  cases cs with
  | nil => simp
  | cons c cs =>
      simp only [exponent?] at h
      split at h
      · cases h
      · rename_i he
        have hc : isPart c = true := by
          rcases Decidable.or_iff_not_not_and_not.2 he with rfl | rfl <;> decide
        refine List.forall_mem_cons.2 ⟨hc, ?_⟩
        split at h
        · exact List.forall_mem_cons.2 ⟨by decide, hunsigned 1 _ h⟩
        · exact List.forall_mem_cons.2 ⟨by decide, hunsigned (-1) _ h⟩
        · exact hunsigned 1 _ h

theorem tail?_parts {cs : List Char} {t : List Char × Option Int} (h : tail? cs = some t) :
    ∀ c ∈ cs, isPart c = true := by
  have hplain : ∀ ds : List Char, (exponent? ds).map ([], ·) = some t →
      ∀ c ∈ ds, isPart c = true := by
    intro ds hds
    obtain ⟨e, he, -⟩ := Option.map_eq_some_iff.1 hds
    exact exponent?_parts he
  unfold tail? at h
  split at h
  · rename_i cs
    simp only at h
    split at h
    · cases h
    · obtain ⟨e, he, -⟩ := Option.map_eq_some_iff.1 h
      refine List.forall_mem_cons.2 ⟨by decide, ?_⟩
      rw [(digits_spec cs).1]
      exact List.forall_mem_append.2 ⟨digits_parts cs, exponent?_parts he⟩
  · exact hplain cs h

/-- A number is a sign perhaps, then a digit, and has no other characters than those of numbers. -/
theorem ofWord?_parts {cs : List Char} {n : Numeral} (h : ofWord? cs = some n) :
    (∀ c ∈ cs, isPart c = true) ∧
      ∃ c ds, c.isDigit = true ∧ (cs = c :: ds ∨ cs = '-' :: c :: ds) := by
  have hunsigned : ∀ (negative : Bool) (ds : List Char),
      (if ((digits ds).1.isEmpty || ((digits ds).1.length != 1 && (digits ds).1.head? == some '0')) =
          true then none
        else (tail? (digits ds).2).map fun t => Numeral.mk negative (digits ds).1 t.1 t.2) = some n →
      (∀ c ∈ ds, isPart c = true) ∧ ∃ c es, c.isDigit = true ∧ ds = c :: es := by
    intro negative ds hds
    split at hds
    · cases hds
    · rename_i hempty
      rw [Bool.or_eq_true, not_or] at hempty
      obtain ⟨t, ht, -⟩ := Option.map_eq_some_iff.1 hds
      constructor
      · rw [(digits_spec ds).1]
        exact List.forall_mem_append.2 ⟨digits_parts ds, tail?_parts ht⟩
      · obtain ⟨c, es, hcs⟩ := List.exists_cons_of_ne_nil fun hnil =>
          hempty.1 (List.isEmpty_iff.2 hnil)
        have hsplit := (digits_spec ds).1
        rw [hcs, List.cons_append] at hsplit
        exact ⟨c, _, (digits_spec ds).2 c (by simp [hcs]), hsplit⟩
  unfold ofWord? at h
  split at h
  rename_i negative rest heq
  have hrest := hunsigned negative rest h
  split at heq
  · cases heq
    obtain ⟨hparts, c, es, hc, rfl⟩ := hrest
    exact ⟨List.forall_mem_cons.2 ⟨by decide, hparts⟩, c, es, hc, .inr rfl⟩
  · cases heq
    obtain ⟨hparts, c, es, hc, rfl⟩ := hrest
    exact ⟨hparts, c, es, hc, .inl rfl⟩

end Numeral

theorem not_isBlank_of_isPart {c : Char} (h : Numeral.isPart c = true) :
    Solver.isBlank c = false := by
  rw [Numeral.isPart, Bool.or_eq_true] at h
  rcases h with h | h
  · have hdigit : 48 ≤ c.toNat ∧ c.toNat ≤ 57 := by
      simpa [Char.isDigit, UInt32.le_iff_toNat_le] using h
    simp only [Solver.isBlank, Solver.blankRanges, List.any_cons, List.any_nil, Bool.or_false,
      Bool.or_eq_false_iff, Bool.and_eq_false_iff, decide_eq_false_iff_not]
    omega
  · simp only [List.contains_eq_mem, List.mem_cons, List.not_mem_nil, or_false,
      decide_eq_true_eq] at h
    rcases h with rfl | rfl | rfl | rfl | rfl <;> decide

/-- Keywords and numbers are not barred. -/
theorem not_barred_of_isWord {raw : List Char} (h : Document.isWord raw = true) : ¬ Barred raw := by
  simp only [Document.isWord, Bool.or_eq_true, beq_iff_eq] at h
  rcases h with ((rfl | rfl) | rfl) | h
  · simp [Barred]
    decide
  · simp [Barred]
    decide
  · simp [Barred]
    decide
  · obtain ⟨n, hn⟩ := Option.isSome_iff_exists.1 h
    obtain ⟨hparts, d, ds, hd, hraw⟩ := Numeral.ofWord?_parts hn
    rintro (⟨c, hc, hblank⟩ | ⟨cs, rfl⟩ | ⟨cs, rfl⟩ | ⟨cs, rfl⟩)
    · rw [not_isBlank_of_isPart (hparts c hc)] at hblank
      cases hblank
    · exact absurd (hparts '%' List.mem_cons_self) (by decide)
    · exact absurd (hparts '=' List.mem_cons_self) (by decide)
    · rcases hraw with hraw | hraw
      · obtain ⟨rfl, -⟩ := List.cons.inj hraw
        exact absurd hd (by decide)
      · obtain ⟨rfl, -⟩ := List.cons.inj (List.cons.inj hraw).2
        exact absurd hd (by decide)

theorem ne_newline_of_hexValue? {c : Char} (h : (hexValue? c).isSome = true) : c ≠ '\n' := by
  rintro rfl
  exact absurd h (by decide)

/-- No line feed stands inside quotes, and none is escaped. -/
theorem not_mem_of_isSpelled {raw : List Char} (h : isSpelled raw = true) : '\n' ∉ raw := by
  fun_induction isSpelled raw with
  | case1 => simp
  | case2 a b c d cs ih =>
      obtain ⟨hunit, hcs⟩ := Bool.and_eq_true_iff.1 h
      have hdigits : (hexValue? a).isSome ∧ (hexValue? b).isSome ∧ (hexValue? c).isSome ∧
          (hexValue? d).isSome := by
        cases ha : hexValue? a <;> cases hb : hexValue? b <;> cases hc : hexValue? c <;>
          cases hd : hexValue? d <;> simp_all [codeUnit?]
      obtain ⟨ha, hb, hc, hd⟩ := hdigits
      simp only [List.mem_cons, not_or]
      exact ⟨by decide, by decide, (ne_newline_of_hexValue? ha).symm,
        (ne_newline_of_hexValue? hb).symm, (ne_newline_of_hexValue? hc).symm,
        (ne_newline_of_hexValue? hd).symm, ih hcs⟩
  | case3 c cs _ ih =>
      obtain ⟨hescape, hcs⟩ := Bool.and_eq_true_iff.1 h
      simp only [List.mem_cons, not_or]
      refine ⟨by decide, ?_, ih hcs⟩
      rintro rfl
      exact absurd hescape (by decide)
  | case4 c cs _ _ ih =>
      simp only [Bool.and_eq_true, bne_iff_ne, decide_eq_true_eq] at h
      simp only [List.mem_cons, not_or]
      refine ⟨?_, ih h.2⟩
      rintro rfl
      exact absurd h.1.2 (by decide)

namespace Token

/-- Whether no document has the token. -/
def IsRefused : Token → Prop
  | text raw => '\n' ∈ raw
  | word raw => Barred raw
  | _ => False

/-- Whether the token that is read here will be refused. -/
def Place.IsSpoiled : Place → Prop
  | outside read => Barred read.reverse
  | quoted read | escaped read => '\n' ∈ read

end Token

namespace Document

theorem beginValue_eq_some {frames : List Frame} {t : Token} {s : State}
    (h : beginValue frames t = some s) : ¬ t.IsRefused := by
  cases t with
  | text raw =>
      simp only [beginValue] at h
      split at h
      · rename_i hspelled
        exact not_mem_of_isSpelled hspelled
      · cases h
  | word raw =>
      simp only [beginValue] at h
      split at h
      · rename_i hword
        exact not_barred_of_isWord hword
      · cases h
  | _ => exact id

theorem readKey_eq_some {frames : List Frame} {t : Token} {s : State}
    (h : readKey frames t = some s) : ¬ t.IsRefused := by
  unfold readKey at h
  split at h
  · split at h
    · rename_i hspelled
      exact not_mem_of_isSpelled hspelled
    · cases h
  · cases h

theorem close_eq_some {frames : List Frame} {t : Token} {s : State}
    (h : close frames t = some s) : ¬ t.IsRefused := by
  unfold close at h
  split at h
  · exact id
  · exact id
  · cases h

/-- A nesting goes on with no token that is refused. -/
theorem step_eq_some {s s' : State} {t : Token} (h : step s t = some s') : ¬ t.IsRefused := by
  unfold step at h
  split at h
  · exact beginValue_eq_some h
  · split at h
    · exact close_eq_some h
    · exact beginValue_eq_some h
  · exact readKey_eq_some h
  · split at h
    · exact close_eq_some h
    · exact readKey_eq_some h
  · split at h
    · rename_i ht
      rw [ht]
      exact id
    · cases h
  · split at h
    · exact id
    · exact id
    · exact close_eq_some h
  · cases h

theorem not_refused_of_foldlM {tokens : List Token} {s s' : State}
    (h : tokens.foldlM step s = some s') : ∀ t ∈ tokens, ¬ t.IsRefused := by
  induction tokens generalizing s with
  | nil => simp
  | cons t tokens ih =>
      rw [List.foldlM_cons, Option.bind_eq_bind, Option.bind_eq_some_iff] at h
      obtain ⟨next, ht, hrest⟩ := h
      exact List.forall_mem_cons.2 ⟨step_eq_some ht, ih hrest⟩

end Document

/-! ## Scans character by character -/

namespace Token

/-- How far a scan has come: the tokens so far, latest first, and the place in the text. -/
structure Cursor where
  done : List Token
  place : Place

/-- The cursor outside quotes and words. -/
abbrev Cursor.between (done : List Token) : Cursor :=
  ⟨done, .outside []⟩

namespace Cursor

def step (s : Cursor) (c : Char) : Cursor :=
  match s.place with
  | .outside read =>
    if c = '"' then ⟨flush s.done read, .quoted []⟩
    else if isBlank c then between (flush s.done read)
    else
      match ofChar? c with
      | some t => between (t :: flush s.done read)
      | none => ⟨s.done, .outside (c :: read)⟩
  | .quoted read =>
    if c = '"' then between (text read.reverse :: s.done)
    else if c = '\\' then ⟨s.done, .escaped (c :: read)⟩
    else ⟨s.done, .quoted (c :: read)⟩
  | .escaped read => ⟨s.done, .quoted (c :: read)⟩

def run (s : Cursor) (cs : List Char) : Cursor :=
  cs.foldl step s

theorem run_append (s : Cursor) (cs ds : List Char) : s.run (cs ++ ds) = (s.run cs).run ds :=
  List.foldl_append

/-- The tokens of a text that ends here. -/
def finish (s : Cursor) : Option (List Token) :=
  match s.place with
  | .outside read => some (flush s.done read).reverse
  | _ => none

theorem scanFrom_eq (done : List Token) (place : Place) (cs : List Char) :
    scanFrom done place cs = (run ⟨done, place⟩ cs).finish := by
  fun_induction scanFrom done place cs <;> simp_all [run, step, finish]

/-! ## Cursors after which no document is read -/

/-- Whether the cursor has read a token that is refused, or reads one. -/
def IsSpoiled (s : Cursor) : Prop :=
  (∃ t ∈ s.done, t.IsRefused) ∨ s.place.IsSpoiled

theorem flush_refused {done : List Token} {read : List Char}
    (h : (∃ t ∈ done, t.IsRefused) ∨ Barred read.reverse) :
    ∃ t ∈ flush done read, t.IsRefused := by
  cases read with
  | nil =>
      refine h.resolve_right ?_
      simp [Barred]
  | cons c read =>
      rcases h with ⟨t, ht, hrefused⟩ | hbarred
      · exact ⟨t, List.mem_cons_of_mem _ ht, hrefused⟩
      · exact ⟨_, List.mem_cons_self, hbarred⟩

theorem IsSpoiled.step {s : Cursor} (h : s.IsSpoiled) (c : Char) : (s.step c).IsSpoiled := by
  obtain ⟨done, place⟩ := s
  cases place with
  | outside read =>
      have hflush := flush_refused h
      obtain ⟨t, ht, hrefused⟩ := hflush
      simp only [Cursor.step]
      split
      · exact .inl ⟨t, ht, hrefused⟩
      · split
        · exact .inl ⟨t, ht, hrefused⟩
        · split
          · exact .inl ⟨t, List.mem_cons_of_mem _ ht, hrefused⟩
          · refine h.imp id fun hbarred => ?_
            have happend := Barred.append hbarred [c]
            rwa [← List.reverse_cons] at happend
  | quoted read =>
      simp only [Cursor.step]
      split
      · rcases h with ⟨t, ht, hrefused⟩ | hmem
        · exact .inl ⟨t, List.mem_cons_of_mem _ ht, hrefused⟩
        · exact .inl ⟨_, List.mem_cons_self, List.mem_reverse.2 hmem⟩
      · split
        · exact h.imp id (List.mem_cons_of_mem c)
        · exact h.imp id (List.mem_cons_of_mem c)
  | escaped read => exact h.imp id (List.mem_cons_of_mem c)

theorem IsSpoiled.run {s : Cursor} (h : s.IsSpoiled) (cs : List Char) : (s.run cs).IsSpoiled := by
  induction cs generalizing s with
  | nil => exact h
  | cons c cs ih => exact ih (h.step c)

theorem IsSpoiled.finish {s : Cursor} (h : s.IsSpoiled) {tokens : List Token}
    (hfinish : s.finish = some tokens) : ∃ t ∈ tokens, t.IsRefused := by
  obtain ⟨done, place⟩ := s
  cases place with
  | outside read =>
      obtain ⟨t, ht, hrefused⟩ := flush_refused h
      obtain rfl := Option.some.inj hfinish
      exact ⟨t, List.mem_reverse.2 ht, hrefused⟩
  | quoted read => cases hfinish
  | escaped read => cases hfinish

/-! ## White space at the ends of a line -/

theorem ofChar?_of_isBlank {c : Char} (h : Solver.isBlank c = true) :
    c ≠ '"' ∧ c ≠ '\\' ∧ ofChar? c = none := by
  refine ⟨?_, ?_, ?_⟩
  · rintro rfl
    exact absurd h (by decide)
  · rintro rfl
    exact absurd h (by decide)
  · unfold ofChar?
    split <;> first | rfl | exact absurd h (by decide)

theorem step_outside_of_isBlank {done : List Token} {read : List Char} {c : Char}
    (h : Solver.isBlank c = true) (hspoiled : ¬ (step ⟨done, .outside read⟩ c).IsSpoiled) :
    step ⟨done, .outside read⟩ c = between (flush done read) := by
  obtain ⟨hquote, -, hbracket⟩ := ofChar?_of_isBlank h
  by_cases hblank : isBlank c = true
  · simp [step, hquote, hblank]
  · have hstep : step ⟨done, .outside read⟩ c = ⟨done, .outside (c :: read)⟩ := by
      simp [step, hquote, hblank, hbracket]
    rw [hstep] at hspoiled
    exact absurd (Or.inr (Or.inl ⟨c, by simp, h⟩)) hspoiled

/-- White space before anything else is passed over. -/
theorem run_blank {done : List Token} {cs : List Char} (h : ∀ c ∈ cs, Solver.isBlank c = true)
    (hspoiled : ¬ ((between done).run cs).IsSpoiled) : (between done).run cs = between done := by
  induction cs with
  | nil => rfl
  | cons c cs ih =>
      obtain ⟨hc, hcs⟩ := List.forall_mem_cons.1 h
      have hstep : (between done).step c = between done :=
        step_outside_of_isBlank hc fun hs => hspoiled (hs.run cs)
      change ¬ (((between done).step c).run cs).IsSpoiled at hspoiled
      change ((between done).step c).run cs = _
      rw [hstep] at hspoiled ⊢
      exact ih hcs hspoiled

/-- White space and a line feed do what the line feed does, and what is read before ends there. -/
theorem run_blank_newline {s : Cursor} {cs : List Char} (h : ∀ c ∈ cs, Solver.isBlank c = true)
    (hspoiled : ¬ (s.run (cs ++ ['\n'])).IsSpoiled) :
    s.run (cs ++ ['\n']) = s.step '\n' ∧ ∃ done, s.step '\n' = between done := by
  induction cs generalizing s with
  | nil =>
      refine ⟨rfl, ?_⟩
      obtain ⟨done, place⟩ := s
      cases place with
      | outside read => exact ⟨flush done read, by simp [step, isBlank]⟩
      | quoted read => exact absurd (Or.inr (by simp [run, step, Place.IsSpoiled])) hspoiled
      | escaped read => exact absurd (Or.inr (by simp [run, step, Place.IsSpoiled])) hspoiled
  | cons c cs ih =>
      obtain ⟨hc, hcs⟩ := List.forall_mem_cons.1 h
      obtain ⟨hrun, next, hnext⟩ := ih hcs hspoiled
      obtain ⟨hquote, hescape, -⟩ := ofChar?_of_isBlank hc
      change (s.step c).run (cs ++ ['\n']) = _ ∧ _
      obtain ⟨done, place⟩ := s
      cases place with
      | outside read =>
          have hstep : step ⟨done, .outside read⟩ c = between (flush done read) :=
            step_outside_of_isBlank hc fun hs => hspoiled (hs.run _)
          have hfeed : step ⟨done, .outside read⟩ '\n' = between (flush done read) := by
            simp [step, isBlank]
          rw [hrun, hstep, hfeed]
          exact ⟨rfl, _, rfl⟩
      | quoted read => simp [step, hquote, hescape] at hnext
      | escaped read => simp [step] at hnext

end Cursor

end Token

/-! ## Lines -/

theorem trim_spec (l : List Char) : ∃ b b', l = b ++ trim l ++ b' ∧
    (∀ c ∈ b, Solver.isBlank c = true) ∧ ∀ c ∈ b', Solver.isBlank c = true := by
  refine ⟨l.takeWhile Solver.isBlank,
    (((l.dropWhile Solver.isBlank).reverse).takeWhile Solver.isBlank).reverse, ?_,
    fun c hc => List.mem_takeWhile_imp hc,
    fun c hc => List.mem_takeWhile_imp (List.mem_reverse.1 hc)⟩
  rw [Solver.trim, List.append_assoc, ← List.reverse_append, List.takeWhile_append_dropWhile,
    List.reverse_reverse, List.takeWhile_append_dropWhile]

/-- The lines without white space around them, each ended by a line feed, and without those that hold
nothing. -/
def compact (ls : List (List Char)) : List Char :=
  ls.flatMap fun l => if trim l = [] then [] else trim l ++ ['\n']

theorem compact_cons_blank {l : List Char} (h : trim l = []) (ls : List (List Char)) :
    compact (l :: ls) = compact ls := by
  simp [compact, h]

theorem compact_cons {l : List Char} (h : trim l ≠ []) (ls : List (List Char)) :
    compact (l :: ls) = trim l ++ '\n' :: compact ls := by
  simp [compact, h]

namespace Token.Cursor

/-- A line is scanned as what it holds between white space. -/
theorem run_line {done : List Token} {l : List Char}
    (hspoiled : ¬ ((between done).run (l ++ ['\n'])).IsSpoiled) :
    (between done).run (l ++ ['\n']) = (between done).run (trim l ++ ['\n']) ∧
      ∃ next, (between done).run (l ++ ['\n']) = between next := by
  obtain ⟨b, b', hl, hb, hb'⟩ := trim_spec l
  have hsplit : l ++ ['\n'] = b ++ (trim l ++ (b' ++ ['\n'])) := by
    conv_lhs => rw [hl]
    simp only [List.append_assoc]
  rw [hsplit, run_append] at hspoiled
  have hstart : (between done).run b = between done :=
    run_blank hb fun hs => hspoiled (hs.run _)
  rw [hstart, run_append] at hspoiled
  obtain ⟨hrun, next, hnext⟩ := run_blank_newline hb' hspoiled
  have hline : (between done).run (l ++ ['\n']) = ((between done).run (trim l)).step '\n' := by
    rw [hsplit, run_append, hstart, run_append, hrun]
  exact ⟨hline.trans (run_append (between done) (trim l) ['\n']).symm, next, hline.trans hnext⟩

/-- The first characters of a line are those of no mark and no comment. -/
theorem not_mark {done : List Token} {l : List Char}
    (hspoiled : ¬ ((between done).run (l ++ ['\n'])).IsSpoiled) (cs : List Char) :
    trim l ≠ '%' :: cs ∧ trim l ≠ '=' :: cs ∧ trim l ≠ '-' :: '-' :: cs := by
  rw [(run_line hspoiled).1] at hspoiled
  have hbarred : ∀ raw, Barred raw.reverse → (between done).run raw.reverse =
      ⟨done, .outside raw⟩ → ∀ rest, trim l ≠ raw.reverse ++ rest := by
    intro raw hraw hrun rest htrim
    rw [htrim, List.append_assoc, run_append, hrun] at hspoiled
    have hplace : (Cursor.mk done (.outside raw)).IsSpoiled := .inr hraw
    exact hspoiled (hplace.run _)
  refine ⟨hbarred ['%'] ?_ rfl cs, hbarred ['='] ?_ rfl cs, hbarred ['-', '-'] ?_ rfl cs⟩
  · exact .inr (.inl ⟨[], rfl⟩)
  · exact .inr (.inr (.inl ⟨[], rfl⟩))
  · exact .inr (.inr (.inr ⟨[], rfl⟩))

theorem run_lines {done : List Token} {ls : List (List Char)}
    (hspoiled : ¬ ((between done).run (ls.flatMap (· ++ ['\n']))).IsSpoiled) :
    (between done).run (ls.flatMap (· ++ ['\n'])) = (between done).run (compact ls) ∧
      ∀ l ∈ ls, ∀ cs, trim l ≠ '%' :: cs ∧ trim l ≠ '=' :: cs ∧ trim l ≠ '-' :: '-' :: cs := by
  induction ls generalizing done with
  | nil => exact ⟨rfl, by simp⟩
  | cons l ls ih =>
      rw [List.flatMap_cons, run_append] at hspoiled
      have hfirst : ¬ ((between done).run (l ++ ['\n'])).IsSpoiled := fun hs => hspoiled (hs.run _)
      obtain ⟨hline, next, hnext⟩ := run_line hfirst
      rw [hnext] at hspoiled
      obtain ⟨hrun, hmarks⟩ := ih hspoiled
      refine ⟨?_, List.forall_mem_cons.2 ⟨not_mark hfirst, hmarks⟩⟩
      rw [List.flatMap_cons, run_append, hnext, hrun]
      by_cases hblank : trim l = []
      · have hsame : between done = between next := by
          rw [← hnext, hline, hblank]
          rfl
        rw [compact_cons_blank hblank, hsame]
      · rw [compact_cons hblank, List.append_cons, run_append, ← hline, hnext]

/-- A line feed at the end of a text changes none of its tokens. -/
theorem finish_newline {s : Cursor} {tokens : List Token} (h : s.finish = some tokens) :
    (s.step '\n').finish = some tokens := by
  obtain ⟨done, place⟩ := s
  cases place with
  | outside read =>
      have hstep : step ⟨done, .outside read⟩ '\n' = between (flush done read) := by
        simp [step, isBlank]
      rw [hstep, ← h]
      rfl
  | quoted read => cases h
  | escaped read => cases h

end Token.Cursor

theorem flatMap_lines (s : String) :
    (Solver.lines s).flatMap (· ++ ['\n']) = s.toList ++ ['\n'] := by
  unfold Solver.lines
  induction s.toList with
  | nil => rfl
  | cons c cs ih =>
      rw [List.foldr_cons]
      split
      · rw [List.flatMap_cons, ih]
        rfl
      · rename_i hrest
        rw [hrest] at ih
        simpa using ih
      · rename_i hrest
        rw [hrest] at ih
        simp at ih

/-- The lines of a text that has a value. The text has the same value when white space around the
lines and blank lines are left out, and no line begins as a comment or a mark does. -/
theorem parse?_compact {s : String} {j : Json} (h : parse? s = some j) :
    parse? (String.ofList (compact (Solver.lines s))) = some j ∧
      ∀ l ∈ Solver.lines s, ∀ cs, trim l ≠ '%' :: cs ∧ trim l ≠ '=' :: cs ∧
        trim l ≠ '-' :: '-' :: cs := by
  obtain ⟨d, hd, hvalue⟩ := Option.bind_eq_some_iff.1 h
  simp only [Document.parse?, Option.bind_eq_bind, Option.bind_eq_some_iff] at hd
  obtain ⟨tokens, htokens, state, hstate, hend⟩ := hd
  have hfinish : ((Token.Cursor.between []).run (s.toList ++ ['\n'])).finish = some tokens := by
    rw [Token.scan, Token.Cursor.scanFrom_eq] at htokens
    rw [Token.Cursor.run_append]
    exact Token.Cursor.finish_newline htokens
  have hspoiled : ¬ ((Token.Cursor.between []).run (s.toList ++ ['\n'])).IsSpoiled := by
    intro hs
    obtain ⟨t, ht, hrefused⟩ := hs.finish hfinish
    exact Document.not_refused_of_foldlM hstate t ht hrefused
  rw [← flatMap_lines] at hfinish hspoiled
  obtain ⟨hrun, hmarks⟩ := Token.Cursor.run_lines hspoiled
  refine ⟨?_, hmarks⟩
  have hscan : Token.scan (String.ofList (compact (Solver.lines s))) = some tokens := by
    rw [Token.scan, Token.Cursor.scanFrom_eq, String.toList_ofList, ← hrun, hfinish]
  rw [parse?, Option.bind_eq_some_iff]
  refine ⟨d, ?_, hvalue⟩
  simp only [Document.parse?, Option.bind_eq_bind, Option.bind_eq_some_iff]
  exact ⟨tokens, hscan, state, hstate, hend⟩

end ConstraintModel.Json
