import ConstraintModel.Proofs.Identifiers
import ConstraintModel.Proofs.Readable
import ConstraintModel.Proofs.Spans

/-!
# Meaning of rendered expressions

The text that an expression is written as means what the expression does: read in the environment of a
model and an assignment, it denotes the value that the expression has under the assignment, or it is
undefined like the expression. The induction carries a frame, which gives the iterators in scope the
same values by their words and by their identities, and that scalars are written as single operands, as
the bounds of a span have to be.
-/

namespace ConstraintModel

open Source

/-- The iterators in scope have words that are free and valid. -/
structure Source.Scope.Worded (v : Vocabulary) (scope : Scope) : Prop where
  free : Scope.Free v scope
  valid : ∀ s ∈ scope, Identifier.require s.word = .ok ()

theorem Source.Scope.Worded.nil (v : Vocabulary) : Scope.Worded v [] :=
  ⟨.nil v, by simp⟩

theorem Source.Scope.Worded.cons {v : Vocabulary} {scope : Scope} (h : Scope.Worded v scope)
    (id : NodeId) : Scope.Worded v (⟨id, v.nextIterator scope⟩ :: scope) :=
  ⟨h.free.cons id, List.forall_mem_cons.2 ⟨nextIterator_valid v scope, h.valid⟩⟩

/-- Behind any values of the iterators in scope a text denotes the value of an expression, and it is
one operand if the expression is a scalar. -/
structure Means (lib : Library) (m : ResolvedModel) (σ : Assignment) (scope : Scope) (e : Expr)
    (s : String) : Prop where
  denotes : ∀ f : Frame, f.map Prod.fst = scope →
    Denotes lib (f.words ++ m.environment σ) s (e.value lib σ f.ids)
  atom : e.isCollection = false → IsAtom s

/-- The text of a term means what an expression does, if the expression can be read. -/
def MeansAt (lib : Library) (m : ResolvedModel) (σ : Assignment) (scope : Scope) (e : Expr)
    (t : Term) : Prop :=
  e.Readable m σ → scope.Worded (.ofModel m) → Means lib m σ scope e t.text

variable {lib : Library} {m : ResolvedModel} {σ : Assignment} {env : Environment} {ρ : Iteration}

theorem exists_frame (scope : Scope) : ∃ f : Frame, f.map Prod.fst = scope :=
  ⟨scope.map fun s => (s, .int 0), by simp [Function.comp_def]⟩

theorem Means.of_atom {scope : Scope} {e : Expr} {s : String}
    (h : ∀ f : Frame, f.map Prod.fst = scope →
      DenotesAtom lib (f.words ++ m.environment σ) s (e.value lib σ f.ids)) :
    Means lib m σ scope e s where
  denotes f hf := (h f hf).denotes
  atom _ := by
    obtain ⟨f, hf⟩ := exists_frame scope
    exact (h f hf).isAtom

theorem allValues_eq_mapM (es : List Expr) :
    allValues lib σ es ρ = (es.map fun e => e.value lib σ ρ).mapM id := by
  induction es with
  | nil => rfl
  | cons e es ih => simp [allValues, ih]

/-- The texts of several expressions denote what these do. -/
theorem terms_denote {scope : Scope} {es : List Expr} {ts : List Term}
    (h : List.Forall₂ (MeansAt lib m σ scope) es ts) (hread : ∀ e ∈ es, e.Readable m σ)
    (hscope : scope.Worded (.ofModel m)) {f : Frame} (hf : f.map Prod.fst = scope) :
    List.Forall₂ (Denotes lib (f.words ++ m.environment σ)) (ts.map Term.text)
      (es.map fun e => e.value lib σ f.ids) := by
  rw [List.forall₂_map_left_iff, List.forall₂_map_right_iff]
  refine List.Forall₂.flip (((List.forall₂_and_left es ts).2 ⟨hread, h⟩).imp ?_)
  exact fun e t ⟨he, ht⟩ => (ht he hscope).denotes f hf

/-! ## Elements -/

theorem index_cuts {R : Expr → Term → Prop} {is : List Expr} {cs : List Cut}
    (h : List.Forall₂ (CutSpelled R) (is.map .index) cs) :
    ∃ ts : List Term, cs = ts.map Cut.index ∧ List.Forall₂ R is ts := by
  induction is generalizing cs with
  | nil => exact ⟨[], List.forall₂_nil_left_iff.1 h, .nil⟩
  | cons i is ih =>
      cases h with
      | cons hcut hcuts =>
          cases hcut with
          | index hi =>
              obtain ⟨ts, rfl, hts⟩ := ih hcuts
              exact ⟨_ :: ts, rfl, .cons hi hts⟩

theorem positionChoices_indices (is : List Expr) :
    positionChoices lib σ (is.map .index) ρ =
      ((allValues lib σ is ρ).bind fun xs => xs.mapM Value.int?).map (List.map .index) := by
  induction is with
  | nil => rfl
  | cons i is ih =>
      rw [List.map_cons, positionChoices, allValues, ih]
      cases i.value lib σ ρ with
      | none => rfl
      | some x =>
          cases hxs : allValues lib σ is ρ with
          | none => cases x.int? <;> simp
          | some xs => cases hx : x.int? <;> cases hys : xs.mapM Value.int? <;> simp [hx, hys]

theorem element_denotes {s : Symbol} {array : Expr} {shape : Shape} {is : List Expr}
    {ts : List Term} {id : NodeId} {xs : List Value} (hid : array.id? = some id)
    (hshape : array.shape? = some shape) (hσ : σ id = .array (zeroBased shape.extents) xs)
    (hxs : xs.length = shape.extents.prod) (hword : Identifier.require s.word = .ok ())
    (hs : env.lookup s.word = some (σ id))
    (hts : List.Forall₂ (Denotes lib env) (ts.map Term.text)
      (is.map fun e => e.value lib σ ρ)) :
    DenotesAtom lib env (Term.element s ts).text
      ((Expr.view array (is.map .index)).value lib σ ρ) := by
  have helements : σ.elements? id = some xs := by rw [Assignment.elements?, hσ]
  have hpart (js : List Int) := partOf_indices hxs js
  have helement := denotes_element hword hts
  rw [← allValues_eq_mapM, hs, hσ] at helement
  rw [Expr.value, hid, hshape, positionChoices_indices]
  cases hys : allValues lib σ is ρ with
  | none => simpa [hys] using helement
  | some ys =>
      cases hjs : ys.mapM Value.int? <;>
        simpa [hys, hjs, helements, hpart, Value.element?] using helement

/-! ## Aggregates -/

/-- An aggregate reads two values alike. -/
def Value.Alike (x y : Value) : Prop :=
  x.members? = y.members? ∧ x.scalar? = y.scalar?

theorem Aggregate.apply_congr {op : Aggregate} {xs ys : List Value}
    (h : List.Forall₂ Value.Alike xs ys) : op.apply xs = op.apply ys := by
  match h with
  | .nil => rfl
  | .cons hx .nil => cases op <;> simp only [Aggregate.apply, hx.1]
  | .cons hx (.cons hy .nil) => cases op <;> simp only [Aggregate.apply, hx.1, hy.2]
  | .cons _ (.cons _ (.cons _ _)) => cases op <;> rfl

/-- Only a whole array is flattened: a readable view has no slices. -/
theorem multidimensional_value {e : Expr} (h : e.Readable m σ) (hmulti : isMultidimensional e) :
    ∃ sets xs, e.value lib σ ρ = some (.array sets xs) := by
  cases e with
  | varArray id domain shape =>
      obtain ⟨xs, hσ, -⟩ := h.fits _ List.mem_cons_self
      exact ⟨_, xs, congrArg some hσ⟩
  | paramArray id values shape =>
      obtain ⟨xs, hσ, -⟩ := h.fits _ List.mem_cons_self
      exact ⟨_, xs, congrArg some hσ⟩
  | view array ps =>
      obtain ⟨-, is, rfl, -⟩ := h.view
      simp [isMultidimensional, sliceCount, List.countP_map, Function.comp_def,
        Position.isSlice] at hmulti
  | _ => exact absurd hmulti Bool.false_ne_true

theorem arg_alike {flatten : Bool} {e : Expr} {t : Term} (h : e.Readable m σ)
    (ht : Denotes lib env t.text (e.value lib σ ρ)) :
    ∃ x, Denotes lib env (argTerm flatten e t).text x ∧
      Option.Rel Value.Alike x (e.value lib σ ρ) := by
  unfold argTerm
  split_ifs with hflat
  · have hmulti := (Bool.and_eq_true_iff.1 hflat).2
    obtain ⟨sets, xs, hvalue⟩ : ∃ sets xs, e.value lib σ ρ = some (.array sets xs) :=
      multidimensional_value h hmulti
    rw [hvalue] at ht ⊢
    exact ⟨_, (flat_denotes ht).denotes, .some ⟨rfl, rfl⟩⟩
  · refine ⟨_, ht, ?_⟩
    cases e.value lib σ ρ with
    | none => exact .none
    | some x => exact .some ⟨rfl, rfl⟩

theorem args_alike {es : List Expr} {us : List Term}
    (h : List.Forall₂ (fun e u => ∃ x, Denotes lib env (Term.text u) x ∧
      Option.Rel Value.Alike x (e.value lib σ ρ)) es us) :
    ∃ xs, List.Forall₂ (Denotes lib env) (us.map Term.text) xs ∧
      Option.Rel (List.Forall₂ Value.Alike) (xs.mapM id) (allValues lib σ es ρ) := by
  induction h with
  | nil => exact ⟨[], .nil, .some .nil⟩
  | @cons e u es us hu _ ih =>
      obtain ⟨x, hx, hrel⟩ := hu
      obtain ⟨xs, hxs, hrels⟩ := ih
      refine ⟨x :: xs, .cons hx hxs, ?_⟩
      rw [List.mapM_cons, allValues]
      generalize e.value lib σ ρ = y at hrel
      generalize xs.mapM id = xs, allValues lib σ es ρ = ys at hrels
      cases hrel with
      | none => exact .none
      | some halike =>
          cases hrels with
          | none => exact .none
          | some halikes => exact .some (.cons halike halikes)

theorem aggregate_denotes {op : Aggregate} {es : List Expr} {us : List Term}
    (h : List.Forall₂ (fun e u => ∃ x, Denotes lib env (Term.text u) x ∧
      Option.Rel Value.Alike x (e.value lib σ ρ)) es us) :
    DenotesAtom lib env (Term.call (.aggregate op) us).text
      ((Expr.aggregate op es).value lib σ ρ) := by
  obtain ⟨xs, hxs, hargs⟩ := args_alike h
  have hcall := denotes_call (.aggregate op) hxs
  rw [Expr.value]
  generalize xs.mapM id = xs, allValues lib σ es ρ = ys at hargs hcall
  cases hargs with
  | none => exact hcall
  | some hxs => exact (congrArg (DenotesAtom lib env _) (Aggregate.apply_congr hxs)).mp hcall

/-! ## Comprehensions -/

def frames (lib : Library) (σ : Assignment) (v : Vocabulary) :
    List Generator → Frame → Option (List Frame)
  | [], f => some [f]
  | .over id _ domain :: gs, f => do
    let s : Symbol := ⟨id, v.nextIterator (f.map Prod.fst)⟩
    let members ← (← domain.value lib σ f.ids).members?
    return (← members.mapM fun x => frames lib σ v gs ((s, x) :: f)).flatten

theorem iterations_eq (v : Vocabulary) (gs : List Generator) (f : Frame) :
    iterations lib σ gs f.ids = (frames lib σ v gs f).map (List.map Frame.ids) := by
  induction gs generalizing f with
  | nil => rfl
  | cons g gs ih =>
      obtain ⟨id, type, domain⟩ := g
      rw [iterations, frames]
      cases domain.value lib σ f.ids with
      | none => rfl
      | some d =>
          cases hd : d.members? with
          | none => simp [hd]
          | some xs =>
              simp only [hd, Option.bind_eq_bind, Option.bind_some]
              refine mapM_map_option xs fun x _ => ?_
              exact ih ((⟨id, v.nextIterator (f.map Prod.fst)⟩, x) :: f)

/-- The texts of the heads of generators read as heads that go through the same frames. -/
theorem heads_read {scope inner : Scope} {gs : List Generator} {hs : List (Symbol × Term)}
    (h : HeadsSpelled (.ofModel m) (MeansAt lib m σ) scope gs hs inner)
    (hread : ∀ id type d, .over id type d ∈ gs → d.Readable m σ)
    (hscope : scope.Worded (.ofModel m)) : ∃ items : List Item,
      List.Forall₂ ItemReads ((Term.headTexts hs).map String.toList) items ∧
      ∀ f : Frame, f.map Prod.fst = scope →
        Phrase.rounds lib items (f.words ++ m.environment σ) =
          (frames lib σ (.ofModel m) gs f).map (List.map fun f => f.words ++ m.environment σ) := by
  induction h with
  | nil => exact ⟨[], .nil, fun f _ => by simp [Phrase.rounds, frames]⟩
  | @cons scope id type domain t gs hs inner ht _ ih =>
      have hmeans := ht (hread id type domain List.mem_cons_self) hscope
      obtain ⟨p, hp, hdomain⟩ := exists_phrase (exists_frame scope) hmeans.denotes
      have hvalid := nextIterator_valid (.ofModel m) scope
      have hinner := hscope.cons id
      obtain ⟨items, hitems, hrounds⟩ :=
        ih (fun id' type' d' hmem => hread id' type' d' (List.mem_cons_of_mem _ hmem)) hinner
      have hword : PhraseReads (Vocabulary.nextIterator (.ofModel m) scope).toList (.word _) :=
        .atom (.word (isWord_of_valid hvalid))
      refine ⟨(some (Vocabulary.nextIterator (.ofModel m) scope), p) :: items, .cons ?_ hitems, ?_⟩
      · rw [String.ofList_toList] at hword
        simpa using hword.drawn hp
      · intro f hf
        rw [Phrase.rounds, frames, hdomain f hf, hf]
        cases domain.value lib σ f.ids with
        | none => rfl
        | some d =>
            cases hd : d.members? with
            | none => simp [hd]
            | some xs =>
                simp only [hd, Option.bind_eq_bind, Option.bind_some]
                refine mapM_map_option xs fun x _ => ?_
                exact hrounds ((⟨id, Vocabulary.nextIterator (.ofModel m) scope⟩, x) :: f)
                  (by rw [List.map_cons, hf])

/-- Inside the heads every frame has the scope that the body is spelled in. -/
theorem frames_scope {v : Vocabulary} {R : Scope → Expr → Term → Prop} {scope inner : Scope}
    {gs : List Generator} {hs : List (Symbol × Term)} (h : HeadsSpelled v R scope gs hs inner)
    {f : Frame} (hf : f.map Prod.fst = scope) {fs : List Frame}
    (hfs : frames lib σ v gs f = some fs) : ∀ f' ∈ fs, f'.map Prod.fst = inner := by
  induction h generalizing f fs with
  | nil =>
      rw [frames, Option.some.injEq] at hfs
      rw [← hfs]
      simpa using hf
  | @cons scope id type domain t gs hs inner _ _ ih =>
      simp only [frames, Option.bind_eq_bind, Option.bind_eq_some_iff, Option.pure_def,
        Option.some.injEq, hf] at hfs
      obtain ⟨d, -, xs, -, fss, hfss, rfl⟩ := hfs
      intro f' hf'
      obtain ⟨fs, hmem, hf'⟩ := List.mem_flatten.1 hf'
      obtain ⟨x, -, hx⟩ := exists_of_mem_mapM hfss hmem
      exact ih (by rw [List.map_cons, hf]) hx f' hf'

theorem HeadsSpelled.worded {R : Scope → Expr → Term → Prop} {v : Vocabulary} {scope inner : Scope}
    {gs : List Generator} {hs : List (Symbol × Term)} (h : HeadsSpelled v R scope gs hs inner)
    (hscope : scope.Worded v) : inner.Worded v := by
  induction h with
  | nil => exact hscope
  | cons _ _ ih => exact ih (hscope.cons _)

theorem comprehension_means {op : Aggregate} {scope inner : Scope} {gs : List Generator}
    {hs : List (Symbol × Term)} {body : Expr} {t : Term}
    (hheads : HeadsSpelled (.ofModel m) (MeansAt lib m σ) scope gs hs inner)
    (hbody : MeansAt lib m σ inner body t) :
    MeansAt lib m σ scope (.comprehension op gs body) (.comprehension op hs t) := by
  intro hread hscope
  obtain ⟨hdomains, hread⟩ := hread.comprehension
  obtain ⟨items, hitems, hrounds⟩ := heads_read hheads hdomains hscope
  have hmeans := hbody hread (HeadsSpelled.worded hheads hscope)
  obtain ⟨p, hp, hvalue⟩ := exists_phrase (exists_frame inner) hmeans.denotes
  refine .of_atom fun f hf => ?_
  have hdenotes : DenotesAtom lib (f.words ++ m.environment σ) (Term.comprehension op hs t).text _ :=
    denotes_comprehension op hitems hp
  rw [hrounds f hf] at hdenotes
  rw [Expr.value, iterations_eq (.ofModel m)]
  cases hfs : frames lib σ (.ofModel m) gs f with
  | none => simpa [hfs] using hdenotes
  | some fs =>
      have hinner := frames_scope hheads hf hfs
      have hbodies : (fs.map fun f => f.words ++ m.environment σ).mapM (p.value lib ·) =
          (fs.map Frame.ids).mapM (body.value lib σ ·) := by
        rw [List.mapM_map, List.mapM_map]
        exact mapM_congr_option fun f' hf' => hvalue f' (hinner f' hf')
      simpa [hfs, hbodies] using hdenotes

/-! ## Every node -/

section Nodes

variable {scope : Scope}

theorem range_means {start stop : Expr} {type : ElemType} {first last : Term}
    (htype : (Expr.range start stop).elemType = .ok type) (hfirst : MeansAt lib m σ scope start first)
    (hlast : MeansAt lib m σ scope stop last) :
    MeansAt lib m σ scope (.range start stop) (spanOf type stop first last) := by
  intro hread hscope
  obtain ⟨⟨hstart, hscalar⟩, ⟨hstop, -⟩, hfloat⟩ := hread.range
  have hne : type ≠ .float := by
    intro heq
    exact hfloat (heq ▸ htype)
  rw [spanOf, if_neg hne]
  refine ⟨?_, fun hcollection => absurd hcollection (by simp [Expr.isCollection])⟩
  rintro f rfl
  have hfirst := hfirst hstart hscope
  refine range_denotes ((hfirst.denotes f rfl).atom (hfirst.atom hscalar))
    ((hlast hstop hscope).denotes f rfl) fun w hw => ?_
  rw [literalInt?_eq_some.1 hw]
  rfl

theorem power_means {base exponent : Expr} {a b : Term} (ha : MeansAt lib m σ scope base a)
    (hb : MeansAt lib m σ scope exponent b) :
    MeansAt lib m σ scope (.power base exponent) (.call .power [a, b]) := by
  intro hread hscope
  obtain ⟨hbase, hexponent⟩ := hread.power
  refine .of_atom ?_
  rintro f rfl
  have hargs : List.Forall₂ (Denotes lib (f.words ++ m.environment σ)) ([a, b].map Term.text)
      [base.value lib σ f.ids, exponent.value lib σ f.ids] :=
    .cons ((ha hbase hscope).denotes f rfl) (.cons ((hb hexponent hscope).denotes f rfl) .nil)
  have hcall := denotes_call .power hargs
  rw [Expr.value]
  generalize base.value lib σ f.ids = x, exponent.value lib σ f.ids = y at hcall ⊢
  cases x with
  | none => exact hcall
  | some x =>
      cases y with
      | none => cases hx : x.scalar? <;> simpa [hx] using hcall
      | some y => exact hcall

variable (hwords : (Symbol.words m.symbols ++ m.enumerationWords).Nodup)
  (hvalid : ∀ w ∈ Symbol.words m.symbols ++ m.enumerationWords, Identifier.require w = .ok ())
include hwords hvalid

theorem literal_means (l : Literal) : MeansAt lib m σ scope (.literal l) (.literal l) := by
  intro hread hscope
  refine .of_atom ?_
  rintro f rfl
  have hfloat : l.elemType ≠ .float := by simpa [Expr.isPlain] using hread.plain
  rw [Expr.value]
  exact literal_denotes lib hwords (fun w hw => hvalid w (List.mem_append_right _ hw))
    hscope.free hfloat hread.declared

theorem setLiteral_means (ls : List Literal) :
    MeansAt lib m σ scope (.setLiteral ls) (.set ls) := by
  intro hread hscope
  refine .of_atom ?_
  rintro f rfl
  have hfloats : ∀ l ∈ ls, l.elemType ≠ .float := by simpa [Expr.isPlain] using hread.plain
  have hmembers : List.Forall₂ (Denotes lib (f.words ++ m.environment σ))
      (ls.map Literal.text) ((ls.map Value.scalar).map some) := by
    rw [List.map_map, List.forall₂_map_left_iff, List.forall₂_map_right_iff, List.forall₂_same]
    intro l hl
    exact (literal_denotes lib hwords (fun w hw => hvalid w (List.mem_append_right _ hw))
      hscope.free (hfloats l hl) fun e he =>
        hread.declared e (List.mem_flatMap.2 ⟨l, hl, he⟩)).denotes
  have hset := denotes_set hmembers
  rw [mapM_some] at hset
  simp only [Option.bind_eq_bind, Option.bind_some, mapM_scalar?] at hset
  rw [Expr.value]
  exact hset

theorem entity_means {e : Expr} {id : NodeId} {s : Symbol} (hid : e.id? = some id)
    (hs : Symbol.lookup id m.symbols = some s) : MeansAt lib m σ scope e (.entity s) := by
  intro _ hscope
  refine .of_atom ?_
  rintro f rfl
  have hvalue : e.value lib σ f.ids = some (σ id) := by cases e <;> cases hid <;> rfl
  rw [hvalue, ← lookup_entity hwords hscope.free hs]
  exact denotes_word (hvalid _ (List.mem_append_left _ (Symbol.mem_words_of_lookup hs)))

theorem enumeration_means (e : Enumeration) :
    MeansAt lib m σ scope (.enumeration e) (.enumeration e) := by
  intro hread hscope
  refine .of_atom ?_
  rintro f rfl
  have hmem := hread.declared e List.mem_cons_self
  rw [Expr.value, ← lookup_enumeration hwords hscope.free hmem]
  exact denotes_word (hvalid _ (List.mem_append_right _
    (List.mem_flatMap.2 ⟨e, hmem, List.mem_cons_self⟩)))

theorem view_means {array : Expr} {shape : Shape} {positions : List Position} {s : Symbol}
    {cs : List Cut} (hs : (Vocabulary.ofModel m).symbolOf array = .ok s)
    (hshape : array.shape? = some shape)
    (hcuts : List.Forall₂ (CutSpelled (MeansAt lib m σ scope)) positions cs) :
    MeansAt lib m σ scope (.view array positions) (viewTerm s shape.rank cs) := by
  intro hread hscope
  obtain ⟨hfits, is, rfl, his⟩ := hread.view
  obtain ⟨id, hid, hlookup⟩ := symbolOf_eq_ok.1 hs
  obtain ⟨xs, hσ, hxs⟩ := hfits.elements hid hshape
  obtain ⟨ts, rfl, hts⟩ := index_cuts hcuts
  rw [viewTerm_indices]
  refine .of_atom ?_
  rintro f rfl
  exact element_denotes hid hshape hσ hxs
    (hvalid _ (List.mem_append_left _ (Symbol.mem_words_of_lookup hlookup)))
    (lookup_entity hwords hscope.free hlookup) (terms_denote hts his hscope rfl)

theorem size_means {array : Expr} {shape : Shape} {dim : Nat} {s : Symbol}
    (hs : (Vocabulary.ofModel m).symbolOf array = .ok s) (hshape : array.shape? = some shape) :
    MeansAt lib m σ scope (.size array dim) (sizeTerm s shape.rank dim) := by
  intro hread hscope
  obtain ⟨hfits, n, hn, hpos⟩ := hread.size hshape
  obtain ⟨id, hid, hlookup⟩ := symbolOf_eq_ok.1 hs
  obtain ⟨xs, hσ, -⟩ := hfits.elements hid hshape
  refine .of_atom ?_
  rintro f rfl
  have hentry : (f.words ++ m.environment σ).lookup s.word = some (σ id) :=
    lookup_entity hwords hscope.free hlookup
  have hvalue : (Expr.size array dim).value lib σ f.ids = some (.int n) := by
    simp [Expr.value, hshape, hn]
  rw [hvalue]
  exact sizeTerm_denotes (hvalid _ (List.mem_append_left _ (Symbol.mem_words_of_lookup hlookup)))
    (hentry.trans (congrArg some hσ)) hn hpos

end Nodes

/-- At every node the text means what the expression does, once the texts inside it do. -/
theorem spellingRules_meansAt (lib : Library) (σ : Assignment)
    (hwords : (Symbol.words m.symbols ++ m.enumerationWords).Nodup)
    (hvalid : ∀ w ∈ Symbol.words m.symbols ++ m.enumerationWords,
      Identifier.require w = .ok ()) :
    SpellingRules (.ofModel m) (MeansAt lib m σ) where
  literal _ l _ := literal_means hwords hvalid l
  setLiteral _ ls _ := setLiteral_means hwords hvalid ls
  entity _ _ _ _ hid hs := entity_means hwords hvalid hid hs
  view _ _ _ _ _ _ hs hshape hcuts := view_means hwords hvalid hs hshape hcuts
  range _ _ _ _ _ _ _ htype hfirst hlast := range_means htype hfirst hlast
  sequence scope items ts hts := by
    intro hread hscope
    refine .of_atom ?_
    rintro f rfl
    rw [Expr.value, allValues_eq_mapM]
    exact denotes_list (terms_denote hts hread.sequence hscope rfl)
  enumeration _ e := enumeration_means hwords hvalid e
  iterator scope id type s hs := by
    intro _ hscope
    refine .of_atom ?_
    rintro f rfl
    rw [Expr.value, ← lookup_iterator hscope.free hs (m.environment σ)]
    exact denotes_word (hscope.valid s (List.mem_of_find?_eq_some hs))
  unary scope op e t ht := by
    intro hread hscope
    refine .of_atom ?_
    rintro f rfl
    exact ((ht hread.unary hscope).denotes f rfl).unary op
  binary scope op e₁ e₂ t₁ t₂ _ h₁ h₂ := by
    intro hread hscope
    obtain ⟨hread₁, hread₂⟩ := hread.binary
    refine .of_atom ?_
    rintro f rfl
    exact ((h₁ hread₁ hscope).denotes f rfl).binary op ((h₂ hread₂ hscope).denotes f rfl)
  power _ _ _ _ _ ha hb := power_means ha hb
  size _ _ _ _ _ hs hshape := size_means hwords hvalid hs hshape
  aggregate scope op args ts hts := by
    intro hread hscope
    refine .of_atom ?_
    rintro f rfl
    refine aggregate_denotes (((List.forall₂_and_left args ts).2 ⟨hread.aggregate, hts⟩).imp ?_)
    rintro e _ ⟨he, t, ht, rfl⟩
    exact arg_alike he ((ht he hscope).denotes f rfl)
  comprehension _ _ _ _ _ _ _ hheads hbody := comprehension_means hheads hbody
  global _ _ _ _ _ := by
    intro hread
    exact absurd hread.plain Bool.false_ne_true

/-- In a model whose words all differ, the text of what is at the top level denotes its value. -/
theorem term_meansAt (lib : Library) (σ : Assignment) {model : Model} {n n' : Nat}
    {m : ResolvedModel} (h : model.resolve.run n = (.ok m, n'))
    (hwords : (Symbol.words m.symbols ++ m.enumerationWords).Nodup) {e : Expr} {t : Term}
    (ht : e.term (.ofModel m) [] = .ok t) : MeansAt lib m σ [] e t :=
  Expr.term_induction (spellingRules_meansAt lib σ hwords (resolve_words h).2.2) ht

/-- A square array and a parameter that have the words of the first iterators. -/
def gridModel : Model where
  attributes := [("i", .varArray ⟨0⟩ .int ⟨[2, 2]⟩), ("j", .param ⟨1⟩ (.int 5))]
  constraints := []
  objective := .satisfy

def gridAssignment : Assignment := fun id =>
  if id = ⟨0⟩ then .array (zeroBased [2, 2]) [.int 1, .int 2, .int 3, .int 4] else .int 5

/-- The parameter times each element of the array on and above its diagonal. -/
def upperSum : Expr :=
  let grid := .varArray ⟨0⟩ .int ⟨[2, 2]⟩
  .comprehension .sum
    [.over ⟨2⟩ .int (.range (.literal (.int 0)) (.size grid 0)),
      .over ⟨3⟩ .int (.range (.iterator ⟨2⟩ .int) (.literal (.int 2)))]
    (.binary .mul (.param ⟨1⟩ (.int 5))
      (.view grid [.index (.iterator ⟨2⟩ .int), .index (.iterator ⟨3⟩ .int)]))

end ConstraintModel
