import ConstraintModel.Proofs.Spelling

/-!
# Composed terms

The terms of views, sizes, ranges and arguments are put together from the terms of their parts. A
predicate that passes from parts to what is put together from them holds of all these terms once it
holds of the parts. A predicate that says what is in a term holds of these terms exactly if it holds
of a part. A map that goes into the parts of a term changes these terms in their parts only.
-/

namespace ConstraintModel.Source

/-- A predicate on terms that passes from parts to what is put together from them. -/
structure Compositional (P : Term → Prop) : Prop where
  int : ∀ v, P (.int v)
  list : ∀ ts, (∀ t ∈ ts, P t) → P (.list ts)
  call : ∀ f ts, (∀ t ∈ ts, P t) → P (.call f ts)
  element : ∀ s ts, P (.entity s) → (∀ t ∈ ts, P t) → P (.element s ts)
  span : ∀ float a b, P a → P b → P (.span float a b)
  binary : ∀ op a b, P a → P b → P (.binary op a b)

/-- Whether a predicate holds of what a cut is made of. -/
def Cut.All (P : Term → Prop) : Cut → Prop
  | index i => P i
  | slice span indexSet => P span ∧ P indexSet

namespace Compositional

variable {P : Term → Prop}

theorem lastBelow (hP : Compositional P) {stop : Expr} {last : Term} (h : P last) :
    P (lastBelow stop last) := by
  unfold Source.lastBelow
  split
  · exact hP.int _
  · exact hP.binary _ _ _ h (hP.int 1)

theorem lastIndex (hP : Compositional P) {start stop : Expr} {first last : Term} (hfirst : P first)
    (hlast : P last) : P (lastIndex start stop first last) := by
  unfold Source.lastIndex
  split
  · exact hP.int _
  · exact hP.binary _ _ _ hlast (hP.int 1)
  · exact hP.binary _ _ _ (hP.binary _ _ _ hlast hfirst) (hP.int 1)

theorem spanOf (hP : Compositional P) {type : ElemType} {stop : Expr} {first last : Term}
    (hfirst : P first) (hlast : P last) : P (spanOf type stop first last) := by
  unfold Source.spanOf
  split_ifs
  · exact hP.span _ _ _ hfirst hlast
  · exact hP.span _ _ _ hfirst (hP.lastBelow hlast)

theorem argTerm (hP : Compositional P) {flatten : Bool} {e : Expr} {t : Term} (h : P t) :
    P (argTerm flatten e t) := by
  unfold Source.argTerm
  split_ifs
  · exact hP.call _ _ (List.forall_mem_singleton.2 h)
  · exact h

theorem sizeTerm (hP : Compositional P) {array : Symbol} {rank dim : Nat} (h : P (.entity array)) :
    P (sizeTerm array rank dim) := by
  refine hP.binary _ _ _ (hP.call _ _ (List.forall_mem_singleton.2 ?_)) (hP.int 1)
  exact hP.call _ _ (List.forall_mem_singleton.2 h)

theorem ofSlice (hP : Compositional P) {start stop : Expr} {first last : Term} (hfirst : P first)
    (hlast : P last) : (Cut.ofSlice start stop first last).All P :=
  ⟨hP.span _ _ _ hfirst (hP.lastBelow hlast), hP.span _ _ _ (hP.int 0) (hP.lastIndex hfirst hlast)⟩

theorem viewTerm (hP : Compositional P) {array : Symbol} {rank : Nat} {cuts : List Cut}
    (harray : P (.entity array)) (hcuts : ∀ c ∈ cuts, c.All P) : P (viewTerm array rank cuts) := by
  have hindices : ∀ t ∈ cuts.filterMap Cut.index?, P t := by
    intro t ht
    obtain ⟨c, hc, hindex⟩ := List.mem_filterMap.1 ht
    cases c with
    | index i =>
        cases hindex
        exact hcuts _ hc
    | slice _ _ => cases hindex
  have hkept : ∀ t ∈ cuts.filterMap Cut.keptIndexSet?, P t := by
    intro t ht
    obtain ⟨c, hc, hset⟩ := List.mem_filterMap.1 ht
    cases c with
    | index _ => cases hset
    | slice _ _ =>
        cases hset
        exact (hcuts _ hc).2
  have hspans : ∀ t ∈ cuts.map Cut.span, P t := by
    rw [List.forall_mem_map]
    intro c hc
    cases c with
    | index i => exact hP.span _ _ _ (hcuts _ hc) (hcuts _ hc)
    | slice _ _ => exact (hcuts _ hc).1
  have hsets : ∀ t ∈ cuts.map Cut.indexSet, P t := by
    rw [List.forall_mem_map]
    intro c hc
    cases c with
    | index i => exact hP.span _ _ _ (hP.int 0) (hP.int 0)
    | slice _ _ => exact (hcuts _ hc).2
  have hpart : P (.call (.slice rank)
      (.entity array :: .list (cuts.map Cut.span) :: cuts.map Cut.indexSet)) :=
    hP.call _ _ (List.forall_mem_cons.2 ⟨harray, List.forall_mem_cons.2 ⟨hP.list _ hspans, hsets⟩⟩)
  unfold Source.viewTerm
  simp only
  split_ifs
  · exact hP.element _ _ harray hindices
  · exact hpart
  · exact hP.call _ _ (List.forall_mem_singleton.2 hpart)
  · exact hP.call _ _ (List.forall_mem_append.2 ⟨hkept, List.forall_mem_singleton.2 hpart⟩)

end Compositional

/-! ## What is in a term -/

/-- A predicate on terms that holds of what is put together exactly if it holds of a part. -/
structure Collects (P : Term → Prop) : Prop where
  int : ∀ v, ¬ P (.int v)
  list : ∀ ts, P (.list ts) ↔ ∃ t ∈ ts, P t
  call : ∀ f ts, P (.call f ts) ↔ ∃ t ∈ ts, P t
  element : ∀ s ts, P (.element s ts) ↔ P (.entity s) ∨ ∃ t ∈ ts, P t
  span : ∀ a b, P (.span false a b) ↔ P a ∨ P b
  binary : ∀ op a b, P (.binary op a b) ↔ P a ∨ P b

/-- Whether a predicate holds of what is taken along a dimension or of its index set. -/
def Cut.Any (P : Term → Prop) (c : Cut) : Prop :=
  P c.span ∨ P c.indexSet

namespace Collects

variable {P : Term → Prop}

theorem lastBelow (hP : Collects P) {stop : Expr} {last : Term}
    (h : stop.literalInt? ≠ none → ¬ P last) : P (lastBelow stop last) ↔ P last := by
  unfold Source.lastBelow
  split
  next w hw => exact iff_of_false (hP.int _) (h (by simp [hw]))
  next => rw [hP.binary, or_iff_left (hP.int 1)]

theorem of_lastIndex (hP : Collects P) {start stop : Expr} {first last : Term}
    (h : P (lastIndex start stop first last)) : P first ∨ P last := by
  unfold Source.lastIndex at h
  split at h
  · exact absurd h (hP.int _)
  · rw [hP.binary, or_iff_left (hP.int 1)] at h
    exact .inr h
  · rw [hP.binary, hP.binary, or_iff_left (hP.int 1)] at h
    exact h.symm

theorem spanOf (hP : Collects P) {type : ElemType} {stop : Expr} {first last : Term}
    (htype : type ≠ .float) (h : stop.literalInt? ≠ none → ¬ P last) :
    P (spanOf type stop first last) ↔ P first ∨ P last := by
  rw [Source.spanOf, if_neg htype, hP.span, hP.lastBelow h]

theorem argTerm (hP : Collects P) {flatten : Bool} {e : Expr} {t : Term} :
    P (argTerm flatten e t) ↔ P t := by
  unfold Source.argTerm
  split_ifs
  · rw [hP.call]
    simp
  · rfl

theorem sizeTerm (hP : Collects P) {array : Symbol} {rank dim : Nat} :
    P (sizeTerm array rank dim) ↔ P (.entity array) := by
  rw [Source.sizeTerm, hP.binary, or_iff_left (hP.int 1), hP.call]
  simp [hP.call]

theorem index (hP : Collects P) {i : Term} : (Cut.index i).Any P ↔ P i := by
  rw [Cut.Any, Cut.span, Cut.indexSet, hP.span, hP.span]
  simp [hP.int]

theorem ofSlice (hP : Collects P) {start stop : Expr} {first last : Term}
    (h : stop.literalInt? ≠ none → ¬ P last) :
    (Cut.ofSlice start stop first last).Any P ↔ P first ∨ P last := by
  rw [Cut.Any, Cut.ofSlice, Cut.span, Cut.indexSet, hP.span, hP.span, hP.lastBelow h]
  exact or_iff_left_of_imp fun hset => hP.of_lastIndex (hset.resolve_left (hP.int 0))

theorem indices (hP : Collects P) {cuts : List Cut}
    (hnone : cuts.filterMap Cut.keptIndexSet? = []) :
    (∃ t ∈ cuts.filterMap Cut.index?, P t) ↔ ∃ c ∈ cuts, c.Any P := by
  have hindex : ∀ c ∈ cuts, ∃ i, c = .index i := by
    intro c hc
    cases c with
    | index i => exact ⟨i, rfl⟩
    | slice _ indexSet =>
        have hkept : indexSet ∈ cuts.filterMap Cut.keptIndexSet? :=
          List.mem_filterMap.2 ⟨_, hc, rfl⟩
        rw [hnone] at hkept
        cases hkept
  constructor
  · rintro ⟨t, ht, hPt⟩
    obtain ⟨c, hc, ht⟩ := List.mem_filterMap.1 ht
    obtain ⟨i, rfl⟩ := hindex c hc
    cases ht
    exact ⟨_, hc, hP.index.2 hPt⟩
  · rintro ⟨c, hc, hPc⟩
    obtain ⟨i, rfl⟩ := hindex c hc
    exact ⟨i, List.mem_filterMap.2 ⟨_, hc, rfl⟩, hP.index.1 hPc⟩

/-- However cuts are written, the term has what the array and the cuts have. -/
theorem viewTerm (hP : Collects P) {array : Symbol} {rank : Nat} {cuts : List Cut} :
    P (viewTerm array rank cuts) ↔ P (.entity array) ∨ ∃ c ∈ cuts, c.Any P := by
  have hpart : P (.call (.slice rank)
      (.entity array :: .list (cuts.map Cut.span) :: cuts.map Cut.indexSet)) ↔
      P (.entity array) ∨ ∃ c ∈ cuts, c.Any P := by
    rw [hP.call]
    simp [hP.list, Cut.Any, and_or_left, exists_or]
  unfold Source.viewTerm
  simp only
  split_ifs with hempty
  · rw [hP.element, hP.indices (List.isEmpty_iff.1 hempty)]
  · exact hpart
  · rw [hP.call]
    simpa using hpart
  · rw [hP.call, ← hpart]
    constructor
    · rintro ⟨t, ht, hPt⟩
      rcases List.mem_append.1 ht with ht | ht
      · -- An index set that is kept is also given to the part.
        obtain ⟨c, hc, hset⟩ := List.mem_filterMap.1 ht
        cases c with
        | index _ => cases hset
        | slice _ _ =>
            cases hset
            exact hpart.2 (.inr ⟨_, hc, .inr hPt⟩)
      · rwa [List.mem_singleton.1 ht] at hPt
    · intro h
      exact ⟨_, List.mem_append_right _ (List.mem_singleton_self _), h⟩

end Collects

/-! ## Maps of terms -/

/-- A map of terms that goes into their parts, and maps the symbols of entities too. -/
structure Structural (ψ : Symbol → Symbol) (φ : Term → Term) : Prop where
  int : ∀ v, φ (.int v) = .int v
  entity : ∀ s, φ (.entity s) = .entity (ψ s)
  list : ∀ ts, φ (.list ts) = .list (ts.map φ)
  call : ∀ f ts, φ (.call f ts) = .call f (ts.map φ)
  element : ∀ s ts, φ (.element s ts) = .element (ψ s) (ts.map φ)
  span : ∀ float a b, φ (.span float a b) = .span float (φ a) (φ b)
  binary : ∀ op a b, φ (.binary op a b) = .binary op (φ a) (φ b)

/-- The cut with its terms mapped. -/
def Cut.map (φ : Term → Term) : Cut → Cut
  | index i => index (φ i)
  | slice span indexSet => slice (φ span) (φ indexSet)

namespace Structural

variable {ψ : Symbol → Symbol} {φ : Term → Term}

theorem lastBelow (hφ : Structural ψ φ) (stop : Expr) (last : Term) :
    φ (lastBelow stop last) = lastBelow stop (φ last) := by
  unfold Source.lastBelow
  split
  · exact hφ.int _
  · rw [hφ.binary, hφ.int]

theorem lastIndex (hφ : Structural ψ φ) (start stop : Expr) (first last : Term) :
    φ (lastIndex start stop first last) = lastIndex start stop (φ first) (φ last) := by
  unfold Source.lastIndex
  split
  · exact hφ.int _
  · rw [hφ.binary, hφ.int]
  · rw [hφ.binary, hφ.binary, hφ.int]

theorem spanOf (hφ : Structural ψ φ) (type : ElemType) (stop : Expr) (first last : Term) :
    φ (spanOf type stop first last) = spanOf type stop (φ first) (φ last) := by
  unfold Source.spanOf
  split_ifs
  · exact hφ.span _ _ _
  · rw [hφ.span, hφ.lastBelow]

theorem argTerm (hφ : Structural ψ φ) (flatten : Bool) (e : Expr) (t : Term) :
    φ (argTerm flatten e t) = argTerm flatten e (φ t) := by
  unfold Source.argTerm
  split_ifs
  · exact hφ.call _ _
  · rfl

theorem sizeTerm (hφ : Structural ψ φ) (array : Symbol) (rank dim : Nat) :
    φ (sizeTerm array rank dim) = sizeTerm (ψ array) rank dim := by
  simp only [Source.sizeTerm, hφ.binary, hφ.call, hφ.int, hφ.entity, List.map_cons, List.map_nil]

theorem ofSlice (hφ : Structural ψ φ) (start stop : Expr) (first last : Term) :
    (Cut.ofSlice start stop first last).map φ = Cut.ofSlice start stop (φ first) (φ last) := by
  simp only [Cut.ofSlice, Cut.map, hφ.span, hφ.int, hφ.lastBelow, hφ.lastIndex]

theorem viewTerm (hφ : Structural ψ φ) (array : Symbol) (rank : Nat) (cuts : List Cut) :
    φ (viewTerm array rank cuts) = viewTerm (ψ array) rank (cuts.map (Cut.map φ)) := by
  have hkept : (cuts.map (Cut.map φ)).filterMap Cut.keptIndexSet? =
      (cuts.filterMap Cut.keptIndexSet?).map φ := by
    have hcut (c : Cut) : (c.map φ).keptIndexSet? = c.keptIndexSet?.map φ := by cases c <;> rfl
    simp only [List.filterMap_map, List.map_filterMap, Function.comp_def, hcut]
  have hindices : (cuts.map (Cut.map φ)).filterMap Cut.index? =
      (cuts.filterMap Cut.index?).map φ := by
    have hcut (c : Cut) : (c.map φ).index? = c.index?.map φ := by cases c <;> rfl
    simp only [List.filterMap_map, List.map_filterMap, Function.comp_def, hcut]
  have hspans : (cuts.map (Cut.map φ)).map Cut.span = (cuts.map Cut.span).map φ := by
    have hcut (c : Cut) : (c.map φ).span = φ c.span := by
      cases c with
      | index i => exact (hφ.span _ _ _).symm
      | slice _ _ => rfl
    simp only [List.map_map, Function.comp_def, hcut]
  have hsets : (cuts.map (Cut.map φ)).map Cut.indexSet = (cuts.map Cut.indexSet).map φ := by
    have hcut (c : Cut) : (c.map φ).indexSet = φ c.indexSet := by
      cases c with
      | index i => simp only [Cut.map, Cut.indexSet, hφ.span, hφ.int]
      | slice _ _ => rfl
    simp only [List.map_map, Function.comp_def, hcut]
  simp only [Source.viewTerm, hkept, hindices, hspans, hsets, List.isEmpty_map, List.length_map]
  split_ifs
  · exact hφ.element _ _
  all_goals
    simp only [hφ.call, hφ.entity, hφ.list, List.map_cons, List.map_nil, List.map_append]

end Structural

end ConstraintModel.Source
