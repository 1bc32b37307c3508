import Emyu.Lib.Polling

/-! What the usual stream combinators do, which of their laws hold up to empty steps, and what it
means that a library's combinators behave as documented. -/

universe u

namespace Polling

open Mealy

variable {W E T O P A : Type u}

/-- A closure that is called again and again: each call sees the world, has effects and a result. -/
abbrev Fn (W E A B : Type u) := Mealy (A × W) (List E × B)

def Fn.map {B : Type u} (k : A → B) (f : Fn W E O A) : Fn W E O B :=
  ⟨fun past i => ((f.answer past i).1, k (f.answer past i).2)⟩

/-- The closure that answers at once where `sel` does, and calls `f` on what `sel` gives. -/
def Fn.orElse {B C : Type u} (sel : A × W → (List E × C) ⊕ B) (f : Fn W E B C) : Fn W E A C :=
  ⟨fun past i => match sel i with
    | .inl a => a
    | .inr x => f.answer (past.filterMap fun j => (sel j).getRight?.map (·, j.2)) (x, i.2)⟩

/-- `stream::empty`. -/
def empty : Strm W E T := stateless fun _ => some .ended

/-- `future::ready`. -/
def ready (x : T) : Fut W E T := stateless fun _ => some (.inr x)

/-- The stream of the one item `x`. -/
def single (x : T) : Strm W E T := cons (some (.item x)) empty

/-- The effects `es` and then the stream `s`. -/
def emit : List E → Strm W E T → Strm W E T
  | [], s => s
  | e :: es, s => cons (some (.effect e)) (emit es s)

def awaitStep (out : A → Option T) :
    Option (Fut W E A) → W → Option (Event E T) × Option (Fut W E A)
  | none, _ => (some .ended, none)
  | some fut, w =>
    match fut.head w with
    | none => (none, some (fut.next w))
    | some (.inl e) => (some (.effect e), some (fut.next w))
    | some (.inr x) =>
      match out x with
      | some y => (some (.item y), none)
      | none => (some .ended, none)

/-- The stream of what `out` makes of a future's output: one item or none. -/
def awaiting (out : A → Option T) (fut : Fut W E A) : Strm W E T :=
  unfold (awaitStep out) (some fut)

/-- `stream::once`. -/
def once (fut : Fut W E T) : Strm W E T := awaiting some fut

inductive Chained (W E T : Type u) where
  | first (a b : Strm W E T)
  | second (b : Strm W E T)

def chainStep : Chained W E T → W → Option (Event E T) × Chained W E T
  | .first a b, w =>
    match a.head w with
    | some .ended => (none, .second b)
    | o => (o, .first (a.next w) b)
  | .second b, w => (b.head w, .second (b.next w))

/-- `StreamExt::chain`: the second stream is polled from the end of the first on. -/
def chain (a b : Strm W E T) : Strm W E T := unfold chainStep (.first a b)

inductive Flat (W E T O : Type u) where
  | outer (s : Strm W E T) (g : Fn W E T (Strm W E O))
  | inner (s : Strm W E T) (g : Fn W E T (Strm W E O)) (i : Strm W E O)

def flatStep : Flat W E T O → W → Option (Event E O) × Flat W E T O
  | .outer s g, w =>
    match s.head w with
    | none => (none, .outer (s.next w) g)
    | some (.effect e) => (some (.effect e), .outer (s.next w) g)
    | some (.item x) =>
      (none, .inner (s.next w) (g.next (x, w)) (emit (g.head (x, w)).1 (g.head (x, w)).2))
    | some .ended => (some .ended, .outer (s.next w) g)
  | .inner s g i, w =>
    match i.head w with
    | some .ended => (none, .outer s g)
    | o => (o, .inner s g (i.next w))

/-- `StreamExt::flat_map`: the closure's stream for an item is drained before the next item. -/
def flatMap (s : Strm W E T) (g : Fn W E T (Strm W E O)) : Strm W E O :=
  unfold flatStep (.outer s g)

/-- `StreamExt::filter_map`: the closure's future for an item is awaited before the next item. -/
def filterMap (s : Strm W E T) (g : Fn W E T (Fut W E (Option O))) : Strm W E O :=
  flatMap s (g.map (awaiting id))

/-! Congruences. -/

theorem emit_congr (es : List E) {s t : Strm W E T} (h : s ≈ t) : emit es s ≈ emit es t := by
  induction es with
  | nil => exact h
  | cons e es ih => exact WeakEq.of_step (fun _ => rfl) fun _ _ => ih

theorem chained_silent {w : W} {a a' b : Strm W E T} (h : Silent w a a') :
    Silent w (unfold chainStep (.first a b)) (unfold chainStep (.first a' b)) := by
  induction h with
  | refl _ => exact .refl _
  | step hHead _ ih =>
    exact .step (by simp [chainStep, hHead]) (by simpa [chainStep, hHead] using ih)

theorem unfold_second (b : Strm W E T) : unfold chainStep (.second b) = b := by
  refine eq_of_bisim (fun m n => m = unfold chainStep (.second n)) ?_ ?_ rfl
  · rintro _ n rfl w
    rfl
  · rintro _ n rfl w
    rfl

theorem chain_congr {a a' b b' : Strm W E T} (ha : a ≈ a') (hb : b ≈ b') :
    chain a b ≈ chain a' b' := by
  refine WeakEq.of_symmetric
    (fun m n => m ≈ n ∨ ∃ a a' b b' : Strm W E T, a ≈ a' ∧ b ≈ b' ∧
      m = unfold chainStep (.first a b) ∧ n = unfold chainStep (.first a' b')) ?_ ?_
    (.inr ⟨a, a', b, b', ha, hb, rfl, rfl⟩)
  · rintro m n (h | ⟨a, a', b, b', ha, hb, rfl, rfl⟩)
    · exact .inl (WeakEq.symm h)
    · exact .inr ⟨a', a, b', b, WeakEq.symm ha, WeakEq.symm hb, rfl, rfl⟩
  · rintro m n (h | ⟨a, a', b, b', ha, hb, rfl, rfl⟩)
    · exact (WeakEq.answers h).mono fun _ _ h => .inl h
    · constructor
      · intro w hHead
        rw [head_unfold] at hHead
        rcases hA : a.head w with _ | ev
        · obtain ⟨t, hSilent, hEq⟩ := ha.answers.silent w hA
          refine ⟨_, chained_silent hSilent, .inr ⟨a.next w, t, b, b', hEq, hb, ?_, rfl⟩⟩
          simp [chainStep, hA]
        · obtain rfl : ev = .ended := by
            cases ev <;> simp_all [chainStep]
          obtain ⟨t, hSilent, hHead', -⟩ := ha.answers.event w _ hA
          have hStep : (unfold chainStep (.first t b')).head w = none := by simp [chainStep, hHead']
          refine ⟨_, (chained_silent hSilent).trans (.one hStep), .inl ?_⟩
          simpa [chainStep, hA, hHead', unfold_second] using hb
      · intro w ev hHead
        rw [head_unfold] at hHead
        rcases hA : a.head w with _ | ev'
        · simp [chainStep, hA] at hHead
        · by_cases hEnded : ev' = .ended
          · subst hEnded
            simp [chainStep, hA] at hHead
          · obtain ⟨t, hSilent, hHead', hEq⟩ := ha.answers.event w _ hA
            obtain rfl : ev' = ev := by
              cases ev' <;> simp_all [chainStep]
            refine ⟨_, chained_silent hSilent, ?_, fun _ =>
              .inr ⟨a.next w, t.next w, b, b', hEq hEnded, hb, ?_, ?_⟩⟩
            · cases ev' <;> simp_all [chainStep]
            · cases ev' <;> simp_all [chainStep]
            · cases ev' <;> simp_all [chainStep]

/-- Closures that have the same effects and return weakly equal streams, call after call. -/
def FnEq (g g' : Fn W E T (Strm W E O)) : Prop :=
  ∀ past i, (g.answer past i).1 = (g'.answer past i).1 ∧ (g.answer past i).2 ≈ (g'.answer past i).2

namespace FnEq

variable {g g' : Fn W E T (Strm W E O)}

protected theorem refl (g : Fn W E T (Strm W E O)) : FnEq g g :=
  fun _ _ => ⟨rfl, WeakEq.refl _⟩

protected theorem symm (h : FnEq g g') : FnEq g' g :=
  fun past i => ⟨(h past i).1.symm, WeakEq.symm (h past i).2⟩

theorem next (h : FnEq g g') (i : T × W) : FnEq (g.next i) (g'.next i) :=
  fun past j => h (i :: past) j

theorem emit (h : FnEq g g') (i : T × W) :
    emit (g.head i).1 (g.head i).2 ≈ Polling.emit (g'.head i).1 (g'.head i).2 := by
  have hCall := h [] i
  rw [head, head, hCall.1]
  exact emit_congr _ hCall.2

theorem stateless {f f' : T × W → List E × Strm W E O}
    (h : ∀ i, (f i).1 = (f' i).1 ∧ (f i).2 ≈ (f' i).2) :
    FnEq (Mealy.stateless f) (Mealy.stateless f') :=
  fun _ i => h i

end FnEq

section Steps

variable {w : W} {s s' : Strm W E T} {g : Fn W E T (Strm W E O)} {i i' : Strm W E O}
  {ev : Event E O}

theorem inner_event :
    (unfold flatStep (.inner s g i)).head w = some ev ↔ i.head w = some ev ∧ ev ≠ .ended := by
  rcases hI : i.head w with _ | ev'
  · simp [flatStep, hI]
  · cases ev' <;> simp [flatStep, hI] <;> rintro rfl <;> simp

theorem inner_silent : (unfold flatStep (.inner s g i)).head w = none ↔
    i.head w = none ∨ i.head w = some .ended := by
  rcases hI : i.head w with _ | ev'
  · simp [flatStep, hI]
  · cases ev' <;> simp [flatStep, hI]

theorem inner_head (h : i.head w ≠ some .ended) :
    (unfold flatStep (.inner s g i)).head w = i.head w := by
  rcases hI : i.head w with _ | ev'
  · exact inner_silent.mpr (.inl hI)
  · exact inner_event.mpr ⟨hI, fun hEv => h (by rw [hI, hEv])⟩

theorem inner_next (h : i.head w ≠ some .ended) :
    (unfold flatStep (.inner s g i)).next w = unfold flatStep (.inner s g (i.next w)) := by
  rcases hI : i.head w with _ | ev'
  · simp [flatStep, hI]
  · cases ev' <;> simp_all [flatStep]

theorem inner_next_ended (h : i.head w = some .ended) :
    (unfold flatStep (.inner s g i)).next w = flatMap s g := by
  simp [flatStep, h, flatMap]

theorem outer_silent : (flatMap s g).head w = none ↔
    s.head w = none ∨ ∃ x, s.head w = some (.item x) := by
  rcases hS : s.head w with _ | ev'
  · simp [flatMap, flatStep, hS]
  · cases ev' <;> simp [flatMap, flatStep, hS]

theorem outer_next (h : ∀ x, s.head w ≠ some (.item x)) :
    (flatMap s g).next w = flatMap (s.next w) g := by
  rcases hS : s.head w with _ | ev'
  · simp [flatMap, flatStep, hS]
  · cases ev' <;> simp_all [flatMap, flatStep]

theorem outer_next_item {x : T} (h : s.head w = some (.item x)) :
    (flatMap s g).next w = unfold flatStep (.inner (s.next w) (g.next (x, w))
      (emit (g.head (x, w)).1 (g.head (x, w)).2)) := by
  simp [flatMap, flatStep, h]

theorem outer_effect {e : E} :
    (flatMap s g).head w = some (.effect e) ↔ s.head w = some (.effect e) := by
  rcases hS : s.head w with _ | ev'
  · simp [flatMap, flatStep, hS]
  · cases ev' <;> simp [flatMap, flatStep, hS]

theorem outer_ended : (flatMap s g).head w = some .ended ↔ s.head w = some .ended := by
  rcases hS : s.head w with _ | ev'
  · simp [flatMap, flatStep, hS]
  · cases ev' <;> simp [flatMap, flatStep, hS]

theorem outer_item {y : O} : (flatMap s g).head w ≠ some (.item y) := by
  rcases hS : s.head w with _ | ev'
  · simp [flatMap, flatStep, hS]
  · cases ev' <;> simp [flatMap, flatStep, hS]

theorem flat_outer_silent (h : Silent w s s') : Silent w (flatMap s g) (flatMap s' g) := by
  induction h with
  | refl _ => exact .refl _
  | step hHead _ ih =>
    refine .step (outer_silent.mpr (.inl hHead)) ?_
    rwa [outer_next (by simp [hHead])]

theorem flat_inner_silent (h : Silent w i i') :
    Silent w (unfold flatStep (.inner s g i)) (unfold flatStep (.inner s g i')) := by
  induction h with
  | refl _ => exact .refl _
  | step hHead _ ih =>
    refine .step (inner_silent.mpr (.inl hHead)) ?_
    rwa [inner_next (by simp [hHead])]

end Steps

/-- States of `flatMap` that are weakly equal in every part. -/
inductive FlatEq : Flat W E T O → Flat W E T O → Prop where
  | outer {s s' : Strm W E T} {g g' : Fn W E T (Strm W E O)} :
      s ≈ s' → FnEq g g' → FlatEq (.outer s g) (.outer s' g')
  | inner {s s' : Strm W E T} {g g' : Fn W E T (Strm W E O)} {i i' : Strm W E O} :
      s ≈ s' → FnEq g g' → i ≈ i' → FlatEq (.inner s g i) (.inner s' g' i')

theorem flat_outer_answers {s s' : Strm W E T} {g g' : Fn W E T (Strm W E O)} (hs : s ≈ s')
    (hg : FnEq g g') :
    Answers (fun m n => ∃ p q : Flat W E T O, FlatEq p q ∧ m = unfold flatStep p ∧
      n = unfold flatStep q) (flatMap s g) (flatMap s' g') := by
  constructor
  · intro w hHead
    rcases outer_silent.mp hHead with hS | ⟨x, hS⟩
    · obtain ⟨t, hSilent, hEq⟩ := hs.answers.silent w hS
      exact ⟨_, flat_outer_silent hSilent, _, _, .outer hEq hg, outer_next (by simp [hS]), rfl⟩
    · obtain ⟨t, hSilent, hHead', hEq⟩ := hs.answers.event w _ hS
      have hCall := (flat_outer_silent (g := g') hSilent).trans
        (.one (outer_silent.mpr (.inr ⟨x, hHead'⟩)))
      exact ⟨_, hCall, _, _, .inner (hEq (by simp)) (hg.next (x, w)) (hg.emit (x, w)),
        outer_next_item hS, outer_next_item hHead'⟩
  · intro w ev hHead
    cases ev with
    | effect e =>
      have hS := outer_effect.mp hHead
      obtain ⟨t, hSilent, hHead', hEq⟩ := hs.answers.event w _ hS
      exact ⟨_, flat_outer_silent hSilent, outer_effect.mpr hHead', fun _ =>
        ⟨_, _, .outer (hEq (by simp)) hg, outer_next (by simp [hS]), outer_next (by simp [hHead'])⟩⟩
    | item y => exact (outer_item hHead).elim
    | ended =>
      obtain ⟨t, hSilent, hHead', -⟩ := hs.answers.event w _ (outer_ended.mp hHead)
      exact ⟨_, flat_outer_silent hSilent, outer_ended.mpr hHead', fun h => (h rfl).elim⟩

theorem flat_inner_answers {s s' : Strm W E T} {g g' : Fn W E T (Strm W E O)}
    {i i' : Strm W E O} (hs : s ≈ s') (hg : FnEq g g') (hi : i ≈ i') :
    Answers (fun m n => ∃ p q : Flat W E T O, FlatEq p q ∧ m = unfold flatStep p ∧
      n = unfold flatStep q)
      (unfold flatStep (.inner s g i)) (unfold flatStep (.inner s' g' i')) := by
  constructor
  · intro w hHead
    rcases inner_silent.mp hHead with hI | hI
    · obtain ⟨t, hSilent, hEq⟩ := hi.answers.silent w hI
      exact ⟨_, flat_inner_silent hSilent, _, _, .inner hs hg hEq, inner_next (by simp [hI]), rfl⟩
    · obtain ⟨t, hSilent, hHead', -⟩ := hi.answers.event w _ hI
      have hBack := (flat_inner_silent (s := s') (g := g') hSilent).trans
        (.one (inner_silent.mpr (.inr hHead')))
      exact ⟨_, hBack, _, _, .outer hs hg, inner_next_ended hI, inner_next_ended hHead'⟩
  · intro w ev hHead
    obtain ⟨hI, hEv⟩ := inner_event.mp hHead
    obtain ⟨t, hSilent, hHead', hEq⟩ := hi.answers.event w _ hI
    exact ⟨_, flat_inner_silent hSilent, inner_event.mpr ⟨hHead', hEv⟩, fun _ =>
      ⟨_, _, .inner hs hg (hEq hEv), inner_next (by simp [hI, hEv]),
        inner_next (by simp [hHead', hEv])⟩⟩

theorem FlatEq.weakEq {p q : Flat W E T O} (h : FlatEq p q) :
    unfold flatStep p ≈ unfold flatStep q := by
  refine WeakEq.of_symmetric (fun m n => ∃ p q : Flat W E T O, FlatEq p q ∧
    m = unfold flatStep p ∧ n = unfold flatStep q) ?_ ?_ ⟨p, q, h, rfl, rfl⟩
  · rintro _ _ ⟨p, q, h, rfl, rfl⟩
    cases h with
    | outer hs hg => exact ⟨_, _, .outer (WeakEq.symm hs) hg.symm, rfl, rfl⟩
    | inner hs hg hi => exact ⟨_, _, .inner (WeakEq.symm hs) hg.symm (WeakEq.symm hi), rfl, rfl⟩
  · rintro _ _ ⟨p, q, h, rfl, rfl⟩
    cases h with
    | outer hs hg => exact flat_outer_answers hs hg
    | inner hs hg hi => exact flat_inner_answers hs hg hi

theorem flatMap_congr {s s' : Strm W E T} {g g' : Fn W E T (Strm W E O)} (hs : s ≈ s')
    (hg : FnEq g g') : flatMap s g ≈ flatMap s' g' :=
  (FlatEq.outer hs hg).weakEq

/-! Laws of the combinators. -/

theorem awaiting_stop (out : A → Option T) :
    unfold (awaitStep (W := W) (E := E) out) none = empty := by
  refine eq_of_bisim (fun m n => m = unfold (awaitStep out) none ∧ n = empty) ?_ ?_ ⟨rfl, rfl⟩
  · rintro _ _ ⟨rfl, rfl⟩ w
    rfl
  · rintro _ _ ⟨rfl, rfl⟩ w
    exact ⟨rfl, rfl⟩

theorem once_ready (x : T) : (once (ready x) : Strm W E T) ≈ single x :=
  WeakEq.of_step (fun _ => rfl) fun _ _ => WeakEq.of_eq (awaiting_stop some)

/-- A stream that has ended already is a left unit of `chain`. -/
theorem chain_empty (b : Strm W E T) : chain empty b ≈ b :=
  WeakEq.of_silent (fun _ => rfl) fun _ => WeakEq.of_eq (unfold_second b)

theorem flatMap_empty (g : Fn W E T (Strm W E O)) : flatMap empty g = empty := by
  refine eq_of_bisim (fun m n => m = flatMap empty g ∧ n = empty) ?_ ?_ ⟨rfl, rfl⟩
  · rintro _ _ ⟨rfl, rfl⟩ w
    rfl
  · rintro _ _ ⟨rfl, rfl⟩ w
    exact ⟨rfl, rfl⟩

/-- A closure that gives a one-item stream for the one item. -/
theorem flatMap_single {g : Fn W E T (Strm W E O)} {x : T} {y : O}
    (h : ∀ w, (g.head (x, w)).1 = [] ∧ (g.head (x, w)).2 ≈ single y) :
    flatMap (single x) g ≈ single y := by
  have hItem (w : W) : (single x : Strm W E T).head w = some (.item x) := rfl
  refine WeakEq.of_silent (fun w => outer_silent.mpr (.inr ⟨x, hItem w⟩)) fun w => ?_
  have hInner : unfold flatStep (.inner (empty : Strm W E T) (g.next (x, w)) (single y)) ≈
      single y := by
    refine WeakEq.of_step (fun w => rfl) fun w _ => ?_
    refine WeakEq.of_silent (fun w => rfl) fun w => ?_
    exact WeakEq.of_eq (flatMap_empty _)
  rw [outer_next_item (hItem w), (h w).1]
  exact WeakEq.trans (FlatEq.inner (.refl _) (.refl _) (h w).2).weakEq hInner

theorem emit_flatMap (es : List E) (i : Strm W E T) (g : Fn W E T (Strm W E O)) :
    flatMap (emit es i) g = emit es (flatMap i g) := by
  induction es with
  | nil => rfl
  | cons e es ih =>
    rw [emit, emit, ← ih]
    ext past w
    cases past <;> rfl

/-- Lockstep states of `s.flat_map(f).flat_map(g)` and `s.flat_map(|x| f(x).flat_map(g))`. -/
inductive FlatAssoc (f : T × W → List E × Strm W E O) (g : O × W → List E × Strm W E P) :
    Flat W E O P → Flat W E T P → Prop where
  | outer (s : Strm W E T) : FlatAssoc f g
      (.outer (unfold flatStep (.outer s (stateless f))) (stateless g))
      (.outer s (stateless fun x => ((f x).1, flatMap (f x).2 (stateless g))))
  | middle (s : Strm W E T) (i : Strm W E O) : FlatAssoc f g
      (.outer (unfold flatStep (.inner s (stateless f) i)) (stateless g))
      (.inner s (stateless fun x => ((f x).1, flatMap (f x).2 (stateless g)))
        (unfold flatStep (.outer i (stateless g))))
  | inner (s : Strm W E T) (i : Strm W E O) (j : Strm W E P) : FlatAssoc f g
      (.inner (unfold flatStep (.inner s (stateless f) i)) (stateless g) j)
      (.inner s (stateless fun x => ((f x).1, flatMap (f x).2 (stateless g)))
        (unfold flatStep (.inner i (stateless g) j)))

theorem FlatAssoc.step {f : T × W → List E × Strm W E O} {g : O × W → List E × Strm W E P}
    {p : Flat W E O P} {q : Flat W E T P} (h : FlatAssoc f g p q) (w : W) :
    (flatStep p w).1 = (flatStep q w).1 ∧ FlatAssoc f g (flatStep p w).2 (flatStep q w).2 := by
  cases h with
  | outer s =>
    rcases hS : s.head w with _ | _ | x | _
    all_goals simp only [flatStep, head_unfold, next_unfold, head_stateless, next_stateless, hS,
      true_and]
    · exact .outer _
    · exact .outer _
    · rw [← emit_flatMap]
      exact .middle _ _
    · exact .outer _
  | middle s i =>
    rcases hI : i.head w with _ | _ | y | _
    all_goals simp only [flatStep, head_unfold, next_unfold, head_stateless, next_stateless, hI,
      true_and]
    · exact .middle _ _
    · exact .middle _ _
    · exact .inner _ _ _
    · exact .outer _
  | inner s i j =>
    rcases hJ : j.head w with _ | _ | z | _
    all_goals simp only [flatStep, head_unfold, next_unfold, hJ, true_and]
    · exact .inner _ _ _
    · exact .inner _ _ _
    · exact .inner _ _ _
    · exact .middle _ _

/-- Flattening twice is flattening once by the composed closure, step for step. -/
theorem flatMap_assoc (s : Strm W E T) (f : T × W → List E × Strm W E O)
    (g : O × W → List E × Strm W E P) :
    flatMap (flatMap s (stateless f)) (stateless g) =
      flatMap s (stateless fun x => ((f x).1, flatMap (f x).2 (stateless g))) :=
  unfold_eq_of_bisim (FlatAssoc f g) (fun _ _ h w => h.step w) (.outer s)

/-- The traces of the stream the closure gives for the last item are those of that stream. -/
theorem trace_flat_last [Acts E W] (env : W → W → Prop) (g : Fn W E T (Strm W E O))
    (i : Strm W E O) (w : W) (l : List (Event E O)) :
    Trace env (unfold flatStep (.inner empty g i)) w l ↔ Trace env i w l := by
  constructor
  · refine Trace.simulate (fun m t => m = unfold flatStep (.inner empty g t) ∨
      m = empty ∧ ∀ w, t.head w = some .ended) ?_ ?_ (.inl rfl)
    · rintro _ t (rfl | ⟨rfl, -⟩) w hHead
      · rcases inner_silent.mp hHead with hT | hT
        · exact ⟨_, .silent hT (.refl _), .inl (inner_next (by simp [hT]))⟩
        · refine ⟨_, .commit (by simp [hT]), .inr ⟨?_, fun _ => hT⟩⟩
          rw [inner_next_ended hT, flatMap_empty]
      · cases hHead
    · rintro _ t (rfl | ⟨rfl, hEnded⟩) w ev hHead
      · obtain ⟨hT, hEv⟩ := inner_event.mp hHead
        exact ⟨t, .refl t, hT, fun _ => .inl (inner_next (by simp [hT, hEv]))⟩
      · obtain rfl : .ended = ev := Option.some.inj hHead
        exact ⟨t, .refl t, hEnded w, fun h => (h rfl).elim⟩
  · refine Trace.simulate (fun t m => m = unfold flatStep (.inner empty g t)) ?_ ?_ rfl
    · rintro t _ rfl w hT
      exact ⟨_, .silent (inner_silent.mpr (.inl hT)) (.refl _), inner_next (by simp [hT])⟩
    · rintro t _ rfl w ev hT
      by_cases hEv : ev = .ended
      · subst hEv
        refine ⟨_, .silent (inner_silent.mpr (.inr hT)) (.refl _), ?_, fun h => (h rfl).elim⟩
        rw [inner_next_ended hT, flatMap_empty]
        rfl
      · exact ⟨_, .refl _, inner_event.mpr ⟨hT, hEv⟩, fun _ => inner_next (by simp [hT, hEv])⟩

/-- The closure that makes each item its own one-item stream. -/
def singles : Fn W E T (Strm W E T) := stateless fun i => ([], single i.1)

theorem trace_flatMap_singles_le [Acts E W] {env : W → W → Prop} {s : Strm W E T} {w : W}
    {l : List (Event E T)} (h : Trace env (flatMap s singles) w l) : Trace env s w l := by
  refine Trace.simulate (fun m t => m = flatMap t singles ∨
    m = unfold flatStep (.inner t singles empty) ∨
    ∃ x t', t = cons (some (.item x)) t' ∧ m = unfold flatStep (.inner t' singles (single x)))
    ?_ ?_ (.inl rfl) h
  · rintro _ t (rfl | rfl | ⟨x, t', rfl, rfl⟩) w hHead
    · rcases outer_silent.mp hHead with hT | ⟨x, hT⟩
      · exact ⟨_, .silent hT (.refl _), .inl (outer_next (by simp [hT]))⟩
      · refine ⟨_, .commit (by simp [hT]), .inr (.inr ⟨x, t.next w, by rw [hT], ?_⟩)⟩
        exact outer_next_item hT
    · exact ⟨t, .refl t, .inl rfl⟩
    · cases hHead
  · rintro _ t (rfl | rfl | ⟨x, t', rfl, rfl⟩) w ev hHead
    · cases ev with
      | effect e =>
        have hT := outer_effect.mp hHead
        exact ⟨t, .refl t, hT, fun _ => .inl (outer_next (by simp [hT]))⟩
      | item y => exact (outer_item hHead).elim
      | ended => exact ⟨t, .refl t, outer_ended.mp hHead, fun h => (h rfl).elim⟩
    · cases hHead
    · obtain rfl : .item x = ev := Option.some.inj hHead
      exact ⟨_, .refl _, rfl, fun _ => .inr (.inl rfl)⟩

theorem trace_le_flatMap_singles [Acts E W] {env : W → W → Prop} {s : Strm W E T} {w : W}
    {l : List (Event E T)} (h : Trace env s w l) : Trace env (flatMap s singles) w l := by
  -- after an item the flattened stream first has to leave the drained inner stream
  refine Trace.simulate (fun t m => ∀ w, Silent w m (flatMap t singles)) ?_ ?_
    (fun _ => .refl _) h
  · rintro t m hLeave w hT
    refine ⟨_, .of_silent ((hLeave w).trans (.one (outer_silent.mpr (.inl hT)))), fun w' => ?_⟩
    rw [outer_next (by simp [hT])]
    exact .refl _
  · rintro t m hLeave w ev hT
    cases ev with
    | effect e =>
      refine ⟨_, .of_silent (hLeave w), outer_effect.mpr hT, fun _ w' => ?_⟩
      rw [outer_next (by simp [hT])]
      exact .refl _
    | item x =>
      have hCall := (hLeave w).trans (.one (outer_silent.mpr (.inr ⟨x, hT⟩)))
      rw [outer_next_item hT] at hCall
      exact ⟨_, .of_silent hCall, rfl, fun _ w' => .step rfl (.refl _)⟩
    | ended => exact ⟨_, .of_silent (hLeave w), outer_ended.mpr hT, fun h => (h rfl).elim⟩

/-- Flattening the items' own one-item streams changes no trace. -/
theorem trace_flatMap_singles [Acts E W] (env : W → W → Prop) (s : Strm W E T) (w : W)
    (l : List (Event E T)) : Trace env (flatMap s singles) w l ↔ Trace env s w l :=
  ⟨trace_flatMap_singles_le, trace_le_flatMap_singles⟩

/-- The leading effects show one after the other. -/
theorem trace_emit [Acts E W] (env : W → W → Prop) (es more : List E) (s : Strm W E T) (w : W) :
    Trace env (emit (es ++ more) s) w (es.map .effect) := by
  induction es generalizing w with
  | nil => exact .stop
  | cons e es ih => exact .event rfl (by simp) (ih (Acts.act e w))

theorem Shows.emit {P : Event E T → Prop} {es : List E} {s : Strm W E T}
    (hEffects : ∀ e ∈ es, P (.effect e)) (h : Shows P s) : Shows P (emit es s) := by
  induction es with
  | nil => exact h
  | cons e es ih =>
    rw [List.forall_mem_cons] at hEffects
    intro past w ev hEv
    cases past with
    | nil => exact Option.some.inj hEv ▸ hEffects.1
    | cons _ past => exact ih hEffects.2 past w ev hEv

/-! A library's combinators as a parameter. -/

/-- The combinators of a stream library, as functions of streams. -/
structure Combinators (W E : Type u) where
  empty : {T : Type u} → Strm W E T
  once : {T : Type u} → Fut W E T → Strm W E T
  chain : {T : Type u} → Strm W E T → Strm W E T → Strm W E T
  filterMap : {T O : Type u} → Strm W E T → Fn W E T (Fut W E (Option O)) → Strm W E O
  flatMap : {T O : Type u} → Strm W E T → Fn W E T (Strm W E O) → Strm W E O

/-- The combinators do what their documentation says, in whatever steps. -/
structure Combinators.Documented (F : Combinators W E) : Prop where
  empty : ∀ {T : Type u}, (F.empty : Strm W E T) ≈ Polling.empty
  once : ∀ {T : Type u} (fut : Fut W E T), F.once fut ≈ Polling.once fut
  chain : ∀ {T : Type u} (a b : Strm W E T), F.chain a b ≈ Polling.chain a b
  filterMap : ∀ {T O : Type u} (s : Strm W E T) (g : Fn W E T (Fut W E (Option O))),
    F.filterMap s g ≈ Polling.filterMap s g
  flatMap : ∀ {T O : Type u} (s : Strm W E T) (g : Fn W E T (Strm W E O)),
    F.flatMap s g ≈ Polling.flatMap s g

/-- The combinators as they are documented. -/
def Combinators.reference : Combinators W E :=
  ⟨Polling.empty, Polling.once, Polling.chain, Polling.filterMap, Polling.flatMap⟩

theorem Combinators.reference_documented : (reference : Combinators W E).Documented :=
  ⟨.refl _, fun _ => .refl _, fun _ _ => .refl _, fun _ _ => .refl _, fun _ _ => .refl _⟩

end Polling
