import Emyu.Lib.Behaviour

/-! The stream adapters that map, await the next item and unfold, what they do, and the gatherer
that an unfolding with an optional accumulator amounts to. -/

universe u

namespace Polling

open Mealy

variable {W E T O P σ : Type u}

/-! ### Mapping -/

inductive Mapped (W E T O : Type u) where
  | taking (s : Strm W E T) (f : Fn W E T O)
  | giving (es : List E) (y : O) (s : Strm W E T) (f : Fn W E T O)

def mapStep : Mapped W E T O → W → Option (Event E O) × Mapped W E T O
  | .taking s f, w =>
    match s.head w with
    | none => (none, .taking (s.next w) f)
    | some (.effect e) => (some (.effect e), .taking (s.next w) f)
    | some (.item x) =>
      (none, .giving (f.head (x, w)).1 (f.head (x, w)).2 (s.next w) (f.next (x, w)))
    | some .ended => (some .ended, .taking s f)
  | .giving [] y s f, _ => (some (.item y), .taking s f)
  | .giving (e :: es) y s f, _ => (some (.effect e), .giving es y s f)

/-- `StreamExt::map`: the closure is called for each item as it comes. -/
def map (s : Strm W E T) (f : Fn W E T O) : Strm W E O := unfold mapStep (.taking s f)

inductive FutMapped (W E T O : Type u) where
  | waiting (fut : Fut W E T)
  | giving (es : List E) (y : O)

def futMapStep (f : T × W → List E × O) :
    FutMapped W E T O → W → Option (E ⊕ O) × FutMapped W E T O
  | .waiting fut, w =>
    match fut.head w with
    | none => (none, .waiting (fut.next w))
    | some (.inl e) => (some (.inl e), .waiting (fut.next w))
    | some (.inr x) => (none, .giving (f (x, w)).1 (f (x, w)).2)
  | .giving [] y, _ => (some (.inr y), .giving [] y)
  | .giving (e :: es) y, _ => (some (.inl e), .giving es y)

/-- `FutureExt::map`. -/
def futMap (fut : Fut W E T) (f : T × W → List E × O) : Fut W E O :=
  unfold (futMapStep f) (.waiting fut)

/-! ### The next item -/

def nextStep (s : Strm W E T) (w : W) :
    Option (E ⊕ (Option T × Strm W E T)) × Strm W E T :=
  (match s.head w with
    | none => none
    | some (.effect e) => some (.inl e)
    | some (.item x) => some (.inr (some x, s.next w))
    | some .ended => some (.inr (none, s.next w)), s.next w)

/-- `StreamExt::next`, awaited: the next item or `none`, with the stream that is left. -/
def next (s : Strm W E T) : Fut W E (Option T × Strm W E T) := unfold nextStep s

/-- An `async` block that awaits a future and makes something of its output. -/
def Fut.map (k : T → O) (fut : Fut W E T) : Fut W E O :=
  ⟨fun past w => (fut.answer past w).map (Sum.map id k)⟩

/-! ### Unfolding -/

def unfoldStep (f : σ → Fut W E (Option (T × σ))) :
    Option (Fut W E (Option (T × σ))) → W →
    Option (Event E T) × Option (Fut W E (Option (T × σ)))
  | none, _ => (some .ended, none)
  | some fut, w =>
    match fut.head w with
    | none => (none, some (fut.next w))
    | some (.inl e) => (some (.effect e), some (fut.next w))
    | some (.inr (some (x, st))) => (some (.item x), some (f st))
    | some (.inr none) => (some .ended, none)

/-- `stream::unfold`: the future made of the state gives an item and the next state, or the end. -/
def unfolding (st : σ) (f : σ → Fut W E (Option (T × σ))) : Strm W E T :=
  unfold (unfoldStep f) (some (f st))

/-! ### Gathering -/

inductive Gather (W E T : Type u) where
  | taking (s : Strm W E T) (acc : List T)
  | giving (acc : List T)
  | done

def gatherStep : Gather W E T → W → Option (Event E (List T)) × Gather W E T
  | .taking s acc, w =>
    match s.head w with
    | none => (none, .taking (s.next w) acc)
    | some (.effect e) => (some (.effect e), .taking (s.next w) acc)
    | some (.item x) => (none, .taking (s.next w) (acc ++ [x]))
    | some .ended => (none, .giving acc)
  | .giving acc, _ => (some (.item acc), .done)
  | .done, _ => (some .ended, .done)

/-- The stream that takes all items of `s` and gives them in one list. -/
def gather (s : Strm W E T) (acc : List T) : Strm W E (List T) :=
  unfold gatherStep (.taking s acc)

/-- `stream::iter`. -/
def iter : List T → Strm W E T
  | [] => empty
  | x :: xs => cons (some (.item x)) (iter xs)

theorem mem_outputs_iter (w : W) {xs ys : List T} :
    (ys, true) ∈ outputs (iter xs : Strm W E T) ↔ ys = xs := by
  induction xs generalizing ys with
  | nil =>
    constructor
    · rintro ⟨l, hl, rfl⟩
      rw [(mem_behaviours_empty w).mp hl]
      rfl
    · rintro rfl
      exact ⟨[], behaviours_ended (w := w) rfl, rfl⟩
  | cons x xs ih =>
    constructor
    · rintro ⟨l, ⟨o, hPlays, hEnd⟩, rfl⟩
      cases hPlays with
      | stop => cases hEnd
      | ended hHead | silent hHead => cases hHead
      | @event _ w _ l _ hHead _ hPlays =>
        obtain rfl := Option.some.inj hHead
        have hRest : (itemsOf l, true) ∈ outputs (iter xs : Strm W E T) :=
          ⟨l, ⟨o, hPlays, hEnd⟩, rfl⟩
        rw [itemsOf_item, ih.mp hRest]
    · rintro rfl
      obtain ⟨l, hl, hItems⟩ := ih.mpr rfl
      exact ⟨(w, .item x) :: l, behaviours_event rfl (by simp) hl, by simp [hItems]⟩

/-! ### Laws -/

section Once

variable {fut fut' : Fut W E T} {w : W}

theorem once_silent : (once fut).head w = none ↔ fut.head w = none := by
  rcases hFut : fut.head w with _ | _ | x <;> simp [once, awaiting, awaitStep, hFut]

theorem once_effect {e : E} :
    (once fut).head w = some (.effect e) ↔ fut.head w = some (.inl e) := by
  rcases hFut : fut.head w with _ | _ | x <;> simp [once, awaiting, awaitStep, hFut]

theorem once_item {x : T} : (once fut).head w = some (.item x) ↔ fut.head w = some (.inr x) := by
  rcases hFut : fut.head w with _ | _ | x <;> simp [once, awaiting, awaitStep, hFut]

theorem once_next (h : ∀ x, fut.head w ≠ some (.inr x)) :
    (once fut).next w = once (fut.next w) := by
  rcases hFut : fut.head w with _ | _ | x
  · simp [once, awaiting, awaitStep, hFut]
  · simp [once, awaiting, awaitStep, hFut]
  · exact (h x hFut).elim

theorem once_next_item {x : T} (h : fut.head w = some (.inr x)) : (once fut).next w = empty := by
  simp [once, awaiting, awaitStep, h, awaiting_stop]

/-- Whoever awaits the futures sees the same. -/
def FutEq (fut fut' : Fut W E T) : Prop := once fut ≈ once fut'

/-- The empty steps of a future that is awaited. -/
inductive FutSilent (w : W) : Fut W E T → Fut W E T → Prop where
  | refl (fut : Fut W E T) : FutSilent w fut fut
  | step {fut fut' : Fut W E T} :
      fut.head w = none → FutSilent w (fut.next w) fut' → FutSilent w fut fut'

theorem silent_once {t : Strm W E T} {m : Strm W E T} (h : Silent w m t) :
    ∀ fut, m = once fut → ∃ fut', t = once fut' ∧ FutSilent w fut fut' := by
  induction h with
  | refl _ =>
    rintro fut rfl
    exact ⟨fut, rfl, .refl fut⟩
  | step hHead _ ih =>
    rintro fut rfl
    have hFut := once_silent.mp hHead
    obtain ⟨fut', rfl, hSilent⟩ := ih (fut.next w) (once_next (by simp [hFut]))
    exact ⟨fut', rfl, .step hFut hSilent⟩

/-- What one future does next, the other does after some empty steps. -/
theorem FutEq.answers (h : FutEq fut fut') :
    (fut.head w = none → ∃ m, FutSilent w fut' m ∧ FutEq (fut.next w) m) ∧
    (∀ e, fut.head w = some (.inl e) →
      ∃ m, FutSilent w fut' m ∧ m.head w = some (.inl e) ∧ FutEq (fut.next w) (m.next w)) ∧
    (∀ x, fut.head w = some (.inr x) → ∃ m, FutSilent w fut' m ∧ m.head w = some (.inr x)) := by
  refine ⟨fun hFut => ?_, fun e hFut => ?_, fun x hFut => ?_⟩
  · obtain ⟨t, hSilent, hEq⟩ := WeakEq.answers h |>.silent w (once_silent.mpr hFut)
    obtain ⟨m, rfl, hSilent'⟩ := silent_once hSilent fut' rfl
    rw [once_next (by simp [hFut])] at hEq
    exact ⟨m, hSilent', hEq⟩
  · obtain ⟨t, hSilent, hHead, hEq⟩ := WeakEq.answers h |>.event w _ (once_effect.mpr hFut)
    obtain ⟨m, rfl, hSilent'⟩ := silent_once hSilent fut' rfl
    have hM := once_effect.mp hHead
    have hNext := hEq (by simp)
    rw [once_next (by simp [hFut]), once_next (by simp [hM])] at hNext
    exact ⟨m, hSilent', hM, hNext⟩
  · obtain ⟨t, hSilent, hHead, -⟩ := WeakEq.answers h |>.event w _ (once_item.mpr hFut)
    obtain ⟨m, rfl, hSilent'⟩ := silent_once hSilent fut' rfl
    exact ⟨m, hSilent', once_item.mp hHead⟩

theorem futMap_head (k : T → O) : (Fut.map k fut).head w = (fut.head w).map (Sum.map id k) := rfl

theorem futMap_silent (k : T → O) (h : FutSilent w fut fut') :
    Silent w (once (Fut.map k fut)) (once (Fut.map k fut')) := by
  induction h with
  | refl _ => exact .refl _
  | @step fut _ hFut _ ih =>
    have hHead : (Fut.map k fut).head w = none := by simp [futMap_head, hFut]
    refine .step (once_silent.mpr hHead) ?_
    rwa [once_next (by simp [hHead])]

theorem mapped_answers (k : T → O) (h : FutEq fut fut') :
    Answers (fun m n => m ≈ n ∨ ∃ fut fut' : Fut W E T, FutEq fut fut' ∧
      m = once (Fut.map k fut) ∧ n = once (Fut.map k fut'))
      (once (Fut.map k fut)) (once (Fut.map k fut')) := by
  constructor
  · intro w hHead
    have hFut : fut.head w = none := by simpa [futMap_head] using once_silent.mp hHead
    obtain ⟨m, hSilent, hEq⟩ := h.answers.1 hFut
    exact ⟨_, futMap_silent k hSilent,
      .inr ⟨_, m, hEq, once_next (by simp [futMap_head, hFut]), rfl⟩⟩
  · intro w ev hHead
    rcases hFut : fut.head w with _ | e | x
    · rw [once_silent.mpr (by simp [futMap_head, hFut])] at hHead
      cases hHead
    · obtain ⟨m, hSilent, hM, hEq⟩ := h.answers.2.1 e hFut
      have hLeft : (Fut.map k fut).head w = some (.inl e) := by simp [futMap_head, hFut]
      have hRight : (Fut.map k m).head w = some (.inl e) := by simp [futMap_head, hM]
      rw [once_effect.mpr hLeft] at hHead
      refine ⟨_, futMap_silent k hSilent, by rw [once_effect.mpr hRight, hHead], fun _ => ?_⟩
      exact .inr ⟨_, _, hEq, once_next (by simp [hLeft]), once_next (by simp [hRight])⟩
    · obtain ⟨m, hSilent, hM⟩ := h.answers.2.2 _ hFut
      have hLeft : (Fut.map k fut).head w = some (.inr (k x)) := by simp [futMap_head, hFut]
      have hRight : (Fut.map k m).head w = some (.inr (k x)) := by simp [futMap_head, hM]
      rw [once_item.mpr hLeft] at hHead
      refine ⟨_, futMap_silent k hSilent, by rw [once_item.mpr hRight, hHead], fun _ => ?_⟩
      exact .inl (WeakEq.of_eq (by rw [once_next_item hLeft, once_next_item hRight]))

/-- An `async` block looks alike around futures that do. -/
theorem FutEq.map (k : T → O) (h : FutEq fut fut') : FutEq (Fut.map k fut) (Fut.map k fut') := by
  refine WeakEq.of_symmetric (fun m n => m ≈ n ∨ ∃ fut fut' : Fut W E T, FutEq fut fut' ∧
    m = once (Fut.map k fut) ∧ n = once (Fut.map k fut')) ?_ ?_ (.inr ⟨_, _, h, rfl, rfl⟩)
  · rintro m n (h | ⟨fut, fut', h, rfl, rfl⟩)
    · exact .inl (WeakEq.symm h)
    · exact .inr ⟨fut', fut, WeakEq.symm h, rfl, rfl⟩
  · rintro m n (h | ⟨fut, fut', h, rfl, rfl⟩)
    · exact (WeakEq.answers h).mono fun _ _ h => .inl h
    · exact mapped_answers k h

end Once

section Map

/-- Flattening the one-item streams of the closure's results, beside mapping by the closure. -/
inductive MapSteps : Nat → Strm W E O → Strm W E O → Prop where
  | taking (s : Strm W E T) (f : Fn W E T O) :
      MapSteps 0 (flatMap s (f.map single)) (map s f)
  | giving (es : List E) (y : O) (s : Strm W E T) (f : Fn W E T O) :
      MapSteps 0 (unfold flatStep (.inner s (f.map single) (emit es (single y))))
        (unfold mapStep (.giving es y s f))
  | drained (s : Strm W E T) (f : Fn W E T O) :
      MapSteps 1 (unfold flatStep (.inner s (f.map single) empty)) (map s f)

/-- `s.map(f)` is `s.flat_map(|x| once(ready(f(x))))`. -/
theorem flatMap_map_single (s : Strm W E T) (f : Fn W E T O) :
    flatMap s (f.map single) ≈ map s f := by
  refine WeakEq.of_stutter MapSteps ?_ (.taking s f)
  rintro _ _ _ (⟨s, f⟩ | ⟨es, y, s, f⟩ | ⟨s, f⟩) w
  · refine .inl ?_
    rcases hS : s.head w with _ | _ | x | _
    all_goals simp only [flatMap, map, head_unfold, next_unfold, flatStep, mapStep, hS, true_and]
    · exact fun _ => ⟨0, .taking _ _⟩
    · exact fun _ => ⟨0, .taking _ _⟩
    · exact fun _ => ⟨0, .giving (f.head (x, w)).1 (f.head (x, w)).2 (s.next w) (f.next (x, w))⟩
    · exact fun h => (h rfl).elim
  · refine .inl ?_
    cases es with
    | nil => exact ⟨rfl, fun _ => ⟨1, .drained s f⟩⟩
    | cons e es => exact ⟨rfl, fun _ => ⟨0, .giving es y s f⟩⟩
  · exact .inr ⟨rfl, 0, Nat.one_pos, .taking s f⟩

theorem map_congr {s t : Strm W E T} (h : s ≈ t) (f : Fn W E T O) : map s f ≈ map t f := by
  calc
    map s f ≈ flatMap s (f.map single) := WeakEq.symm (flatMap_map_single s f)
    _ ≈ flatMap t (f.map single) := flatMap_congr h (.refl _)
    _ ≈ map t f := flatMap_map_single t f

theorem futMap_next {fut : Fut W E T} {w : W} (f : T × W → List E × O)
    (h : ∀ x, fut.head w ≠ some (.inr x)) : (futMap fut f).next w = futMap (fut.next w) f := by
  rcases hFut : fut.head w with _ | e | x
  · simp [futMap, futMapStep, hFut]
  · simp [futMap, futMapStep, hFut]
  · exact (h x hFut).elim

/-- The same beside a future's one output. -/
inductive FutMapSteps : Nat → Strm W E O → Strm W E O → Prop where
  | waiting (fut : Fut W E T) (f : Fn W E T O) :
      FutMapSteps 0 (flatMap (once fut) (f.map single)) (once (futMap fut f.head))
  | giving (es : List E) (y : O) (g : Fn W E T (Strm W E O)) (f : T × W → List E × O) :
      FutMapSteps 0 (unfold flatStep (.inner empty g (emit es (single y))))
        (once (unfold (futMapStep f) (.giving es y)))
  | drained (g : Fn W E T (Strm W E O)) :
      FutMapSteps 1 (unfold flatStep (.inner empty g empty)) empty
  | ended : FutMapSteps 0 empty empty

/-- `stream::once(fut.map(f))` is `stream::once(fut).flat_map(|x| once(ready(f(x))))`. -/
theorem flatMap_once_map_single (fut : Fut W E T) (f : Fn W E T O) :
    flatMap (once fut) (f.map single) ≈ once (futMap fut f.head) := by
  refine WeakEq.of_stutter FutMapSteps ?_ (.waiting fut f)
  rintro _ _ _ (⟨fut, f⟩ | ⟨es, y, g, f⟩ | ⟨g⟩ | _) w
  · refine .inl ?_
    rcases hFut : fut.head w with _ | e | x
    · have hHead : (futMap fut f.head).head w = none := by simp [futMap, futMapStep, hFut]
      have hOuter : (once fut).head w = none := once_silent.mpr hFut
      refine ⟨by rw [outer_silent.mpr (.inl hOuter), once_silent.mpr hHead], fun _ => ⟨0, ?_⟩⟩
      rw [outer_next (by simp [hOuter]), once_next (by simp [hFut]), once_next (by simp [hHead])]
      rw [futMap_next f.head (by simp [hFut])]
      exact .waiting _ f
    · have hHead : (futMap fut f.head).head w = some (.inl e) := by
        simp [futMap, futMapStep, hFut]
      have hOuter : (once fut).head w = some (.effect e) := once_effect.mpr hFut
      refine ⟨by rw [outer_effect.mpr hOuter, once_effect.mpr hHead], fun _ => ⟨0, ?_⟩⟩
      rw [outer_next (by simp [hOuter]), once_next (by simp [hFut]), once_next (by simp [hHead])]
      rw [futMap_next f.head (by simp [hFut])]
      exact .waiting _ f
    · have hHead : (futMap fut f.head).head w = none := by simp [futMap, futMapStep, hFut]
      have hOuter : (once fut).head w = some (.item x) := once_item.mpr hFut
      refine ⟨by rw [outer_silent.mpr (.inr ⟨x, hOuter⟩), once_silent.mpr hHead],
        fun _ => ⟨0, ?_⟩⟩
      rw [outer_next_item hOuter, once_next_item hFut, once_next (by simp [hHead])]
      have hNext : (futMap fut f.head).next w =
          unfold (futMapStep f.head) (.giving (f.head (x, w)).1 (f.head (x, w)).2) := by
        simp [futMap, futMapStep, hFut]
      rw [hNext]
      exact .giving (f.head (x, w)).1 (f.head (x, w)).2 _ _
  · refine .inl ?_
    cases es with
    | nil =>
      refine ⟨rfl, fun _ => ⟨1, ?_⟩⟩
      rw [once_next_item (x := y) rfl]
      exact .drained g
    | cons e es => exact ⟨rfl, fun _ => ⟨0, .giving es y g f⟩⟩
  · refine .inr ⟨rfl, 0, Nat.one_pos, ?_⟩
    rw [inner_next_ended rfl, flatMap_empty]
    exact .ended
  · exact .inl ⟨rfl, fun h => (h rfl).elim⟩

end Map

section Unfold

variable {f f' : σ → Fut W E (Option (T × σ))} {fut fut' : Fut W E (Option (T × σ))} {w : W}

theorem unfold_silent (h : FutSilent w fut fut') :
    Silent w (unfold (unfoldStep f) (some fut)) (unfold (unfoldStep f) (some fut')) := by
  induction h with
  | refl _ => exact .refl _
  | step hFut _ ih =>
    exact .step (by simp [unfoldStep, hFut]) (by simpa [unfoldStep, hFut] using ih)

theorem unfolded_answers (hf : ∀ st, FutEq (f st) (f' st)) (h : FutEq fut fut') :
    Answers (fun m n => ∃ fut fut' : Fut W E (Option (T × σ)), FutEq fut fut' ∧
      m = unfold (unfoldStep f) (some fut) ∧ n = unfold (unfoldStep f') (some fut'))
      (unfold (unfoldStep f) (some fut)) (unfold (unfoldStep f') (some fut')) := by
  constructor
  · intro w hHead
    have hFut : fut.head w = none := by
      rcases hFut : fut.head w with _ | _ | _ | _ <;> simp_all [unfoldStep]
    obtain ⟨m, hSilent, hEq⟩ := h.answers.1 hFut
    exact ⟨_, unfold_silent hSilent, ⟨_, m, hEq, by simp [unfoldStep, hFut], rfl⟩⟩
  · intro w ev hHead
    rcases hFut : fut.head w with _ | e | _ | ⟨x, st⟩
    · simp [unfoldStep, hFut] at hHead
    · obtain ⟨m, hSilent, hM, hEq⟩ := h.answers.2.1 e hFut
      simp only [head_unfold, unfoldStep, hFut] at hHead
      refine ⟨_, unfold_silent hSilent, by simpa [unfoldStep, hM] using hHead, fun _ => ?_⟩
      exact ⟨_, _, hEq, by simp [unfoldStep, hFut], by simp [unfoldStep, hM]⟩
    · obtain ⟨m, hSilent, hM⟩ := h.answers.2.2 _ hFut
      simp only [head_unfold, unfoldStep, hFut, Option.some.injEq] at hHead
      exact ⟨_, unfold_silent hSilent, by simp [unfoldStep, hM, hHead], fun h =>
        (h hHead.symm).elim⟩
    · obtain ⟨m, hSilent, hM⟩ := h.answers.2.2 _ hFut
      simp only [head_unfold, unfoldStep, hFut] at hHead
      refine ⟨_, unfold_silent hSilent, by simpa [unfoldStep, hM] using hHead, fun _ => ?_⟩
      exact ⟨_, _, hf st, by simp [unfoldStep, hFut], by simp [unfoldStep, hM]⟩

/-- Closures whose futures look alike to whoever awaits them unfold to the same. -/
theorem unfolding_congr (st : σ) (hf : ∀ st, FutEq (f st) (f' st)) :
    unfolding st f ≈ unfolding st f' := by
  refine ⟨fun m n => ∃ fut fut' : Fut W E (Option (T × σ)), FutEq fut fut' ∧
    m = unfold (unfoldStep f) (some fut) ∧ n = unfold (unfoldStep f') (some fut'),
    ⟨_, _, hf st, rfl, rfl⟩, ?_⟩
  rintro _ _ ⟨fut, fut', h, rfl, rfl⟩
  refine ⟨unfolded_answers hf h, (unfolded_answers (fun st => WeakEq.symm (hf st))
    (WeakEq.symm h)).mono ?_⟩
  rintro n m ⟨fut', fut, h, rfl, rfl⟩
  exact ⟨fut, fut', WeakEq.symm h, rfl, rfl⟩

end Unfold

section Gather

variable {s : Strm W E T} {w : W}

theorem gather_silent (acc : List T) (hS : s.head w = none) :
    (gather s acc).head w = none ∧ (gather s acc).next w = gather (s.next w) acc := by
  constructor <;> simp [gather, gatherStep, hS]

theorem gather_effect {e : E} (acc : List T) (hS : s.head w = some (.effect e)) :
    (gather s acc).head w = some (.effect e) ∧
      (gather s acc).next w = gather (s.next w) acc := by
  constructor <;> simp [gather, gatherStep, hS]

theorem gather_item {x : T} (acc : List T) (hS : s.head w = some (.item x)) :
    (gather s acc).head w = none ∧
      (gather s acc).next w = gather (s.next w) (acc ++ [x]) := by
  constructor <;> simp [gather, gatherStep, hS]

theorem gather_ended (acc : List T) (hS : s.head w = some .ended) :
    (gather s acc).head w = none ∧ (gather s acc).next w = single acc := by
  refine ⟨by simp [gather, gatherStep, hS], ?_⟩
  have hGiving : unfold gatherStep (.giving (W := W) (E := E) acc) = single acc := by
    refine eq_of_bisim (fun m n =>
      m = unfold gatherStep (.giving (W := W) (E := E) acc) ∧ n = single acc ∨
      m = unfold gatherStep (.done (W := W) (E := E) (T := T)) ∧ n = empty) ?_ ?_
      (.inl ⟨rfl, rfl⟩)
    · rintro _ _ (⟨rfl, rfl⟩ | ⟨rfl, rfl⟩) w <;> rfl
    · rintro _ _ (⟨rfl, rfl⟩ | ⟨rfl, rfl⟩) w
      · exact .inr ⟨rfl, rfl⟩
      · exact .inr ⟨rfl, rfl⟩
  simpa [gather, gatherStep, hS] using hGiving

variable {acc : List T}

theorem silent_gather {t t' : Strm W E T} (h : Silent w t t') :
    Silent w (gather t acc) (gather t' acc) := by
  induction h with
  | refl _ => exact .refl _
  | step hS _ ih =>
    obtain ⟨hHead, hNext⟩ := gather_silent acc hS
    exact .step hHead (hNext ▸ ih)

theorem gather_answers {t : Strm W E T} (h : s ≈ t) :
    Answers (fun m n => m ≈ n ∨ ∃ (s t : Strm W E T) (acc : List T), s ≈ t ∧
      m = gather s acc ∧ n = gather t acc) (gather s acc) (gather t acc) := by
  constructor
  · intro w hHead
    rcases hS : s.head w with _ | e | x | _
    · obtain ⟨t', hSilent, hEq⟩ := h.answers.silent w hS
      exact ⟨_, silent_gather hSilent, .inr ⟨_, t', acc, hEq, (gather_silent _ hS).2, rfl⟩⟩
    · simp [(gather_effect _ hS).1] at hHead
    · obtain ⟨t', hSilent, hT, hEq⟩ := h.answers.event w _ hS
      refine ⟨_, (silent_gather hSilent).trans (.one (gather_item _ hT).1), .inr ?_⟩
      exact ⟨_, _, acc ++ [x], hEq (by simp), (gather_item _ hS).2, (gather_item _ hT).2⟩
    · obtain ⟨t', hSilent, hT, -⟩ := h.answers.event w _ hS
      refine ⟨_, (silent_gather hSilent).trans (.one (gather_ended _ hT).1), .inl ?_⟩
      exact WeakEq.of_eq ((gather_ended acc hS).2.trans (gather_ended acc hT).2.symm)
  · intro w ev hHead
    rcases hS : s.head w with _ | e | x | _
    · simp [(gather_silent _ hS).1] at hHead
    · obtain ⟨t', hSilent, hT, hEq⟩ := h.answers.event w _ hS
      rw [(gather_effect _ hS).1] at hHead
      refine ⟨_, silent_gather hSilent, (gather_effect _ hT).1.trans hHead, fun _ => .inr ?_⟩
      exact ⟨_, _, acc, hEq (by simp), (gather_effect _ hS).2, (gather_effect _ hT).2⟩
    · simp [(gather_item _ hS).1] at hHead
    · simp [(gather_ended _ hS).1] at hHead

theorem gather_congr {t : Strm W E T} (h : s ≈ t) : gather s acc ≈ gather t acc := by
  refine WeakEq.of_symmetric (fun m n => m ≈ n ∨ ∃ (s t : Strm W E T) (acc : List T), s ≈ t ∧
    m = gather s acc ∧ n = gather t acc) ?_ ?_ (.inr ⟨s, t, acc, h, rfl, rfl⟩)
  · rintro m n (h | ⟨s, t, acc, h, rfl, rfl⟩)
    · exact .inl (WeakEq.symm h)
    · exact .inr ⟨t, s, acc, WeakEq.symm h, rfl, rfl⟩
  · rintro m n (h | ⟨s, t, acc, h, rfl, rfl⟩)
    · exact (WeakEq.answers h).mono fun _ _ h => .inl h
    · exact gather_answers h

theorem gather_empty : gather (empty : Strm W E T) acc ≈ single acc :=
  WeakEq.of_silent (fun _ => rfl) fun _ => WeakEq.of_eq (gather_ended acc rfl).2

theorem Plays.of_gather {m : Strm W E (List T)} {l : List (W × Event E (List T))}
    {o : Option (Strm W E (List T))} (h : Plays m l o) : ∀ s acc, m = gather s acc →
      (o.isNone = false ∧ ∃ ls b, (ls, b) ∈ behaviours s ∧ l = effectsOf ls) ∨
      ∃ ls w, (ls, true) ∈ behaviours s ∧
        l = effectsOf ls ++ [(w, .item (acc ++ itemsOf ls))] := by
  induction h with
  | stop m => exact fun s acc hm => .inl ⟨rfl, [], false, behaviours_stop s, rfl⟩
  | @ended m w hHead =>
    rintro s acc rfl
    rcases hS : s.head w with _ | e | x | _
    · simp [(gather_silent _ hS).1] at hHead
    · simp [(gather_effect _ hS).1] at hHead
    · simp [(gather_item _ hS).1] at hHead
    · simp [(gather_ended _ hS).1] at hHead
  | @silent m w l o hHead hPlays ih =>
    rintro s acc rfl
    rcases hS : s.head w with _ | e | x | _
    · rcases ih _ _ (gather_silent _ hS).2 with ⟨hEnd, ls, b, hs, rfl⟩ | ⟨ls, w', hs, rfl⟩
      · exact .inl ⟨hEnd, ls, b, behaviours_silent hS hs, rfl⟩
      · exact .inr ⟨ls, w', behaviours_silent hS hs, rfl⟩
    · simp [(gather_effect _ hS).1] at hHead
    · rcases ih _ _ (gather_item _ hS).2 with ⟨hEnd, ls, b, hs, rfl⟩ | ⟨ls, w', hs, rfl⟩
      · exact .inl ⟨hEnd, (w, .item x) :: ls, b, behaviours_event hS (by simp) hs, rfl⟩
      · exact .inr ⟨(w, .item x) :: ls, w', behaviours_event hS (by simp) hs, by simp⟩
    · rw [(gather_ended _ hS).2] at hPlays
      rcases mem_behaviours_single.mp hPlays.mem with ⟨rfl, hEnd⟩ | ⟨w', rfl⟩
      · exact .inl ⟨hEnd, [], true, behaviours_ended hS, rfl⟩
      · exact .inr ⟨[], w', behaviours_ended hS, by simp⟩
  | @event m w ev l o hHead hEv hPlays ih =>
    rintro s acc rfl
    rcases hS : s.head w with _ | e | x | _
    · simp [(gather_silent _ hS).1] at hHead
    · obtain rfl : Event.effect e = ev :=
        Option.some.inj ((gather_effect _ hS).1.symm.trans hHead)
      rcases ih _ _ (gather_effect _ hS).2 with ⟨hEnd, ls, b, hs, rfl⟩ | ⟨ls, w', hs, rfl⟩
      · exact .inl ⟨hEnd, (w, .effect e) :: ls, b, behaviours_event hS (by simp) hs, rfl⟩
      · exact .inr ⟨(w, .effect e) :: ls, w', behaviours_event hS (by simp) hs, rfl⟩
    · simp [(gather_item _ hS).1] at hHead
    · simp [(gather_ended _ hS).1] at hHead

/-- What the gatherer shows once the stream showed `ls`. -/
theorem Plays.gather {ls : List (W × Event E T)} {o : Option (Strm W E T)} (h : Plays s ls o)
    {l : List (W × Event E (List T))} {e : Bool}
    (hRest : if o.isNone then (l, e) ∈ behaviours (single (acc ++ itemsOf ls))
      else l = [] ∧ e = false) :
    (effectsOf ls ++ l, e) ∈ behaviours (Polling.gather s acc) := by
  induction h generalizing acc with
  | stop s =>
    obtain ⟨rfl, rfl⟩ := hRest
    exact behaviours_stop _
  | @ended s w hS =>
    obtain ⟨hHead, hNext⟩ := gather_ended acc hS
    refine behaviours_silent hHead ?_
    rw [hNext]
    simpa using hRest
  | @silent s w ls o hS hPlays ih =>
    obtain ⟨hHead, hNext⟩ := gather_silent acc hS
    refine behaviours_silent hHead ?_
    rw [hNext]
    exact ih hRest
  | @event s w ev ls o hS hEv hPlays ih =>
    cases ev with
    | ended => exact (hEv rfl).elim
    | effect x =>
      obtain ⟨hHead, hNext⟩ := gather_effect acc hS
      refine behaviours_event hHead (by simp) ?_
      rw [hNext]
      exact ih hRest
    | item x =>
      obtain ⟨hHead, hNext⟩ := gather_item acc hS
      refine behaviours_silent hHead ?_
      rw [hNext]
      exact ih (by simpa using hRest)

/-- A run of the gatherer shows the effects of one of the stream, and then, once that ended, its
items in one list. -/
theorem mem_behaviours_gather {l : List (W × Event E (List T))} {e : Bool} :
    (l, e) ∈ behaviours (Polling.gather s acc) ↔
      (e = false ∧ ∃ ls b, (ls, b) ∈ behaviours s ∧ l = effectsOf ls) ∨
      ∃ ls w, (ls, true) ∈ behaviours s ∧
        l = effectsOf ls ++ [(w, .item (acc ++ itemsOf ls))] := by
  constructor
  · rintro ⟨o, hPlays, rfl⟩
    exact hPlays.of_gather s acc rfl
  · rintro (⟨rfl, ls, b, ⟨o, hPlays, hEnd⟩, rfl⟩ | ⟨ls, w, ⟨o, hPlays, hEnd⟩, rfl⟩)
    · have hNothing : if o.isNone then
          (([] : List (W × Event E (List T))), false) ∈ behaviours (single (acc ++ itemsOf ls))
          else ([] : List (W × Event E (List T))) = [] ∧ false = false := by
        split
        · exact behaviours_stop _
        · exact ⟨rfl, rfl⟩
      have hStop := hPlays.gather hNothing
      rwa [List.append_nil] at hStop
    · refine hPlays.gather ?_
      rw [if_pos hEnd]
      exact mem_behaviours_single.mpr (.inr ⟨w, rfl⟩)

end Gather

/-! ### A library's adapters as a parameter -/

/-- The combinators of a stream library with its other adapters. -/
structure Adapters (W E : Type u) extends Combinators W E where
  map : {T O : Type u} → Strm W E T → Fn W E T O → Strm W E O
  futMap : {T O : Type u} → Fut W E T → (T × W → List E × O) → Fut W E O
  next : {T : Type u} → Strm W E T → Fut W E (Option T × Strm W E T)
  unfold : {T σ : Type u} → σ → (σ → Fut W E (Option (T × σ))) → Strm W E T

/-- The adapters do what their documentation says, in whatever steps. -/
structure Adapters.Documented (F : Adapters W E) : Prop extends F.toCombinators.Documented where
  map : ∀ {T O : Type u} (s : Strm W E T) (f : Fn W E T O), F.map s f ≈ Polling.map s f
  futMap : ∀ {T O : Type u} (fut : Fut W E T) (f : T × W → List E × O),
    FutEq (F.futMap fut f) (Polling.futMap fut f)
  next : ∀ {T : Type u} (s : Strm W E T), FutEq (F.next s) (Polling.next s)
  unfold : ∀ {T σ : Type u} (st : σ) (f : σ → Fut W E (Option (T × σ))),
    F.unfold st f ≈ unfolding st f

/-- The adapters as they are documented. -/
def Adapters.reference : Adapters W E where
  toCombinators := .reference
  map := Polling.map
  futMap := Polling.futMap
  next := Polling.next
  unfold := unfolding

theorem Adapters.reference_documented : (reference : Adapters W E).Documented where
  toDocumented := Combinators.reference_documented
  map _ _ := .refl _
  futMap _ _ := WeakEq.refl _
  next _ := WeakEq.refl _
  unfold _ _ := .refl _

end Polling
