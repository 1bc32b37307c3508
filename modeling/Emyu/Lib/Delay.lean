import Emyu.Lib.Behaviour

/-! Calling a closure a turn late: a simulation that keeps the world in view, and when the delayed
call leaves the same traces. -/

universe u

namespace Polling

open Mealy

variable {W E T O P : Type u}

/-- A stream leaves what another one leaves that it follows step by step, where what relates them
may rest on the world as long as others keep it. -/
theorem Trace.simulate_in [Acts E W] {env : W → W → Prop} {w : W} {s t : Strm W E T}
    {l : List (Event E T)} (R : W → Strm W E T → Strm W E T → Prop)
    (hEnv : ∀ w w' s t, env w w' → R w s t → R w' s t)
    (hSilent : ∀ w s t, R w s t → s.head w = none → ∃ t', Silent w t t' ∧ R w (s.next w) t')
    (hEvent : ∀ w s t ev, R w s t → s.head w = some ev → ∃ t', Silent w t t' ∧
      t'.head w = some ev ∧ (ev ≠ .ended → R (ev.after w) (s.next w) (t'.next w)))
    (h : R w s t) (hTrace : Trace env s w l) : Trace env t w l := by
  induction hTrace generalizing t with
  | stop => exact .stop
  | env hMove _ ih => exact .env hMove (ih (hEnv _ _ _ _ hMove h))
  | silent hHead _ ih =>
    obtain ⟨t', hLead, hRel⟩ := hSilent _ _ _ h hHead
    exact of_commits (.of_silent hLead) (ih hRel)
  | event hHead hEv _ ih =>
    obtain ⟨t', hLead, hHead', hRel⟩ := hEvent _ _ _ _ h hHead
    exact of_commits (.of_silent hLead) (.event hHead' hEv (ih (hRel hEv)))
  | ended hHead =>
    obtain ⟨t', hLead, hHead', -⟩ := hEvent _ _ _ _ h hHead
    exact of_commits (.of_silent hLead) (.ended hHead')

/-- The closure that calls `k` on `j x` for each item `x`. -/
def direct (j : T → O) (k : O × W → List E × Strm W E P) : Fn W E T (Strm W E P) :=
  stateless fun i => k (j i.1, i.2)

/-- The same, but `k` is called when the stream of the one item `j x` is flattened. -/
def delayed (j : T → O) (k : O × W → List E × Strm W E P) : Fn W E T (Strm W E P) :=
  stateless fun i => ([], flatMap (single (j i.1)) (stateless k))

variable {j : T → O} {k : O × W → List E × Strm W E P}

/-- The delayed stream within the stream `i` that `k` gave, or gave the rest of. -/
def within (s : Strm W E T) (j : T → O) (k : O × W → List E × Strm W E P) (i : Strm W E P) :
    Strm W E P :=
  unfold flatStep (.inner s (delayed j k)
    (unfold flatStep (.inner (empty : Strm W E O) (stateless k) i)))

section Steps

variable {w : W} {s : Strm W E T} {i : Strm W E P}

/-- The delayed call, made in the world `w`. -/
theorem delayed_call (x : T) : Silent w
    (unfold flatStep (.inner s (delayed j k) (flatMap (single (j x)) (stateless k))))
    (within s j k (emit (k (j x, w)).1 (k (j x, w)).2)) := by
  have hItem : (single (j x) : Strm W E O).head w = some (.item (j x)) := rfl
  have hHead := (outer_silent (g := stateless k)).mpr (.inr ⟨j x, hItem⟩)
  refine .step (inner_silent.mpr (.inl hHead)) ?_
  rw [inner_next (by simp [hHead]), outer_next_item hItem]
  exact .refl _

/-- Up to its end the delayed stream does what the stream within does. -/
theorem within_head (h : i.head w ≠ some .ended) : (within s j k i).head w = i.head w ∧
    (within s j k i).next w = within s j k (i.next w) := by
  have hInner := inner_head (s := (empty : Strm W E O)) (g := stateless k) h
  rw [within, inner_head (by rwa [hInner]), hInner, inner_next (by rwa [hInner]), inner_next h]
  exact ⟨rfl, rfl⟩

/-- Then it first has to leave the layer of the delayed call. -/
theorem within_ended (h : i.head w = some .ended) : (within s j k i).head w = none ∧
    (within s j k i).next w = unfold flatStep (.inner s (delayed j k) empty) := by
  have hHead := (inner_silent (s := (empty : Strm W E O)) (g := stateless k)).mpr (.inr h)
  refine ⟨inner_silent.mpr (.inl hHead), ?_⟩
  rw [within, inner_next (by simp [hHead]), inner_next_ended h, flatMap_empty]

theorem drained_next :
    (unfold flatStep (.inner s (delayed j k) empty)).head w = none ∧
    (unfold flatStep (.inner s (delayed j k) empty)).next w = flatMap s (delayed j k) :=
  ⟨inner_silent.mpr (.inr rfl), inner_next_ended rfl⟩

theorem within_leave (h : i.head w = some .ended) :
    Silent w (within s j k i) (flatMap s (delayed j k)) := by
  refine .step (within_ended h).1 ?_
  rw [(within_ended h).2]
  refine .step drained_next.1 ?_
  rw [drained_next.2]
  exact .refl _

end Steps

variable [Acts E W] {env : W → W → Prop}

/-- What the direct stream leaves, the delayed one can leave. -/
theorem trace_delayed {s : Strm W E T} {w : W} {l : List (Event E P)}
    (h : Trace env (flatMap s (direct j k)) w l) : Trace env (flatMap s (delayed j k)) w l := by
  refine Trace.simulate (fun m n =>
    (∃ s, m = flatMap s (direct j k) ∧ n = flatMap s (delayed j k)) ∨
    ∃ s i, m = unfold flatStep (.inner s (direct j k) i) ∧ n = within s j k i) ?_ ?_
    (.inl ⟨s, rfl, rfl⟩) h
  · rintro _ _ (⟨s, rfl, rfl⟩ | ⟨s, i, rfl, rfl⟩) w hHead
    · rcases outer_silent.mp hHead with hS | ⟨x, hS⟩
      · refine ⟨_, .silent (outer_silent.mpr (.inl hS)) (.refl _), .inl ⟨s.next w, ?_, ?_⟩⟩
        · exact outer_next (by simp [hS])
        · exact outer_next (by simp [hS])
      -- the delayed call is made at once
      · have hCall := delayed_call (s := s.next w) (j := j) (k := k) (w := w) x
        refine ⟨_, .silent (outer_silent.mpr (.inr ⟨x, hS⟩)) ?_,
          .inr ⟨s.next w, _, outer_next_item hS, rfl⟩⟩
        rw [outer_next_item hS]
        exact .of_silent hCall
    · rcases inner_silent.mp hHead with hI | hI
      · obtain ⟨hWithin, hNext⟩ := within_head (s := s) (j := j) (k := k) (i := i) (w := w)
          (by simp [hI])
        refine ⟨_, .silent (hWithin.trans hI) (.refl _), .inr ⟨s, i.next w, ?_, hNext⟩⟩
        exact inner_next (by simp [hI])
      · exact ⟨_, .of_silent (within_leave hI), .inl ⟨s, inner_next_ended hI, rfl⟩⟩
  · rintro _ _ (⟨s, rfl, rfl⟩ | ⟨s, i, rfl, rfl⟩) w ev hHead
    · cases ev with
      | effect e =>
        have hS := outer_effect.mp hHead
        refine ⟨_, .refl _, outer_effect.mpr hS, fun _ => .inl ⟨s.next w, ?_, ?_⟩⟩
        · exact outer_next (by simp [hS])
        · exact outer_next (by simp [hS])
      | item y => exact (outer_item hHead).elim
      | ended =>
        have hS := outer_ended.mp hHead
        exact ⟨_, .refl _, outer_ended.mpr hS, fun h => (h rfl).elim⟩
    · obtain ⟨hI, hEv⟩ := inner_event.mp hHead
      obtain ⟨hWithin, hNext⟩ := within_head (s := s) (j := j) (k := k) (i := i) (w := w)
        (by simp [hI, hEv])
      exact ⟨_, .refl _, hWithin.trans hI, fun _ =>
        .inr ⟨s, i.next w, inner_next (by simp [hI, hEv]), hNext⟩⟩

/-- The delayed stream and the direct one beside it, in the world `w`. -/
inductive Late (j : T → O) (k : O × W → List E × Strm W E P) (w : W) :
    Strm W E P → Strm W E P → Prop where
  | outer (s : Strm W E T) : Late j k w (flatMap s (delayed j k)) (flatMap s (direct j k))
  | calling (s : Strm W E T) (x : T) : Late j k w
      (unfold flatStep (.inner s (delayed j k) (flatMap (single (j x)) (stateless k))))
      (unfold flatStep (.inner s (direct j k) (emit (k (j x, w)).1 (k (j x, w)).2)))
  | within (s : Strm W E T) (i : Strm W E P) : Late j k w (within s j k i)
      (unfold flatStep (.inner s (direct j k) i))
  | drained (s : Strm W E T) : Late j k w
      (unfold flatStep (.inner s (delayed j k) empty)) (flatMap s (direct j k))

omit [Acts E W] in
theorem Late.silent {w : W} {m n : Strm W E P} (h : Late j k w m n) (hHead : m.head w = none) :
    ∃ n', Silent w n n' ∧ Late j k w (m.next w) n' := by
  cases h with
  | outer s =>
    rcases outer_silent.mp hHead with hS | ⟨x, hS⟩
    · refine ⟨_, .one (outer_silent.mpr (.inl hS)), ?_⟩
      rw [outer_next (by simp [hS]), outer_next (by simp [hS])]
      exact .outer _
    · refine ⟨_, .one (outer_silent.mpr (.inr ⟨x, hS⟩)), ?_⟩
      rw [outer_next_item hS, outer_next_item hS]
      exact .calling _ x
  | calling s x =>
    refine ⟨_, .refl _, ?_⟩
    have hItem : (single (j x) : Strm W E O).head w = some (.item (j x)) := rfl
    have hInner := (outer_silent (g := stateless k)).mpr (.inr ⟨j x, hItem⟩)
    rw [inner_next (by simp [hInner]), outer_next_item hItem]
    exact .within s _
  | within s i =>
    by_cases hI : i.head w = some .ended
    · refine ⟨_, .one (inner_silent.mpr (.inr hI)), ?_⟩
      rw [(within_ended hI).2, inner_next_ended hI]
      exact .drained s
    · obtain ⟨hWithin, hNext⟩ := within_head (s := s) (j := j) (k := k) hI
      refine ⟨_, .one (inner_silent.mpr (.inl (hWithin.symm.trans hHead))), ?_⟩
      rw [hNext, inner_next hI]
      exact .within s _
  | drained s =>
    refine ⟨_, .refl _, ?_⟩
    rw [drained_next.2]
    exact .outer s

omit [Acts E W] in
theorem Late.event {w : W} {m n : Strm W E P} {ev : Event E P} (h : Late j k w m n)
    (hHead : m.head w = some ev) :
    n.head w = some ev ∧ (ev ≠ .ended → ∀ w', Late j k w' (m.next w) (n.next w)) := by
  cases h with
  | outer s =>
    cases ev with
    | effect e =>
      have hS := outer_effect.mp hHead
      refine ⟨outer_effect.mpr hS, fun _ _ => ?_⟩
      rw [outer_next (by simp [hS]), outer_next (by simp [hS])]
      exact .outer _
    | item y => exact (outer_item hHead).elim
    | ended => exact ⟨outer_ended.mpr (outer_ended.mp hHead), fun h => (h rfl).elim⟩
  | calling s x => cases hHead
  | within s i =>
    by_cases hI : i.head w = some .ended
    · rw [(within_ended hI).1] at hHead
      cases hHead
    · obtain ⟨hWithin, hNext⟩ := within_head (s := s) (j := j) (k := k) hI
      rw [hWithin] at hHead
      refine ⟨(inner_head hI).trans hHead, fun _ _ => ?_⟩
      rw [hNext, inner_next hI]
      exact .within s _
  | drained s => cases hHead

/-- Where `k` gives the same in the worlds that others can make of each other, the delayed stream
leaves just what the direct one leaves. -/
theorem trace_delayed_iff (hk : ∀ y w w', env w w' → k (y, w) = k (y, w')) {s : Strm W E T} {w : W}
    {l : List (Event E P)} :
    Trace env (flatMap s (delayed j k)) w l ↔ Trace env (flatMap s (direct j k)) w l := by
  refine ⟨Trace.simulate_in (Late j k) ?_ ?_ ?_ (.outer s), trace_delayed⟩
  · rintro w w' _ _ hMove (⟨s⟩ | ⟨s, x⟩ | ⟨s, i⟩ | ⟨s⟩)
    · exact .outer s
    · rw [hk (j x) w w' hMove]
      exact .calling s x
    · exact .within s i
    · exact .drained s
  · exact fun w m n h hHead => h.silent hHead
  · rintro w m n ev h hHead
    obtain ⟨hHead', hNext⟩ := h.event hHead
    exact ⟨n, .refl n, hHead', fun hEv => hNext hEv _⟩

end Polling
