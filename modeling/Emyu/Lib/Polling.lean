import Emyu.Lib.Mealy
import Mathlib.Data.Set.Basic
import Mathlib.Logic.Relation

/-! Streams that are polled step by step in a shared world, the equivalence of streams that forgets
steps in which nothing happens, and the traces a stream can leave while others act on the world. -/

universe u

/-- What an effect does to the world. -/
class Acts (E W : Type u) where
  act : E → W → W

namespace Polling

variable {W E T : Type u}

inductive Event (E T : Type u) where
  | effect (e : E)
  | item (x : T)
  | ended
  deriving DecidableEq

/-- A stream: every step looks at the world and is an effect, an item, the end, or nothing (a poll
that is `Pending`, or work that shows nowhere). What it answers after the end is never looked at. -/
abbrev Strm (W E T : Type u) := Mealy W (Option (Event E T))

/-- A future: every step is an effect, the output, or nothing. -/
abbrev Fut (W E T : Type u) := Mealy W (Option (E ⊕ T))

/-- The world after an event. -/
def Event.after [Acts E W] : Event E T → W → W
  | .effect e, w => Acts.act e w
  | .item _, w => w
  | .ended, w => w

/-- The world after a list of effects. -/
def actAll [Acts E W] (es : List E) (w : W) : W := es.foldl (fun w e => Acts.act e w) w

theorem actAll_append [Acts E W] (es es' : List E) (w : W) :
    actAll (es ++ es') w = actAll es' (actAll es w) :=
  List.foldl_append

/-- `t` is left of `s` after finitely many empty steps in the world `w`. -/
inductive Silent (w : W) : Strm W E T → Strm W E T → Prop where
  | refl (s : Strm W E T) : Silent w s s
  | step {s t : Strm W E T} : s.head w = none → Silent w (s.next w) t → Silent w s t

namespace Silent

variable {w : W} {r s t : Strm W E T}

theorem trans (h : Silent w r s) (h' : Silent w s t) : Silent w r t := by
  induction h with
  | refl _ => exact h'
  | step hHead _ ih => exact .step hHead (ih h')

theorem one (h : s.head w = none) : Silent w s (s.next w) := .step h (.refl _)

end Silent

/-- Polling `s`, in whatever worlds, has given the items `xs` and left `t`. -/
inductive Yields (s : Strm W E T) : List T → Strm W E T → Prop where
  | refl : Yields s [] s
  | quiet {xs : List T} {t : Strm W E T} {w : W} : Yields s xs t →
      (∀ x, t.head w ≠ some (.item x)) → t.head w ≠ some .ended → Yields s xs (t.next w)
  | item {xs : List T} {t : Strm W E T} {w : W} {x : T} : Yields s xs t →
      t.head w = some (.item x) → Yields s (xs ++ [x]) (t.next w)

/-- Each step of `s` is answered by `t` after some empty steps in the same world. -/
structure Answers (R : Strm W E T → Strm W E T → Prop) (s t : Strm W E T) : Prop where
  silent : ∀ w, s.head w = none → ∃ t', Silent w t t' ∧ R (s.next w) t'
  event : ∀ w ev, s.head w = some ev →
    ∃ t', Silent w t t' ∧ t'.head w = some ev ∧ (ev ≠ .ended → R (s.next w) (t'.next w))

theorem Answers.mono {R R' : Strm W E T → Strm W E T → Prop} {s t : Strm W E T}
    (hR : ∀ s t, R s t → R' s t) (h : Answers R s t) : Answers R' s t where
  silent w hHead := by
    obtain ⟨t', hSilent, hRel⟩ := h.silent w hHead
    exact ⟨t', hSilent, hR _ _ hRel⟩
  event w ev hHead := by
    obtain ⟨t', hSilent, hHead', hRel⟩ := h.event w ev hHead
    exact ⟨t', hSilent, hHead', fun hEv => hR _ _ (hRel hEv)⟩

/-- The streams do the same in every world that others may turn it into, up to empty steps. -/
def WeakEq (s t : Strm W E T) : Prop :=
  ∃ R : Strm W E T → Strm W E T → Prop, R s t ∧
    ∀ s t, R s t → Answers R s t ∧ Answers (fun t s => R s t) t s

namespace WeakEq

variable {w : W} {r s t : Strm W E T}

theorem answers (h : WeakEq s t) : Answers WeakEq s t := by
  obtain ⟨R, hRel, hR⟩ := h
  exact (hR s t hRel).1.mono fun _ _ h => ⟨R, h, hR⟩

protected theorem symm (h : WeakEq s t) : WeakEq t s := by
  obtain ⟨R, hRel, hR⟩ := h
  exact ⟨fun t s => R s t, hRel, fun t s h => ⟨(hR s t h).2, (hR s t h).1⟩⟩

/-- It is enough to answer one way when the relation is symmetric. -/
theorem of_symmetric (R : Strm W E T → Strm W E T → Prop) (hSymm : ∀ s t, R s t → R t s)
    (hR : ∀ s t, R s t → Answers R s t) (h : R s t) : WeakEq s t :=
  ⟨R, h, fun s t h => ⟨hR s t h, (hR t s (hSymm s t h)).mono hSymm⟩⟩

protected theorem refl (s : Strm W E T) : WeakEq s s := by
  refine of_symmetric Eq (fun _ _ h => h.symm) ?_ rfl
  rintro s _ rfl
  exact ⟨fun w h => ⟨_, .one h, rfl⟩, fun w ev h => ⟨s, .refl s, h, fun _ => rfl⟩⟩

theorem of_eq (h : s = t) : WeakEq s t := h ▸ WeakEq.refl s

theorem silent_follow (h : WeakEq s t) {s' : Strm W E T} (hs : Silent w s s') :
    ∃ t', Silent w t t' ∧ WeakEq s' t' := by
  induction hs generalizing t with
  | refl _ => exact ⟨t, .refl t, h⟩
  | step hHead _ ih =>
    obtain ⟨m, hSilent, hEq⟩ := h.answers.silent w hHead
    obtain ⟨t', hSilent', hEq'⟩ := ih hEq
    exact ⟨t', hSilent.trans hSilent', hEq'⟩

protected theorem trans (h : WeakEq r s) (h' : WeakEq s t) : WeakEq r t := by
  refine of_symmetric (fun r t => ∃ s, WeakEq r s ∧ WeakEq s t) ?_ ?_ ⟨s, h, h'⟩
  · rintro r t ⟨s, h, h'⟩
    exact ⟨s, h'.symm, h.symm⟩
  · rintro r t ⟨s, h, h'⟩
    constructor
    · intro w hHead
      obtain ⟨s', hs, hEq⟩ := h.answers.silent w hHead
      obtain ⟨t', ht, hEq'⟩ := h'.silent_follow hs
      exact ⟨t', ht, s', hEq, hEq'⟩
    · intro w ev hHead
      obtain ⟨s', hs, hHead', hEq⟩ := h.answers.event w ev hHead
      obtain ⟨m, hm, hEq'⟩ := h'.silent_follow hs
      obtain ⟨t', ht, hHead'', hEq''⟩ := hEq'.answers.event w ev hHead'
      exact ⟨t', hm.trans ht, hHead'', fun hEv => ⟨_, hEq hEv, hEq'' hEv⟩⟩

instance : Setoid (Strm W E T) := ⟨WeakEq, .refl, .symm, .trans⟩

/-- An empty first step that leads to the same stream in every world can be left out. -/
theorem of_silent (hHead : ∀ w, s.head w = none) (hNext : ∀ w, s.next w ≈ t) : s ≈ t := by
  refine of_symmetric
    (fun a b => a ≈ b ∨ (a = s ∧ b ≈ t) ∨ (b = s ∧ a ≈ t)) ?_ ?_ (.inr (.inl ⟨rfl, .refl t⟩))
  · rintro a b (h | h | h)
    · exact .inl h.symm
    · exact .inr (.inr h)
    · exact .inr (.inl h)
  · rintro a b (h | ⟨rfl, h⟩ | ⟨rfl, h⟩)
    · exact (answers h).mono fun _ _ h => .inl h
    · constructor
      · exact fun w _ => ⟨b, .refl b, .inl ((hNext w).trans (WeakEq.symm h))⟩
      · intro w ev h
        rw [hHead w] at h
        cases h
    · have hEq (w : W) : a ≈ b.next w := WeakEq.trans h (WeakEq.symm (hNext w))
      constructor
      · intro w ha
        obtain ⟨b', hb, hRel⟩ := (hEq w).answers.silent w ha
        exact ⟨b', .step (hHead w) hb, .inl hRel⟩
      · intro w ev ha
        obtain ⟨b', hb, hHead', hRel⟩ := (hEq w).answers.event w ev ha
        exact ⟨b', .step (hHead w) hb, hHead', fun hEv => .inl (hRel hEv)⟩

/-- Streams that answer alike at once and go on weakly equal are weakly equal. -/
theorem of_step (hHead : ∀ w, s.head w = t.head w)
    (hNext : ∀ w, s.head w ≠ some .ended → s.next w ≈ t.next w) : s ≈ t := by
  refine of_symmetric (fun a b => a ≈ b ∨ (a = s ∧ b = t) ∨ (a = t ∧ b = s)) ?_ ?_
    (.inr (.inl ⟨rfl, rfl⟩))
  · rintro a b (h | h | h)
    · exact .inl h.symm
    · exact .inr (.inr ⟨h.2, h.1⟩)
    · exact .inr (.inl ⟨h.2, h.1⟩)
  · rintro a b (h | ⟨rfl, rfl⟩ | ⟨rfl, rfl⟩)
    · exact (answers h).mono fun _ _ h => .inl h
    · constructor
      · exact fun w h => ⟨_, .one ((hHead w).symm.trans h), .inl (hNext w (by simp [h]))⟩
      · exact fun w ev h => ⟨b, .refl b, (hHead w).symm.trans h, fun hEv =>
          .inl (hNext w (by simp [h, hEv]))⟩
    · constructor
      · exact fun w h => ⟨_, .one ((hHead w).trans h),
          .inl (WeakEq.symm (hNext w (by simp [hHead w, h])))⟩
      · exact fun w ev h => ⟨b, .refl b, (hHead w).trans h, fun hEv =>
          .inl (WeakEq.symm (hNext w (by simp [hHead w, h, hEv])))⟩

/-- Streams in lockstep, but for steps in which nothing happens that only the first one takes: of
these it takes only so many before the next step of both. -/
theorem of_stutter (R : Nat → Strm W E T → Strm W E T → Prop)
    (hR : ∀ n s t, R n s t → ∀ w,
      (s.head w = t.head w ∧ (s.head w ≠ some .ended → ∃ m, R m (s.next w) (t.next w))) ∨
      (s.head w = none ∧ ∃ m < n, R m (s.next w) t)) {n : Nat} (h : R n s t) : s ≈ t := by
  refine ⟨fun s t => ∃ n, R n s t, ⟨n, h⟩, ?_⟩
  rintro s t ⟨n, h⟩
  refine ⟨⟨fun w hHead => ?_, fun w ev hHead => ?_⟩, ?_⟩
  · rcases hR n s t h w with ⟨hSame, hNext⟩ | ⟨-, m, -, hNext⟩
    · exact ⟨_, .one (hSame.symm.trans hHead), hNext (by simp [hHead])⟩
    · exact ⟨t, .refl t, m, hNext⟩
  · rcases hR n s t h w with ⟨hSame, hNext⟩ | ⟨hNone, -⟩
    · exact ⟨t, .refl t, hSame.symm.trans hHead, fun hEv => hNext (by simp [hHead, hEv])⟩
    · rw [hNone] at hHead
      cases hHead
  -- the second stream's step: the first one first takes its own steps, fewer and fewer
  · have hLead (w : W) : ∃ s', Silent w s s' ∧ s'.head w = t.head w ∧
        (s'.head w ≠ some .ended → ∃ m, R m (s'.next w) (t.next w)) := by
      induction n using Nat.strong_induction_on generalizing s with
      | _ n ih =>
        rcases hR n s t h w with ⟨hSame, hNext⟩ | ⟨hNone, m, hm, hNext⟩
        · exact ⟨s, .refl s, hSame, hNext⟩
        · obtain ⟨s', hSilent, hSame⟩ := ih m hm _ hNext
          exact ⟨s', .step hNone hSilent, hSame⟩
    constructor
    · intro w hHead
      obtain ⟨s', hSilent, hSame, hNext⟩ := hLead w
      exact ⟨_, hSilent.trans (.one (hSame.trans hHead)), hNext (by simp [hSame, hHead])⟩
    · intro w ev hHead
      obtain ⟨s', hSilent, hSame, hNext⟩ := hLead w
      exact ⟨s', hSilent, hSame.trans hHead, fun hEv => hNext (by simp [hSame, hHead, hEv])⟩

end WeakEq

/-- The visible events a stream can leave from the world `w` on: `env` says what others may do to
the world between its steps. A trace may stop anywhere, so an endless run is all its prefixes. -/
inductive Trace [Acts E W] (env : W → W → Prop) : Strm W E T → W → List (Event E T) → Prop where
  | stop {s : Strm W E T} {w : W} : Trace env s w []
  | env {s : Strm W E T} {w w' : W} {l : List (Event E T)} :
      env w w' → Trace env s w' l → Trace env s w l
  | silent {s : Strm W E T} {w : W} {l : List (Event E T)} :
      s.head w = none → Trace env (s.next w) w l → Trace env s w l
  | event {s : Strm W E T} {w : W} {ev : Event E T} {l : List (Event E T)} :
      s.head w = some ev → ev ≠ .ended → Trace env (s.next w) (ev.after w) l →
      Trace env s w (ev :: l)
  | ended {s : Strm W E T} {w : W} : s.head w = some .ended → Trace env s w [.ended]

/-- `t` is left of `s` after empty steps in the world `w`, and it may have fixed there what it
answers next, unless that is an effect. -/
inductive Commits (w : W) : Strm W E T → Strm W E T → Prop where
  | refl (s : Strm W E T) : Commits w s s
  | silent {s t : Strm W E T} : s.head w = none → Commits w (s.next w) t → Commits w s t
  | commit {s : Strm W E T} :
      (∀ e, s.head w ≠ some (.effect e)) → Commits w s (.cons (s.head w) (s.next w))

theorem Commits.of_silent {w : W} {s t : Strm W E T} (h : Silent w s t) : Commits w s t := by
  induction h with
  | refl _ => exact .refl _
  | step hHead _ ih => exact .silent hHead ih

namespace Trace

variable [Acts E W] {env : W → W → Prop} {s t : Strm W E T} {w w' : W} {l : List (Event E T)}

theorem of_envs (h : Relation.ReflTransGen env w w') (hTrace : Trace env s w' l) :
    Trace env s w l := by
  induction h using Relation.ReflTransGen.head_induction_on with
  | refl => exact hTrace
  | head hEnv _ ih => exact .env hEnv ih

theorem of_commit (hPure : ∀ e, s.head w ≠ some (.effect e))
    (hEnvs : Relation.ReflTransGen env w w')
    (hTrace : Trace env (.cons (s.head w) (s.next w)) w' l) : Trace env s w l := by
  generalize hm : Mealy.cons (s.head w) (s.next w) = m at hTrace
  induction hTrace with
  | stop => exact .stop
  | env hEnv _ ih => exact ih (hEnvs.tail hEnv) hm
  | silent hHead hRest _ =>
    subst hm
    exact .silent hHead (of_envs hEnvs hRest)
  | @event _ _ ev _ hHead hEv hRest _ =>
    subst hm
    cases ev with
    | effect e => exact (hPure e hHead).elim
    | item x => exact .event hHead hEv (of_envs hEnvs hRest)
    | ended => exact (hEv rfl).elim
  | ended hHead =>
    subst hm
    exact .ended hHead

theorem of_commits (h : Commits w s t) (hTrace : Trace env t w l) : Trace env s w l := by
  induction h with
  | refl _ => exact hTrace
  | silent hHead _ ih => exact .silent hHead (ih hTrace)
  | commit hPure => exact of_commit hPure .refl hTrace

/-- What a stream can leave, every stream can that follows it step by step. -/
theorem simulate (R : Strm W E T → Strm W E T → Prop)
    (hSilent : ∀ s t, R s t → ∀ w, s.head w = none → ∃ t', Commits w t t' ∧ R (s.next w) t')
    (hEvent : ∀ s t, R s t → ∀ w ev, s.head w = some ev →
      ∃ t', Commits w t t' ∧ t'.head w = some ev ∧ (ev ≠ .ended → R (s.next w) (t'.next w)))
    (h : R s t) (hTrace : Trace env s w l) : Trace env t w l := by
  induction hTrace generalizing t with
  | stop => exact .stop
  | env hEnv _ ih => exact .env hEnv (ih h)
  | silent hHead _ ih =>
    obtain ⟨t', hCommits, hRel⟩ := hSilent _ _ h _ hHead
    exact of_commits hCommits (ih hRel)
  | event hHead hEv _ ih =>
    obtain ⟨t', hCommits, hHead', hRel⟩ := hEvent _ _ h _ _ hHead
    exact of_commits hCommits (.event hHead' hEv (ih (hRel hEv)))
  | ended hHead =>
    obtain ⟨t', hCommits, hHead', -⟩ := hEvent _ _ h _ _ hHead
    exact of_commits hCommits (.ended hHead')

/-- Two streams that begin with an empty step are compared after it. -/
theorem under_silent (hs : ∀ w, s.head w = none) (ht : ∀ w, t.head w = none)
    (hNext : ∀ w l, Trace env (s.next w) w l → Trace env (t.next w) w l)
    (hTrace : Trace env s w l) : Trace env t w l := by
  generalize hm : s = m at hTrace
  induction hTrace with
  | stop => exact .stop
  | env hEnv _ ih => exact .env hEnv (ih hm)
  | silent _ hRest _ => exact .silent (ht _) (hNext _ _ (hm ▸ hRest))
  | event hHead _ _ _ => rw [← hm, hs] at hHead; cases hHead
  | ended hHead => rw [← hm, hs] at hHead; cases hHead

theorem weakEq (hTrace : Trace env s w l) (h : s ≈ t) : Trace env t w l := by
  refine simulate WeakEq ?_ ?_ h hTrace
  · intro s t h w hHead
    obtain ⟨t', hSilent, hEq⟩ := h.answers.silent w hHead
    exact ⟨t', .of_silent hSilent, hEq⟩
  · intro s t h w ev hHead
    obtain ⟨t', hSilent, hHead', hEq⟩ := h.answers.event w ev hHead
    exact ⟨t', .of_silent hSilent, hHead', hEq⟩

end Trace

/-- Whatever the stream answers, in whatever worlds it is polled, meets `P`. -/
def Shows (P : Event E T → Prop) (s : Strm W E T) : Prop :=
  ∀ past w ev, s.answer past w = some ev → P ev

theorem Shows.unfold {σ : Type*} {P : Event E T → Prop} {step : σ → W → Option (Event E T) × σ}
    (h : ∀ s w ev, (step s w).1 = some ev → P ev) (s : σ) : Shows P (Mealy.unfold step s) := by
  intro past
  induction past generalizing s with
  | nil => exact h s
  | cons w past ih => exact ih (step s w).2

theorem Shows.trace [Acts E W] {P : Event E T → Prop} {env : W → W → Prop} {s : Strm W E T} {w : W}
    {l : List (Event E T)} (hTrace : Trace env s w l) (h : Shows P s) : ∀ ev ∈ l, P ev := by
  induction hTrace with
  | stop => simp
  | env _ _ ih => exact ih h
  | silent _ _ ih => exact ih fun past => h (_ :: past)
  | event hHead _ _ ih =>
    rw [List.forall_mem_cons]
    exact ⟨h [] _ _ hHead, ih fun past => h (_ :: past)⟩
  | ended hHead =>
    rw [List.forall_mem_singleton]
    exact h [] _ _ hHead

/-- Weakly equal streams leave the same traces. -/
theorem trace_congr [Acts E W] (env : W → W → Prop) {s t : Strm W E T} (h : s ≈ t) (w : W) :
    {l | Trace env s w l} = {l | Trace env t w l} :=
  Set.ext fun _ => ⟨fun hs => hs.weakEq h, fun ht => ht.weakEq (WeakEq.symm h)⟩

end Polling
