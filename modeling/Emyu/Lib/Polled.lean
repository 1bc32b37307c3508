import Emyu.Lib.Combinators
import Emyu.Lib.Run

/-! A stream that is polled to its end while others act on the world: runs of the two, and that
weakly equal streams have the same runs up to the number of polls. -/

universe u

namespace Polling

open Mealy Runs

variable {W E T X : Type u}

def Event.item? : Event E T → Option T
  | .item x => some x
  | _ => none

/-- What is polled, the world, the events so far, and whether the end was seen. -/
structure Polled (W E T : Type u) where
  stream : Strm W E T
  world : W
  events : List (Event E T)
  ended : Bool

inductive Turn (X : Type u) where
  | poll
  | other (x : X)

namespace Polled

def new (stream : Strm W E T) (world : W) : Polled W E T := ⟨stream, world, [], false⟩

def items (s : Polled W E T) : List T := s.events.filterMap Event.item?

/-- Two that show the same and can only show the same. -/
structure Alike (s t : Polled W E T) : Prop where
  world : s.world = t.world
  events : s.events = t.events
  ended : s.ended = t.ended
  stream : s.ended = false → s.stream ≈ t.stream

namespace Alike

variable {s t : Polled W E T}

protected theorem symm (h : Alike s t) : Alike t s :=
  ⟨h.world.symm, h.events.symm, h.ended.symm,
    fun hOpen => WeakEq.symm (h.stream (h.ended.trans hOpen))⟩

theorem items (h : Alike s t) : s.items = t.items := congrArg (List.filterMap _) h.events

theorem new {i j : Strm W E T} (h : i ≈ j) (w : W) : Alike (.new i w) (.new j w) :=
  ⟨rfl, rfl, rfl, fun _ => h⟩

end Alike

variable [Acts E W]

def poll (s : Polled W E T) : Polled W E T :=
  match s.stream.head s.world with
  | none => { s with stream := s.stream.next s.world }
  | some .ended => { s with ended := true }
  | some ev => ⟨s.stream.next s.world, ev.after s.world, s.events ++ [ev], s.ended⟩

/-- A stream that has ended is not polled again; `env` is what others can do. -/
def step (env : W → X → Option W) (s : Polled W E T) : Turn X → Option (Polled W E T)
  | .poll => if s.ended then none else some s.poll
  | .other x => (env s.world x).map fun w => { s with world := w }

/-- `t` is `s` after polls alone. -/
def Polls (env : W → X → Option W) (s t : Polled W E T) : Prop :=
  ∃ n, run (step env) s (List.replicate n .poll) = some t

section Rules

variable {env : W → X → Option W} {s t r : Polled W E T} {ev : Event E T}

theorem poll_silent (h : s.stream.head s.world = none) :
    s.poll = { s with stream := s.stream.next s.world } := by
  simp only [poll, h]

theorem poll_ended (h : s.stream.head s.world = some .ended) :
    s.poll = { s with ended := true } := by
  simp only [poll, h]

theorem poll_event (h : s.stream.head s.world = some ev) (hEv : ev ≠ .ended) :
    s.poll = ⟨s.stream.next s.world, ev.after s.world, s.events ++ [ev], s.ended⟩ := by
  cases ev with
  | ended => exact (hEv rfl).elim
  | _ => simp only [poll, h]

theorem step_poll (h : s.ended = false) : step env s .poll = some s.poll := by
  simp [step, h]

theorem Polls.refl (s : Polled W E T) : Polls env s s := ⟨0, rfl⟩

theorem Polls.cons (hStep : step env s .poll = some t) (h : Polls env t r) : Polls env s r := by
  obtain ⟨n, hRun⟩ := h
  exact ⟨n + 1, run_cons_eq_some.mpr ⟨t, hStep, hRun⟩⟩

theorem Polls.trans (h : Polls env s t) (h' : Polls env t r) : Polls env s r := by
  obtain ⟨n, hRun⟩ := h
  obtain ⟨m, hRun'⟩ := h'
  exact ⟨n + m, List.replicate_add n m Turn.poll ▸ run_trans hRun hRun'⟩

theorem Polls.of_silent {w : W} {i j : Strm W E T} {evs : List (Event E T)} (h : Silent w i j) :
    Polls env ⟨i, w, evs, false⟩ ⟨j, w, evs, false⟩ := by
  induction h with
  | refl _ => exact .refl _
  | @step i _ hHead _ ih =>
    refine .cons ?_ ih
    rw [step_poll rfl, poll_silent hHead]

end Rules

namespace Alike

variable {env : W → X → Option W} {s s' t t' : Polled W E T}

/-- A poll of one is some polls of the other. -/
theorem poll (h : Alike s t) (hStep : step env s .poll = some s') :
    ∃ t', Polls env t t' ∧ Alike s' t' := by
  obtain ⟨i, w, evs, ended⟩ := s
  obtain ⟨j, w', evs', ended'⟩ := t
  obtain ⟨rfl, rfl, rfl, hStream⟩ := h
  cases ended with
  | true => cases hStep
  | false =>
    rw [step_poll rfl] at hStep
    obtain rfl := Option.some.inj hStep
    rcases hHead : i.head w with _ | ev
    · obtain ⟨j', hSilent, hEq⟩ := (hStream rfl).answers.silent w hHead
      rw [poll_silent hHead]
      exact ⟨_, .of_silent hSilent, rfl, rfl, rfl, fun _ => hEq⟩
    · obtain ⟨j', hSilent, hHead', hEq⟩ := (hStream rfl).answers.event w ev hHead
      by_cases hEv : ev = .ended
      · subst hEv
        rw [poll_ended hHead]
        refine ⟨_, (Polls.of_silent hSilent).trans (.cons (step_poll rfl) (.refl _)), ?_⟩
        rw [poll_ended hHead']
        exact ⟨rfl, rfl, rfl, fun hOpen => by cases hOpen⟩
      · rw [poll_event hHead hEv]
        refine ⟨_, (Polls.of_silent hSilent).trans (.cons (step_poll rfl) (.refl _)), ?_⟩
        rw [poll_event hHead' hEv]
        exact ⟨rfl, rfl, rfl, fun _ => hEq hEv⟩

theorem polls (h : Alike s t) (hPolls : Polls env s s') : ∃ t', Polls env t t' ∧ Alike s' t' := by
  obtain ⟨n, hRun⟩ := hPolls
  induction n generalizing s t with
  | zero => cases hRun; exact ⟨t, .refl t, h⟩
  | succ n ih =>
    obtain ⟨m, hStep, hRest⟩ := run_cons_eq_some.mp hRun
    obtain ⟨m', hPolls, hAlike⟩ := h.poll hStep
    obtain ⟨t', hPolls', hAlike'⟩ := ih hAlike hRest
    exact ⟨t', hPolls.trans hPolls', hAlike'⟩

/-- A run of one is a run of the other. -/
theorem run {as : List (Turn X)} (h : Alike s t) (hRun : Runs.run (step env) s as = some s') :
    ∃ bs t', Runs.run (step env) t bs = some t' ∧ Alike s' t' := by
  induction as generalizing s t with
  | nil => cases hRun; exact ⟨[], t, rfl, h⟩
  | cons a as ih =>
    obtain ⟨m, hStep, hRest⟩ := run_cons_eq_some.mp hRun
    cases a with
    | poll =>
      obtain ⟨m', ⟨n, hPolls⟩, hAlike⟩ := h.poll hStep
      obtain ⟨bs, t', hRun', hAlike'⟩ := ih hAlike hRest
      exact ⟨_, t', run_trans hPolls hRun', hAlike'⟩
    | other x =>
      obtain ⟨w, hEnv, rfl⟩ := Option.map_eq_some_iff.mp hStep
      have hOther : step env t (.other x) = some { t with world := w } :=
        Option.map_eq_some_iff.mpr ⟨w, h.world ▸ hEnv, rfl⟩
      have hAlike : Alike { s with world := w } { t with world := w } :=
        ⟨rfl, h.events, h.ended, h.stream⟩
      obtain ⟨bs, t', hRun', hAlike'⟩ := ih hAlike hRest
      exact ⟨_, t', run_cons_eq_some.mpr ⟨_, hOther, hRun'⟩, hAlike'⟩

end Alike

end Polled

end Polling
