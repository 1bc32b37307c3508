import Emyu.Host.Tasks

/-! Why the message loop never ends: the host's own updater keeps a sender of the channel alive, so
`message_rx` never reports the end. -/

namespace Emyu.Host

open Fifo Runs

variable {A : Application} {ready : Nat → Channel A.RootMessage → Nat → Bool} {s t : Host A}

/-- Nobody can reach the host any more: it waits on an empty queue, no handle is held outside, and
every task has ended. -/
structure Unreachable (s : Host A) : Prop where
  waiting : s.phase = .waiting
  handles : ∀ id, s.channel.alive id = true → s.outside id = false
  tasks : ∀ task ∈ s.tasks, task.stage.isEnded = true
  empty : s.channel.queue = []

/-- The only sender left then is the host's own. -/
theorem Tasks.only_host {model : A.Model} (h : s.Tasks model) (hu : s.Unreachable) (id : Nat) :
    s.channel.alive id = true ↔ id = 0 := by
  constructor
  · intro hAlive
    rcases h.owner id hAlive with h0 | hOutside | ⟨task, hMem, -, hRunning⟩
    · exact h0
    · rw [hu.handles id hAlive] at hOutside
      cases hOutside
    · rw [hu.tasks task hMem] at hRunning
      cases hRunning
  · rintro rfl
    exact h.host_alive

theorem Tasks.poll_ne_end {model : A.Model} (h : s.Tasks model) :
    s.channel.poll ≠ .ready none := by
  unfold Channel.poll
  split
  · simp
  · have hAlive : ¬ ∀ id < s.channel.made, s.channel.alive id = false := fun hAll => by
      have hDead := hAll 0 h.host_made
      rw [h.host_alive] at hDead
      cases hDead
    rw [if_neg hAlive]
    simp

/-- The loop cannot be left: the branch that breaks needs a poll that never happens. -/
theorem Tasks.not_stopped {model : A.Model} (h : s.Tasks model) (hMove : Move ready s t)
    (hPhase : s.phase ≠ .stopped) : t.phase ≠ .stopped := by
  cases hMove with
  | stopping _ hPoll => exact (h.poll_ne_end hPoll).elim
  | run => simp
  | received => simp
  | intercepted => simp
  | allIntercepted => simp
  | updated => simp
  | accumulated => simp
  | noCommand => simp
  | spawned => simp
  | allFlushed => simp
  | _ => exact hPhase

theorem running_of_run {model : A.Model} {as : List (Action A)} (h : s.Tasks model)
    (hPhase : s.phase ≠ .stopped) (hRun : run (step ready) s as = some t) :
    t.phase ≠ .stopped := by
  have hStep : ∀ s a t, s.Tasks model ∧ s.phase ≠ .stopped → step ready s a = some t →
      t.Tasks model ∧ t.phase ≠ .stopped := fun s a t hs hStep =>
    ⟨hs.1.move (step_move hStep), hs.1.not_stopped (step_move hStep) hs.2⟩
  exact (run_invariant hStep ⟨h, hPhase⟩ hRun).2

/-- No host stops when nobody can reach it: in every run the poll of `message_rx` then stays
pending, as the host's own updater is a live sender, and such states are reached. -/
theorem never_stops (ready : Nat → Channel A.RootMessage → Nat → Bool) (model : A.Model)
    (world : A.World) (interceptors : List A.Interceptor) (buffer : Nat) :
    (∀ as s, run (step ready) (new model world interceptors buffer) as = some s →
      s.phase ≠ .stopped ∧ (s.Unreachable → s.channel.poll = .pending ∧
        ∀ id, s.channel.alive id = true ↔ id = 0)) ∧
    ∃ as s, run (step ready) (new model world interceptors buffer) as = some s ∧
      s.Unreachable := by
  constructor
  · intro as s hRun
    have hNew := Tasks.new model world interceptors buffer
    refine ⟨running_of_run hNew (by simp [new]) hRun, fun hu => ⟨?_, (hNew.run hRun).only_host hu⟩⟩
    have hEnd := (hNew.run hRun).poll_ne_end
    unfold Channel.poll at hEnd ⊢
    rw [hu.empty] at hEnd ⊢
    dsimp only at hEnd ⊢
    split
    next hAll => rw [if_pos hAll] at hEnd; exact (hEnd rfl).elim
    next => rfl
  · refine ⟨[.run], { new model world interceptors buffer with phase := .waiting }, rfl, rfl,
      ?_, ?_, rfl⟩
    · exact fun _ _ => rfl
    · simp [new]

/-- A host that nobody has a handle to, right after it was started. -/
theorem waits_for_itself : ¬ ∀ (as : List (Action journal)) (s : Host journal),
    run (step Channel.unparked) (new [] () [] 4) as = some s → s.Unreachable →
      s.channel.poll = .ready none := by
  intro h
  have hPoll := h [.run] _ rfl ⟨rfl, fun _ _ => rfl, by simp [new], rfl⟩
  cases hPoll

end Emyu.Host
