import Emyu.Host

/-! What one step of the host system can do, with the guards it passed: the invariants are proved
from this list and never look into the step function. -/

namespace Emyu.Host

open Polling Fifo

variable {A : Application} {ready : Nat → Channel A.RootMessage → Nat → Bool} {s t : Host A}

inductive Move (ready : Nat → Channel A.RootMessage → Nat → Bool) (s : Host A) : Host A → Prop where
  | run : s.phase = .built → Move ready s { s with phase := .waiting }
  | received (message : A.RootMessage) (c : Channel A.RootMessage) :
      s.phase = .waiting → s.channel.queue.head? = some message →
      s.channel.step (ready s.buffer) .take = some c →
      Move ready s { s with channel := c, phase := .intercepting message 0 }
  | stopping : s.phase = .waiting → s.channel.poll = .ready none →
      Move ready s { s with phase := .stopped }
  | intercepted (message : A.RootMessage) (k : Nat) (interceptor : A.Interceptor) :
      s.phase = .intercepting message k → s.interceptors[k]? = some interceptor →
      Move ready s { s with
        phase := .intercepting message (k + 1)
        interceptors := s.interceptors.set k (interceptor.next (s.model, s.world, message))
        world := interceptor.head (s.model, s.world, message)
        trail := s.trail ++ [.intercepted k s.model message] }
  | allIntercepted (message : A.RootMessage) (k : Nat) :
      s.phase = .intercepting message k → s.interceptors.length ≤ k →
      Move ready s { s with phase := .updating message }
  | updated (message : A.RootMessage) : s.phase = .updating message →
      Move ready s { s with
        phase := .accumulating (A.update s.model s.world message).2.2
        model := (A.update s.model s.world message).1
        world := (A.update s.model s.world message).2.1
        applied := s.applied ++ [(s.world, message)]
        trail := s.trail ++ [.updated s.model message] }
  | accumulated (command : Option A.CommandRepr) : s.phase = .accumulating command →
      Move ready s { s with
        phase := .spawning command
        signals := s.signals ++ A.accumulateSignals s.model s.world }
  | noCommand : s.phase = .spawning none → Move ready s { s with phase := .flushing }
  | spawned (command : A.CommandRepr) : s.phase = .spawning (some command) →
      Move ready s { s.spawn command with phase := .flushing }
  | flushed (signal : A.Signal) (rest : List A.Signal) : s.phase = .flushing →
      s.signals = signal :: rest →
      Move ready s { s with signals := rest, world := A.flush signal s.world }
  | allFlushed : s.phase = .flushing → s.signals = [] →
      Move ready s { s with phase := .waiting }
  | started (k : Nat) (task : Task A) : s.tasks[k]? = some task → task.stage = .spawned →
      Move ready s { s.setTask k { task with
          stage := .running (emit (task.command task.context (s.model, s.world)).1
            (task.command task.context (s.model, s.world)).2) } with
        starts := s.starts ++ [(k, task.context)] }
  | advanced (k : Nat) (task : Task A) {stream : Strm (A.Model × A.World) A.Effect A.RootMessage}
      (w : A.World) : s.tasks[k]? = some task → task.stage = .running stream →
      (∀ x, stream.head (s.model, s.world) ≠ some (.item x)) →
      stream.head (s.model, s.world) ≠ some .ended →
      Move ready s { s.setTask k { task with
        stage := .running (stream.next (s.model, s.world)) } with world := w }
  | emitted (k : Nat) (task : Task A) {stream : Strm (A.Model × A.World) A.Effect A.RootMessage}
      (message root : A.RootMessage) (c : Channel A.RootMessage) :
      s.tasks[k]? = some task → task.stage = .running stream →
      stream.head (s.model, s.world) = some (.item message) →
      (s.updaters task.sender).map ⟨A.root, message⟩ = some root →
      s.channel.step (ready s.buffer) (.call task.sender root) = some c →
      Move ready s (setTask { s with channel := c } k { task with
        stage := .running (stream.next (s.model, s.world))
        emitted := task.emitted ++ [message] })
  | finished (k : Nat) (task : Task A) {stream : Strm (A.Model × A.World) A.Effect A.RootMessage}
      (c : Channel A.RootMessage) :
      s.tasks[k]? = some task → task.stage = .running stream →
      stream.head (s.model, s.world) = some .ended → s.channel.pending task.sender = none →
      s.channel.step (ready s.buffer) (.close task.sender) = some c →
      Move ready s (setTask { s with channel := c } k { task with stage := .ended })
  | channel (op : Op A.RootMessage) (c : Channel A.RootMessage) : op ≠ .take → op ≠ .openSender →
      (∀ id, op.by? = some id → s.outside id = true) →
      s.channel.step (ready s.buffer) op = some c → Move ready s { s with channel := c }
  | opened (u : Updater A) : Move ready s (s.openUpdater u true)
  | zoomed (u : Updater A) (id : Nat) (c : Channel A.RootMessage) : s.outside id = true →
      (s.openUpdater u true).channel.step (ready s.buffer) (.close id) = some c →
      Move ready s { s.openUpdater u true with channel := c }
  | world (w : A.World) : Move ready s { s with world := w }
  | idle : Move ready s s

theorem poll_some {c : Channel A.RootMessage} {message : A.RootMessage}
    (h : c.poll = .ready (some message)) : c.queue.head? = some message := by
  unfold Channel.poll at h
  split at h
  next hQueue => cases h; rw [hQueue]; rfl
  next => split at h <;> cases h

theorem hostStep_move (h : s.hostStep ready = some t) : Move ready s t := by
  unfold hostStep at h
  split at h
  case h_1 hPhase =>
    split at h
    next message hPoll =>
      obtain ⟨s', hTake, rfl⟩ := Option.map_eq_some_iff.mp h
      obtain ⟨c, hStep, rfl⟩ := Option.map_eq_some_iff.mp hTake
      exact .received message c hPhase (poll_some hPoll) hStep
    next hPoll => cases h; exact .stopping hPhase hPoll
    next => cases h
  case h_2 message k hPhase =>
    split at h
    next interceptor hGet => cases h; exact .intercepted message k interceptor hPhase hGet
    next hGet =>
      cases h
      exact .allIntercepted message k hPhase (List.getElem?_eq_none_iff.mp hGet)
  case h_3 message hPhase => cases h; exact .updated message hPhase
  case h_4 command hPhase => cases h; exact .accumulated command hPhase
  case h_5 hPhase => cases h; exact .noCommand hPhase
  case h_6 command hPhase => cases h; exact .spawned command hPhase
  case h_7 hPhase =>
    split at h
    next signal rest hSignals => cases h; exact .flushed signal rest hPhase hSignals
    next hSignals => cases h; exact .allFlushed hPhase hSignals
  case h_8 => cases h
  case h_9 => cases h

theorem pollTask_move {k : Nat} {task : Task A} (hTask : s.tasks[k]? = some task)
    (h : s.pollTask ready k task = some t) : Move ready s t := by
  unfold pollTask at h
  split at h
  case h_1 hStage => cases h; exact .started k task hTask hStage
  case h_2 stream hStage =>
    split at h
    next => cases h; exact .idle
    next hPending =>
      have hNone : s.channel.pending task.sender = none := by simpa using hPending
      dsimp only at h
      split at h
      next hHead =>
        cases h
        exact .advanced k task s.world hTask hStage (by simp [hHead]) (by simp [hHead])
      next e hHead =>
        cases h
        exact .advanced k task (A.act e s.world) hTask hStage (by simp [hHead]) (by simp [hHead])
      next message hHead =>
        obtain ⟨root, hMap, hSend⟩ := Option.bind_eq_some_iff.mp h
        obtain ⟨s', hCall, rfl⟩ := Option.map_eq_some_iff.mp hSend
        obtain ⟨c, hStep, rfl⟩ := Option.map_eq_some_iff.mp hCall
        exact .emitted k task message root c hTask hStage hHead hMap hStep
      next hHead =>
        obtain ⟨s', hClose, rfl⟩ := Option.map_eq_some_iff.mp h
        obtain ⟨c, hStep, rfl⟩ := Option.map_eq_some_iff.mp hClose
        exact .finished k task c hTask hStage hHead hNone hStep
  case h_3 => cases h

/-- A channel operation on a handle held outside. -/
theorem channelStep_move {op : Op A.RootMessage} (hTake : op ≠ .take) (hOpen : op ≠ .openSender)
    (hBy : ∀ id, op.by? = some id → s.outside id = true)
    (h : s.channelStep ready op = some t) : Move ready s t := by
  obtain ⟨c, hStep, rfl⟩ := Option.map_eq_some_iff.mp h
  exact .channel op c hTake hOpen hBy hStep

theorem step_move {a : Action A} (h : s.step ready a = some t) : Move ready s t := by
  cases a with
  | updater =>
    simp only [step] at h
    split at h
    · cases h; exact .opened _
    · cases h
  | run =>
    simp only [step] at h
    split at h
    next hPhase => cases h; exact .run hPhase
    next => cases h
  | host => exact hostStep_move h
  | poll k =>
    obtain ⟨task, hTask, hPoll⟩ := Option.bind_eq_some_iff.mp h
    exact pollTask_move hTask hPoll
  | send id message =>
    simp only [step, Option.ite_none_right_eq_some, Option.bind_eq_some_iff] at h
    obtain ⟨hOutside, root, -, hCall⟩ := h
    exact channelStep_move (by simp) (by simp) (by rintro _ ⟨⟩; exact hOutside) hCall
  | accept id => exact channelStep_move (by simp) (by simp) (by rintro _ ⟨⟩) h
  | cancel id =>
    simp only [step, Option.ite_none_right_eq_some] at h
    exact channelStep_move (by simp) (by simp) (by rintro _ ⟨⟩; exact h.1) h.2
  | clone id =>
    simp only [step, Option.ite_none_right_eq_some, Option.some.injEq] at h
    obtain ⟨-, rfl⟩ := h
    exact .opened _
  | zoom id child parent lens =>
    simp only [step, Option.ite_none_right_eq_some, Option.bind_eq_some_iff] at h
    obtain ⟨hOutside, u, -, hClose⟩ := h
    obtain ⟨c, hStep, rfl⟩ := Option.map_eq_some_iff.mp hClose
    exact .zoomed u id c hOutside hStep
  | drop id =>
    simp only [step, Option.ite_none_right_eq_some] at h
    exact channelStep_move (by simp) (by simp) (by rintro _ ⟨⟩; exact h.1) h.2
  | world w => cases h; exact .world w

end Emyu.Host
