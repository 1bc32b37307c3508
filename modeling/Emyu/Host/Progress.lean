import Emyu.Host.Stop

/-! Why the message loop cannot deadlock on its own channel: the host never sends, what it does for
a message needs nobody else, and a sender only waits while there is a message to take. -/

namespace Emyu

open Polling Fifo Runs

variable {A : Application}

namespace Phase

/-- The host is inside `handle_message`. -/
def isHandling : Phase A → Bool
  | .intercepting _ _ => true
  | .updating _ => true
  | .accumulating _ => true
  | .spawning _ => true
  | .flushing => true
  | _ => false

/-- How far the phase is from the next `message_rx.next()`. -/
def rank : Phase A → Nat
  | .intercepting _ _ => 5
  | .updating _ => 4
  | .accumulating _ => 3
  | .spawning _ => 2
  | .flushing => 1
  | _ => 0

end Phase

namespace Host

variable {ready : Nat → Channel A.RootMessage → Nat → Bool} {s t : Host A}

/-- A send through this sender waits, before its message is queued or, after that, in its flush. -/
def Blocked (ready : Nat → Channel A.RootMessage → Nat → Bool) (s : Host A) (id : Nat) : Prop :=
  ready s.buffer s.channel id = false

/-- The steps that the loop over interceptors or over signals still takes. -/
def left (s : Host A) : Nat :=
  match s.phase with
  | .intercepting _ k => s.interceptors.length - k
  | .flushing => s.signals.length
  | _ => 0

/-- The messages to take, and then what is left of the one under way. -/
def work (s : Host A) : Nat × Nat × Nat := (s.channel.queue.length, s.phase.rank, s.left)

/-- A step of the host brings it closer to an empty queue and leaves the sends alone. -/
structure Advances (s t : Host A) : Prop where
  pending : t.channel.pending = s.channel.pending
  buffer : t.buffer = s.buffer
  running : t.phase = .waiting ∨ t.phase.isHandling = true
  closer : Prod.Lex (· < ·) (Prod.Lex (· < ·) (· < ·)) t.work s.work

theorem Advances.of_rank (hChannel : t.channel.queue = s.channel.queue)
    (hPending : t.channel.pending = s.channel.pending) (hBuffer : t.buffer = s.buffer)
    (hRunning : t.phase = .waiting ∨ t.phase.isHandling = true)
    (hRank : t.phase.rank < s.phase.rank) : Advances s t where
  pending := hPending
  buffer := hBuffer
  running := hRunning
  closer := by
    rw [work, work, hChannel]
    exact .right _ (.left _ _ hRank)

theorem Advances.of_left (hChannel : t.channel = s.channel) (hBuffer : t.buffer = s.buffer)
    (hRunning : t.phase.isHandling = true) (hRank : t.phase.rank = s.phase.rank)
    (hLeft : t.left < s.left) : Advances s t where
  pending := by rw [hChannel]
  buffer := hBuffer
  running := .inr hRunning
  closer := by
    rw [work, work, hChannel, hRank]
    exact .right _ (.right _ hLeft)

/-- Inside `handle_message` the host can always go on. -/
theorem hostStep_handling (ready : Nat → Channel A.RootMessage → Nat → Bool)
    (hHandling : s.phase.isHandling = true) : ∃ t, s.hostStep ready = some t ∧ Advances s t := by
  cases hPhase : s.phase with
  | built => rw [hPhase] at hHandling; cases hHandling
  | waiting => rw [hPhase] at hHandling; cases hHandling
  | stopped => rw [hPhase] at hHandling; cases hHandling
  | intercepting message k =>
    rcases hGet : s.interceptors[k]? with _ | interceptor
    · refine ⟨{ s with phase := .updating message }, by simp [hostStep, hPhase, hGet], ?_⟩
      exact .of_rank rfl rfl rfl (.inr rfl) (by simp [hPhase, Phase.rank])
    · have hLt := (List.getElem?_eq_some_iff.mp hGet).1
      refine ⟨_, by simp only [hostStep, hPhase, hGet]; rfl, ?_⟩
      refine .of_left rfl rfl rfl (by simp [hPhase, Phase.rank]) ?_
      simp only [left, hPhase, List.length_set]
      omega
  | updating message =>
    refine ⟨_, by simp only [hostStep, hPhase]; rfl, ?_⟩
    exact .of_rank rfl rfl rfl (.inr rfl) (by simp [hPhase, Phase.rank])
  | accumulating command =>
    refine ⟨_, by simp only [hostStep, hPhase]; rfl, ?_⟩
    exact .of_rank rfl rfl rfl (.inr rfl) (by simp [hPhase, Phase.rank])
  | spawning command =>
    cases command with
    | none =>
      refine ⟨_, by simp only [hostStep, hPhase]; rfl, ?_⟩
      exact .of_rank rfl rfl rfl (.inr rfl) (by simp [hPhase, Phase.rank])
    | some command =>
      refine ⟨_, by simp only [hostStep, hPhase]; rfl, ?_⟩
      exact .of_rank rfl rfl rfl (.inr rfl) (by simp [hPhase, Phase.rank])
  | flushing =>
    rcases hSignals : s.signals with _ | ⟨signal, rest⟩
    · refine ⟨{ s with phase := .waiting }, by simp [hostStep, hPhase, hSignals], ?_⟩
      exact .of_rank rfl rfl rfl (.inl rfl) (by simp [hPhase, Phase.rank])
    · refine ⟨_, by simp only [hostStep, hPhase, hSignals]; rfl, ?_⟩
      refine .of_left rfl rfl rfl (by simp [hPhase]) ?_
      simp [left, hPhase, hSignals]

/-- A waiting host takes the message at the head of the queue. -/
theorem hostStep_waiting (ready : Nat → Channel A.RootMessage → Nat → Bool)
    (hPhase : s.phase = .waiting) (hQueue : s.channel.queue ≠ []) :
    (∃ message, s.channel.poll = .ready (some message)) ∧
      ∃ t, s.hostStep ready = some t ∧ Advances s t := by
  obtain ⟨message, rest, hSplit⟩ := List.exists_cons_of_ne_nil hQueue
  have hPoll : s.channel.poll = .ready (some message) := by simp [Channel.poll, hSplit]
  refine ⟨⟨message, hPoll⟩, ?_⟩
  refine ⟨{ s with
    channel := { s.channel with queue := rest, taken := s.channel.taken ++ [message] }
    phase := .intercepting message 0 }, ?_, rfl, rfl, .inr rfl, ?_⟩
  · simp [hostStep, hPhase, hPoll, channelStep, Channel.step, hSplit]
  · exact .left _ _ (by simp [hSplit])

/-- By its own steps alone the host empties the queue. -/
theorem drains (ready : Nat → Channel A.RootMessage → Nat → Bool) (s : Host A)
    (hRunning : s.phase = .waiting ∨ s.phase.isHandling = true) :
    ∃ n t, run (step ready) s (List.replicate n .host) = some t ∧ t.phase = .waiting ∧
      t.channel.queue = [] ∧ t.channel.pending = s.channel.pending ∧ t.buffer = s.buffer := by
  by_cases hDone : s.phase = .waiting ∧ s.channel.queue = []
  · exact ⟨0, s, rfl, hDone.1, hDone.2, rfl, rfl⟩
  · obtain ⟨t, hStep, hAdvances⟩ : ∃ t, s.hostStep ready = some t ∧ Advances s t := by
      rcases hRunning with hWaiting | hHandling
      · exact (hostStep_waiting ready hWaiting fun hEmpty => hDone ⟨hWaiting, hEmpty⟩).2
      · exact hostStep_handling ready hHandling
    obtain ⟨n, u, hRun, hWaiting, hEmpty, hPending, hBuffer⟩ := drains ready t hAdvances.running
    refine ⟨n + 1, u, ?_, hWaiting, hEmpty, hPending.trans hAdvances.pending,
      hBuffer.trans hAdvances.buffer⟩
    rw [List.replicate_succ, run_cons_eq_some]
    exact ⟨t, hStep, hRun⟩
termination_by s.work
decreasing_by exact hAdvances.closer

/-- Nothing is ever sent through the host's own `updater`. -/
theorem Tasks.host_silent {model : A.Model} (h : s.Tasks model)
    (hSilent : s.channel.pending 0 = none) (hMove : Move ready s t) :
    t.channel.pending 0 = none := by
  have hOther {id : Nat} (hOutside : s.outside id = true) : id ≠ 0 := by
    rintro rfl
    rw [h.host_private] at hOutside
    cases hOutside
  have hTask {k : Nat} {task : Task A} (hGet : s.tasks[k]? = some task) :
      some task.sender ≠ some 0 := fun hEq =>
    (h.owned k task hGet).notHost (Option.some.inj hEq)
  cases hMove with
  | received message c _ _ hTake =>
    exact Channel.step_pending_none hSilent (by simp [Op.by?]) hTake
  | emitted k task message root c hGet _ _ _ hStep =>
    refine Channel.step_pending_none hSilent ?_ hStep
    exact hTask hGet
  | finished k task c hGet _ _ _ hStep =>
    refine Channel.step_pending_none hSilent ?_ hStep
    exact hTask hGet
  | channel op c _ _ hBy hStep =>
    exact Channel.step_pending_none hSilent (fun hEq => hOther (hBy 0 hEq) rfl) hStep
  | zoomed u id c hOutside hStep =>
    have hOpened : (s.openUpdater u true).channel.pending 0 = none := hSilent
    refine Channel.step_pending_none hOpened ?_ hStep
    exact fun hEq => hOther hOutside (Option.some.inj hEq)
  | _ => exact hSilent

theorem host_silent_of_run {model : A.Model} {as : List (Action A)} (h : s.Tasks model)
    (hSilent : s.channel.pending 0 = none) (hRun : run (step ready) s as = some t) :
    t.channel.pending 0 = none := by
  have hStep : ∀ s a t, s.Tasks model ∧ s.channel.pending 0 = none → step ready s a = some t →
      t.Tasks model ∧ t.channel.pending 0 = none := fun s a t hs hStep =>
    ⟨hs.1.move (step_move hStep), hs.1.host_silent hs.2 (step_move hStep)⟩
  exact (run_invariant hStep ⟨h, hSilent⟩ hRun).2

/-- A host that was started is waiting or handling a message. -/
theorem running_cases (hPhase : s.phase ≠ .stopped) :
    s.phase = .built ∨ s.phase = .waiting ∨ s.phase.isHandling = true := by
  cases h : s.phase with
  | built => exact .inl rfl
  | waiting => exact .inr (.inl rfl)
  | stopped => exact (hPhase h).elim
  | _ => exact .inr (.inr rfl)

/-- Starting the host, where that is left to do, and its own steps release every sender. -/
theorem releases (hReady : ∀ buffer c id, c.queue = [] → ready buffer c id = true)
    (hPhase : s.phase ≠ .stopped) :
    ∃ as t, (∀ a ∈ as, a = .run ∨ a = .host) ∧ run (step ready) s as = some t ∧
      (∀ id, ¬t.Blocked ready id) ∧
      ∀ id, s.channel.pending id ≠ none → (t.step ready (.accept id)).isSome := by
  obtain ⟨start, s₁, hOnly, hStart, hRunning, hSame⟩ : ∃ start s₁,
      (∀ a ∈ start, a = .run ∨ a = .host) ∧ run (step ready) s start = some s₁ ∧
      (s₁.phase = .waiting ∨ s₁.phase.isHandling = true) ∧
      s₁.channel.pending = s.channel.pending := by
    rcases running_cases hPhase with hBuilt | hRunning
    · refine ⟨[.run], { s with phase := .waiting }, by simp, ?_, .inl rfl, rfl⟩
      simp [step, hBuilt]
    · exact ⟨[], s, by simp, rfl, hRunning, rfl⟩
  obtain ⟨n, t, hRun, -, hEmpty, hPending, -⟩ := drains ready s₁ hRunning
  have hFree (id : Nat) : ready t.buffer t.channel id = true := hReady _ _ id hEmpty
  refine ⟨start ++ List.replicate n .host, t, ?_, run_trans hStart hRun, ?_, ?_⟩
  · intro a ha
    rcases List.mem_append.mp ha with ha | ha
    · exact hOnly a ha
    · exact .inr (List.eq_of_mem_replicate ha)
  · intro id hBlocked
    rw [Blocked, hFree id] at hBlocked
    cases hBlocked
  · intro id hWaits
    obtain ⟨a, ha⟩ := Option.ne_none_iff_exists'.mp hWaits
    have hStill : t.channel.pending id = some a := by rw [hPending, hSame, ha]
    simp [step, channelStep, Channel.step, hStill, hFree id]

/-- A waiting host releases the sender that waited longest. -/
theorem parked_received (h : s.channel.Ok) (hPhase : s.phase = .waiting)
    (hStep : s.step ready .host = some t) :
    t.channel.parked t.buffer = (s.channel.parked s.buffer).tail := by
  simp only [step, hostStep, hPhase] at hStep
  split at hStep
  next message hPoll =>
    obtain ⟨u, hReceived, rfl⟩ := Option.map_eq_some_iff.mp hStep
    obtain ⟨c, hTake, rfl⟩ := Option.map_eq_some_iff.mp hReceived
    exact h.parked_step s.buffer hTake
  next hPoll =>
    cases hStep
    have hEmpty : s.channel.queue = [] := by
      unfold Channel.poll at hPoll
      split at hPoll
      · cases hPoll
      next hQueue => exact hQueue
    have hNone : s.channel.parked s.buffer = [] := Channel.parked_eq_nil (by simp [hEmpty])
    exact hNone.trans (congrArg List.tail hNone).symm
  next => cases hStep

/-- The message loop cannot deadlock on its own channel. While a send is blocked there is a message
to take, and a started host takes it or is on its way to it; each message that a waiting host takes
releases the sender blocked longest; the host has no send of its own and can always go on inside
`handle_message`; and by its own steps it releases every sender. -/
theorem never_deadlocks (model : A.Model) (world : A.World) (interceptors : List A.Interceptor)
    (buffer : Nat) {as : List (Action A)}
    (hRun : run (step Channel.unparked) (new model world interceptors buffer) as = some s) :
    (∀ id, s.Blocked Channel.unparked id → (∃ message, s.channel.poll = .ready (some message)) ∧
      (s.phase ≠ .built → (s.step Channel.unparked .host).isSome)) ∧
    (s.phase = .waiting → ∀ t, s.step Channel.unparked .host = some t →
      t.channel.parked t.buffer = (s.channel.parked s.buffer).tail) ∧
    s.channel.pending 0 = none ∧
    (s.phase.isHandling = true → (s.step Channel.unparked .host).isSome) ∧
    ∃ bs t, (∀ b ∈ bs, b = .run ∨ b = .host) ∧ run (step Channel.unparked) s bs = some t ∧
      (∀ id, ¬t.Blocked Channel.unparked id) ∧
      ∀ id, s.channel.pending id ≠ none → (t.step Channel.unparked (.accept id)).isSome := by
  have hNew := Tasks.new model world interceptors buffer
  have hPhase : s.phase ≠ .stopped := running_of_run hNew (by simp [new]) hRun
  have hOk : s.channel.Ok := ((Linear.new model world interceptors buffer).run hRun).channel
  have hHandling (h : s.phase.isHandling = true) : (s.step Channel.unparked .host).isSome := by
    obtain ⟨t, hStep, -⟩ := hostStep_handling Channel.unparked h
    exact Option.isSome_of_eq_some hStep
  refine ⟨fun id hBlocked => ?_, fun hWaiting t hStep => parked_received hOk hWaiting hStep,
    host_silent_of_run hNew rfl hRun, hHandling,
    releases (fun buffer c id hEmpty => Channel.unparked_of_empty buffer hEmpty id) hPhase⟩
  have hQueue : s.channel.queue ≠ [] := fun hEmpty => by
    rw [Blocked, Channel.unparked_of_empty _ hEmpty] at hBlocked
    cases hBlocked
  obtain ⟨message, rest, hSplit⟩ := List.exists_cons_of_ne_nil hQueue
  refine ⟨⟨message, by simp [Channel.poll, hSplit]⟩, fun hBuilt => ?_⟩
  rcases running_cases hPhase with h | hWaiting | h
  · exact (hBuilt h).elim
  · obtain ⟨-, t, hStep, -⟩ := hostStep_waiting Channel.unparked hWaiting hQueue
    exact Option.isSome_of_eq_some hStep
  · exact hHandling h

/-- Before the host is started, one handle sends twice and another one once, into a channel without
a buffer. Each has a slot of its own, so only the second send of the first handle is not taken. -/
def crowded : List (Action journal) :=
  [.updater, .updater, .send 1 ⟨true, (3 : Nat)⟩, .accept 1, .send 1 ⟨true, (4 : Nat)⟩,
    .send 2 ⟨true, (5 : Nat)⟩, .accept 2]

theorem never_deadlocks_crowded : ∃ s,
    run (step Channel.unparked) (new [] () [] 0) crowded = some s ∧
    s.channel.queue = [(3 : Nat), (5 : Nat)] ∧ s.channel.pending 1 = some (4 : Nat) ∧
    s.channel.parked s.buffer = [1, 2] ∧ s.Blocked Channel.unparked 1 ∧
    (∃ message, s.channel.poll = .ready (some message)) ∧
    ∃ bs t, run (step Channel.unparked) s bs = some t ∧
      (t.step Channel.unparked (.accept 1)).isSome := by
  have hRun : run (step Channel.unparked) (new [] () [] 0) crowded = some _ := rfl
  have h := never_deadlocks (A := journal) [] () [] 0 hRun
  obtain ⟨bs, t, -, hRelease, -, hAccept⟩ := h.2.2.2.2
  refine ⟨_, hRun, rfl, rfl, rfl, rfl, (h.1 1 rfl).1, bs, t, hRelease, hAccept 1 ?_⟩
  exact Option.some_ne_none (4 : Nat)

end Host

end Emyu
