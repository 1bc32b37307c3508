import Emyu.Host.Step

/-! The host runs the accepted messages one after the other: between two messages, whatever senders
and tasks did meanwhile, it has applied a prefix of them by folding `update`, with every interceptor
before each. -/

namespace Emyu

open Polling Fifo Runs

variable {A : Application}

/-- What is called for one message: the first `k` interceptors, in order. -/
def intercepts (k : Nat) (model : A.Model) (message : A.RootMessage) : List (Seen A) :=
  (List.range k).map fun i => .intercepted i model message

/-- What a host with `n` interceptors calls for the messages. -/
def trailOf (n : Nat) (model : A.Model) : List (A.World × A.RootMessage) → List (Seen A)
  | [] => []
  | (w, message) :: rest =>
    intercepts n model message ++ [.updated model message] ++
      trailOf n (A.update model w message).1 rest

namespace Phase

/-- The message that was received and is not applied yet. -/
def current : Phase A → Option A.RootMessage
  | .intercepting message _ => some message
  | .updating message => some message
  | _ => none

/-- What was called for it so far. -/
def partialTrail (n : Nat) (model : A.Model) : Phase A → List (Seen A)
  | .intercepting message k => intercepts k model message
  | .updating message => intercepts n model message
  | _ => []

theorem partialTrail_of_none {n : Nat} {model : A.Model} {p : Phase A} (h : p.current = none) :
    p.partialTrail n model = [] := by
  cases p <;> first | rfl | cases h

end Phase

namespace Host

variable {ready : Nat → Channel A.RootMessage → Nat → Bool} {s t : Host A}

/-- The root model after the updates, each in the world it found. -/
def fold (A : Application) (model : A.Model) (l : List (A.World × A.RootMessage)) : A.Model :=
  l.foldl (fun m p => (A.update m p.1 p.2).1) model

/-- The simulation between the run and the sequential fold. -/
structure Linear (n : Nat) (model : A.Model) (s : Host A) : Prop where
  channel : s.channel.Ok
  taken : s.channel.taken = s.applied.map Prod.snd ++ s.phase.current.toList
  model_eq : s.model = fold A model s.applied
  trail_eq : s.trail = trailOf n model s.applied ++ s.phase.partialTrail n s.model
  count : s.interceptors.length = n
  bound : ∀ message k, s.phase = .intercepting message k → k ≤ n

theorem fold_append (model : A.Model) (l : List (A.World × A.RootMessage))
    (p : A.World × A.RootMessage) :
    fold A model (l ++ [p]) = (A.update (fold A model l) p.1 p.2).1 := by
  simp [fold]

/-- When `update` only looks at the model and the message, `fold` is the plain fold over the
messages. -/
theorem fold_eq_foldl {f : A.Model → A.RootMessage → A.Model}
    (hUpdate : ∀ m w message, (A.update m w message).1 = f m message) (model : A.Model)
    (l : List (A.World × A.RootMessage)) : fold A model l = (l.map Prod.snd).foldl f model := by
  simp [fold, hUpdate, List.foldl_map]

theorem trailOf_append (n : Nat) (model : A.Model) (l : List (A.World × A.RootMessage))
    (p : A.World × A.RootMessage) :
    trailOf n model (l ++ [p]) = trailOf n model l ++
      (intercepts n (fold A model l) p.2 ++ [.updated (fold A model l) p.2]) := by
  induction l generalizing model with
  | nil => simp [trailOf, fold]
  | cons q rest ih =>
    simp only [List.cons_append, trailOf, ih, List.append_assoc]
    rfl

theorem intercepts_succ (k : Nat) (model : A.Model) (message : A.RootMessage) :
    intercepts k model message ++ [.intercepted k model message] =
      intercepts (k + 1) model message := by
  simp [intercepts, List.range_succ]

theorem Linear.new (model : A.Model) (world : A.World) (interceptors : List A.Interceptor)
    (buffer : Nat) :
    Linear interceptors.length model (Host.new model world interceptors buffer) where
  channel := .new
  taken := rfl
  model_eq := rfl
  trail_eq := rfl
  count := rfl
  bound _ _ h := by cases h

variable {n : Nat} {model : A.Model}

/-- A step that leaves the message loop where it is, whatever it does to the channel otherwise. -/
theorem Linear.frame (h : s.Linear n model) (hChannel : t.channel.Ok)
    (hTaken : t.channel.taken = s.channel.taken) (hPhase : t.phase = s.phase)
    (hModel : t.model = s.model) (hApplied : t.applied = s.applied) (hTrail : t.trail = s.trail)
    (hCount : t.interceptors = s.interceptors) : t.Linear n model where
  channel := hChannel
  taken := by rw [hTaken, hApplied, hPhase, h.taken]
  model_eq := by rw [hModel, hApplied, h.model_eq]
  trail_eq := by rw [hTrail, hApplied, hPhase, hModel, h.trail_eq]
  count := by rw [hCount, h.count]
  bound := hPhase ▸ h.bound

/-- A step between phases in which no message is under way. -/
theorem Linear.rest (h : s.Linear n model) {p : Phase A} (hOld : s.phase.current = none)
    (hNew : p.current = none) (hChannel : t.channel.Ok)
    (hTaken : t.channel.taken = s.channel.taken) (hPhase : t.phase = p)
    (hModel : t.model = s.model) (hApplied : t.applied = s.applied) (hTrail : t.trail = s.trail)
    (hCount : t.interceptors = s.interceptors) : t.Linear n model := by
  refine ⟨hChannel, ?_, ?_, ?_, ?_, ?_⟩
  · rw [hTaken, hApplied, hPhase, hNew, h.taken, hOld]
  · rw [hModel, hApplied, h.model_eq]
  · rw [hTrail, hApplied, hPhase, hModel, Phase.partialTrail_of_none hNew, h.trail_eq,
      Phase.partialTrail_of_none hOld]
  · rw [hCount, h.count]
  · rintro message k hk
    rw [← hPhase, hk] at hNew
    cases hNew

theorem Linear.received (h : s.Linear n model) {message : A.RootMessage}
    {c : Channel A.RootMessage} (hPhase : s.phase = .waiting)
    (hHead : s.channel.queue.head? = some message)
    (hTake : s.channel.step (ready s.buffer) .take = some c) :
    Linear n model { s with channel := c, phase := .intercepting message 0 } := by
  have hOk := h.channel.step hTake
  have hTaken := h.taken
  have hTrail := h.trail_eq
  rw [hPhase] at hTaken hTrail
  cases Channel.step_move hTake with
  | take a rest hQueue =>
    obtain rfl : a = message := by simpa [hQueue] using hHead
    refine ⟨hOk, ?_, h.model_eq, hTrail, h.count, ?_⟩
    · simpa [Phase.current] using hTaken
    · rintro _ _ ⟨⟩
      exact Nat.zero_le _

theorem Linear.intercepted (h : s.Linear n model) {message : A.RootMessage} {k : Nat}
    {interceptor : A.Interceptor} (hPhase : s.phase = .intercepting message k)
    (hGet : s.interceptors[k]? = some interceptor) (next : A.Interceptor) (world : A.World) :
    Linear n model { s with
      phase := .intercepting message (k + 1)
      interceptors := s.interceptors.set k next
      world := world
      trail := s.trail ++ [.intercepted k s.model message] } := by
  have hTaken := h.taken
  have hTrail := h.trail_eq
  rw [hPhase] at hTaken hTrail
  refine ⟨h.channel, hTaken, h.model_eq, ?_, by simp [h.count], ?_⟩
  · dsimp only
    rw [hTrail, List.append_assoc, Phase.partialTrail, intercepts_succ]
    rfl
  · rintro _ _ ⟨⟩
    have hLt := (List.getElem?_eq_some_iff.mp hGet).1
    rw [h.count] at hLt
    exact hLt

theorem Linear.allIntercepted (h : s.Linear n model) {message : A.RootMessage} {k : Nat}
    (hPhase : s.phase = .intercepting message k) (hAll : s.interceptors.length ≤ k) :
    Linear n model { s with phase := .updating message } := by
  have hTaken := h.taken
  have hTrail := h.trail_eq
  rw [hPhase] at hTaken hTrail
  obtain rfl : k = n := Nat.le_antisymm (h.bound message k hPhase) (h.count ▸ hAll)
  exact ⟨h.channel, hTaken, h.model_eq, hTrail, h.count, by rintro _ _ ⟨⟩⟩

theorem Linear.updated (h : s.Linear n model) {message : A.RootMessage}
    (hPhase : s.phase = .updating message) :
    Linear n model { s with
      phase := .accumulating (A.update s.model s.world message).2.2
      model := (A.update s.model s.world message).1
      world := (A.update s.model s.world message).2.1
      applied := s.applied ++ [(s.world, message)]
      trail := s.trail ++ [.updated s.model message] } := by
  have hTaken := h.taken
  have hTrail := h.trail_eq
  rw [hPhase] at hTaken hTrail
  refine ⟨h.channel, ?_, ?_, ?_, h.count, by rintro _ _ ⟨⟩⟩
  · simpa [Phase.current] using hTaken
  · rw [fold_append, ← h.model_eq]
  · dsimp only
    rw [trailOf_append, ← h.model_eq, hTrail]
    simp [Phase.partialTrail]

theorem Linear.move (h : s.Linear n model) (hMove : Move ready s t) : t.Linear n model := by
  have hOpen (u : Updater A) (outside : Bool) : (s.openUpdater u outside).Linear n model :=
    h.frame h.channel.openSender rfl rfl rfl rfl rfl rfl
  have hRest {p q : Phase A} (hPhase : s.phase = p) (hp : p.current = none)
      (hq : q.current = none) : Linear n model { s with phase := q } :=
    h.rest (hPhase ▸ hp) hq h.channel rfl rfl rfl rfl rfl rfl
  cases hMove with
  | run hPhase => exact hRest hPhase rfl rfl
  | received message c hPhase hHead hTake => exact h.received hPhase hHead hTake
  | stopping hPhase => exact hRest hPhase rfl rfl
  | intercepted message k interceptor hPhase hGet => exact h.intercepted hPhase hGet _ _
  | allIntercepted message k hPhase hAll => exact h.allIntercepted hPhase hAll
  | updated message hPhase => exact h.updated hPhase
  | accumulated command hPhase =>
    exact h.rest (by rw [hPhase]; rfl) rfl h.channel rfl rfl rfl rfl rfl rfl
  | noCommand hPhase => exact hRest hPhase rfl rfl
  | spawned command hPhase =>
    exact h.rest (by rw [hPhase]; rfl) rfl h.channel.openSender.openSender
      rfl rfl rfl rfl rfl rfl
  | flushed => exact h.frame h.channel rfl rfl rfl rfl rfl rfl
  | allFlushed hPhase => exact hRest hPhase rfl rfl
  | started => exact h.frame h.channel rfl rfl rfl rfl rfl rfl
  | advanced => exact h.frame h.channel rfl rfl rfl rfl rfl rfl
  | emitted k task message root c _ _ _ _ hStep =>
    exact h.frame (h.channel.step hStep) (Channel.step_taken (by simp) hStep) rfl rfl rfl rfl rfl
  | finished k task c _ _ _ _ hStep =>
    exact h.frame (h.channel.step hStep) (Channel.step_taken (by simp) hStep) rfl rfl rfl rfl rfl
  | channel op c hOp _ _ hStep =>
    exact h.frame (h.channel.step hStep) (Channel.step_taken hOp hStep) rfl rfl rfl rfl rfl
  | opened u => exact hOpen u true
  | zoomed u id c _ hStep =>
    exact (hOpen u true).frame ((hOpen u true).channel.step hStep)
      (Channel.step_taken (by simp) hStep) rfl rfl rfl rfl rfl
  | world => exact h.frame h.channel rfl rfl rfl rfl rfl rfl
  | idle => exact h

variable {as : List (Action A)}

theorem Linear.run (h : s.Linear n model) (hRun : run (step ready) s as = some t) :
    t.Linear n model :=
  run_invariant (fun _ _ _ h hStep => h.move (step_move hStep)) h hRun

/-- Host linearisation, between two messages: the applied messages are the accepted ones but for
those in the queue, no handle's messages are out of the order of its calls, the model is the fold of
`update`, and every interceptor saw each message once, in order, with the fold so far. -/
theorem linearised (ready : Nat → Channel A.RootMessage → Nat → Bool) (model : A.Model)
    (world : A.World) (interceptors : List A.Interceptor) (buffer : Nat)
    (hRun : Runs.run (step ready) (new model world interceptors buffer) as = some s)
    (hPhase : s.phase = .waiting) :
    s.channel.accepted.map Prod.snd = s.applied.map Prod.snd ++ s.channel.queue ∧
    (∀ id, (sentBy id s.channel.accepted).Sublist (sentBy id s.channel.called)) ∧
    s.model = fold A model s.applied ∧
    s.trail = trailOf interceptors.length model s.applied := by
  have h := (Linear.new model world interceptors buffer).run hRun
  have hTaken := h.taken
  have hTrail := h.trail_eq
  rw [hPhase] at hTaken hTrail
  simp only [Phase.current, Phase.partialTrail, Option.toList_none, List.append_nil]
    at hTaken hTrail
  refine ⟨by rw [h.channel.fifo, hTaken], fun id => ?_, h.model_eq, hTrail⟩
  exact (List.sublist_append_left _ _).trans (h.channel.order id)

end Host

/-- Root messages are appended to the model. A small one returns a command that sends it on, ten
higher; the messages of the child model are numbers too. -/
def journal : Application where
  Model := List Nat
  World := Unit
  Effect := Unit
  Signal := Unit
  Models := Bool
  Message _ := Nat
  root := true
  decEq := inferInstance
  update model world message := (model ++ [message], world,
    if message < 10 then Option.some fun _ _ => ([], single (message + 10)) else none)
  accumulateSignals _ _ := [()]
  flush _ world := world
  act _ world := world

namespace Host

/-- A zoomed handle sends 5 and 6 to the child, and another one 7 to the root, whose command sends
17. The second message comes while the first one is handled. -/
def zoomedSend : List (Action journal) :=
  [.updater, .updater, .zoom 1 false true (fun n : Nat => (n + 100 : Nat)), .run,
    .send 2 ⟨true, (7 : Nat)⟩, .send 3 ⟨false, (5 : Nat)⟩, .accept 3, .host, .host, .accept 2,
    .send 3 ⟨false, (6 : Nat)⟩] ++ List.replicate 14 .host ++ [.poll 0, .poll 0, .accept 3] ++
  List.replicate 8 .host ++ [.accept 5] ++ List.replicate 8 .host

theorem linearised_zoomedSend : ∃ s,
    Runs.run (step Channel.unparked) (new [] () [.stateless fun i => i.2.1] 1) zoomedSend = some s ∧
    s.model = [(105 : Nat), (7 : Nat), (106 : Nat), (17 : Nat)] ∧
    s.channel.accepted.map Prod.snd = s.applied.map Prod.snd ++ s.channel.queue ∧
    (∀ id, (sentBy id s.channel.accepted).Sublist (sentBy id s.channel.called)) ∧
    s.model = fold journal [] s.applied := by
  have hRun : Runs.run (step Channel.unparked) (new [] () [.stateless fun i => i.2.1] 1)
    zoomedSend = some _ := rfl
  have h := linearised (A := journal) Channel.unparked [] () _ 1 hRun rfl
  exact ⟨_, hRun, rfl, h.1, h.2.1, h.2.2.1⟩

end Host

end Emyu
