import Emyu.Host.Linear

/-! The tasks of the returned commands: each command has one task, the task's sender is nobody
else's, and what the stream emits goes through it in order, behind the message it was returned
for. -/

namespace Emyu

open Polling Fifo Runs

variable {A : Application}

namespace Phase

/-- The returned command whose task is still to be spawned. -/
def command : Phase A → Option A.CommandRepr
  | .accumulating c => c
  | .spawning c => c
  | _ => none

end Phase

namespace Stage

def polled : Stage A → Bool
  | .spawned => false
  | _ => true

def isEnded : Stage A → Bool
  | .ended => true
  | _ => false

end Stage

namespace Host

variable {ready : Nat → Channel A.RootMessage → Nat → Bool} {s t : Host A}

/-- The nonempty commands returned for the messages, which are counted from `i`. -/
def commandsOf (A : Application) (i : Nat) (model : A.Model) :
    List (A.World × A.RootMessage) → List (Nat × A.CommandRepr)
  | [] => []
  | (w, message) :: rest =>
    let (model', _, command) := A.update model w message
    (Option.map (i, ·) command).toList ++ commandsOf A (i + 1) model' rest

theorem commandsOf_append (i : Nat) (model : A.Model) (l : List (A.World × A.RootMessage))
    (p : A.World × A.RootMessage) :
    commandsOf A i model (l ++ [p]) = commandsOf A i model l ++
      (Option.map (i + l.length, ·) (A.update (fold A model l) p.1 p.2).2.2).toList := by
  induction l generalizing i model with
  | nil => simp [commandsOf, fold]
  | cons q rest ih =>
    simp only [List.cons_append, commandsOf, ih, List.append_assoc, List.length_cons]
    rw [show i + 1 + rest.length = i + (rest.length + 1) by omega]
    rfl

/-- What the task emitted so far is what polling its command's stream gave. -/
def Task.Ran (task : Task A) : Prop :=
  match task.stage with
  | .spawned => task.emitted = []
  | .running stream =>
    Yields ((Command.some task.command).task task.context) task.emitted stream
  | .ended => ∃ stream, Yields ((Command.some task.command).task task.context) task.emitted stream ∧
    ∃ w, stream.head w = some .ended

/-- What the host keeps for the task `k`. -/
structure Owned (s : Host A) (k : Nat) (task : Task A) : Prop where
  made : task.sender < s.channel.made
  notHost : task.sender ≠ 0
  notOutside : s.outside task.sender = false
  updater : s.updaters task.sender = .new
  contextMade : task.context.updater < s.channel.made
  context : s.updaters task.context.updater = .new
  alive : s.channel.alive task.sender = !task.stage.isEnded
  called : sentBy task.sender s.channel.called = task.emitted
  exact : Channel.Exact task.sender s.channel
  after : ∀ q message, s.channel.accepted[q]? = some (task.sender, message) → task.parent < q
  parent : task.parent < s.applied.length
  starts : sentBy k s.starts = if task.stage.polled then [task.context] else []
  ran : Task.Ran task

/-- What a step leaves of a sender that is not its own. -/
structure Undisturbed (id : Nat) (s t : Host A) : Prop where
  kept : Channel.Kept id s.channel t.channel
  updaters : ∀ j < s.channel.made, t.updaters j = s.updaters j
  outside : ∀ j < s.channel.made, t.outside j = s.outside j
  accepted : s.channel.accepted <+: t.channel.accepted
  applied : s.applied.length ≤ t.applied.length

namespace Undisturbed

variable {id : Nat} {r : Host A}

theorem trans (h : Undisturbed id r s) (h' : Undisturbed id s t) : Undisturbed id r t where
  kept := h.kept.trans h'.kept
  updaters j hj := (h'.updaters j (Nat.lt_of_lt_of_le hj h.kept.made)).trans (h.updaters j hj)
  outside j hj := (h'.outside j (Nat.lt_of_lt_of_le hj h.kept.made)).trans (h.outside j hj)
  accepted := h.accepted.trans h'.accepted
  applied := Nat.le_trans h.applied h'.applied

/-- The step does nothing to the channel. -/
theorem same (hChannel : t.channel = s.channel) (hUpdaters : t.updaters = s.updaters)
    (hOutside : t.outside = s.outside) (hApplied : s.applied.length ≤ t.applied.length) :
    Undisturbed id s t where
  kept := hChannel ▸ .refl id s.channel
  updaters j _ := by rw [hUpdaters]
  outside j _ := by rw [hOutside]
  accepted := hChannel ▸ List.prefix_refl _
  applied := hApplied

/-- The step is one operation on the channel. -/
theorem step {op : Op A.RootMessage} (hId : id < s.channel.made) (hBy : op.by? ≠ some id)
    (hStep : s.channel.step (ready s.buffer) op = some t.channel)
    (hUpdaters : t.updaters = s.updaters) (hOutside : t.outside = s.outside)
    (hApplied : t.applied = s.applied) :
    Undisturbed id s t where
  kept := .step hId hBy hStep
  updaters j _ := by rw [hUpdaters]
  outside j _ := by rw [hOutside]
  accepted := Channel.step_accepted hStep
  applied := Nat.le_of_eq (by rw [hApplied])

theorem openUpdater (hId : id < s.channel.made) (u : Updater A) (outside : Bool) :
    Undisturbed id s (s.openUpdater u outside) where
  kept := .step hId (by rintro ⟨⟩) (Channel.step_openSender (fun _ _ => false) _)
  updaters j hj := Function.update_of_ne (Nat.ne_of_lt hj) _ _
  outside j hj := Function.update_of_ne (Nat.ne_of_lt hj) _ _
  accepted := List.prefix_refl _
  applied := Nat.le_refl _

end Undisturbed

variable {k : Nat} {task : Task A}

theorem Owned.keep (h : s.Owned k task) (hu : Undisturbed task.sender s t)
    (hStarts : sentBy k t.starts = sentBy k s.starts)
    (hLen : s.applied.length ≤ s.channel.accepted.length) : t.Owned k task where
  made := Nat.lt_of_lt_of_le h.made hu.kept.made
  notHost := h.notHost
  notOutside := (hu.outside _ h.made).trans h.notOutside
  updater := (hu.updaters _ h.made).trans h.updater
  contextMade := Nat.lt_of_lt_of_le h.contextMade hu.kept.made
  context := (hu.updaters _ h.contextMade).trans h.context
  alive := hu.kept.alive.trans h.alive
  called := hu.kept.called.trans h.called
  exact := hu.kept.exact h.exact
  after q message hGet := by
    by_cases hq : q < s.channel.accepted.length
    · refine h.after q message ?_
      rw [← hGet]
      obtain ⟨more, hMore⟩ := hu.accepted
      rw [← hMore, List.getElem?_append_left hq]
    · have := h.parent
      omega
  parent := Nat.lt_of_lt_of_le h.parent hu.applied
  starts := hStarts.trans h.starts
  ran := h.ran

/-- The tasks are those of the returned commands, and no sender has two owners. -/
structure Tasks (model : A.Model) (s : Host A) : Prop where
  linear : ∃ n, s.Linear n model
  host_alive : s.channel.alive 0 = true
  host_private : s.outside 0 = false
  host_updater : s.updaters 0 = .new
  host_made : 0 < s.channel.made
  owned : ∀ k task, s.tasks[k]? = some task → s.Owned k task
  unique : ∀ (k k' : Nat) (task task' : Task A), s.tasks[k]? = some task →
    s.tasks[k']? = some task' → task.sender = task'.sender → k = k'
  commands : s.tasks.map (fun task => (task.parent, task.command)) ++
    (s.phase.command.map (s.applied.length - 1, ·)).toList = commandsOf A 0 model s.applied
  owner : ∀ id, s.channel.alive id = true → id = 0 ∨ s.outside id = true ∨
    ∃ task ∈ s.tasks, task.sender = id ∧ task.stage.isEnded = false
  starts : ∀ p ∈ s.starts, p.1 < s.tasks.length
  unapplied : s.phase.command ≠ none → s.applied ≠ []

variable {model : A.Model}

theorem Linear.applied_le {n : Nat} (h : s.Linear n model) :
    s.applied.length ≤ s.channel.accepted.length := by
  have hFifo := congrArg List.length h.channel.fifo
  have hTaken := congrArg List.length h.taken
  simp only [List.length_map, List.length_append] at hFifo hTaken
  omega

namespace Tasks

theorem applied_le (h : s.Tasks model) : s.applied.length ≤ s.channel.accepted.length := by
  obtain ⟨n, hLinear⟩ := h.linear
  exact hLinear.applied_le

theorem alive_made (h : s.Tasks model) {id : Nat} (hAlive : s.channel.alive id = true) :
    id < s.channel.made := by
  obtain ⟨n, hLinear⟩ := h.linear
  exact hLinear.channel.alive_made id hAlive

theorem new (model : A.Model) (world : A.World) (interceptors : List A.Interceptor) (buffer : Nat) :
    Tasks model (Host.new model world interceptors buffer) where
  linear := ⟨_, .new model world interceptors buffer⟩
  host_alive := rfl
  host_private := rfl
  host_updater := rfl
  host_made := Nat.zero_lt_one
  owned k task hGet := by simp [Host.new] at hGet
  unique k k' task task' hGet := by simp [Host.new] at hGet
  commands := rfl
  owner id hAlive := .inl (by simpa [Host.new, Channel.new] using hAlive)
  starts := by simp [Host.new]
  unapplied h := (h rfl).elim

/-- A step that leaves the tasks alone. -/
theorem keep (h : s.Tasks model) (hLinear : ∃ n, t.Linear n model) (hTasks : t.tasks = s.tasks)
    (hStarts : t.starts = s.starts)
    (hu : ∀ id < s.channel.made, s.outside id = false → Undisturbed id s t)
    (hFresh : ∀ id, s.channel.made ≤ id → t.channel.alive id = true → t.outside id = true)
    (hCommands : s.tasks.map (fun task => (task.parent, task.command)) ++
      (t.phase.command.map (t.applied.length - 1, ·)).toList = commandsOf A 0 model t.applied)
    (hUnapplied : t.phase.command ≠ none → t.applied ≠ []) : t.Tasks model := by
  have hHost := hu 0 h.host_made h.host_private
  refine ⟨hLinear, hHost.kept.alive.trans h.host_alive,
    (hHost.outside 0 h.host_made).trans h.host_private,
    (hHost.updaters 0 h.host_made).trans h.host_updater,
    Nat.lt_of_lt_of_le h.host_made hHost.kept.made, ?_, ?_, hTasks ▸ hCommands, ?_, ?_, hUnapplied⟩
  · intro k task hGet
    have hOwned := h.owned k task (hTasks ▸ hGet)
    exact hOwned.keep (hu _ hOwned.made hOwned.notOutside) (by rw [hStarts]) h.applied_le
  · exact hTasks ▸ h.unique
  · intro id hAlive
    by_cases hMade : id < s.channel.made
    · by_cases hOutside : s.outside id = true
      · exact .inr (.inl ((hHost.outside id hMade).trans hOutside))
      · have hu' := hu id hMade (by simpa using hOutside)
        rcases h.owner id (hu'.kept.alive ▸ hAlive) with h0 | h1 | h2
        · exact .inl h0
        · exact (hOutside h1).elim
        · exact .inr (.inr (hTasks ▸ h2))
    · exact .inr (.inl (hFresh id (Nat.le_of_not_lt hMade) hAlive))
  · rw [hStarts, hTasks]
    exact h.starts

theorem map_set_eq {α β : Type*} {f : α → β} {l : List α} {k : Nat} {a a' : α}
    (h : l[k]? = some a) (hf : f a' = f a) : (l.set k a').map f = l.map f := by
  obtain ⟨hk, rfl⟩ := List.getElem?_eq_some_iff.mp h
  refine List.ext_getElem? fun i => ?_
  rw [List.getElem?_map, List.getElem?_map, List.getElem?_set]
  by_cases hik : k = i
  · subst hik
    simp [hk, hf]
  · simp [hik]

theorem getElem?_set_cases {β : Type*} {l : List β} {k j : Nat} {a b : β} (hk : k < l.length)
    (h : (l.set k a)[j]? = some b) : j = k ∧ b = a ∨ j ≠ k ∧ l[j]? = some b := by
  rw [List.getElem?_set] at h
  by_cases hjk : k = j
  · subst hjk
    exact .inl ⟨rfl, by simpa [hk] using h.symm⟩
  · exact .inr ⟨Ne.symm hjk, by simpa [hjk] using h⟩

theorem getElem?_concat_cases {β : Type*} {l : List β} {j : Nat} {a b : β}
    (h : (l ++ [a])[j]? = some b) : l[j]? = some b ∨ j = l.length ∧ b = a := by
  rcases Nat.lt_trichotomy j l.length with hlt | rfl | hgt
  · exact .inl (by rwa [List.getElem?_append_left hlt] at h)
  · exact .inr ⟨rfl, Option.some.inj (h.symm.trans (List.getElem?_concat_length ..))⟩
  · rw [List.getElem?_eq_none (by simp; omega)] at h
    cases h

/-- A step of the task `k`. -/
theorem set (h : s.Tasks model) (hLinear : ∃ n, t.Linear n model) {k : Nat} {task task' : Task A}
    (hGet : s.tasks[k]? = some task) (hTasks : t.tasks = s.tasks.set k task')
    (hSender : task'.sender = task.sender) (hParent : task'.parent = task.parent)
    (hCommand : task'.command = task.command) (hOwned : t.Owned k task')
    (hStarts : ∀ j, j ≠ k → sentBy j t.starts = sentBy j s.starts)
    (hNew : ∀ p ∈ t.starts, p ∈ s.starts ∨ p.1 = k)
    (hu : ∀ id < s.channel.made, id ≠ task.sender → Undisturbed id s t)
    (hMade : t.channel.made = s.channel.made) (hOutside : t.outside = s.outside)
    (hUpdaters : t.updaters = s.updaters) (hPhase : t.phase = s.phase)
    (hApplied : t.applied = s.applied) : t.Tasks model := by
  have hk := (List.getElem?_eq_some_iff.mp hGet).1
  have hOld := h.owned k task hGet
  have hHost := hu 0 h.host_made (Ne.symm hOld.notHost)
  have hSet {j : Nat} {task'' : Task A} (hj : t.tasks[j]? = some task'') :
      j = k ∧ task'' = task' ∨ j ≠ k ∧ s.tasks[j]? = some task'' :=
    getElem?_set_cases hk (hTasks ▸ hj)
  refine ⟨hLinear, hHost.kept.alive.trans h.host_alive, hOutside ▸ h.host_private,
    hUpdaters ▸ h.host_updater, hMade ▸ h.host_made, ?_, ?_, ?_, ?_, ?_, ?_⟩
  · intro j task'' hj
    rcases hSet hj with ⟨rfl, rfl⟩ | ⟨hjk, hj⟩
    · exact hOwned
    · have hOther := h.owned j task'' hj
      have hNe : task''.sender ≠ task.sender := fun hEq => hjk (h.unique j k _ _ hj hGet hEq)
      exact hOther.keep (hu _ hOther.made hNe) (hStarts j hjk) h.applied_le
  · intro j j' task₁ task₂ hj hj' hEq
    rcases hSet hj with ⟨rfl, rfl⟩ | ⟨hjk, hj⟩ <;> rcases hSet hj' with ⟨rfl, rfl⟩ | ⟨hjk', hj'⟩
    · rfl
    · exact (h.unique _ _ _ _ hGet hj' (hSender ▸ hEq))
    · exact (h.unique _ _ _ _ hj hGet (hSender ▸ hEq))
    · exact h.unique _ _ _ _ hj hj' hEq
  · have hMap : t.tasks.map (fun task => (task.parent, task.command)) =
        s.tasks.map fun task => (task.parent, task.command) :=
      hTasks ▸ map_set_eq hGet (by rw [hParent, hCommand])
    rw [hPhase, hApplied, hMap]
    exact h.commands
  · intro id hAlive
    by_cases hId : id = task.sender
    · have hAlive' := hOwned.alive
      rw [hSender, ← hId, hAlive] at hAlive'
      refine .inr (.inr ⟨task', ?_, hSender.trans hId.symm, by simpa using hAlive'.symm⟩)
      rw [hTasks]
      exact List.mem_iff_getElem?.mpr ⟨k, by simp [hk]⟩
    · obtain ⟨n, hLin⟩ := hLinear
      have hMade' : id < s.channel.made := hMade ▸ hLin.channel.alive_made id hAlive
      have hAlive' := (hu id hMade' hId).kept.alive ▸ hAlive
      rcases h.owner id hAlive' with h0 | h1 | ⟨other, hMem, rfl, hRun⟩
      · exact .inl h0
      · exact .inr (.inl (hOutside ▸ h1))
      · obtain ⟨j, hj⟩ := List.mem_iff_getElem?.mp hMem
        have hjk : k ≠ j := by
          rintro rfl
          exact hId (by rw [Option.some.inj (hj.symm.trans hGet)])
        refine .inr (.inr ⟨other, ?_, rfl, hRun⟩)
        rw [hTasks]
        exact List.mem_iff_getElem?.mpr ⟨j, by simp [hjk, hj]⟩
  · intro p hp
    rw [hTasks, List.length_set]
    rcases hNew p hp with hp | rfl
    · exact h.starts p hp
    · exact hk
  · rw [hPhase, hApplied]
    exact h.unapplied

theorem undisturbed_spawn {id : Nat} (hId : id < s.channel.made) (command : A.CommandRepr) :
    Undisturbed id s { s.spawn command with phase := .flushing } :=
  (Undisturbed.openUpdater hId (s.updaters 0) true).trans
    ((Undisturbed.openUpdater (Nat.lt_succ_of_lt hId) (s.updaters 0) false).trans
      (.same rfl rfl rfl (Nat.le_refl _)))

/-- The sender of a new task was never used before. -/
theorem owned_spawn (h : s.Tasks model) (hApplied : s.applied ≠ []) (command : A.CommandRepr) :
    Owned { s.spawn command with phase := .flushing } s.tasks.length
      { parent := s.applied.length - 1
        command := command
        context := ⟨s.channel.made⟩
        sender := s.channel.made + 1
        stage := .spawned
        emitted := [] } := by
  obtain ⟨n, hLinear⟩ := h.linear
  have hCalled (a : A.RootMessage) : (s.channel.made + 1, a) ∉ s.channel.called := fun ha => by
    have := hLinear.channel.called_made _ ha
    omega
  have hAccepted (a : A.RootMessage) : (s.channel.made + 1, a) ∉ s.channel.accepted := fun ha =>
    hCalled a (mem_sentBy.mp ((hLinear.channel.order _).subset
      (List.mem_append_left _ (mem_sentBy.mpr ha))))
  have hStarts : sentBy s.tasks.length s.starts = [] :=
    List.eq_nil_iff_forall_not_mem.mpr fun c hc => by
      have := h.starts _ (mem_sentBy.mp hc)
      omega
  refine ⟨Nat.lt_succ_self _, Nat.succ_ne_zero _, ?_, ?_, ?_, ?_, ?_, ?_, ?_, ?_, ?_, hStarts,
    rfl⟩
  · exact Function.update_self ..
  · exact (Function.update_self ..).trans h.host_updater
  · exact Nat.lt_succ_of_lt (Nat.lt_succ_self _)
  · refine (Function.update_of_ne (Nat.ne_of_lt (Nat.lt_succ_self _)) _ _).trans ?_
    exact (Function.update_self ..).trans h.host_updater
  · exact Function.update_self ..
  · exact List.eq_nil_iff_forall_not_mem.mpr fun a ha => hCalled a (mem_sentBy.mp ha)
  · exact Channel.Exact.fresh hLinear.channel (Nat.le_succ _)
  · exact fun q a hq => (hAccepted a (List.mem_of_getElem? hq)).elim
  · exact Nat.sub_lt (List.length_pos_iff.mpr hApplied) Nat.zero_lt_one

theorem spawned (h : s.Tasks model) {command : A.CommandRepr}
    (hPhase : s.phase = .spawning (some command)) :
    Tasks model { s.spawn command with phase := .flushing } := by
  obtain ⟨n, hLinear⟩ := h.linear
  have hMove : Move (fun _ _ _ => false) s { s.spawn command with phase := .flushing } :=
    .spawned command hPhase
  have hHost := undisturbed_spawn h.host_made command
  have hNew := h.owned_spawn (h.unapplied (by simp [hPhase, Phase.command])) command
  have hGet {j : Nat} {task : Task A} (hj : (s.spawn command).tasks[j]? = some task) :
      s.tasks[j]? = some task ∨ j = s.tasks.length ∧ task.sender = s.channel.made + 1 ∧
        Owned { s.spawn command with phase := .flushing } j task := by
    rcases getElem?_concat_cases hj with hj | ⟨rfl, rfl⟩
    · exact .inl hj
    · exact .inr ⟨rfl, rfl, hNew⟩
  have hMade {j : Nat} {task : Task A} (hj : s.tasks[j]? = some task) :
      task.sender ≠ s.channel.made + 1 := by
    have := (h.owned j task hj).made
    omega
  refine ⟨⟨n, hLinear.move hMove⟩, hHost.kept.alive.trans h.host_alive,
    (hHost.outside 0 h.host_made).trans h.host_private,
    (hHost.updaters 0 h.host_made).trans h.host_updater,
    Nat.lt_of_lt_of_le h.host_made hHost.kept.made, ?_, ?_, ?_, ?_, ?_, fun hNe => (hNe rfl).elim⟩
  · intro j task hj
    rcases hGet hj with hj | ⟨-, -, hOwned⟩
    · have hOld := h.owned j task hj
      exact hOld.keep (undisturbed_spawn hOld.made command) rfl h.applied_le
    · exact hOwned
  · intro j j' task task' hj hj' hEq
    rcases hGet hj with hj | ⟨rfl, hs, -⟩ <;> rcases hGet hj' with hj' | ⟨rfl, hs', -⟩
    · exact h.unique _ _ _ _ hj hj' hEq
    · exact (hMade hj (hEq.trans hs')).elim
    · exact (hMade hj' (hEq.symm.trans hs)).elim
    · rfl
  · have hCommands := h.commands
    rw [hPhase] at hCommands
    simpa [spawn, openUpdater, Phase.command] using hCommands
  · intro id hAlive
    by_cases hFirst : id = s.channel.made
    · subst hFirst
      refine .inr (.inl ((Function.update_of_ne (Nat.ne_of_lt (Nat.lt_succ_self _)) _ _).trans ?_))
      exact Function.update_self ..
    by_cases hSecond : id = s.channel.made + 1
    · exact .inr (.inr ⟨_, List.mem_append_right _ (List.mem_singleton_self _), hSecond.symm, rfl⟩)
    · have hOld : s.channel.alive id = true := by
        simpa [spawn, openUpdater, Channel.openSender, Function.update_apply, hFirst, hSecond]
          using hAlive
      have hu := undisturbed_spawn (h.alive_made hOld) command
      rcases h.owner id hOld with h0 | h1 | ⟨task, hMem, hId, hRun⟩
      · exact .inl h0
      · exact .inr (.inl ((hu.outside id (h.alive_made hOld)).trans h1))
      · exact .inr (.inr ⟨task, List.mem_append_left _ hMem, hId, hRun⟩)
  · intro p hp
    have := h.starts p hp
    simp [spawn]
    omega

theorem started (h : s.Tasks model) {k : Nat} {task : Task A} (hGet : s.tasks[k]? = some task)
    (hStage : task.stage = .spawned) :
    Tasks model { s.setTask k { task with
          stage := .running (emit (task.command task.context (s.model, s.world)).1
            (task.command task.context (s.model, s.world)).2) } with
        starts := s.starts ++ [(k, task.context)] } := by
  obtain ⟨n, hLinear⟩ := h.linear
  have hOld := h.owned k task hGet
  have hAlive := hOld.alive
  have hStarts := hOld.starts
  have hRan := hOld.ran
  rw [Task.Ran, hStage] at hRan
  rw [hStage] at hAlive hStarts
  refine h.set ⟨n, hLinear.frame hLinear.channel rfl rfl rfl rfl rfl rfl⟩ hGet rfl rfl rfl rfl
    { hOld with alive := hAlive, starts := ?_, ran := ?_ } (fun j hj => ?_) (fun p hp => ?_)
    (fun id _ _ => .same rfl rfl rfl (Nat.le_refl _)) rfl rfl rfl rfl rfl
  · simpa [Stage.polled] using hStarts
  · -- the first poll of the task calls the closure in the world of that poll
    have hCall := Yields.quiet (w := (s.model, s.world))
      (.refl (s := (Command.some task.command).task task.context)) (by rintro x ⟨⟩) (by rintro ⟨⟩)
    rw [Task.Ran, hRan]
    exact hCall
  · simp [Ne.symm hj]
  · rcases List.mem_append.mp hp with hp | hp
    · exact .inl hp
    · exact .inr (by rw [List.mem_singleton.mp hp])

section Running

variable {k : Nat} {task : Task A} {stream : Strm (A.Model × A.World) A.Effect A.RootMessage}

theorem advanced (h : s.Tasks model) (hGet : s.tasks[k]? = some task)
    (hStage : task.stage = .running stream)
    (hItem : ∀ x, stream.head (s.model, s.world) ≠ some (.item x))
    (hEnded : stream.head (s.model, s.world) ≠ some .ended) (w : A.World) :
    Tasks model { s.setTask k { task with
        stage := .running (stream.next (s.model, s.world)) } with world := w } := by
  obtain ⟨n, hLinear⟩ := h.linear
  have hOld := h.owned k task hGet
  have hAlive := hOld.alive
  have hStarts := hOld.starts
  have hRan := hOld.ran
  rw [Task.Ran, hStage] at hRan
  rw [hStage] at hAlive hStarts
  exact h.set ⟨n, hLinear.frame hLinear.channel rfl rfl rfl rfl rfl rfl⟩ hGet rfl rfl rfl rfl
    { hOld with alive := hAlive, starts := hStarts, ran := hRan.quiet hItem hEnded }
    (fun _ _ => rfl) (fun _ hp => .inl hp) (fun id _ _ => .same rfl rfl rfl (Nat.le_refl _))
    rfl rfl rfl rfl rfl

theorem emitted (h : s.Tasks model) (hGet : s.tasks[k]? = some task)
    (hStage : task.stage = .running stream) {message root : A.RootMessage}
    {c : Channel A.RootMessage} (hItem : stream.head (s.model, s.world) = some (.item message))
    (hMap : (s.updaters task.sender).map ⟨A.root, message⟩ = some root)
    (hStep : s.channel.step (ready s.buffer) (.call task.sender root) = some c) :
    Tasks model (setTask { s with channel := c } k { task with
      stage := .running (stream.next (s.model, s.world))
      emitted := task.emitted ++ [message] }) := by
  obtain ⟨n, hLinear⟩ := h.linear
  have hOld := h.owned k task hGet
  have hAlive := hOld.alive
  have hStarts := hOld.starts
  have hRan := hOld.ran
  rw [Task.Ran, hStage] at hRan
  rw [hStage] at hAlive hStarts
  -- the task's updater is a clone of the host's, so its mapper is the identity
  obtain rfl : message = root := by simpa [hOld.updater] using hMap
  have hExact := hOld.exact.step (by simp) (by simp) hStep
  have hOwned : Owned (setTask { s with channel := c } k { task with
      stage := .running (stream.next (s.model, s.world))
      emitted := task.emitted ++ [message] }) k { task with
      stage := .running (stream.next (s.model, s.world))
      emitted := task.emitted ++ [message] } := by
    cases Channel.step_move hStep
    exact { hOld with
      alive := hAlive
      called := by simp [setTask, hOld.called]
      exact := hExact
      starts := hStarts
      ran := hRan.item hItem }
  refine h.set ⟨n, ?_⟩ hGet rfl rfl rfl rfl hOwned (fun _ _ => rfl) (fun _ hp => .inl hp)
    (fun id hMade hId => ?_) ?_ rfl rfl rfl rfl
  · exact hLinear.frame (hLinear.channel.step hStep) (Channel.step_taken (by simp) hStep)
      rfl rfl rfl rfl rfl
  · exact .step hMade (by rintro ⟨⟩; exact hId rfl) hStep rfl rfl rfl
  · exact Channel.step_made (by simp) hStep

theorem finished (h : s.Tasks model) (hGet : s.tasks[k]? = some task)
    (hStage : task.stage = .running stream) {c : Channel A.RootMessage}
    (hEnded : stream.head (s.model, s.world) = some .ended)
    (hNone : s.channel.pending task.sender = none)
    (hStep : s.channel.step (ready s.buffer) (.close task.sender) = some c) :
    Tasks model (setTask { s with channel := c } k { task with stage := .ended }) := by
  obtain ⟨n, hLinear⟩ := h.linear
  have hOld := h.owned k task hGet
  have hStarts := hOld.starts
  have hRan := hOld.ran
  rw [Task.Ran, hStage] at hRan
  rw [hStage] at hStarts
  have hExact := hOld.exact.step (by simp) (fun _ => hNone) hStep
  have hOwned : Owned (setTask { s with channel := c } k { task with stage := .ended }) k
      { task with stage := .ended } := by
    cases Channel.step_move hStep
    exact { hOld with
      alive := by simp [setTask, Stage.isEnded]
      exact := hExact
      starts := hStarts
      ran := ⟨stream, hRan, _, hEnded⟩ }
  refine h.set ⟨n, ?_⟩ hGet rfl rfl rfl rfl hOwned (fun _ _ => rfl) (fun _ hp => .inl hp)
    (fun id hMade hId => ?_) ?_ rfl rfl rfl rfl
  · exact hLinear.frame (hLinear.channel.step hStep) (Channel.step_taken (by simp) hStep)
      rfl rfl rfl rfl rfl
  · exact .step hMade (by rintro ⟨⟩; exact hId rfl) hStep rfl rfl rfl
  · exact Channel.step_made (by simp) hStep

end Running

/-- A step outside the tasks that leaves the channel as it is. -/
theorem keepChannel (h : s.Tasks model) (hLinear : ∃ n, t.Linear n model)
    (hTasks : t.tasks = s.tasks) (hStarts : t.starts = s.starts) (hChannel : t.channel = s.channel)
    (hUpdaters : t.updaters = s.updaters) (hOutside : t.outside = s.outside)
    (hApplied : t.applied = s.applied) (hCommand : t.phase.command = s.phase.command) :
    t.Tasks model := by
  refine h.keep hLinear hTasks hStarts (fun id _ _ => .same hChannel hUpdaters hOutside ?_)
    (fun id hMade hAlive => ?_) ?_ ?_
  · rw [hApplied]
  · have := h.alive_made (hChannel ▸ hAlive)
    omega
  · rw [hCommand, hApplied]
    exact h.commands
  · rw [hCommand, hApplied]
    exact h.unapplied

theorem updated (h : s.Tasks model) {message : A.RootMessage}
    (hPhase : s.phase = .updating message) : Tasks model { s with
      phase := .accumulating (A.update s.model s.world message).2.2
      model := (A.update s.model s.world message).1
      world := (A.update s.model s.world message).2.1
      applied := s.applied ++ [(s.world, message)]
      trail := s.trail ++ [.updated s.model message] } := by
  obtain ⟨n, hOld⟩ := h.linear
  have hCommands := h.commands
  rw [hPhase] at hCommands
  have hMove : Move (fun _ _ _ => false) s _ := .updated message hPhase
  refine h.keep ⟨n, hOld.move hMove⟩ rfl rfl (fun id _ _ => .same rfl rfl rfl ?_)
    (fun id hMade hAlive => ?_) ?_ (by simp)
  · simp
  · have := h.alive_made hAlive
    omega
  · simp only [Phase.command, Option.map_none, Option.toList_none, List.append_nil] at hCommands
    rw [commandsOf_append, ← hOld.model_eq, hCommands]
    simp [Phase.command]

theorem opened (h : s.Tasks model) (u : Updater A) : (s.openUpdater u true).Tasks model := by
  obtain ⟨n, hLinear⟩ := h.linear
  have hMove : Move (fun _ _ _ => false) s (s.openUpdater u true) := .opened u
  refine h.keep ⟨n, hLinear.move hMove⟩ rfl rfl
    (fun id hMade _ => .openUpdater hMade u true) (fun id hMade hAlive => ?_) h.commands h.unapplied
  by_cases hId : id = s.channel.made
  · subst hId
    exact Function.update_self ..
  · have hOld : s.channel.alive id = true := by
      simpa [openUpdater, Channel.openSender, Function.update_apply, hId] using hAlive
    have := h.alive_made hOld
    omega

/-- An operation of an outside handle, or one of nobody's. -/
theorem operated (h : s.Tasks model) {op : Op A.RootMessage} {c : Channel A.RootMessage}
    (hOp : op ≠ .openSender) (hBy : ∀ id, op.by? = some id → s.outside id = true)
    (hStep : s.channel.step (ready s.buffer) op = some c) {p : Phase A}
    (hPhase : p.command = s.phase.command)
    (hLinear : ∃ n, Linear n model { s with channel := c, phase := p }) :
    Tasks model { s with channel := c, phase := p } := by
  refine h.keep hLinear rfl rfl (fun id hMade hPrivate => ?_) (fun id hMade hAlive => ?_) ?_ ?_
  · refine .step hMade (fun hId => ?_) hStep rfl rfl rfl
    rw [hBy id hId] at hPrivate
    cases hPrivate
  · obtain ⟨n, hLin⟩ := hLinear
    have hc := Channel.step_made hOp hStep
    have := hLin.channel.alive_made id hAlive
    simp only at this
    omega
  · rw [hPhase]
    exact h.commands
  · rw [hPhase]
    exact h.unapplied

theorem move (h : s.Tasks model) (hMove : Move ready s t) : t.Tasks model := by
  obtain ⟨n, hOld⟩ := h.linear
  have hLinear : ∃ n, t.Linear n model := ⟨n, hOld.move hMove⟩
  cases hMove with
  | run hPhase =>
    exact h.keepChannel hLinear rfl rfl rfl rfl rfl rfl (by rw [hPhase]; rfl)
  | received message c hPhase _ hTake =>
    exact h.operated (by simp) (by rintro _ ⟨⟩) hTake (by rw [hPhase]; rfl) hLinear
  | stopping hPhase =>
    exact h.keepChannel hLinear rfl rfl rfl rfl rfl rfl (by rw [hPhase]; rfl)
  | intercepted message k interceptor hPhase =>
    exact h.keepChannel hLinear rfl rfl rfl rfl rfl rfl (by rw [hPhase]; rfl)
  | allIntercepted message k hPhase =>
    exact h.keepChannel hLinear rfl rfl rfl rfl rfl rfl (by rw [hPhase]; rfl)
  | updated message hPhase => exact h.updated hPhase
  | accumulated command hPhase =>
    exact h.keepChannel hLinear rfl rfl rfl rfl rfl rfl (by rw [hPhase]; rfl)
  | noCommand hPhase =>
    exact h.keepChannel hLinear rfl rfl rfl rfl rfl rfl (by rw [hPhase]; rfl)
  | spawned command hPhase => exact h.spawned hPhase
  | flushed => exact h.keepChannel hLinear rfl rfl rfl rfl rfl rfl rfl
  | allFlushed hPhase =>
    exact h.keepChannel hLinear rfl rfl rfl rfl rfl rfl (by rw [hPhase]; rfl)
  | started k task hGet hStage => exact h.started hGet hStage
  | advanced k task w hGet hStage hItem hEnded => exact h.advanced hGet hStage hItem hEnded w
  | emitted k task message root c hGet hStage hItem hMap hStep =>
    exact h.emitted hGet hStage hItem hMap hStep
  | finished k task c hGet hStage hEnded hNone hStep =>
    exact h.finished hGet hStage hEnded hNone hStep
  | channel op c _ hOp hBy hStep => exact h.operated hOp hBy hStep rfl hLinear
  | opened u => exact h.opened u
  | zoomed u id c hOutside hStep =>
    refine (h.opened u).operated (by simp) ?_ hStep rfl hLinear
    rintro _ ⟨⟩
    simp [openUpdater, Function.update_apply, hOutside]
  | world => exact h.keepChannel hLinear rfl rfl rfl rfl rfl rfl rfl
  | idle => exact h

theorem run {as : List (Action A)} (h : s.Tasks model) (hRun : run (step ready) s as = some t) :
    t.Tasks model :=
  run_invariant (fun _ _ _ h hStep => h.move (step_move hStep)) h hRun

/-- A task that has not ended can always be polled. -/
theorem pollable (h : s.Tasks model) {k : Nat} {task : Task A} (hGet : s.tasks[k]? = some task)
    (hRunning : task.stage.isEnded = false) : (s.step ready (.poll k)).isSome := by
  have hOwned := h.owned k task hGet
  have hAlive := hOwned.alive
  rw [hRunning] at hAlive
  simp only [step, hGet, Option.bind_some, pollTask]
  cases hStage : task.stage with
  | spawned => rfl
  | ended => rw [hStage] at hRunning; cases hRunning
  | running stream =>
    cases hPending : s.channel.pending task.sender with
    | some a => simp
    | none =>
      rcases hHead : stream.head (s.model, s.world) with _ | ev
      · simp [hHead]
      · cases ev <;> simp_all [hOwned.updater, channelStep, Channel.step]

end Tasks

/-- The applied messages with the senders they came through. -/
def history (s : Host A) : List (Nat × A.RootMessage) :=
  s.channel.accepted.take s.applied.length

/-- What becomes of the command of the task `k` and the values of its stream. -/
structure Delivers (s : Host A) (k : Nat) (task : Task A) : Prop where
  started : sentBy k s.starts = if task.stage.polled then [task.context] else []
  context : s.updaters task.context.updater = .new
  ran : Task.Ran task
  sent : sentBy task.sender s.channel.accepted ++ (s.channel.pending task.sender).toList =
    task.emitted
  afterParent : ∀ q message, s.history[q]? = some (task.sender, message) → task.parent < q
  inOrder : ∀ q message, s.history[q]? = some (task.sender, message) →
    task.emitted[(sentBy task.sender (s.history.take q)).length]? = some message ∧
    ∀ j < (sentBy task.sender (s.history.take q)).length, ∃ p < q, ∃ earlier,
      s.history[p]? = some (task.sender, earlier) ∧ task.emitted[j]? = some earlier ∧
      (sentBy task.sender (s.history.take p)).length = j

theorem history_getElem? {q : Nat} {p : Nat × A.RootMessage} (h : s.history[q]? = some p) :
    q < s.applied.length ∧ s.channel.accepted[q]? = some p := by
  rw [history, List.getElem?_take] at h
  split at h
  next hq => exact ⟨hq, h⟩
  next => cases h

theorem Owned.delivers {k : Nat} {task : Task A} (h : s.Owned k task) : s.Delivers k task := by
  have hSent : sentBy task.sender s.channel.accepted ++
      (s.channel.pending task.sender).toList = task.emitted := h.exact.trans h.called
  have hPrefix : sentBy task.sender s.history <+: task.emitted := by
    refine List.IsPrefix.trans ?_ (hSent ▸ List.prefix_append _ _)
    obtain ⟨rest, hRest⟩ := List.take_prefix s.applied.length s.channel.accepted
    exact ⟨sentBy task.sender rest, by rw [history, ← sentBy_append, hRest]⟩
  have hPlace {q : Nat} {message : A.RootMessage}
      (hGet : s.history[q]? = some (task.sender, message)) :
      task.emitted[(sentBy task.sender (s.history.take q)).length]? = some message := by
    have hValue := sentBy_getElem? hGet
    obtain ⟨hLt, -⟩ := List.getElem?_eq_some_iff.mp hValue
    obtain ⟨rest, hRest⟩ := hPrefix
    rw [← hRest, List.getElem?_append_left hLt, hValue]
  refine ⟨h.starts, h.context, h.ran, hSent, fun q message hGet => ?_, fun q message hGet => ?_⟩
  · exact h.after q message (history_getElem? hGet).2
  · refine ⟨hPlace hGet, fun j hj => ?_⟩
    obtain ⟨p, hp, earlier, hEarlier, hLen⟩ := exists_place hj
    rw [List.length_take] at hp
    have hpq : p < q := by omega
    rw [List.getElem?_take_of_lt hpq] at hEarlier
    rw [List.take_take, Nat.min_eq_left (Nat.le_of_lt hpq)] at hLen
    exact ⟨p, hpq, earlier, hEarlier, hLen ▸ hPlace hEarlier, hLen⟩

/-- In every reachable state the tasks are, one for one and in order, those of the nonempty commands
returned so far (but for one whose spawn is the host's next step); each is started once, with a
context of this host, and its values are delivered in order, behind the message it was returned
for. -/
theorem commands_delivered (ready : Nat → Channel A.RootMessage → Nat → Bool) (model : A.Model)
    (world : A.World) (interceptors : List A.Interceptor) (buffer : Nat) {as : List (Action A)}
    (hRun : Runs.run (step ready) (new model world interceptors buffer) as = some s) :
    (s.phase.command = none →
      s.tasks.map (fun task => (task.parent, task.command)) = commandsOf A 0 model s.applied) ∧
    s.history.map Prod.snd = s.applied.map Prod.snd ∧
    ∀ k task, s.tasks[k]? = some task → s.Delivers k task ∧
      (task.stage.isEnded = false → (s.step ready (.poll k)).isSome) := by
  have h := (Tasks.new model world interceptors buffer).run hRun
  obtain ⟨n, hLinear⟩ := h.linear
  refine ⟨fun hPhase => ?_, ?_, fun k task hGet =>
    ⟨(h.owned k task hGet).delivers, h.pollable hGet⟩⟩
  · simpa [hPhase] using h.commands
  · rw [history, List.map_take, hLinear.channel.fifo, hLinear.taken, List.append_assoc,
      List.take_append_of_le_length (by simp), List.take_of_length_le (by simp)]

/-- The message 0 returns a command, whose task sends 10 to the host. -/
def selfSend : List (Action journal) :=
  [.updater, .run, .send 1 ⟨true, (0 : Nat)⟩, .accept 1, .host, .host, .host, .host, .host, .host,
    .host, .poll 0, .poll 0, .accept 3, .host, .host, .host, .host, .host, .host, .host]

theorem commands_delivered_selfSend : ∃ s,
    Runs.run (step Channel.unparked) (new [] () [] 4) selfSend = some s ∧
    s.history = [(1, (0 : Nat)), (3, (10 : Nat))] ∧
    s.tasks.map (fun task => (task.parent, task.command)) = commandsOf journal 0 [] s.applied := by
  have hRun : Runs.run (step Channel.unparked) (new [] () [] 4) selfSend = some _ := rfl
  have h := commands_delivered (A := journal) Channel.unparked [] () _ 4 hRun
  exact ⟨_, hRun, rfl, h.1 rfl⟩

end Host

end Emyu
