import Emyu.Host.Tasks

/-! Zooming as composition: a handle sends its message through the lenses that it was zoomed by, the
last of them first, whatever is done with the other handles. -/

namespace Emyu

open Polling Fifo Runs

variable {A : Application}

/-- The zooms between a root handle and a handle whose messages are those of a model. -/
inductive Zooms (A : Application) : A.Models → Type where
  | root : Zooms A A.root
  | zoom {child parent : A.Models} (zooms : Zooms A parent)
      (lens : A.Message child → A.Message parent) : Zooms A child

namespace Zooms

/-- `l1(l2(..(ln(message))))` for the zooms `l1`, .., `ln`. -/
def through : {model : A.Models} → Zooms A model → A.Message model → A.RootMessage
  | _, .root, message => message
  | _, .zoom zooms lens, message => zooms.through (lens message)

def updater {model : A.Models} (zooms : Zooms A model) : Updater A := ⟨model, zooms.through⟩

/-- One zoom more, if its lens leads to the messages of the handle. -/
def extend (zooms : Σ model, Zooms A model) {child parent : A.Models}
    (lens : A.Message child → A.Message parent) : Σ model, Zooms A model :=
  if h : parent = zooms.1 then ⟨child, .zoom zooms.2 fun m => h ▸ lens m⟩ else zooms

theorem updater_root : (Zooms.root : Zooms A A.root).updater = .new := rfl

theorem updater_extend {zooms : Σ model, Zooms A model} {child parent : A.Models}
    {lens : A.Message child → A.Message parent} {u : Updater A}
    (h : zooms.2.updater.zoom lens = some u) : (extend zooms lens).2.updater = u := by
  obtain ⟨model, zooms⟩ := zooms
  unfold Updater.zoom at h
  split at h
  next hModel =>
    cases Option.some.inj h
    have hEq : parent = model := hModel
    subst hEq
    have hExtend : extend ⟨parent, zooms⟩ lens = ⟨child, zooms.zoom lens⟩ := dif_pos rfl
    rw [hExtend]
    rfl
  next => cases h

theorem map_updater {model : A.Models} (zooms : Zooms A model) (message : A.Message model) :
    zooms.updater.map ⟨model, message⟩ = some (zooms.through message) := by
  simp [Updater.map, updater]

end Zooms

namespace Updater

theorem zoom_zoom (u : Updater A) {grandchild child parent : A.Models}
    (l : A.Message child → A.Message parent) (l' : A.Message grandchild → A.Message child) :
    ((u.zoom l).bind fun v => v.zoom l') = u.zoom (l ∘ l') := by
  unfold zoom
  by_cases h : parent = u.model
  · subst h
    simp
  · simp [h]

theorem zoom_id (u : Updater A) : u.zoom (fun m : A.Message u.model => m) = some u := by
  simp [zoom]

end Updater

/-- The handle that an action uses, gives up or takes. -/
def Action.owner? : Action A → Option Nat
  | .send id _ => some id
  | .cancel id => some id
  | .zoom id _ _ _ => some id
  | .drop id => some id
  | _ => none

/-- The action makes a handle of another one. -/
def Action.derives : Action A → Bool
  | .clone _ => true
  | .zoom _ _ _ _ => true
  | _ => false

namespace Host

variable {ready : Nat → Channel A.RootMessage → Nat → Bool} {s t u : Host A} {a : Action A}

/-- The zooms of the handles after an action, where those of a new one are the zooms of the handle
that it is made of. All others are clones of the host's own handle. -/
def recordZooms (s : Host A) (zooms : Nat → Σ model, Zooms A model) :
    Action A → Nat → Σ model, Zooms A model
  | .clone id => Function.update zooms s.channel.made (zooms id)
  | .zoom id _ _ lens => Function.update zooms s.channel.made (Zooms.extend (zooms id) lens)
  | _ => zooms

/-- The zooms of the handles after the actions. -/
def zoomsFrom (ready : Nat → Channel A.RootMessage → Nat → Bool) (s : Host A)
    (zooms : Nat → Σ model, Zooms A model) : List (Action A) → Nat → Σ model, Zooms A model
  | [] => zooms
  | a :: as =>
    match s.step ready a with
    | some t => t.zoomsFrom ready (s.recordZooms zooms a) as
    | none => zooms

/-- The zooms of the handles after a history of the host, which starts with a handle of its own. -/
def zoomsOf (ready : Nat → Channel A.RootMessage → Nat → Bool) (s : Host A)
    (as : List (Action A)) : Nat → Σ model, Zooms A model :=
  s.zoomsFrom ready (fun _ => ⟨A.root, .root⟩) as

/-! ### What a step does to the handles -/

structure SameHandles (s t : Host A) : Prop where
  channel : t.channel = s.channel
  updaters : t.updaters = s.updaters
  outside : t.outside = s.outside

/-- What a step can do to the handles. An operation of an outside handle is an action of its
owner. -/
inductive Handled (ready : Nat → Channel A.RootMessage → Nat → Bool) (s : Host A) :
    Action A → Host A → Prop where
  | same {a : Action A} {t : Host A} : a.derives = false → SameHandles s t → Handled ready s a t
  | operated {a : Action A} {t : Host A} (op : Op A.RootMessage) (c : Channel A.RootMessage) :
      a.derives = false → op ≠ .openSender →
      (∀ id, op.by? = some id → s.outside id = true → a.owner? = some id) →
      s.channel.step (ready s.buffer) op = some c → SameHandles { s with channel := c } t →
      Handled ready s a t
  | opened {t : Host A} : SameHandles (s.openUpdater (s.updaters 0) true) t →
      Handled ready s .updater t
  | spawned {t : Host A} (command : A.CommandRepr) : SameHandles (s.spawn command) t →
      Handled ready s .host t
  | cloned {t : Host A} (id : Nat) : SameHandles (s.openUpdater (s.updaters id) true) t →
      Handled ready s (.clone id) t
  | zoomed {t : Host A} (id : Nat) {child parent : A.Models}
      (lens : A.Message child → A.Message parent) (u : Updater A) (c : Channel A.RootMessage) :
      (s.updaters id).zoom lens = some u →
      (s.openUpdater u true).channel.step (ready s.buffer) (.close id) = some c →
      SameHandles { s.openUpdater u true with channel := c } t →
      Handled ready s (.zoom id child parent lens) t

theorem hostStep_handled (h : s.hostStep ready = some t) : Handled ready s .host t := by
  unfold hostStep at h
  split at h
  case h_1 =>
    split at h
    next =>
      obtain ⟨s', hTake, rfl⟩ := Option.map_eq_some_iff.mp h
      obtain ⟨c, hStep, rfl⟩ := Option.map_eq_some_iff.mp hTake
      exact .operated .take c rfl (by simp) (by rintro _ ⟨⟩) hStep ⟨rfl, rfl, rfl⟩
    next => cases h; exact .same rfl ⟨rfl, rfl, rfl⟩
    next => cases h
  case h_2 =>
    split at h
    · cases h; exact .same rfl ⟨rfl, rfl, rfl⟩
    · cases h; exact .same rfl ⟨rfl, rfl, rfl⟩
  case h_3 => cases h; exact .same rfl ⟨rfl, rfl, rfl⟩
  case h_4 => cases h; exact .same rfl ⟨rfl, rfl, rfl⟩
  case h_5 => cases h; exact .same rfl ⟨rfl, rfl, rfl⟩
  case h_6 command _ => cases h; exact .spawned command ⟨rfl, rfl, rfl⟩
  case h_7 =>
    split at h
    · cases h; exact .same rfl ⟨rfl, rfl, rfl⟩
    · cases h; exact .same rfl ⟨rfl, rfl, rfl⟩
  case h_8 => cases h
  case h_9 => cases h

theorem pollTask_handled {k : Nat} {task : Task A} (hPrivate : s.outside task.sender = false)
    (h : s.pollTask ready k task = some t) : Handled ready s (.poll k) t := by
  have hOwner {id : Nat} (hId : some task.sender = some id) (hOutside : s.outside id = true) :
      (Action.poll k : Action A).owner? = some id := by
    cases hId
    rw [hPrivate] at hOutside
    cases hOutside
  unfold pollTask at h
  split at h
  case h_1 => cases h; exact .same rfl ⟨rfl, rfl, rfl⟩
  case h_2 =>
    split at h
    next => cases h; exact .same rfl ⟨rfl, rfl, rfl⟩
    next =>
      dsimp only at h
      split at h
      next => cases h; exact .same rfl ⟨rfl, rfl, rfl⟩
      next => cases h; exact .same rfl ⟨rfl, rfl, rfl⟩
      next message _ =>
        obtain ⟨root, -, hSend⟩ := Option.bind_eq_some_iff.mp h
        obtain ⟨s', hCall, rfl⟩ := Option.map_eq_some_iff.mp hSend
        obtain ⟨c, hStep, rfl⟩ := Option.map_eq_some_iff.mp hCall
        exact .operated (.call task.sender root) c rfl (by simp) (fun _ => hOwner) hStep
          ⟨rfl, rfl, rfl⟩
      next =>
        obtain ⟨s', hClose, rfl⟩ := Option.map_eq_some_iff.mp h
        obtain ⟨c, hStep, rfl⟩ := Option.map_eq_some_iff.mp hClose
        exact .operated (.close task.sender) c rfl (by simp) (fun _ => hOwner) hStep
          ⟨rfl, rfl, rfl⟩
  case h_3 => cases h

theorem channelStep_handled {op : Op A.RootMessage} (hDerives : a.derives = false)
    (hOpen : op ≠ .openSender) (hOwner : op.by? = a.owner?)
    (h : s.channelStep ready op = some t) : Handled ready s a t := by
  obtain ⟨c, hStep, rfl⟩ := Option.map_eq_some_iff.mp h
  exact .operated op c hDerives hOpen (fun id hId _ => hOwner ▸ hId) hStep ⟨rfl, rfl, rfl⟩

theorem step_handled (hPrivate : ∀ (k : Nat) (task : Task A), s.tasks[k]? = some task →
      s.outside task.sender = false)
    (h : s.step ready a = some t) : Handled ready s a t := by
  cases a with
  | updater =>
    simp only [step] at h
    split at h
    · cases h; exact .opened ⟨rfl, rfl, rfl⟩
    · cases h
  | run =>
    simp only [step] at h
    split at h
    · cases h; exact .same rfl ⟨rfl, rfl, rfl⟩
    · cases h
  | host => exact hostStep_handled h
  | poll k =>
    obtain ⟨task, hTask, hPoll⟩ := Option.bind_eq_some_iff.mp h
    exact pollTask_handled (hPrivate k task hTask) hPoll
  | send id message =>
    simp only [step, Option.ite_none_right_eq_some, Option.bind_eq_some_iff] at h
    obtain ⟨-, root, -, hCall⟩ := h
    exact channelStep_handled rfl (by simp) rfl hCall
  | accept id => exact channelStep_handled rfl (by simp) rfl h
  | cancel id =>
    simp only [step, Option.ite_none_right_eq_some] at h
    exact channelStep_handled rfl (by simp) rfl h.2
  | clone id =>
    simp only [step, Option.ite_none_right_eq_some, Option.some.injEq] at h
    obtain ⟨-, rfl⟩ := h
    exact .cloned id ⟨rfl, rfl, rfl⟩
  | zoom id child parent lens =>
    simp only [step, Option.ite_none_right_eq_some, Option.bind_eq_some_iff] at h
    obtain ⟨-, u, hZoom, hClose⟩ := h
    obtain ⟨c, hStep, rfl⟩ := Option.map_eq_some_iff.mp hClose
    exact .zoomed id lens u c hZoom hStep ⟨rfl, rfl, rfl⟩
  | drop id =>
    simp only [step, Option.ite_none_right_eq_some] at h
    exact channelStep_handled rfl (by simp) rfl h.2
  | world w => cases h; exact .same rfl ⟨rfl, rfl, rfl⟩

/-! ### The zooms of the handles -/

theorem recordZooms_of_derives (h : a.derives = false) (zooms : Nat → Σ model, Zooms A model) :
    s.recordZooms zooms a = zooms := by
  cases a with
  | clone | zoom => cases h
  | _ => rfl

/-- The handles are those that the record says, and the host's own is a root handle. -/
structure Zoomed (s : Host A) (zooms : Nat → Σ model, Zooms A model) : Prop where
  updaters : ∀ id, s.updaters id = (zooms id).2.updater
  fresh : ∀ id, s.channel.made ≤ id → zooms id = ⟨A.root, .root⟩
  host : zooms 0 = ⟨A.root, .root⟩
  made : 0 < s.channel.made

variable {zooms : Nat → Σ model, Zooms A model}

theorem Zoomed.new (model : A.Model) (world : A.World) (interceptors : List A.Interceptor)
    (buffer : Nat) :
    Zoomed (Host.new model world interceptors buffer) fun _ => ⟨A.root, .root⟩ where
  updaters _ := Zooms.updater_root.symm
  fresh _ _ := rfl
  host := rfl
  made := Nat.zero_lt_one

theorem Zoomed.same (h : s.Zoomed zooms) (hUpdaters : t.updaters = s.updaters)
    (hMade : t.channel.made = s.channel.made) : t.Zoomed zooms where
  updaters := hUpdaters ▸ h.updaters
  fresh := hMade ▸ h.fresh
  host := h.host
  made := hMade ▸ h.made

/-- A new handle, with the zooms that are recorded for it. -/
theorem Zoomed.openUpdater (h : s.Zoomed zooms) (outside : Bool) (made : Σ model, Zooms A model) :
    (s.openUpdater made.2.updater outside).Zoomed (Function.update zooms s.channel.made made) where
  updaters id := by
    by_cases hId : id = s.channel.made
    · subst hId
      rw [Function.update_self]
      exact Function.update_self ..
    · rw [Function.update_of_ne hId, ← h.updaters id]
      exact Function.update_of_ne hId ..
  fresh id hId := by
    have hNe : id ≠ s.channel.made := Nat.ne_of_gt hId
    rw [Function.update_of_ne hNe]
    exact h.fresh id (Nat.le_of_succ_le hId)
  host := by rw [Function.update_of_ne (Nat.ne_of_lt h.made), h.host]
  made := Nat.succ_pos _

/-- A clone of the host's handle. -/
theorem Zoomed.openRoot (h : s.Zoomed zooms) (outside : Bool) :
    (s.openUpdater (s.updaters 0) outside).Zoomed zooms := by
  have hOpen := h.openUpdater outside (zooms 0)
  have hMade : zooms 0 = zooms s.channel.made := by rw [h.host, h.fresh _ (Nat.le_refl _)]
  rw [← h.updaters 0] at hOpen
  rwa [hMade, Function.update_eq_self] at hOpen

theorem Zoomed.handled (h : s.Zoomed zooms) (hHandled : Handled ready s a t) :
    t.Zoomed (s.recordZooms zooms a) := by
  cases hHandled with
  | same hDerives hSame =>
    rw [recordZooms_of_derives hDerives]
    exact h.same hSame.updaters (by rw [hSame.channel])
  | operated op c hDerives hOpen _ hStep hSame =>
    rw [recordZooms_of_derives hDerives]
    refine h.same hSame.updaters ?_
    rw [hSame.channel]
    exact Channel.step_made hOpen hStep
  | opened hSame => exact (h.openRoot true).same hSame.updaters (by rw [hSame.channel])
  | spawned command hSame =>
    have hSecond : (s.openUpdater (s.updaters 0) true).updaters 0 = s.updaters 0 :=
      Function.update_of_ne (Nat.ne_of_lt h.made) _ _
    have hSpawn := (h.openRoot true).openRoot false
    rw [hSecond] at hSpawn
    exact hSpawn.same hSame.updaters (by rw [hSame.channel]; rfl)
  | cloned id hSame =>
    have hOpen := h.openUpdater true (zooms id)
    rw [← h.updaters id] at hOpen
    exact hOpen.same hSame.updaters (by rw [hSame.channel])
  | zoomed id lens u c hZoom hStep hSame =>
    have hOpen := h.openUpdater true (Zooms.extend (zooms id) lens)
    rw [h.updaters id] at hZoom
    rw [Zooms.updater_extend hZoom] at hOpen
    refine hOpen.same hSame.updaters ?_
    rw [hSame.channel]
    exact Channel.step_made (by simp) hStep

theorem Tasks.handled {model : A.Model} (h : s.Tasks model) (hStep : s.step ready a = some t) :
    Handled ready s a t :=
  step_handled (fun k task hGet => (h.owned k task hGet).notOutside) hStep

theorem Zoomed.run {model : A.Model} {as : List (Action A)} (h : s.Zoomed zooms)
    (hTasks : s.Tasks model) (hRun : Runs.run (step ready) s as = some t) :
    t.Zoomed (s.zoomsFrom ready zooms as) := by
  induction as generalizing s zooms with
  | nil =>
    cases hRun
    exact h
  | cons a as ih =>
    obtain ⟨m, hStep, hRest⟩ := run_cons_eq_some.mp hRun
    have hNext := ih (h.handled (hTasks.handled hStep)) (hTasks.move (step_move hStep)) hRest
    simpa [zoomsFrom, hStep] using hNext

/-- No step changes the zooms of a handle that is there. -/
theorem recordZooms_of_made {id : Nat} (hId : id < s.channel.made) :
    s.recordZooms zooms a id = zooms id := by
  cases a with
  | clone | zoom => exact Function.update_of_ne (Nat.ne_of_lt hId) _ _
  | _ => rfl

/-- No step changes what a handle is that is there, or whether it is held outside. -/
theorem Handled.keeps (h : Handled ready s a t) {id : Nat} (hId : id < s.channel.made) :
    t.updaters id = s.updaters id ∧ t.outside id = s.outside id ∧ id < t.channel.made := by
  have hOpened (u : Updater A) (outside : Bool) (s : Host A) (hId : id < s.channel.made) :
      (s.openUpdater u outside).updaters id = s.updaters id ∧
        (s.openUpdater u outside).outside id = s.outside id ∧
        id < (s.openUpdater u outside).channel.made :=
    ⟨Function.update_of_ne (Nat.ne_of_lt hId) _ _, Function.update_of_ne (Nat.ne_of_lt hId) _ _,
      Nat.lt_succ_of_lt hId⟩
  cases h with
  | same _ hSame => exact ⟨by rw [hSame.updaters], by rw [hSame.outside], by rwa [hSame.channel]⟩
  | operated op c _ hOpen _ hStep hSame =>
    refine ⟨by rw [hSame.updaters], by rw [hSame.outside], ?_⟩
    rw [hSame.channel]
    exact (Channel.step_made hOpen hStep) ▸ hId
  | opened hSame | cloned _ hSame =>
    rw [hSame.updaters, hSame.outside, hSame.channel]
    exact hOpened _ _ s hId
  | spawned command hSame =>
    rw [hSame.updaters, hSame.outside, hSame.channel]
    obtain ⟨hUpdaters, hOutside, hMade⟩ := hOpened (s.updaters 0) true s hId
    obtain ⟨hUpdaters', hOutside', hMade'⟩ := hOpened (s.updaters 0) false _ hMade
    exact ⟨hUpdaters'.trans hUpdaters, hOutside'.trans hOutside, hMade'⟩
  | zoomed _ lens u c _ hStep hSame =>
    rw [hSame.updaters, hSame.outside, hSame.channel]
    obtain ⟨hUpdaters, hOutside, hMade⟩ := hOpened u true s hId
    exact ⟨hUpdaters, hOutside, (Channel.step_made (by simp) hStep) ▸ hMade⟩

/-- What a handle sends is in the hands of its owner and the channel alone. -/
theorem Handled.outgoing (h : Handled ready s a t) {id : Nat} (hOutside : s.outside id = true)
    (hOwner : a.owner? ≠ some id) :
    Channel.outgoing id t.channel = Channel.outgoing id s.channel := by
  cases h with
  | same _ hSame => rw [hSame.channel]
  | operated op c _ _ hBy hStep hSame =>
    rw [hSame.channel]
    exact Channel.outgoing_step (fun hOp => hOwner (hBy id hOp hOutside)) hStep
  | opened hSame | cloned _ hSame | spawned _ hSame =>
    rw [hSame.channel]
    rfl
  | zoomed id' lens u c _ hStep hSame =>
    have hNe : (Op.close id' : Op A.RootMessage).by? ≠ some id := hOwner
    have hOpen : Channel.outgoing id (s.openUpdater u true).channel =
        Channel.outgoing id s.channel := rfl
    rw [hSame.channel, ← hOpen]
    exact Channel.outgoing_step hNe hStep

theorem run_outgoing {model : A.Model} {as : List (Action A)} (hTasks : s.Tasks model) {id : Nat}
    (hOutside : s.outside id = true) (hId : id < s.channel.made)
    (hOwner : ∀ a ∈ as, a.owner? ≠ some id) (hRun : Runs.run (step ready) s as = some t) :
    Channel.outgoing id t.channel = Channel.outgoing id s.channel := by
  induction as generalizing s with
  | nil =>
    cases hRun
    rfl
  | cons a as ih =>
    obtain ⟨m, hStep, hRest⟩ := run_cons_eq_some.mp hRun
    have hHandled := hTasks.handled hStep
    obtain ⟨-, hSame, hMade⟩ := hHandled.keeps hId
    have hLater := ih (hTasks.move (step_move hStep)) (hSame.trans hOutside) hMade
      (fun b hb => hOwner b (List.mem_cons_of_mem _ hb)) hRest
    exact hLater.trans (hHandled.outgoing hOutside (hOwner a List.mem_cons_self))

/-- A send puts one message into the channel, the one that the zooms of the handle make of it, and
there it stays until it is accepted, unless the owner of the handle gives it up. -/
theorem send_through {model : A.Model} (hTasks : s.Tasks model) (hZoomed : s.Zoomed zooms)
    {id : Nat} {child : A.Models} {through : Zooms A child} {message : A.Message child}
    (hZooms : zooms id = ⟨child, through⟩)
    (hStep : s.step ready (.send id ⟨child, message⟩) = some t) :
    t.channel.called = s.channel.called ++ [(id, through.through message)] ∧
      ∀ as u, Runs.run (step ready) t as = some u → (∀ a ∈ as, a.owner? ≠ some id) →
        Channel.outgoing id u.channel =
          sentBy id s.channel.accepted ++ [through.through message] := by
  have hTasks' := hTasks.move (step_move hStep)
  have hHandled := hTasks.handled hStep
  simp only [step, Option.ite_none_right_eq_some, Option.bind_eq_some_iff] at hStep
  obtain ⟨hOutside, root, hMap, hCall⟩ := hStep
  rw [hZoomed.updaters id, hZooms, Zooms.map_updater] at hMap
  cases hMap
  obtain ⟨c, hChannel, rfl⟩ := Option.map_eq_some_iff.mp hCall
  obtain ⟨hCalled, hOutgoing⟩ := Channel.outgoing_call hChannel
  have hMade : id < s.channel.made := by
    cases Channel.step_move hChannel with
    | call _ _ hAlive => exact hTasks.alive_made hAlive
  obtain ⟨-, hSame, hMade'⟩ := hHandled.keeps hMade
  refine ⟨hCalled, fun as u hRun hOwner => ?_⟩
  rw [run_outgoing hTasks' (hSame.trans hOutside) hMade' hOwner hRun]
  exact hOutgoing

/-- The handles are the compositions of their zooms: each sends what its zooms make of a message,
once, and stays as it is whatever is done with the others. -/
structure Composes (ready : Nat → Channel A.RootMessage → Nat → Bool) (s : Host A)
    (zooms : Nat → Σ model, Zooms A model) : Prop where
  updaters : ∀ id, s.updaters id = (zooms id).2.updater
  sends : ∀ id child (through : Zooms A child) message t, zooms id = ⟨child, through⟩ →
    s.step ready (.send id ⟨child, message⟩) = some t →
    t.channel.called = s.channel.called ++ [(id, through.through message)] ∧
      ∀ as u, Runs.run (step ready) t as = some u → (∀ a ∈ as, a.owner? ≠ some id) →
        Channel.outgoing id u.channel = sentBy id s.channel.accepted ++ [through.through message]
  others : ∀ a t, s.step ready a = some t → ∀ id < s.channel.made,
    t.updaters id = s.updaters id ∧ s.recordZooms zooms a id = zooms id ∧
      (s.outside id = true → a.owner? ≠ some id →
        Channel.outgoing id t.channel = Channel.outgoing id s.channel)

/-- Zooming is composition in every state that a host can reach, it goes from lens to lens like the
composed lens, and the identity changes nothing. -/
theorem zooms_compose (ready : Nat → Channel A.RootMessage → Nat → Bool) (model : A.Model)
    (world : A.World) (interceptors : List A.Interceptor) (buffer : Nat) {as : List (Action A)}
    (hRun : Runs.run (step ready) (new model world interceptors buffer) as = some s) :
    Composes ready s (zoomsOf ready (new model world interceptors buffer) as) ∧
    (∀ (u : Updater A) (grandchild child parent : A.Models)
      (l : A.Message child → A.Message parent) (l' : A.Message grandchild → A.Message child),
      ((u.zoom l).bind fun v => v.zoom l') = u.zoom (l ∘ l')) ∧
    ∀ u : Updater A, u.zoom (fun m : A.Message u.model => m) = some u := by
  have hTasks := (Tasks.new model world interceptors buffer).run hRun
  have hZoomed := (Zoomed.new model world interceptors buffer).run
    (Tasks.new model world interceptors buffer) hRun
  refine ⟨⟨hZoomed.updaters, fun id child through message t => send_through hTasks hZoomed,
    fun a t hStep id hId => ?_⟩, fun u _ _ _ => u.zoom_zoom, Updater.zoom_id⟩
  have hHandled := hTasks.handled hStep
  exact ⟨(hHandled.keeps hId).1, recordZooms_of_made hId, hHandled.outgoing⟩

/-- The child's handle adds 100 to its messages, and that of its child doubles them. -/
def zoomedTwice : List (Action journal) :=
  [.updater, .clone 1, .zoom 1 false true (fun n : Nat => (n + 100 : Nat)),
    .zoom 3 false false (fun n : Nat => (2 * n : Nat))]

theorem zooms_compose_zoomedTwice : ∃ s t,
    Runs.run (step Channel.unparked) (new [] () [] 4) zoomedTwice = some s ∧
    s.step Channel.unparked (.send 4 ⟨false, (5 : Nat)⟩) = some t ∧
    t.channel.called = [(4, (110 : Nat))] ∧
    ∀ bs u, Runs.run (step Channel.unparked) t bs = some u → (∀ b ∈ bs, b.owner? ≠ some 4) →
      Channel.outgoing 4 u.channel = [(110 : Nat)] := by
  have hRun : Runs.run (step Channel.unparked) (new [] () [] 4) zoomedTwice = some _ := rfl
  have h := (zooms_compose (A := journal) Channel.unparked [] () [] 4 hRun).1
  obtain ⟨hCalled, hOutgoing⟩ := h.sends 4 false _ (5 : Nat) _ rfl rfl
  exact ⟨_, _, hRun, rfl, hCalled, hOutgoing⟩

end Host

end Emyu
