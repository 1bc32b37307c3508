import Emyu.Signal.Progress
import Emyu.Signal.Whole

/-! Why the loops over the subscribers count as made at once: what threads do to a signal in atomic
steps, a history of whole operations does. -/

namespace Emyu

open Runs

namespace Threads

variable {T : Type} {full : List SignalStatus → Bool} {s s' : Threads T} {a : Atomic T}
  {as : List (Atomic T)} {value : T} {status : SignalStatus} {t : Nat} {p : Pc} {rest : List Nat}
  {log pending : List (Whole T)} {r₀ r : SignalRepr T} {before after : List (Whole T)}
  {o : Whole T}

/-- The whole operations that a step completes. -/
def completed (s : Threads T) : Atomic T → List (Whole T)
  | .write _ f => [.write f]
  | .storeDirty _ => [.mark]
  | .prune _ => [.flush]
  | .unlockDrop _ => [.drop]
  | .closeReceiver t => match s.pc t with
    | .closing i => [.close i]
    | _ => []
  | .subscribe => [.subscribe]
  | .recv i => match (s.repr.channel i).queue with
    | status :: _ => [.recv i status]
    | [] => []
  | _ => []

/-- What the holder of the lock is doing: the operation, what it sends and to whom it still has to
send. -/
inductive Loop : Option Pc → List (Whole T) → SignalStatus → List Nat → Prop where
  | free : Loop none [] .changed []
  | flushing (rest : List Nat) : Loop (some (.flushing rest)) [.flush] .changed rest
  | dropping (rest : List Nat) (subscriber : Option Nat) :
      Loop (some (.dropping rest subscriber)) [.drop] .destroyed rest

/-- The operations `before` and `after` make `r`, which is the cell of `s` once the loop has sent to
the rest. They are those of `log` with the loop's own, each part's in their order, and those that
come after the loop began leave the rest alone. -/
structure Stands (full : List SignalStatus → Bool) (value : T) (log pending : List (Whole T))
    (status : SignalStatus) (rest : List Nat) (s : Threads T) (before after : List (Whole T))
    (r₀ r : SignalRepr T) : Prop where
  start : run (Whole.step full) (.new value) before = some r₀
  finish : run (Whole.step full) r₀ after = some r
  passes : Whole.Passes full status rest r₀ after r
  apart : ∀ o ∈ after, ∀ i ∈ rest, o.part? ≠ some (.receiver i)
  unsent : ∀ i ∈ rest, r₀.channel i = s.repr.channel i
  sent : ∀ i, i ∉ rest → r.channel i = s.repr.channel i
  data : r.data = s.repr.data
  channels : r.channels = s.repr.channels
  dirty : r.dirty = true ↔ s.repr.dirty = true ∨ ∃ t, s.pc t = .swapped
  order : ∀ p, (before ++ after).filter (Whole.on p) = (log ++ pending).filter (Whole.on p)

namespace Stands

theorem ordered (h : Stands full value log pending status rest s before after r₀ r) :
    r₀.Ordered :=
  run_invariant (fun _ _ _ hOrdered hStep => Whole.step_ordered hOrdered hStep) (.new value) h.start

theorem ordered_after (h : Stands full value log pending status rest s before after r₀ r) :
    r.Ordered :=
  run_invariant (fun _ _ _ hOrdered hStep => Whole.step_ordered hOrdered hStep) h.ordered h.finish

/-- A step that completes nothing, or what the loop did. -/
theorem keep (h : Stands full value log pending status rest s before after r₀ r)
    {log' pending' : List (Whole T)} (hData : s'.repr.data = s.repr.data)
    (hChannels : s'.repr.channels = s.repr.channels) (hChannel : s'.repr.channel = s.repr.channel)
    (hDirty : (s'.repr.dirty = true ∨ ∃ t, s'.pc t = .swapped) ↔
      (s.repr.dirty = true ∨ ∃ t, s.pc t = .swapped)) (hLog : log' ++ pending' = log ++ pending) :
    Stands full value log' pending' status rest s' before after r₀ r where
  start := h.start
  finish := h.finish
  passes := h.passes
  apart := h.apart
  unsent i hi := by rw [hChannel]; exact h.unsent i hi
  sent i hi := by rw [hChannel]; exact h.sent i hi
  data := h.data.trans hData.symm
  channels := h.channels.trans hChannels.symm
  dirty := h.dirty.trans hDirty.symm
  order p := by rw [hLog]; exact h.order p

/-- Where nothing is left to send all operations are before whatever comes next. -/
theorem restart (h : Stands full value log pending status [] s before after r₀ r)
    (next : SignalStatus) : Stands full value log pending next [] s (before ++ after) [] r r where
  start := run_trans h.start h.finish
  finish := rfl
  passes := Whole.passes_nil rfl
  apart := by simp
  unsent := by simp
  sent := h.sent
  data := h.data
  channels := h.channels
  dirty := h.dirty
  order p := by rw [List.append_nil]; exact h.order p

/-- An operation apart from the rest follows. -/
theorem snoc (h : Stands full value log pending status rest s before after r₀ r)
    (hPending : ∀ o ∈ pending, o.part? = some .list) (hApart : o.Apart rest) {r' : SignalRepr T}
    (hStep : Whole.step full r o = some r') (hData : r'.data = s'.repr.data)
    (hChannels : r'.channels = s'.repr.channels)
    (hSent : ∀ i, i ∉ rest → r'.channel i = s'.repr.channel i)
    (hUnsent : ∀ i ∈ rest, s'.repr.channel i = s.repr.channel i)
    (hDirty : r'.dirty = true ↔ s'.repr.dirty = true ∨ ∃ t, s'.pc t = .swapped) :
    Stands full value (log ++ [o]) pending status rest s' before (after ++ [o]) r₀ r' where
  start := h.start
  finish := run_trans h.finish (by simpa using hStep)
  passes := h.passes.snoc hApart hStep
  apart := by
    intro q hq i hi hPart
    rcases List.mem_append.mp hq with hq | hq
    · exact h.apart q hq i hi hPart
    · obtain rfl := List.mem_singleton.mp hq
      cases q with
      | recv j _ | close j =>
        obtain rfl : j = i := by simpa [Whole.part?] using hPart
        exact hApart hi
      | _ => cases hPart
  unsent i hi := (h.unsent i hi).trans (hUnsent i hi).symm
  sent := hSent
  data := hData
  channels := hChannels
  dirty := hDirty
  order p := by
    have hSwap : pending.filter (Whole.on p) ++ [o].filter (Whole.on p) =
        [o].filter (Whole.on p) ++ pending.filter (Whole.on p) := by
      by_cases hList : p = .list
      · have hNot : o.part? ≠ some .list := by
          cases o with
          | flush | drop | subscribe => exact hApart.elim
          | _ => simp [Whole.part?]
        have hNone : [o].filter (Whole.on p) = [] := by simp [Whole.on, hList, hNot]
        rw [hNone, List.append_nil, List.nil_append]
      · have hNone : pending.filter (Whole.on p) = [] :=
          List.filter_eq_nil_iff.mpr fun q hq => by simp [Whole.on, hPending q hq, Ne.symm hList]
        rw [hNone, List.append_nil, List.nil_append]
    have hOrder := h.order p
    rw [← List.append_assoc, List.filter_append, hOrder, List.filter_append, List.filter_append,
      List.filter_append, List.append_assoc, hSwap, List.append_assoc]

/-- The receiver of a channel that is not left to send to takes a status or is dropped. -/
theorem receive (h : Stands full value log pending status rest s before after r₀ r) {i : Nat}
    {c : StatusChannel} (hPending : ∀ o ∈ pending, o.part? = some .list) (hApart : o.Apart rest)
    (hNot : i ∉ rest) (hStep : Whole.step full r o =
      some { r with channel := Function.update r.channel i c })
    (hRepr : s'.repr = { s.repr with channel := Function.update s.repr.channel i c })
    (hSwapped : (∃ t, s'.pc t = .swapped) ↔ ∃ t, s.pc t = .swapped) :
    Stands full value (log ++ [o]) pending status rest s' before (after ++ [o]) r₀
      { r with channel := Function.update r.channel i c } := by
  refine h.snoc hPending hApart hStep (by rw [hRepr]; exact h.data)
    (by rw [hRepr]; exact h.channels) (fun j hj => ?_) (fun j hj => ?_)
    (by rw [hRepr, hSwapped]; exact h.dirty)
  · rw [hRepr]
    by_cases hji : j = i
    · subst hji; simp
    · simp only [Function.update_of_ne hji]; exact h.sent j hj
  · have hji : j ≠ i := fun hEq => hNot (hEq ▸ hj)
    rw [hRepr]
    exact Function.update_of_ne hji _ _

/-- The receiver of a channel that the loop has still to send to does so before the loop. -/
theorem insert (h : Stands full value log pending status rest s before after r₀ r) {i : Nat}
    {c : StatusChannel} (hPending : ∀ o ∈ pending, o.part? = some .list) (hi : i ∈ rest)
    (hPart : o.part? = some (.receiver i)) (hStep : Whole.step full r₀ o =
      some { r₀ with channel := Function.update r₀.channel i c })
    (hRepr : s'.repr = { s.repr with channel := Function.update s.repr.channel i c })
    (hSwapped : (∃ t, s'.pc t = .swapped) ↔ ∃ t, s.pc t = .swapped) :
    ∃ r', Stands full value (log ++ [o]) pending status rest s' (before ++ [o]) after
      { r₀ with channel := Function.update r₀.channel i c } r' := by
  have hOther {j : Nat} (hj : j ∉ rest) : j ≠ i := fun hEq => hj (hEq ▸ hi)
  have hOff : r₀.Off rest { r₀ with channel := Function.update r₀.channel i c } :=
    ⟨rfl, rfl, rfl, fun j hj => Function.update_of_ne (hOther hj) _ _⟩
  obtain ⟨r', hRun, hOff', -, hPasses⟩ :=
    h.passes.rebase (Whole.step_ordered h.ordered hStep).toWellFormed rfl hOff
  refine ⟨r', run_trans h.start (by simpa using hStep), hRun, hPasses, h.apart, fun j hj => ?_,
    fun j hj => ?_, ?_, ?_, ?_, fun p => ?_⟩
  · rw [hRepr]
    by_cases hji : j = i
    · subst hji; simp
    · simp only [Function.update_of_ne hji]; exact h.unsent j hj
  · rw [hRepr, hOff'.channel j hj, h.sent j hj]
    exact (Function.update_of_ne (hOther hj) _ _).symm
  · rw [hRepr, hOff'.data, h.data]
  · rw [hRepr, hOff'.channels, h.channels]
  · rw [hRepr, hOff'.dirty, hSwapped]; exact h.dirty
  · have hOrder := h.order p
    rw [List.filter_append, List.filter_append] at hOrder
    simp only [List.filter_append]
    by_cases hp : p = .receiver i
    · have hAfter : after.filter (Whole.on p) = [] :=
        List.filter_eq_nil_iff.mpr fun q hq => by simp [Whole.on, hp, h.apart q hq i hi]
      have hNone : pending.filter (Whole.on p) = [] :=
        List.filter_eq_nil_iff.mpr fun q hq => by simp [Whole.on, hp, hPending q hq]
      rw [hAfter, hNone, List.append_nil, List.append_nil] at hOrder
      rw [hAfter, hNone, hOrder]
    · have hNone : [o].filter (Whole.on p) = [] := by simp [Whole.on, hPart, Ne.symm hp]
      rw [hNone, List.append_nil, List.append_nil, hOrder]

/-- The lock is taken for a loop over the list. -/
theorem begins (h : Stands full value log [] .changed [] s before after r₀ r)
    {ops : List (Whole T)} {r' : SignalRepr T} (hWell : s.repr.WellFormed)
    (hPasses : Whole.Passes full status s.repr.subscribers r ops r')
    (hRun : run (Whole.step full) r ops = some r')
    (hApart : ∀ o ∈ ops, ∀ i, o.part? ≠ some (.receiver i))
    (hOrder : ∀ p, ops.filter (Whole.on p) = pending.filter (Whole.on p))
    (hRepr : s'.repr = s.repr) (hData : r'.data = r.data) (hChannels : r'.channels = r.channels)
    (hChannel : ∀ i, r'.channel i = (r.channel i).trySend full status)
    (hDirty : r'.dirty = true ↔ s.repr.dirty = true ∨ ∃ t, s'.pc t = .swapped) :
    Stands full value log pending status s.repr.subscribers s' (before ++ after) ops r r' where
  start := run_trans h.start h.finish
  finish := hRun
  passes := hPasses
  apart o ho i _ := hApart o ho i
  unsent i _ := by rw [hRepr]; exact h.sent i List.not_mem_nil
  sent i hi := by
    have hClosed : (s.repr.channel i).isOpen = false :=
      Bool.eq_false_iff.mpr fun hOpen => hi (hWell.live i hOpen)
    rw [hRepr, hChannel, h.sent i List.not_mem_nil]
    simp [StatusChannel.trySend, StatusChannel.accepts, hClosed]
  data := by rw [hRepr, hData, h.data]
  channels := by rw [hRepr, hChannels, h.channels]
  dirty := by rw [hRepr]; exact hDirty
  order p := by
    have hBefore := h.order p
    rw [List.append_nil] at hBefore
    rw [List.filter_append, hBefore, hOrder, ← List.filter_append]

/-- The loop sends to the next subscriber. -/
theorem send {i : Nat}
    (h : Stands full value log pending status (i :: rest) s before after r₀ r) (hNot : i ∉ rest)
    (hRepr : s'.repr = Threads.send full status i s.repr)
    (hSwapped : (∃ t, s'.pc t = .swapped) ↔ ∃ t, s.pc t = .swapped) :
    Stands full value log pending status rest s' before after r₀ r where
  start := h.start
  finish := h.finish
  passes := h.passes.tail h.ordered.toWellFormed h.finish
  apart o ho j hj := h.apart o ho j (List.mem_cons_of_mem i hj)
  unsent j hj := by
    have hji : j ≠ i := fun hEq => hNot (hEq ▸ hj)
    rw [hRepr, h.unsent j (List.mem_cons_of_mem i hj)]
    exact (Function.update_of_ne hji _ _).symm
  sent j hj := by
    rw [hRepr]
    by_cases hji : j = i
    · subst hji
      obtain ⟨r', hRun, -, hSent⟩ := h.passes r₀ h.ordered.toWellFormed rfl (.refl _ _)
      obtain rfl : r' = r := Option.some.inj (hRun.symm.trans h.finish)
      rw [hSent j List.mem_cons_self, h.unsent j List.mem_cons_self]
      simp [Threads.send]
    · rw [h.sent j (by simp [hji, hj])]
      exact (Function.update_of_ne hji _ _).symm
  data := by rw [hRepr]; exact h.data
  channels := by rw [hRepr]; exact h.channels
  dirty := by rw [hRepr, hSwapped]; exact h.dirty
  order := h.order

/-- A new subscriber, where the lock is free. -/
theorem subscribe (h : Stands full value log [] .changed [] s before after r₀ r)
    (hRepr : s'.repr = s.repr.subscribe)
    (hSwapped : (∃ t, s'.pc t = .swapped) ↔ ∃ t, s.pc t = .swapped) :
    Stands full value (log ++ [.subscribe]) [] .changed [] s' (before ++ after) [.subscribe] r
      r.subscribe where
  start := run_trans h.start h.finish
  finish := rfl
  passes := Whole.passes_nil rfl
  apart := by simp
  unsent := by simp
  sent i _ := by
    rw [hRepr]
    simp only [SignalRepr.subscribe, h.channels]
    by_cases hi : i = s.repr.channels
    · subst hi; simp
    · simp only [Function.update_of_ne hi]; exact h.sent i List.not_mem_nil
  data := by rw [hRepr]; exact h.data
  channels := by rw [hRepr]; simp [SignalRepr.subscribe, h.channels]
  dirty := by rw [hRepr, hSwapped]; exact h.dirty
  order p := by
    have hBefore := h.order p
    rw [List.append_nil] at hBefore
    rw [List.filter_append, hBefore, List.append_nil, ← List.filter_append]

end Stands

/-! ### The steps -/

theorem Loop.part {pc : Option Pc} (h : Loop pc pending status rest) :
    ∀ o ∈ pending, o.part? = some .list := by
  cases h <;> simp [Whole.part?]

theorem Loop.unique {pc : Option Pc} {pending' : List (Whole T)} {status' : SignalStatus}
    {rest' : List Nat} (h : Loop pc pending status rest) (h' : Loop pc pending' status' rest') :
    pending' = pending ∧ status' = status ∧ rest' = rest := by
  cases h <;> cases h' <;> simp

theorem Loop.ne_swapped (h : Loop (some p) pending status rest) : p ≠ .swapped := by
  cases h <;> simp

/-- A thread that does not hold the lock leaves the loop as it is. -/
theorem lock_goto (hLock : ∀ t, s.lock = some t ↔ Holding (s.pc t)) (hNot : ¬ Holding (s.pc t)) :
    s.lock.map (s.goto t p).pc = s.lock.map s.pc := by
  cases hHolder : s.lock with
  | none => rfl
  | some u =>
    have hut : u ≠ t := fun hEq => hNot ((hLock t).mp (hEq ▸ hHolder))
    simp [goto, Function.update_of_ne hut]

theorem Loop.other (h : Loop (s.lock.map s.pc) pending status rest)
    (hLock : ∀ t, s.lock = some t ↔ Holding (s.pc t)) (hNot : ¬ Holding (s.pc t)) :
    Loop (s.lock.map (s.goto t p).pc) pending status rest := by
  rw [lock_goto hLock hNot]
  exact h

theorem swapped_goto (hNot : s.pc t ≠ .swapped) (hp : p ≠ .swapped) :
    (∃ u, (s.goto t p).pc u = .swapped) ↔ ∃ u, s.pc u = .swapped := by
  constructor
  · rintro ⟨u, hu⟩
    by_cases hut : u = t
    · subst hut
      exact absurd (by simpa [goto] using hu) hp
    · exact ⟨u, by simpa [goto, Function.update_of_ne hut] using hu⟩
  · rintro ⟨u, hu⟩
    have hut : u ≠ t := fun hEq => hNot (hEq ▸ hu)
    exact ⟨u, by simpa [goto, Function.update_of_ne hut] using hu⟩

theorem Move.ordered (h : s.repr.Ordered) (hMove : Move full s a s') : s'.repr.Ordered := by
  have hWell := h.toWellFormed
  cases hMove with
  | write t f => exact h.same (hWell.write f) rfl
  | storeDirty | swapDirty => exact h.same (hWell.of_channel rfl rfl fun _ hi => hi) rfl
  | sendChanged | sendDestroyed => exact h.same (send_well hWell) rfl
  | prune => exact h.retainOpen
  | closeReceiver t i => exact h.same (hWell.closeReceiver i) rfl
  | subscribe => exact h.subscribe
  | recv i status rest => exact h.same (hWell.recv i rest) rfl
  | swapClean | lockFlush | lockDrop | unlockDrop | unlockSubscriber | read => exact h

/-- Whole operations stand for what the threads did. -/
structure Reduced (full : List SignalStatus → Bool) (value : T) (log : List (Whole T))
    (s : Threads T) : Prop where
  lock : ∀ t, s.lock = some t ↔ Holding (s.pc t)
  ordered : s.repr.Ordered
  stands : ∃ pending status rest before after r₀ r, Loop (s.lock.map s.pc) pending status rest ∧
    rest.Nodup ∧ Stands full value log pending status rest s before after r₀ r

namespace Reduced

/-- The receiver of channel `i` takes a status or is dropped, wherever the loop is. -/
theorem receive (h : Reduced full value log s) {i : Nat} (change : StatusChannel → StatusChannel)
    (hApart : ∀ ids, i ∉ ids → o.Apart ids) (hPart : o.part? = some (.receiver i))
    (hStep : ∀ r : SignalRepr T, r.channel i = s.repr.channel i → Whole.step full r o =
      some { r with channel := Function.update r.channel i (change (s.repr.channel i)) })
    (hMove : Move full s a s') (hRepr : s'.repr =
      { s.repr with channel := Function.update s.repr.channel i (change (s.repr.channel i)) })
    (hLock : s'.lock.map s'.pc = s.lock.map s.pc)
    (hSwapped : (∃ t, s'.pc t = .swapped) ↔ ∃ t, s.pc t = .swapped) :
    Reduced full value (log ++ [o]) s' := by
  obtain ⟨pending, status, rest, before, after, r₀, r, hLoop, hNodup, hStands⟩ := h.stands
  refine ⟨hMove.lock h.lock, hMove.ordered h.ordered, pending, status, rest, ?_⟩
  by_cases hi : i ∈ rest
  · obtain ⟨r', hStands'⟩ :=
      hStands.insert hLoop.part hi hPart (hStep r₀ (hStands.unsent i hi)) hRepr hSwapped
    exact ⟨_, _, _, r', hLock ▸ hLoop, hNodup, hStands'⟩
  · exact ⟨_, _, _, _, hLock ▸ hLoop, hNodup, hStands.receive hLoop.part (hApart rest hi) hi
      (hStep r (hStands.sent i hi)) hRepr hSwapped⟩

theorem lockFlush (h : Reduced full value log s) (hPc : s.pc t = .swapped) (hFree : s.lock = none) :
    Reduced full value log
      { s.goto t (.flushing s.repr.subscribers) with lock := some t } := by
  have hMove : Move full s (.lockFlush t) _ := .lockFlush t hPc hFree
  obtain ⟨pending, status, rest, before, after, r₀, r, hLoop, -, hStands⟩ := h.stands
  rw [hFree] at hLoop
  cases hLoop
  have hWell := hStands.ordered_after.toWellFormed
  have hDirty : r.dirty = true := hStands.dirty.mpr (.inr ⟨t, hPc⟩)
  refine ⟨hMove.lock h.lock, h.ordered, [.flush], .changed, s.repr.subscribers, ?_⟩
  have hLoop' : Loop (Option.map (s.goto t (.flushing s.repr.subscribers)).pc (some t))
      [(.flush : Whole T)] .changed s.repr.subscribers := by
    simpa [goto] using Loop.flushing s.repr.subscribers
  -- what was marked since the flag was swapped is marked again
  by_cases hMarked : s.repr.dirty = true ∨
      ∃ u, (s.goto t (.flushing s.repr.subscribers)).pc u = .swapped
  · refine ⟨_, _, _, _, hLoop', h.ordered.nodup, hStands.begins
      h.ordered.toWellFormed ((Whole.passes_flush hWell hDirty _).snoc (o := .mark) trivial rfl) rfl
      (by simp [Whole.part?]) (fun p => ?_) rfl ?_ (SignalRepr.flush_channels full r)
      (Whole.flush_trySend hWell hDirty) (iff_of_true rfl hMarked)⟩
    · simp [Whole.on, Whole.part?, List.filter_cons]
    · simp [SignalRepr.flush, hDirty, SignalRepr.retainOpen]
  · refine ⟨_, _, _, _, hLoop', h.ordered.nodup, hStands.begins
      h.ordered.toWellFormed (Whole.passes_flush hWell hDirty _) rfl (by simp [Whole.part?])
      (fun _ => rfl) rfl ?_ (SignalRepr.flush_channels full r)
      (Whole.flush_trySend hWell hDirty) (iff_of_false ?_ hMarked)⟩
    · simp [SignalRepr.flush, hDirty, SignalRepr.retainOpen]
    · simp [SignalRepr.flush_dirty]

theorem lockDrop (h : Reduced full value log s) (hPc : s.pc t = .idle) (hFree : s.lock = none)
    (subscriber : Option Nat) : Reduced full value log
      { s.goto t (.dropping s.repr.subscribers subscriber) with lock := some t } := by
  have hMove : Move full s (.lockDrop t subscriber) _ := .lockDrop t subscriber hPc hFree
  obtain ⟨pending, status, rest, before, after, r₀, r, hLoop, -, hStands⟩ := h.stands
  rw [hFree] at hLoop
  cases hLoop
  have hWell := hStands.ordered_after.toWellFormed
  have hSwapped := swapped_goto (s := s) (t := t) (p := .dropping s.repr.subscribers subscriber)
    (by simp [hPc]) (by simp)
  have hLoop' : Loop (Option.map (s.goto t (.dropping s.repr.subscribers subscriber)).pc (some t))
      [(.drop : Whole T)] .destroyed s.repr.subscribers := by
    simpa [goto] using Loop.dropping s.repr.subscribers subscriber
  refine ⟨hMove.lock h.lock, h.ordered, [.drop], .destroyed, s.repr.subscribers, _, _, _, _, hLoop',
    h.ordered.nodup, hStands.begins h.ordered.toWellFormed
      (Whole.passes_drop hWell _) rfl (by simp [Whole.part?]) (fun _ => rfl) rfl rfl rfl
      (fun i => hWell.sendAll .destroyed i) ?_⟩
  exact hStands.dirty.trans (or_congr_right hSwapped.symm)

/-- The holder of the lock sends to the next subscriber. -/
theorem send (h : Reduced full value log s) {i : Nat} (hHolder : s.lock = some t)
    (hAt : Loop (some (s.pc t)) pending status (i :: rest))
    (hAfter : Loop (some p) pending status rest)
    (hMove : Move full s a { s.goto t p with repr := Threads.send full status i s.repr }) :
    Reduced full value log { s.goto t p with repr := Threads.send full status i s.repr } := by
  obtain ⟨pending', status', rest', before, after, r₀, r, hLoop, hNodup, hStands⟩ := h.stands
  rw [hHolder, Option.map_some] at hLoop
  obtain ⟨rfl, rfl, rfl⟩ := hAt.unique hLoop
  rw [List.nodup_cons] at hNodup
  refine ⟨hMove.lock h.lock, hMove.ordered h.ordered, _, _, rest, before, after, r₀, r, ?_,
    hNodup.2, hStands.send hNodup.1 rfl (swapped_goto hAt.ne_swapped hAfter.ne_swapped)⟩
  simpa [goto, hHolder] using hAfter

/-- The holder of the lock has sent to all, and gives the lock back. -/
theorem unlock (h : Reduced full value log s) (hHolder : s.lock = some t)
    (hAt : Loop (some (s.pc t)) pending status []) (hp : p ≠ .swapped)
    (hMove : Move full s a s') (hPc : s'.pc = (s.goto t p).pc) (hLock : s'.lock = none)
    (hData : s'.repr.data = s.repr.data) (hChannels : s'.repr.channels = s.repr.channels)
    (hChannel : s'.repr.channel = s.repr.channel) (hDirty : s'.repr.dirty = s.repr.dirty) :
    Reduced full value (log ++ pending) s' := by
  obtain ⟨pending', status', rest', before, after, r₀, r, hLoop, -, hStands⟩ := h.stands
  rw [hHolder, Option.map_some] at hLoop
  obtain ⟨rfl, rfl, rfl⟩ := hAt.unique hLoop
  refine ⟨hMove.lock h.lock, hMove.ordered h.ordered, [], .changed, [], _, _, _, _, ?_,
    List.nodup_nil, (hStands.restart .changed).keep hData hChannels hChannel ?_
      (List.append_nil _)⟩
  · rw [hLock]
    exact .free
  · rw [hDirty, hPc]
    exact or_congr_right (swapped_goto hAt.ne_swapped hp)

theorem subscribe (h : Reduced full value log s) (hFree : s.lock = none)
    (hMove : Move full s .subscribe s') (hRepr : s'.repr = s.repr.subscribe)
    (hLock : s'.lock = none) (hPc : s'.pc = s.pc) :
    Reduced full value (log ++ [.subscribe]) s' := by
  obtain ⟨pending, status, rest, before, after, r₀, r, hLoop, -, hStands⟩ := h.stands
  rw [hFree] at hLoop
  cases hLoop
  refine ⟨hMove.lock h.lock, hMove.ordered h.ordered, [], .changed, [], _, _, _, _, ?_,
    List.nodup_nil, hStands.subscribe hRepr (by rw [hPc])⟩
  rw [hLock]
  exact .free

/-- What the threads did, with the step's whole operations, is still stood for. -/
theorem move (h : Reduced full value log s) (hMove : Move full s a s') :
    Reduced full value (log ++ completed s a) s' := by
  obtain ⟨pending, status, rest, before, after, r₀, r, hLoop, hNodup, hStands⟩ := h.stands
  have hLock := hMove.lock h.lock
  have hOrdered := hMove.ordered h.ordered
  cases hMove with
  | write t f hPc =>
    have hSwapped := swapped_goto (s := s) (t := t) (p := .storing) (by simp [hPc]) (by simp)
    refine ⟨hLock, hOrdered, pending, status, rest, _, _, _, _, ?_, hNodup,
      hStands.snoc (o := .write f) hLoop.part trivial rfl (congrArg f hStands.data)
        hStands.channels hStands.sent (fun _ _ => rfl) ?_⟩
    · exact hLoop.other (t := t) h.lock (by simp [hPc, Holding])
    · exact hStands.dirty.trans (or_congr_right hSwapped.symm)
  | storeDirty t hPc =>
    refine ⟨hLock, hOrdered, pending, status, rest, _, _, _, _, ?_, hNodup,
      hStands.snoc (o := .mark) hLoop.part trivial rfl hStands.data hStands.channels hStands.sent
        (fun _ _ => rfl) (iff_of_true rfl (.inl rfl))⟩
    exact hLoop.other (t := t) h.lock (by simp [hPc, Holding])
  | swapDirty t hPc hDirty =>
    -- the whole flush is still to come, and until then the flag counts as set
    refine ⟨hLock, hOrdered, pending, status, rest, _, _, _, _, ?_, hNodup,
      hStands.keep rfl rfl rfl (iff_of_true (.inr ⟨t, by simp [goto]⟩) (.inl hDirty)) ?_⟩
    · exact hLoop.other (t := t) h.lock (by simp [hPc, Holding])
    · simp only [completed, List.append_nil]
  | swapClean t =>
    simp only [completed, List.append_nil]
    exact h
  | lockFlush t hPc hFree =>
    simp only [completed, List.append_nil]
    exact h.lockFlush hPc hFree
  | sendChanged t i ids hPc =>
    simp only [completed, List.append_nil]
    exact h.send ((h.lock t).mpr (by simp [hPc, Holding])) (hPc ▸ .flushing (i :: ids))
      (.flushing ids) (.sendChanged t i ids hPc)
  | prune t hPc =>
    have hAt : Loop (some (s.pc t)) [(.flush : Whole T)] .changed [] := hPc ▸ .flushing []
    exact h.unlock ((h.lock t).mpr (by simp [hPc, Holding])) hAt (by simp)
      (.prune t hPc) rfl rfl rfl rfl rfl rfl
  | lockDrop t subscriber hPc hFree =>
    simp only [completed, List.append_nil]
    exact h.lockDrop hPc hFree subscriber
  | sendDestroyed t i ids subscriber hPc =>
    simp only [completed, List.append_nil]
    exact h.send ((h.lock t).mpr (by simp [hPc, Holding])) (hPc ▸ .dropping (i :: ids) subscriber)
      (.dropping ids subscriber) (.sendDestroyed t i ids subscriber hPc)
  | unlockDrop t hPc =>
    have hAt : Loop (some (s.pc t)) [(.drop : Whole T)] .destroyed [] := hPc ▸ .dropping [] none
    exact h.unlock ((h.lock t).mpr (by simp [hPc, Holding])) hAt (by simp)
      (.unlockDrop t hPc) rfl rfl rfl rfl rfl rfl
  | unlockSubscriber t i hPc =>
    have hAt : Loop (some (s.pc t)) [(.drop : Whole T)] .destroyed [] :=
      hPc ▸ .dropping [] (some i)
    exact h.unlock ((h.lock t).mpr (by simp [hPc, Holding])) hAt
      (p := .closing i) (by simp) (.unlockSubscriber t i hPc) rfl rfl rfl rfl rfl rfl
  | closeReceiver t i hPc =>
    have hDone : completed s (.closeReceiver t) = [.close i] := by simp [completed, hPc]
    rw [hDone]
    exact h.receive (fun _ => ⟨[], false⟩) (fun _ hi => hi) rfl (fun _ _ => rfl)
      (.closeReceiver t i hPc) rfl (lock_goto h.lock (by simp [hPc, Holding]))
      (swapped_goto (by simp [hPc]) (by simp))
  | subscribe hFree => exact h.subscribe hFree (.subscribe hFree) rfl hFree rfl
  | recv i status queue hOpen hRead hQueue =>
    have hDone : completed s (.recv i) = [.recv i status] := by simp [completed, hQueue]
    rw [hDone]
    refine h.receive (fun c => { c with queue := queue }) (fun _ hi => hi) rfl
      (fun r hSame => ?_) (.recv i status queue hOpen hRead hQueue) rfl rfl Iff.rfl
    rw [← hSame]
    exact Whole.step_recv (hSame ▸ hQueue)
  | read i =>
    refine ⟨hLock, hOrdered, pending, status, rest, _, _, _, _, hLoop, hNodup,
      hStands.keep rfl rfl rfl Iff.rfl ?_⟩
    simp only [completed, List.append_nil]

theorem new (value : T) : Reduced full value [] (Threads.new value) where
  lock := (Sound.new value).lock
  ordered := .new value
  stands := by
    refine ⟨[], .changed, [], [], [], .new value, .new value, .free, List.nodup_nil, rfl, rfl,
      Whole.passes_nil rfl, by simp, by simp, fun _ _ => rfl, rfl, rfl, ?_, fun _ => rfl⟩
    simp [Threads.new, SignalRepr.new]

theorem of_run (hRun : run (step full) (Threads.new value) as = some s) :
    Reduced full value (produced (step full) completed (Threads.new value) as) s := by
  refine (run_history (P := fun as s => run (step full) (Threads.new value) as = some s ∧
    Reduced full value (produced (step full) completed (Threads.new value) as) s) ⟨rfl, .new value⟩
    (fun as a s s' h hStep => ?_) hRun).2
  refine ⟨run_trans h.1 (by simpa using hStep), ?_⟩
  rw [produced_snoc h.1]
  exact h.2.move (step_move hStep)

end Reduced

/-- Whatever threads do to a signal in atomic steps, once no thread is in a flush or a drop some
history of whole operations has made the same cell, but for the senders of dropped receivers that
are still listed. But for marks it has the operations that the threads completed, and those on the
value, on the list and on each receiver in the order in which the threads did. -/
theorem exists_whole (hRun : run (step full) (new value) as = some s)
    (hDone : ∀ t, s.pc t ≠ .swapped ∧ ¬ Holding (s.pc t)) :
    ∃ ops r, run (Whole.step full) (.new value) ops = some r ∧ r.retainOpen = s.repr.retainOpen ∧
      ∀ p, ops.filter (Whole.on p) =
        (produced (step full) completed (new value) as).filter (Whole.on p) := by
  have h := Reduced.of_run hRun
  obtain ⟨pending, status, rest, before, after, r₀, r, hLoop, -, hStands⟩ := h.stands
  have hFree : s.lock = none :=
    Option.eq_none_iff_forall_ne_some.mpr fun t hLock => (hDone t).2 ((h.lock t).mp hLock)
  rw [hFree] at hLoop
  cases hLoop
  have hDirty : s.repr.dirty = r.dirty := by
    have hNone : ¬ ∃ t, s.pc t = .swapped := fun ⟨t, hPc⟩ => (hDone t).1 hPc
    have hIff := hStands.dirty
    rw [or_iff_left hNone] at hIff
    exact (Bool.eq_iff_iff.mpr hIff).symm
  refine ⟨before ++ after, r, run_trans hStands.start hStands.finish,
    hStands.ordered_after.retainOpen_eq h.ordered ⟨hStands.data.symm, hDirty,
      hStands.channels.symm, fun i hi => (hStands.sent i hi).symm⟩, fun p => ?_⟩
  rw [hStands.order p, List.append_nil]

/-- A receiver takes a status and is dropped while the flush that sent it goes on. -/
def listening : List (Atomic Nat) :=
  [.subscribe, .read 0, .subscribe, .write 1 (· + 1), .storeDirty 1, .swapDirty 1,
    .lockDrop 2 (some 0), .sendDestroyed 2, .sendDestroyed 2, .unlockDrop 2, .lockFlush 1, .recv 0,
    .read 0, .sendChanged 1, .recv 0, .closeReceiver 2, .sendChanged 1, .prune 1]

theorem exists_whole_listening : ∃ s ops r,
    run (step fun _ => false) (new 0) listening = some s ∧
    run (Whole.step fun _ => false) (.new 0) ops = some r ∧ r.retainOpen = s.repr.retainOpen ∧
      ∀ p, ops.filter (Whole.on p) =
        (produced (step fun _ => false) completed (new 0) listening).filter (Whole.on p) := by
  have hSome : (run (step fun _ => false) (new 0) listening).isSome := rfl
  obtain ⟨s, hRun⟩ := Option.isSome_iff_exists.mp hSome
  have hBusy := (run_history (P := Sound) (.new 0) (fun _ _ _ _ h hStep => h.snoc hStep) hRun).busy
  have hEnd : (run (step fun _ => false) (new 0) listening).map (fun s => (s.pc 1, s.pc 2)) =
      some (.idle, .idle) := rfl
  rw [hRun, Option.map_some, Option.some.injEq, Prod.mk.injEq] at hEnd
  have hIdle (t : Nat) : s.pc t = .idle := by
    by_contra hNot
    have hMem := hBusy t hNot
    simp only [listening, List.filterMap_cons, thread?, List.filterMap_nil, List.mem_cons,
      List.not_mem_nil, or_false] at hMem
    have hTwo : t = 1 ∨ t = 2 := by omega
    rcases hTwo with rfl | rfl
    · exact hNot hEnd.1
    · exact hNot hEnd.2
  obtain ⟨ops, r, hWhole, hSame, hOrder⟩ :=
    exists_whole hRun fun t => ⟨by simp [hIdle t], by simp [hIdle t, Holding]⟩
  exact ⟨s, ops, r, hRun, hWhole, hSame, hOrder⟩

end Threads

end Emyu
