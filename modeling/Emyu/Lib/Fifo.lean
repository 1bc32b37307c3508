import Emyu.Lib.Run
import Mathlib.Data.List.Induction
import Mathlib.Logic.Function.Basic

/-! A bounded channel with many senders: a queue that loses, repeats and reorders nothing, senders
that are opened and closed, and for each sender at most one send that still waits for room. -/

namespace Fifo

/-- `called`, `accepted` and `taken` record, in order, what was ever given to a send, put in the
queue, and taken out of it. -/
structure Channel (α : Type*) where
  queue : List α
  pending : Nat → Option α
  alive : Nat → Bool
  made : Nat
  called : List (Nat × α)
  accepted : List (Nat × α)
  taken : List α

inductive Poll (α : Type*) where
  | pending
  | ready (a : α)
  deriving DecidableEq

inductive Op (α : Type*) where
  | openSender
  | close (id : Nat)
  | call (id : Nat) (a : α)
  | accept (id : Nat)
  | cancel (id : Nat)
  | take

variable {α : Type*}

/-- The sender whose owner does the operation. -/
def Op.by? : Op α → Option Nat
  | .close id => some id
  | .call id _ => some id
  | .cancel id => some id
  | _ => none

/-- What the sender `id` contributed to a record. -/
def sentBy (id : Nat) (l : List (Nat × α)) : List α :=
  (l.filter fun p => p.1 == id).map Prod.snd

@[simp] theorem sentBy_nil (id : Nat) : sentBy id ([] : List (Nat × α)) = [] := rfl

@[simp] theorem sentBy_append (id : Nat) (l l' : List (Nat × α)) :
    sentBy id (l ++ l') = sentBy id l ++ sentBy id l' := by
  simp [sentBy]

@[simp] theorem sentBy_singleton (id j : Nat) (a : α) :
    sentBy id [(j, a)] = if j = id then [a] else [] := by
  by_cases h : j = id <;> simp [sentBy, h]

theorem mem_sentBy {id : Nat} {l : List (Nat × α)} {a : α} : a ∈ sentBy id l ↔ (id, a) ∈ l := by
  simp only [sentBy, List.mem_map, List.mem_filter, beq_iff_eq]
  constructor
  · rintro ⟨⟨j, b⟩, ⟨hMem, rfl⟩, rfl⟩
    exact hMem
  · exact fun h => ⟨(id, a), ⟨h, rfl⟩, rfl⟩

/-- The entry of a sender at a place is its next value after those before that place. -/
theorem sentBy_getElem? {id q : Nat} {l : List (Nat × α)} {a : α} (h : l[q]? = some (id, a)) :
    (sentBy id l)[(sentBy id (l.take q)).length]? = some a := by
  obtain ⟨hq, hGet⟩ := List.getElem?_eq_some_iff.mp h
  have hSplit : l = l.take q ++ (id, a) :: l.drop (q + 1) := by
    rw [← hGet, List.getElem_cons_drop, List.take_append_drop]
  have hSent : sentBy id l = sentBy id (l.take q) ++ a :: sentBy id (l.drop (q + 1)) := by
    conv_lhs => rw [hSplit]
    simp [sentBy]
  rw [hSent, List.getElem?_append_right (Nat.le_refl _), Nat.sub_self]
  rfl

/-- Each value of a sender has its place, with the values before it in earlier places. -/
theorem exists_place {id j : Nat} {l : List (Nat × α)} (h : j < (sentBy id l).length) :
    ∃ p < l.length, ∃ a, l[p]? = some (id, a) ∧ (sentBy id (l.take p)).length = j := by
  induction l using List.reverseRecOn with
  | nil => simp at h
  | append_singleton l x ih =>
    obtain ⟨i, a⟩ := x
    by_cases hj : j < (sentBy id l).length
    · obtain ⟨p, hp, b, hGet, hLen⟩ := ih hj
      refine ⟨p, by simp; omega, b, ?_, ?_⟩
      · rwa [List.getElem?_append_left hp]
      · rwa [List.take_append_of_le_length (Nat.le_of_lt hp)]
    · by_cases hi : i = id
      · subst hi
        have hLast : j = (sentBy i l).length := by
          simp at h
          omega
        exact ⟨l.length, by simp, a, by simp, by simp [hLast]⟩
      · simp [hi] at h
        exact (hj h).elim

namespace Channel

def new : Channel α where
  queue := []
  pending := fun _ => none
  alive := fun id => id == 0
  made := 1
  called := []
  accepted := []
  taken := []

/-- The receiver's poll: the end is reported exactly when every sender is gone. -/
def poll (c : Channel α) : Poll (Option α) :=
  match c.queue with
  | a :: _ => .ready (some a)
  | [] => if ∀ id < c.made, c.alive id = false then .ready none else .pending

def openSender (c : Channel α) : Channel α :=
  { c with alive := Function.update c.alive c.made true, made := c.made + 1 }

/-- One operation; `ready` says which waiting sends the channel takes. -/
def step (ready : Channel α → Nat → Bool) (c : Channel α) : Op α → Option (Channel α)
  | .openSender => some c.openSender
  | .close id =>
    if c.alive id = true then
      some { c with
        alive := Function.update c.alive id false
        pending := Function.update c.pending id none }
    else none
  | .call id a =>
    if c.alive id = true ∧ c.pending id = none then
      some { c with
        pending := Function.update c.pending id (some a)
        called := c.called ++ [(id, a)] }
    else none
  | .accept id =>
    match c.pending id with
    | some a =>
      if ready c id = true then
        some { c with
          queue := c.queue ++ [a]
          pending := Function.update c.pending id none
          accepted := c.accepted ++ [(id, a)] }
      else none
    | none => none
  | .cancel id =>
    if c.pending id = none then none
    else some { c with pending := Function.update c.pending id none }
  | .take =>
    match c.queue with
    | a :: rest => some { c with queue := rest, taken := c.taken ++ [a] }
    | [] => none

/-- The senders that wait, in a channel with `buffer` slots for all and one for each sender: a
sender whose message did not fit in the buffer waits until it is the longest waiting one when a
message is taken. So they are the senders of the last messages. -/
def parked (buffer : Nat) (c : Channel α) : List Nat :=
  (c.accepted.map Prod.fst).drop (c.accepted.length - (c.queue.length - buffer))

/-- Such a channel takes a message of every sender that does not wait. -/
def unparked (buffer : Nat) (c : Channel α) (id : Nat) : Bool := !(c.parked buffer).contains id

theorem step_openSender (ready : Channel α → Nat → Bool) (c : Channel α) :
    c.step ready .openSender = some c.openSender := rfl

/-- What an operation can do, with the conditions it passed. -/
inductive Move (ready : Channel α → Nat → Bool) (c : Channel α) : Op α → Channel α → Prop where
  | openSender : Move ready c .openSender c.openSender
  | close (id : Nat) : c.alive id = true → Move ready c (.close id) { c with
        alive := Function.update c.alive id false
        pending := Function.update c.pending id none }
  | call (id : Nat) (a : α) : c.alive id = true → c.pending id = none →
      Move ready c (.call id a) { c with
        pending := Function.update c.pending id (some a)
        called := c.called ++ [(id, a)] }
  | accept (id : Nat) (a : α) : c.pending id = some a → ready c id = true →
      Move ready c (.accept id) { c with
        queue := c.queue ++ [a]
        pending := Function.update c.pending id none
        accepted := c.accepted ++ [(id, a)] }
  | cancel (id : Nat) : c.pending id ≠ none →
      Move ready c (.cancel id) { c with pending := Function.update c.pending id none }
  | take (a : α) (rest : List α) : c.queue = a :: rest →
      Move ready c .take { c with queue := rest, taken := c.taken ++ [a] }

variable {ready : Channel α → Nat → Bool} {c c' : Channel α} {op : Op α}

theorem step_move (hStep : c.step ready op = some c') : Move ready c op c' := by
  cases op with
  | openSender => cases hStep; exact .openSender
  | close id =>
    simp only [step, Option.ite_none_right_eq_some, Option.some.injEq] at hStep
    obtain ⟨hAlive, rfl⟩ := hStep
    exact .close id hAlive
  | call id a =>
    simp only [step, Option.ite_none_right_eq_some, Option.some.injEq] at hStep
    obtain ⟨⟨hAlive, hNone⟩, rfl⟩ := hStep
    exact .call id a hAlive hNone
  | accept id =>
    simp only [step] at hStep
    split at hStep
    next a hPending =>
      simp only [Option.ite_none_right_eq_some, Option.some.injEq] at hStep
      obtain ⟨hReady, rfl⟩ := hStep
      exact .accept id a hPending hReady
    next => cases hStep
  | cancel id =>
    simp only [step, Option.ite_none_left_eq_some, Option.some.injEq] at hStep
    obtain ⟨hPending, rfl⟩ := hStep
    exact .cancel id hPending
  | take =>
    simp only [step] at hStep
    split at hStep
    next a rest hQueue => cases hStep; exact .take a rest hQueue
    next => cases hStep

/-- What holds of every channel. -/
structure Ok (c : Channel α) : Prop where
  fifo : c.accepted.map Prod.snd = c.taken ++ c.queue
  order : ∀ id, (sentBy id c.accepted ++ (c.pending id).toList).Sublist (sentBy id c.called)
  pending_alive : ∀ id a, c.pending id = some a → c.alive id = true
  alive_made : ∀ id, c.alive id = true → id < c.made
  called_made : ∀ p ∈ c.called, p.1 < c.made

theorem Ok.new : Ok (new : Channel α) where
  fifo := rfl
  order _ := List.Sublist.refl _
  pending_alive := by simp [Channel.new]
  alive_made := by simp [Channel.new]
  called_made := by simp [Channel.new]

/-- A send that is given up leaves a channel in order. -/
theorem Ok.clear (h : c.Ok) (id : Nat) :
    Ok { c with pending := Function.update c.pending id none } := by
  refine ⟨h.fifo, fun j => ?_, fun j a ha => ?_, h.alive_made, h.called_made⟩
  · by_cases hj : j = id
    · have hOrder := (List.sublist_append_left _ _).trans (h.order j)
      simpa [hj] using hj ▸ hOrder
    · simpa [Function.update_apply, hj] using h.order j
  · by_cases hj : j = id
    · simp [hj] at ha
    · exact h.pending_alive j a (by simpa [Function.update_apply, hj] using ha)

theorem Ok.openSender (h : c.Ok) : c.openSender.Ok := by
  refine ⟨h.fifo, h.order, fun id a ha => ?_, fun id hAlive => ?_, fun p hp => ?_⟩
  · have hOld := h.pending_alive id a ha
    simp [Channel.openSender, Function.update_apply, hOld]
  · by_cases hId : id = c.made
    · simp [Channel.openSender, hId]
    · have hMade := h.alive_made id
        (by simpa [Channel.openSender, Function.update_apply, hId] using hAlive)
      exact Nat.lt_succ_of_lt hMade
  · exact Nat.lt_succ_of_lt (h.called_made p hp)

theorem Ok.close (h : c.Ok) (id : Nat) : Ok { c with
    alive := Function.update c.alive id false
    pending := Function.update c.pending id none } := by
  have hClear := h.clear id
  refine ⟨h.fifo, hClear.order, fun j a ha => ?_, fun j hAlive => ?_, h.called_made⟩
  · by_cases hj : j = id
    · simp [hj] at ha
    · simpa [Function.update_apply, hj] using hClear.pending_alive j a ha
  · by_cases hj : j = id
    · simp [hj] at hAlive
    · exact h.alive_made j (by simpa [Function.update_apply, hj] using hAlive)

theorem Ok.call (h : c.Ok) {id : Nat} (hAlive : c.alive id = true) (hNone : c.pending id = none)
    (a : α) : Ok { c with
      pending := Function.update c.pending id (some a)
      called := c.called ++ [(id, a)] } := by
  refine ⟨h.fifo, fun j => ?_, fun j b hb => ?_, h.alive_made, fun p hp => ?_⟩
  · have hOrder := h.order j
    by_cases hj : j = id
    · subst hj
      simp only [hNone, Option.toList_none, List.append_nil] at hOrder
      simpa using hOrder.append (List.Sublist.refl [a])
    · simpa [Function.update_apply, hj, Ne.symm hj] using hOrder
  · by_cases hj : j = id
    · exact hj ▸ hAlive
    · exact h.pending_alive j b (by simpa [Function.update_apply, hj] using hb)
  · rcases List.mem_append.mp hp with hp | hp
    · exact h.called_made p hp
    · obtain rfl := List.mem_singleton.mp hp
      exact h.alive_made id hAlive

theorem Ok.accept (h : c.Ok) {id : Nat} {a : α} (hPending : c.pending id = some a) : Ok { c with
    queue := c.queue ++ [a]
    pending := Function.update c.pending id none
    accepted := c.accepted ++ [(id, a)] } := by
  refine ⟨by simp [h.fifo], fun j => ?_, (h.clear id).pending_alive, h.alive_made, h.called_made⟩
  have hOrder := h.order j
  by_cases hj : j = id
  · subst hj
    simpa [hPending] using hOrder
  · simpa [Function.update_apply, hj, Ne.symm hj] using hOrder

theorem Ok.step (h : c.Ok) (hStep : c.step ready op = some c') : c'.Ok := by
  cases step_move hStep with
  | openSender => exact h.openSender
  | close id => exact h.close id
  | call id a hAlive hNone => exact h.call hAlive hNone a
  | accept id a hPending => exact h.accept hPending
  | cancel id => exact h.clear id
  | take a rest hQueue =>
    exact ⟨by simp [h.fifo, hQueue], h.order, h.pending_alive, h.alive_made, h.called_made⟩

theorem Ok.queue_le (h : c.Ok) : c.queue.length ≤ c.accepted.length := by
  have hLength := congrArg List.length h.fifo
  simp only [List.length_map, List.length_append] at hLength
  omega

theorem parked_eq_nil {buffer : Nat} (h : c.queue.length ≤ buffer) : c.parked buffer = [] := by
  simp [parked, Nat.sub_eq_zero_of_le h]

/-- Nobody waits for room in a channel without messages. -/
theorem unparked_of_empty (buffer : Nat) (h : c.queue = []) (id : Nat) :
    c.unparked buffer id = true := by
  have hParked : c.parked buffer = [] := parked_eq_nil (by simp [h])
  simp [unparked, hParked]

/-- The sender of a message that does not fit waits behind the others, and a message taken releases
the one that waited longest. -/
theorem Ok.parked_step (h : c.Ok) (buffer : Nat) (hStep : c.step ready op = some c') :
    c'.parked buffer = match op with
      | .accept id => if c.queue.length < buffer then [] else c.parked buffer ++ [id]
      | .take => (c.parked buffer).tail
      | _ => c.parked buffer := by
  have hLe := h.queue_le
  cases step_move hStep with
  | accept id a =>
    dsimp only
    split
    next hRoom => exact parked_eq_nil (by simpa using Nat.succ_le_of_lt hRoom)
    next hFull =>
      have hDrop : c.accepted.length + 1 - (c.queue.length + 1 - buffer) =
          c.accepted.length - (c.queue.length - buffer) := by omega
      simp only [parked, List.length_append, List.length_singleton, List.map_append, hDrop]
      exact List.drop_append_of_le_length (by simp)
  | take a rest hQueue =>
    rw [hQueue, List.length_cons] at hLe
    simp only [parked, hQueue, List.length_cons, List.tail_drop]
    by_cases hFull : rest.length < buffer
    · have hNone : rest.length - buffer = 0 := by omega
      have hLast : rest.length + 1 - buffer = 0 := by omega
      rw [hNone, hLast, List.drop_of_length_le (by simp), List.drop_of_length_le (by simp)]
    · congr 1
      omega
  | _ => rfl

/-- Everything the sender was ever told to send is in the queue's record or waits for room. -/
def Exact (id : Nat) (c : Channel α) : Prop :=
  sentBy id c.accepted ++ (c.pending id).toList = sentBy id c.called

theorem Exact.fresh (h : c.Ok) {id : Nat} (hId : c.made ≤ id) : Exact id c := by
  have hCalled : sentBy id c.called = [] := by
    refine List.eq_nil_iff_forall_not_mem.mpr fun a ha => ?_
    have := h.called_made _ (mem_sentBy.mp ha)
    omega
  exact (List.sublist_nil.mp (hCalled ▸ h.order id)).trans hCalled.symm

/-- What a sender put in the queue, and what waits for room. -/
def outgoing (id : Nat) (c : Channel α) : List α := sentBy id c.accepted ++ (c.pending id).toList

/-- Others change nothing of what a sender sends. -/
theorem outgoing_step {id : Nat} (hBy : op.by? ≠ some id) (hStep : c.step ready op = some c') :
    outgoing id c' = outgoing id c := by
  unfold outgoing
  cases step_move hStep with
  | openSender | take => rfl
  | close j | cancel j =>
    have hj : id ≠ j := fun h => hBy (h ▸ rfl)
    simp [hj]
  | call j a =>
    have hj : id ≠ j := fun h => hBy (h ▸ rfl)
    simp [hj]
  | accept j a hPending =>
    by_cases hj : id = j
    · subst hj
      simp [hPending]
    · simp [hj, Ne.symm hj]

theorem outgoing_call {id : Nat} {a : α} (hStep : c.step ready (.call id a) = some c') :
    c'.called = c.called ++ [(id, a)] ∧ outgoing id c' = sentBy id c.accepted ++ [a] := by
  cases step_move hStep with
  | call => exact ⟨rfl, by simp [outgoing]⟩

/-- Only a send given up, or a sender closed in the middle of one, loses a message. -/
theorem Exact.step {id : Nat} (h : Exact id c) (hCancel : op ≠ .cancel id)
    (hClose : op = .close id → c.pending id = none) (hStep : c.step ready op = some c') :
    Exact id c' := by
  unfold Exact at h ⊢
  cases step_move hStep with
  | openSender => exact h
  | close j =>
    by_cases hj : id = j
    · subst hj
      simpa [hClose rfl] using h
    · simpa [Function.update_apply, hj] using h
  | call j a _ hNone =>
    by_cases hj : id = j
    · subst hj
      simpa [hNone] using h
    · simpa [Function.update_apply, hj, Ne.symm hj] using h
  | accept j a hPending =>
    by_cases hj : id = j
    · subst hj
      simpa [hPending] using h
    · simpa [Function.update_apply, hj, Ne.symm hj] using h
  | cancel j =>
    have hj : id ≠ j := fun hj => hCancel (hj ▸ rfl)
    simpa [Function.update_apply, hj] using h
  | take => exact h

/-- What the operations of others leave of a sender. -/
structure Kept (id : Nat) (c c' : Channel α) : Prop where
  alive : c'.alive id = c.alive id
  called : sentBy id c'.called = sentBy id c.called
  exact : Exact id c → Exact id c'
  made : c.made ≤ c'.made

theorem Kept.refl (id : Nat) (c : Channel α) : Kept id c c := ⟨rfl, rfl, fun h => h, Nat.le_refl _⟩

theorem Kept.trans {id : Nat} {c'' : Channel α} (h : Kept id c c') (h' : Kept id c' c'') :
    Kept id c c'' :=
  ⟨h'.alive.trans h.alive, h'.called.trans h.called, fun hE => h'.exact (h.exact hE),
    Nat.le_trans h.made h'.made⟩

theorem Kept.step {id : Nat} (hId : id < c.made) (hBy : op.by? ≠ some id)
    (hStep : c.step ready op = some c') : Kept id c c' := by
  have hExact : Exact id c → Exact id c' := fun h => by
    refine h.step ?_ ?_ hStep
    · rintro rfl
      exact hBy rfl
    · rintro rfl
      exact (hBy rfl).elim
  cases step_move hStep with
  | openSender => exact ⟨by simp [openSender, Nat.ne_of_lt hId], rfl, hExact, Nat.le_succ _⟩
  | close j =>
    have hj : id ≠ j := fun h => hBy (h ▸ rfl)
    exact ⟨by simp [hj], rfl, hExact, Nat.le_refl _⟩
  | call j a =>
    have hj : j ≠ id := fun h => hBy (h ▸ rfl)
    exact ⟨rfl, by simp [hj], hExact, Nat.le_refl _⟩
  | accept | cancel | take => exact ⟨rfl, rfl, hExact, Nat.le_refl _⟩

/-- Nothing but the receiver takes a message. -/
theorem step_taken (hOp : op ≠ .take) (hStep : c.step ready op = some c') : c'.taken = c.taken := by
  cases step_move hStep with
  | take => exact (hOp rfl).elim
  | _ => rfl

theorem step_made (hOp : op ≠ .openSender) (hStep : c.step ready op = some c') :
    c'.made = c.made := by
  cases step_move hStep with
  | openSender => exact (hOp rfl).elim
  | _ => rfl

/-- Only its owner makes a sender send. -/
theorem step_pending_none {id : Nat} (hNone : c.pending id = none) (hBy : op.by? ≠ some id)
    (hStep : c.step ready op = some c') : c'.pending id = none := by
  have hClear (j : Nat) : Function.update c.pending j none id = none := by
    by_cases hj : id = j
    · subst hj
      simp
    · simpa [hj] using hNone
  cases step_move hStep with
  | openSender | take => exact hNone
  | accept j | cancel j | close j => exact hClear j
  | call j a =>
    have hj : id ≠ j := fun h => hBy (h ▸ rfl)
    simpa [hj] using hNone

/-- The record of accepted messages only grows. -/
theorem step_accepted (hStep : c.step ready op = some c') : c.accepted <+: c'.accepted := by
  cases step_move hStep with
  | accept => exact List.prefix_append _ _
  | _ => exact List.prefix_refl _

end Channel

end Fifo
