import Emyu.Lib.Adapters
import Emyu.Lib.Feed
import Emyu.Lib.Fifo

/-! Two channels that feed streams: one for a single value, and the bounded queue with many
senders; and the stream made of the future that waits for the single value. -/

universe u

namespace Polling

open Mealy Fed

variable {X T C V E : Type u}

/-! ### A single value -/

/-- A `oneshot::channel`: the sender is still there, it sent the value, the value was received, or
the sender was dropped without sending. -/
inductive Slot (T : Type u) where
  | held
  | sent (a : T)
  | received (a : T)
  | dropped
  deriving DecidableEq

/-- What the holder of the only sender can do; either uses it up. -/
inductive Give (T : Type u) where
  | send (a : T)
  | drop

namespace Slot

def use : Slot T → Give T → Option (Slot T)
  | .held, .send a => some (.sent a)
  | .held, .drop => some .dropped
  | _, _ => none

def receive : Slot T → Option (T × Slot T)
  | .sent a => some (a, .received a)
  | _ => none

def gone : Slot T → Bool
  | .held => false
  | _ => true

/-- What the sender sent. -/
def fed : Slot T → List T
  | .sent a | .received a => [a]
  | _ => []

def taken : Slot T → List T
  | .received a => [a]
  | _ => []

variable {c c' : Slot T} {x : Give T} {a : T}

theorem use_eq_some (h : c.use x = some c') :
    c = .held ∧ ((∃ a, x = .send a ∧ c' = .sent a) ∨ x = .drop ∧ c' = .dropped) := by
  cases c with
  | held =>
    cases x with
    | send a => exact ⟨rfl, .inl ⟨a, rfl, (Option.some.inj h).symm⟩⟩
    | drop => exact ⟨rfl, .inr ⟨rfl, (Option.some.inj h).symm⟩⟩
  | _ => cases h

theorem receive_eq_some (h : c.receive = some (a, c')) : c = .sent a ∧ c' = .received a := by
  cases c with
  | sent b =>
    cases h
    exact ⟨rfl, rfl⟩
  | _ => cases h

end Slot

def oneshot (T : Type u) : Feed (Give T) T (Slot T) where
  use := Slot.use
  receive := Slot.receive
  gone := Slot.gone
  sent := Slot.fed
  received := Slot.taken
  single := true

theorem oneshot_lawful : (oneshot T).Lawful fun _ => True where
  use_ok _ _ := trivial
  receive_ok _ _ := trivial
  use_sent hUse := by
    obtain ⟨rfl, -⟩ := Slot.use_eq_some hUse
    exact List.nil_prefix
  use_received hUse := by
    obtain ⟨rfl, ⟨a, rfl, rfl⟩ | ⟨rfl, rfl⟩⟩ := Slot.use_eq_some hUse <;> rfl
  use_gone _ hGone hUse := by
    obtain ⟨rfl, -⟩ := Slot.use_eq_some hUse
    cases hGone
  receive_sent hReceive := by
    obtain ⟨rfl, rfl⟩ := Slot.receive_eq_some hReceive
    rfl
  receive_received hReceive := by
    obtain ⟨rfl, rfl⟩ := Slot.receive_eq_some hReceive
    rfl
  receive_gone hReceive := by
    obtain ⟨rfl, rfl⟩ := Slot.receive_eq_some hReceive
    rfl
  receive_single _ _ hReceive := by
    obtain ⟨rfl, rfl⟩ := Slot.receive_eq_some hReceive
    exact ⟨rfl, rfl⟩
  received_sent {c} _ := by
    cases c with
    | received a => exact List.prefix_refl _
    | _ => exact List.nil_prefix
  drained {c} _ hReceive := by
    cases c with
    | sent a => cases hReceive
    | _ => rfl

/-! ### The future of a single value -/

/-- `oneshot::Canceled`. -/
abbrev Canceled := PUnit.{u + 1}

def receiverStep (Q : Feed X T C) : Receiving T → Fed Q V →
    Option (Effect X E ⊕ Except Canceled.{u} T) × Receiving T
  | .idle, w =>
    match Q.receive w.channel with
    | some (a, _) => (some (.inl .receive), .holding a)
    | none => if Q.gone w.channel then (some (.inr (.error ⟨⟩)), .closed) else (none, .idle)
  | .holding a, _ => (some (.inr (.ok a)), .closed)
  | .closed, _ => (some (.inr (.error ⟨⟩)), .closed)

/-- The receiver as a future: the value, or the news that there will be none. -/
def receiver (Q : Feed X T C) : Fut (Fed Q V) (Effect X E) (Except Canceled.{u} T) :=
  unfold (receiverStep Q) .idle

/-- The closure `|result| async { result.ok() }`. -/
def okFn {W E : Type u} : Fn W E (Except Canceled.{u} T) (Fut W E (Option T)) :=
  .stateless fun i => ([], ready i.1.toOption)

section Awaited

variable (Q : Feed X T C)

/-- Lockstep states of the awaited receiver, filtered, and of the receiving stream, with how many
empty steps the first still takes alone. -/
inductive Awaited : Nat → Strm (Fed Q V) (Effect X E) T → Strm (Fed Q V) (Effect X E) T → Prop where
  | idle : Awaited 0
      (flatMap (once (unfold (receiverStep Q) .idle)) (okFn.map (awaiting id)))
      (unfold (receiveStep Q) .idle)
  | holding (a : T) : Awaited 1
      (flatMap (once (unfold (receiverStep Q) (.holding a))) (okFn.map (awaiting id)))
      (unfold (receiveStep Q) (.holding a))
  | giving (a : T) : Awaited 0
      (unfold flatStep (.inner empty (okFn.map (awaiting id)) (awaiting id (ready (some a)))))
      (unfold (receiveStep Q) (.holding a))
  | nothing : Awaited 1
      (unfold flatStep (.inner empty (okFn.map (awaiting id)) (awaiting id (ready none))))
      (unfold (receiveStep Q) .closed)
  | given : Awaited 1 (unfold flatStep (.inner empty (okFn.map (awaiting id)) empty))
      (unfold (receiveStep Q) .closed)
  | closed : Awaited 0 empty (unfold (receiveStep Q) .closed)

variable {Q}

theorem Awaited.step (hSingle : Q.single = true) {n : Nat} {s t : Strm (Fed Q V) (Effect X E) T}
    (h : Awaited Q n s t) (w : Fed Q V) :
    (s.head w = t.head w ∧ (s.head w ≠ some .ended → ∃ m, Awaited Q m (s.next w) (t.next w))) ∨
      (s.head w = none ∧ ∃ m < n, Awaited Q m (s.next w) t) := by
  cases h with
  | idle =>
    rcases hReceive : Q.receive w.channel with _ | ⟨a, c⟩
    · cases hGone : Q.gone w.channel with
      | false =>
        have hFut : (unfold (receiverStep (V := V) (E := E) Q) .idle).head w = none := by
          simp [receiverStep, hReceive, hGone]
        refine .inl ⟨?_, fun _ => ⟨0, ?_⟩⟩
        · rw [outer_silent.mpr (.inl (once_silent.mpr hFut))]
          simp [receiveStep, hReceive, hGone]
        · rw [outer_next (by simp [once_silent.mpr hFut]), once_next (by simp [hFut])]
          simpa [receiverStep, receiveStep, hReceive, hGone] using Awaited.idle
      | true =>
        have hFut : (unfold (receiverStep (V := V) (E := E) Q) .idle).head w =
            some (.inr (.error ⟨⟩)) := by
          simp [receiverStep, hReceive, hGone]
        refine .inl ⟨?_, fun _ => ⟨1, ?_⟩⟩
        · rw [outer_silent.mpr (.inr ⟨_, once_item.mpr hFut⟩)]
          simp [receiveStep, hReceive, hGone, hSingle]
        · rw [outer_next_item (once_item.mpr hFut), once_next_item hFut]
          show Awaited Q 1 (unfold flatStep (.inner empty (okFn.map (awaiting id))
            (awaiting id (ready none)))) _
          simpa [receiveStep, hReceive, hGone, hSingle] using Awaited.nothing
    · have hFut : (unfold (receiverStep (V := V) (E := E) Q) .idle).head w =
          some (.inl .receive) := by
        simp [receiverStep, hReceive]
      refine .inl ⟨?_, fun _ => ⟨1, ?_⟩⟩
      · rw [outer_effect.mpr (once_effect.mpr hFut)]
        simp [receiveStep, hReceive]
      · rw [outer_next (by simp [once_effect.mpr hFut]), once_next (by simp [hFut])]
        simpa [receiverStep, receiveStep, hReceive] using Awaited.holding a
  | holding a =>
    have hFut : (unfold (receiverStep (V := V) (E := E) Q) (.holding a)).head w =
        some (.inr (.ok a)) := rfl
    refine .inr ⟨?_, 0, Nat.one_pos, ?_⟩
    · rw [outer_silent.mpr (.inr ⟨_, once_item.mpr hFut⟩)]
    · rw [outer_next_item (once_item.mpr hFut), once_next_item hFut]
      exact .giving a
  | giving a =>
    refine .inl ⟨rfl, fun _ => ⟨1, ?_⟩⟩
    rw [inner_next (by simp [awaiting, awaitStep, ready])]
    have hNext : (awaiting (W := Fed Q V) (E := Effect X E) id (ready (some a))).next w = empty :=
      awaiting_stop id
    rw [hNext]
    simpa [receiveStep, hSingle] using Awaited.given
  | nothing =>
    refine .inr ⟨rfl, 0, Nat.one_pos, ?_⟩
    rw [inner_next_ended rfl, flatMap_empty]
    exact .closed
  | given =>
    refine .inr ⟨rfl, 0, Nat.one_pos, ?_⟩
    rw [inner_next_ended rfl, flatMap_empty]
    exact .closed
  | closed => exact .inl ⟨rfl, fun h => (h rfl).elim⟩

/-- Awaiting the value and dropping a cancellation is receiving what is sent. -/
theorem receiver_receiving (hSingle : Q.single = true) :
    filterMap (once (receiver Q)) okFn ≈ (receiving Q : Strm (Fed Q V) (Effect X E) T) :=
  WeakEq.of_stutter (Awaited Q) (fun _ _ _ h w => h.step hSingle w) .idle

end Awaited

/-! ### A bounded queue -/

open Fifo

/-- What the holder of the sender `id` can do: a `send` is the call, and then that there was room
for the value or that it was given up. -/
inductive Use (T : Type u) where
  | clone (id : Nat)
  | drop (id : Nat)
  | call (id : Nat) (a : T)
  | accept (id : Nat)
  | cancel (id : Nat)

def Use.id : Use T → Nat
  | .clone id | .drop id | .call id _ | .accept id | .cancel id => id

def Use.op : Use T → Op T
  | .clone _ => .openSender
  | .drop id => .close id
  | .call id a => .call id a
  | .accept id => .accept id
  | .cancel id => .cancel id

/-- An `mpsc::channel`; `ready` says which waiting sends it takes. -/
def mpsc (ready : Channel T → Nat → Bool) : Feed (Use T) T (Channel T) where
  use c x := if c.alive x.id then c.step ready x.op else none
  receive c := c.queue.head?.bind fun a => (c.step ready .take).map (a, ·)
  gone c := decide (∀ id < c.made, c.alive id = false)
  sent c := c.accepted.map Prod.snd
  received c := c.taken
  single := false

section Queue

variable {ready : Channel T → Nat → Bool} {c c' : Channel T} {x : Use T} {a : T}

theorem Use.op_ne_take (x : Use T) : x.op ≠ .take := by
  cases x <;> simp [Use.op]

theorem mpsc_use (h : (mpsc ready).use c x = some c') :
    c.alive x.id = true ∧ c.step ready x.op = some c' :=
  Option.ite_none_right_eq_some.mp h

theorem mpsc_receive (h : (mpsc ready).receive c = some (a, c')) :
    ∃ rest, c.queue = a :: rest ∧ c.step ready .take = some c' ∧
      c' = { c with queue := rest, taken := c.taken ++ [a] } := by
  obtain ⟨b, hHead, hTake⟩ := Option.bind_eq_some_iff.mp h
  obtain ⟨c'', hStep, hEq⟩ := Option.map_eq_some_iff.mp hTake
  obtain ⟨rfl, rfl⟩ := Prod.mk.inj hEq
  cases Channel.step_move hStep with
  | take b' rest hQueue =>
    obtain rfl : b' = b := by simpa [hQueue] using hHead
    exact ⟨rest, hQueue, hStep, rfl⟩

theorem mpsc_receive_none (h : (mpsc ready).receive c = none) : c.queue = [] := by
  cases hQueue : c.queue with
  | nil => rfl
  | cons a rest =>
    have hTake : (mpsc ready).receive c =
        some (a, { c with queue := rest, taken := c.taken ++ [a] }) := by
      simp [mpsc, Channel.step, hQueue]
    rw [h] at hTake
    cases hTake

theorem mpsc_lawful : (mpsc ready).Lawful Channel.Ok where
  use_ok hOk hUse := hOk.step (mpsc_use hUse).2
  receive_ok hOk hReceive := by
    obtain ⟨rest, -, hStep, -⟩ := mpsc_receive hReceive
    exact hOk.step hStep
  use_sent hUse := (Channel.step_accepted (mpsc_use hUse).2).map Prod.snd
  use_received {c x c'} hUse := Channel.step_taken x.op_ne_take (mpsc_use hUse).2
  use_gone {c x c'} hOk hGone hUse := by
    have hAlive := (mpsc_use hUse).1
    have hDead := of_decide_eq_true hGone x.id (hOk.alive_made x.id hAlive)
    rw [hAlive] at hDead
    cases hDead
  receive_sent hReceive := by
    obtain ⟨rest, -, -, rfl⟩ := mpsc_receive hReceive
    rfl
  receive_received hReceive := by
    obtain ⟨rest, -, -, rfl⟩ := mpsc_receive hReceive
    rfl
  receive_gone hReceive := by
    obtain ⟨rest, -, -, rfl⟩ := mpsc_receive hReceive
    rfl
  receive_single hSingle := by cases hSingle
  received_sent {c} hOk := ⟨c.queue, hOk.fifo.symm⟩
  drained {c} hOk hReceive := by
    have hFifo := hOk.fifo
    rw [mpsc_receive_none hReceive, List.append_nil] at hFifo
    exact hFifo.symm

end Queue

/-! ### A library's conversion of futures -/

/-- The combinators of a library that can also make a stream of a future. -/
structure Conversions (W E : Type u) extends Combinators W E where
  intoStream : {T : Type u} → Fut W E T → Strm W E T

/-- The combinators do what their documentation says, in whatever steps. -/
structure Conversions.Documented {W E : Type u} (F : Conversions W E) : Prop
    extends F.toCombinators.Documented where
  intoStream : ∀ {T : Type u} (fut : Fut W E T), F.intoStream fut ≈ Polling.once fut

/-- The combinators as they are documented. -/
def Conversions.reference {W E : Type u} : Conversions W E where
  toCombinators := .reference
  intoStream := Polling.once

theorem Conversions.reference_documented {W E : Type u} :
    (reference : Conversions W E).Documented where
  toDocumented := Combinators.reference_documented
  intoStream _ := .refl _

end Polling
