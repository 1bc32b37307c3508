import Emyu.Lib.Polled

/-! Streams that give one value and then what is sent to a channel: whatever the holders of the
senders do between the polls, every value sent is given once and in order, and the stream ends when
all of them are gone. -/

universe u

namespace Polling

open Mealy Runs

/-- A channel as the holders of its senders and its receiver see it. `sent` and `received` record
what was sent to it and taken from it; from a `single` one only one value is ever taken. -/
structure Feed (X T C : Type u) where
  use : C → X → Option C
  receive : C → Option (T × C)
  gone : C → Bool
  sent : C → List T
  received : C → List T
  single : Bool

variable {X T C V E : Type u}

/-- The channel loses, repeats and reorders nothing, and nobody sends when all senders are gone. -/
structure Feed.Lawful (Q : Feed X T C) (Ok : C → Prop) : Prop where
  use_ok : ∀ {c x c'}, Ok c → Q.use c x = some c' → Ok c'
  receive_ok : ∀ {c a c'}, Ok c → Q.receive c = some (a, c') → Ok c'
  use_sent : ∀ {c x c'}, Q.use c x = some c' → Q.sent c <+: Q.sent c'
  use_received : ∀ {c x c'}, Q.use c x = some c' → Q.received c' = Q.received c
  use_gone : ∀ {c x c'}, Ok c → Q.gone c = true → Q.use c x = some c' →
    Q.gone c' = true ∧ Q.sent c' = Q.sent c
  receive_sent : ∀ {c a c'}, Q.receive c = some (a, c') → Q.sent c' = Q.sent c
  receive_received : ∀ {c a c'}, Q.receive c = some (a, c') → Q.received c' = Q.received c ++ [a]
  receive_gone : ∀ {c a c'}, Q.receive c = some (a, c') → Q.gone c' = Q.gone c
  receive_single : ∀ {c a c'}, Q.single = true → Ok c → Q.receive c = some (a, c') →
    Q.gone c = true ∧ Q.sent c = Q.received c ++ [a]
  received_sent : ∀ {c}, Ok c → Q.received c <+: Q.sent c
  drained : ∀ {c}, Ok c → Q.receive c = none → Q.received c = Q.sent c

/-- A channel and the rest of the world. -/
structure Fed (Q : Feed X T C) (V : Type u) where
  channel : C
  rest : V

namespace Fed

/-- The receiver's effect, and those of everybody else. -/
inductive Effect (X E : Type u) where
  | by (a : X ⊕ E)
  | receive

variable {Q : Feed X T C}

/-- What does not work changes nothing. -/
instance [Acts E V] : Acts (Effect X E) (Fed Q V) where
  act
    | .by (.inl x), w => { w with channel := (Q.use w.channel x).getD w.channel }
    | .by (.inr e), w => { w with rest := Acts.act e w.rest }
    | .receive, w => { w with channel := ((Q.receive w.channel).map Prod.snd).getD w.channel }

/-- What others do: they use senders, and change the rest of the world. -/
def env (w : Fed Q V) : X ⊕ V → Option (Fed Q V)
  | .inl x => (Q.use w.channel x).map fun c => { w with channel := c }
  | .inr v => some { w with rest := v }

end Fed

open Fed

inductive Receiving (T : Type u) where
  | idle
  | holding (a : T)
  | closed

/-- What was taken and is not given yet. -/
def Receiving.held : Receiving T → List T
  | .holding a => [a]
  | _ => []

/-- Nothing more is taken. -/
def Receiving.Last (single : Bool) : Receiving T → Prop
  | .idle => False
  | .holding _ => single = true
  | .closed => True

/-- The end of a single receiver is fixed one step before it shows. -/
def receiveStep (Q : Feed X T C) :
    Receiving T → Fed Q V → Option (Event (Effect X E) T) × Receiving T
  | .idle, w =>
    match Q.receive w.channel with
    | some (a, _) => (some (.effect .receive), .holding a)
    | none =>
      if Q.gone w.channel then (if Q.single then none else some .ended, .closed) else (none, .idle)
  | .holding a, _ => (some (.item a), if Q.single then .closed else .idle)
  | .closed, _ => (some .ended, .closed)

/-- The stream of what is sent to the channel. -/
def receiving (Q : Feed X T C) : Strm (Fed Q V) (Effect X E) T := unfold (receiveStep Q) .idle

/-- The effects `es`, then `value`, then what is sent to the channel. -/
def feeding (Q : Feed X T C) (es : List (X ⊕ E)) (value : T) : Strm (Fed Q V) (Effect X E) T :=
  emit (es.map .by) (cons (some (.item value)) (receiving Q))

namespace Feed

/-! ### What senders do to a channel -/

section Channels

variable (Q : Feed X T C)

/-- What others may have made of the channel: at most one use of a sender. -/
def Used (c c' : C) : Prop := c' = c ∨ ∃ x, Q.use c x = some c'

/-- More was sent, and nothing once all senders are gone. -/
structure Later (c c' : C) : Prop where
  sent : Q.sent c <+: Q.sent c'
  gone : Q.gone c = true → Q.gone c' = true ∧ Q.sent c' = Q.sent c

variable {Q} {Ok : C → Prop} {c c' c'' : C} {a : T}

theorem Later.refl (c : C) : Q.Later c c := ⟨List.prefix_refl _, fun h => ⟨h, rfl⟩⟩

theorem Later.trans (h : Q.Later c c') (h' : Q.Later c' c'') : Q.Later c c'' where
  sent := h.sent.trans h'.sent
  gone hGone := by
    obtain ⟨hGone', hSent⟩ := h.gone hGone
    exact ⟨(h'.gone hGone').1, (h'.gone hGone').2.trans hSent⟩

theorem Used.ok (hQ : Q.Lawful Ok) (h : Q.Used c c') (hOk : Ok c) : Ok c' := by
  rcases h with rfl | ⟨x, hUse⟩
  · exact hOk
  · exact hQ.use_ok hOk hUse

theorem Used.received (hQ : Q.Lawful Ok) (h : Q.Used c c') : Q.received c' = Q.received c := by
  rcases h with rfl | ⟨x, hUse⟩
  · rfl
  · exact hQ.use_received hUse

theorem Used.later (hQ : Q.Lawful Ok) (h : Q.Used c c') (hOk : Ok c) : Q.Later c c' := by
  rcases h with rfl | ⟨x, hUse⟩
  · exact .refl _
  · exact ⟨hQ.use_sent hUse, fun hGone => hQ.use_gone hOk hGone hUse⟩

theorem later_of_receive (hQ : Q.Lawful Ok) (h : Q.receive c = some (a, c')) : Q.Later c c' where
  sent := (hQ.receive_sent h).symm ▸ List.prefix_refl _
  gone hGone := ⟨(hQ.receive_gone h).trans hGone, hQ.receive_sent h⟩

/-- With a value received there is one less to receive. -/
theorem receive_length (hQ : Q.Lawful Ok) (hOk : Ok c) (h : Q.receive c = some (a, c')) :
    (Q.received c').length = (Q.received c).length + 1 ∧
      (Q.received c').length ≤ (Q.sent c').length := by
  refine ⟨?_, (hQ.received_sent (hQ.receive_ok hOk h)).length_le⟩
  rw [hQ.receive_received h, List.length_append]
  rfl

theorem env_used {w w' : Fed Q V} {x : X ⊕ V} (h : env w x = some w') :
    Q.Used w.channel w'.channel := by
  rcases x with x | v
  · obtain ⟨c, hUse, rfl⟩ := Option.map_eq_some_iff.mp h
    exact .inr ⟨x, hUse⟩
  · cases h
    exact .inl rfl

theorem act_used [Acts E V] (a : X ⊕ E) (w : Fed Q V) :
    Q.Used w.channel (Acts.act (Effect.by a) w).channel := by
  rcases a with x | e
  · show Q.Used w.channel ((Q.use w.channel x).getD w.channel)
    rcases hUse : Q.use w.channel x with _ | c
    · exact .inl rfl
    · exact .inr ⟨x, hUse⟩
  · exact .inl rfl

end Channels

/-! ### What a fed stream shows -/

section Deliver

variable (Q : Feed X T C) [Acts E V]

/-- What a fed stream has shown: the effects `es`, each once, then `value`, and then what was sent
to the channel, with an end exactly when all senders are gone and nothing is left; and polls alone
bring it there. -/
structure Delivers (es : List (X ⊕ E)) (value : T) (s : Polled (Fed Q V) (Effect X E) T) :
    Prop where
  effects : (∃ l, l <+: es ∧ s.events = l.map fun a => .effect (.by a)) ∨
    ∃ l, s.events = (es.map fun a => .effect (.by a)) ++ .item value :: l ∧
      ∀ a, Event.effect (Effect.by a) ∉ l
  items : s.items <+: value :: Q.sent s.world.channel
  ended : s.ended = true →
    s.items = value :: Q.sent s.world.channel ∧ Q.gone s.world.channel = true
  drains : ∃ t, Polled.Polls env s t ∧ Q.sent s.world.channel <+: Q.sent t.world.channel ∧
    t.items = value :: Q.sent t.world.channel ∧
    (t.ended = true ↔ Q.gone t.world.channel = true)
  ends : Q.gone s.world.channel = true → ∃ t, Polled.Polls env s t ∧ t.ended = true ∧
    t.items = value :: Q.sent s.world.channel

end Deliver

section Proof

variable {Q : Feed X T C} {Ok : C → Prop} {es : List (X ⊕ E)} {value : T}

/-- The receiver, after it gave `given`, beside its channel. -/
structure Meets (Q : Feed X T C) (r : Receiving T) (given : List T) (c : C) : Prop where
  received : given ++ r.held = Q.received c
  last : r.Last Q.single → Q.gone c = true ∧ Q.sent c = Q.received c

/-- Where a fed stream can stand. -/
inductive Stands (es : List (X ⊕ E)) (value : T) : Polled (Fed Q V) (Effect X E) T → Prop where
  | effects (done rest : List (X ⊕ E)) (w : Fed Q V) : done ++ rest = es →
      Q.received w.channel = [] →
      Stands es value ⟨feeding Q rest value, w, done.map fun a => .effect (.by a), false⟩
  | receiving (r : Receiving T) (l : List (Event (Effect X E) T)) (w : Fed Q V) :
      (∀ a, Event.effect (Effect.by a) ∉ l) → Meets Q r (l.filterMap Event.item?) w.channel →
      Stands es value ⟨unfold (receiveStep Q) r, w,
        (es.map fun a => .effect (.by a)) ++ .item value :: l, false⟩
  | ended (j : Strm (Fed Q V) (Effect X E) T) (l : List (Event (Effect X E) T)) (w : Fed Q V) :
      (∀ a, Event.effect (Effect.by a) ∉ l) →
      Meets Q .closed (l.filterMap Event.item?) w.channel →
      Stands es value ⟨j, w, (es.map fun a => .effect (.by a)) ++ .item value :: l, true⟩

theorem Meets.used (hQ : Q.Lawful Ok) {r : Receiving T} {given : List T} {c c' : C} (hOk : Ok c)
    (h : Meets Q r given c) (hUsed : Q.Used c c') : Meets Q r given c' where
  received := h.received.trans (hUsed.received hQ).symm
  last hLast := by
    obtain ⟨hGone, hSent⟩ := h.last hLast
    obtain ⟨hGone', hSent'⟩ := (hUsed.later hQ hOk).gone hGone
    exact ⟨hGone', by rw [hSent', hSent, hUsed.received hQ]⟩

theorem Stands.used (hQ : Q.Lawful Ok) {s : Polled (Fed Q V) (Effect X E) T} {w : Fed Q V}
    (hOk : Ok s.world.channel) (h : Stands es value s) (hUsed : Q.Used s.world.channel w.channel) :
    Stands es value { s with world := w } := by
  cases h with
  | effects done rest _ hEs hNone =>
    exact .effects done rest w hEs ((hUsed.received hQ).trans hNone)
  | receiving r l _ hOnly hMeets => exact .receiving r l w hOnly (hMeets.used hQ hOk hUsed)
  | ended j l _ hOnly hMeets => exact .ended j l w hOnly (hMeets.used hQ hOk hUsed)

variable [Acts E V]

section Polls

variable {w : Fed Q V} {evs : List (Event (Effect X E) T)}

theorem poll_feeding (a : X ⊕ E) (rest : List (X ⊕ E)) :
    Polled.poll ⟨feeding Q (a :: rest) value, w, evs, false⟩ =
      ⟨feeding Q rest value, Acts.act (Effect.by a) w, evs ++ [.effect (.by a)], false⟩ := rfl

theorem poll_value : Polled.poll ⟨feeding Q ([] : List (X ⊕ E)) value, w, evs, false⟩ =
    ⟨receiving Q, w, evs ++ [.item value], false⟩ := rfl

theorem poll_receive {a : T} {c : C} (h : Q.receive w.channel = some (a, c)) :
    Polled.poll ⟨unfold (receiveStep Q) .idle, w, evs, false⟩ =
      ⟨unfold (receiveStep Q) (.holding a), { w with channel := c }, evs ++ [.effect .receive],
        false⟩ := by
  have hAct : (Acts.act (.receive : Effect X E) w : Fed Q V) = { w with channel := c } := by
    show ({ w with channel := ((Q.receive w.channel).map Prod.snd).getD w.channel } : Fed Q V) = _
    rw [h]
    rfl
  have hHead : (unfold (receiveStep Q) .idle).head w =
      some (.effect (.receive : Effect X E)) := by
    simp [receiveStep, h]
  rw [Polled.poll_event hHead (by simp)]
  simp [receiveStep, h, Event.after, hAct]

theorem poll_open (h : Q.receive w.channel = none) (hGone : Q.gone w.channel = false) :
    Polled.poll ⟨unfold (receiveStep Q) .idle, w, evs, false⟩ =
      ⟨unfold (receiveStep Q) .idle, w, evs, false⟩ := by
  rw [Polled.poll_silent (by simp [receiveStep, h, hGone])]
  simp [receiveStep, h, hGone]

theorem poll_gone (h : Q.receive w.channel = none) (hGone : Q.gone w.channel = true) :
    Polled.poll ⟨unfold (receiveStep Q) .idle, w, evs, false⟩ =
      if Q.single then ⟨unfold (receiveStep Q) .closed, w, evs, false⟩
      else ⟨unfold (receiveStep Q) .idle, w, evs, true⟩ := by
  cases hSingle : Q.single with
  | true =>
    rw [Polled.poll_silent (by simp [receiveStep, h, hGone, hSingle])]
    simp [receiveStep, h, hGone]
  | false => rw [Polled.poll_ended (by simp [receiveStep, h, hGone, hSingle])]; rfl

theorem poll_holding (a : T) : Polled.poll ⟨unfold (receiveStep Q) (.holding a), w, evs, false⟩ =
    ⟨unfold (receiveStep Q) (if Q.single then .closed else .idle), w, evs ++ [.item a], false⟩ :=
  rfl

theorem poll_closed : Polled.poll ⟨unfold (receiveStep Q) .closed, w, evs, false⟩ =
    ⟨unfold (receiveStep Q) .closed, w, evs, true⟩ := rfl

end Polls

section Receive

variable {given : List T} {c c' : C} {a : T}

theorem Meets.receive (hQ : Q.Lawful Ok) (hOk : Ok c) (h : Meets Q .idle given c)
    (hReceive : Q.receive c = some (a, c')) : Meets Q (.holding a) given c' where
  received := by
    have hGiven : given = Q.received c := by simpa [Receiving.held] using h.received
    rw [hQ.receive_received hReceive, ← hGiven]
    rfl
  last hSingle := by
    obtain ⟨hGone, hSent⟩ := hQ.receive_single hSingle hOk hReceive
    refine ⟨(hQ.receive_gone hReceive).trans hGone, ?_⟩
    rw [hQ.receive_sent hReceive, hSent, hQ.receive_received hReceive]

theorem Meets.give (h : Meets Q (.holding a) given c) :
    Meets Q (if Q.single then .closed else .idle) (given ++ [a]) c := by
  have hReceived : given ++ [a] = Q.received c := h.received
  cases hSingle : Q.single with
  | true => exact ⟨by simpa [Receiving.held] using hReceived, fun _ => h.last hSingle⟩
  | false => exact ⟨by simpa [Receiving.held] using hReceived, fun hLast => hLast.elim⟩

/-- A receiver that found nothing and nobody is at the end. -/
theorem Meets.close (hQ : Q.Lawful Ok) (hOk : Ok c) (h : Meets Q .idle given c)
    (hReceive : Q.receive c = none) (hGone : Q.gone c = true) : Meets Q .closed given c where
  received := h.received
  last _ := ⟨hGone, (hQ.drained hOk hReceive).symm⟩

end Receive

/-- What a poll keeps. -/
theorem Stands.poll (hQ : Q.Lawful Ok) {s : Polled (Fed Q V) (Effect X E) T}
    (hOk : Ok s.world.channel) (h : Stands es value s) (hOpen : s.ended = false) :
    Stands es value s.poll ∧ Ok s.poll.world.channel ∧
      Q.Later s.world.channel s.poll.world.channel := by
  cases h with
  | effects done rest w hEs hNone =>
    cases rest with
    | nil =>
      obtain rfl : done = es := by simpa using hEs
      rw [poll_value]
      exact ⟨.receiving .idle [] w (by simp) ⟨hNone.symm, fun hLast => hLast.elim⟩, hOk, .refl _⟩
    | cons a rest =>
      have hUsed : Q.Used w.channel (Acts.act (Effect.by a) w).channel := act_used a w
      have hDone : (done ++ [a]) ++ rest = es := by simp [hEs]
      have hStands : Stands es value ⟨feeding Q rest value, Acts.act (Effect.by a) w,
          (done ++ [a]).map fun a => .effect (.by a), false⟩ :=
        .effects (done ++ [a]) rest _ hDone ((hUsed.received hQ).trans hNone)
      rw [List.map_append] at hStands
      rw [poll_feeding]
      exact ⟨hStands, hUsed.ok hQ hOk, hUsed.later hQ hOk⟩
  | receiving r l w hOnly hMeets =>
    cases r with
    | idle =>
      rcases hReceive : Q.receive w.channel with _ | ⟨a, c⟩
      · cases hGone : Q.gone w.channel with
        | false =>
          rw [poll_open hReceive hGone]
          exact ⟨.receiving .idle l w hOnly hMeets, hOk, .refl _⟩
        | true =>
          have hClosed := hMeets.close hQ hOk hReceive hGone
          rw [poll_gone hReceive hGone]
          cases Q.single with
          | true => exact ⟨.receiving .closed l w hOnly hClosed, hOk, .refl _⟩
          | false => exact ⟨.ended _ l w hOnly hClosed, hOk, .refl _⟩
      · have hHolding := hMeets.receive hQ hOk hReceive
        rw [poll_receive hReceive, List.append_assoc]
        refine ⟨.receiving (.holding a) (l ++ [.effect .receive]) _ ?_ ?_,
          hQ.receive_ok hOk hReceive, later_of_receive hQ hReceive⟩
        · simpa using hOnly
        · simpa [List.filterMap_cons, Event.item?] using hHolding
    | holding a =>
      rw [poll_holding, List.append_assoc]
      refine ⟨.receiving _ (l ++ [.item a]) w (by simpa using hOnly) ?_, hOk, .refl _⟩
      simpa [Event.item?] using hMeets.give
    | closed =>
      rw [poll_closed]
      exact ⟨.ended _ l w hOnly hMeets, hOk, .refl _⟩
  | ended => cases hOpen

theorem Stands.step (hQ : Q.Lawful Ok) {s t : Polled (Fed Q V) (Effect X E) T} {a : Turn (X ⊕ V)}
    (hOk : Ok s.world.channel) (h : Stands es value s) (hStep : Polled.step env s a = some t) :
    Ok t.world.channel ∧ Stands es value t := by
  cases a with
  | poll =>
    obtain ⟨hOpen, rfl⟩ : s.ended = false ∧ s.poll = t := by simpa [Polled.step] using hStep
    obtain ⟨hStands, hOk', -⟩ := h.poll hQ hOk hOpen
    exact ⟨hOk', hStands⟩
  | other x =>
    obtain ⟨w, hEnv, rfl⟩ := Option.map_eq_some_iff.mp hStep
    have hUsed := env_used hEnv
    exact ⟨hUsed.ok hQ hOk, h.used hQ hOk hUsed⟩

/-- Polls alone bring the stream to give all that was sent. -/
def Drains (value : T) (s : Polled (Fed Q V) (Effect X E) T) : Prop :=
  ∃ t, Polled.Polls env s t ∧ Q.Later s.world.channel t.world.channel ∧
    t.items = value :: Q.sent t.world.channel ∧ (t.ended = true ↔ Q.gone t.world.channel = true)

section Drain

variable {s : Polled (Fed Q V) (Effect X E) T}

theorem Drains.of_poll (hOpen : s.ended = false)
    (hLater : Q.Later s.world.channel s.poll.world.channel) (h : Drains value s.poll) :
    Drains value s := by
  obtain ⟨t, hPolls, hLater', hItems⟩ := h
  exact ⟨t, .cons (Polled.step_poll hOpen) hPolls, hLater.trans hLater', hItems⟩

omit [Acts E V] in
theorem items_effects (es : List (X ⊕ E)) :
    (es.map fun a => (.effect (.by a) : Event (Effect X E) T)).filterMap Event.item? = [] := by
  induction es with
  | nil => rfl
  | cons a es ih => exact ih

omit [Acts E V] in
/-- The items of a stream that has given `value`. -/
theorem items_receiving (es : List (X ⊕ E)) (value : T) (l : List (Event (Effect X E) T))
    (j : Strm (Fed Q V) (Effect X E) T) (w : Fed Q V) (ended : Bool) :
    Polled.items ⟨j, w, (es.map fun a => .effect (.by a)) ++ .item value :: l, ended⟩ =
      value :: l.filterMap Event.item? := by
  show List.filterMap Event.item? _ = _
  rw [List.filterMap_append, items_effects]
  rfl

omit [Acts E V] in
/-- What was given was sent, before anything else. -/
theorem Meets.given (hQ : Q.Lawful Ok) {r : Receiving T} {given : List T} {c : C} (hOk : Ok c)
    (h : Meets Q r given c) : value :: given <+: value :: Q.sent c := by
  have hReceived : given <+: Q.received c := ⟨r.held, h.received⟩
  exact (List.cons_prefix_cons).mpr ⟨rfl, hReceived.trans (hQ.received_sent hOk)⟩

theorem drains_ended {j : Strm (Fed Q V) (Effect X E) T} {l : List (Event (Effect X E) T)}
    {w : Fed Q V} (h : Meets Q .closed (l.filterMap Event.item?) w.channel) :
    Drains value ⟨j, w, (es.map fun a => .effect (.by a)) ++ .item value :: l, true⟩ := by
  obtain ⟨hGone, hSent⟩ := h.last trivial
  have hGiven : l.filterMap Event.item? = Q.received w.channel := by
    simpa [Receiving.held] using h.received
  exact ⟨_, .refl _, .refl _, by rw [items_receiving, hGiven, hSent], by simp [hGone]⟩

theorem drains_receiving (hQ : Q.Lawful Ok) {r : Receiving T} {l : List (Event (Effect X E) T)}
    {w : Fed Q V} (hOk : Ok w.channel) (h : Meets Q r (l.filterMap Event.item?) w.channel) :
    Drains value ⟨unfold (receiveStep Q) r, w,
      (es.map fun a => .effect (.by a)) ++ .item value :: l, false⟩ := by
  -- what is left to receive, and to give
  generalize hn : 2 * ((Q.sent w.channel).length - (Q.received w.channel).length) +
    r.held.length = n
  induction n using Nat.strong_induction_on generalizing r l w with
  | _ n ih =>
    cases r with
    | closed => exact .of_poll rfl (.refl _) (drains_ended h)
    | holding a =>
      refine .of_poll rfl (.refl _) ?_
      have hGive := h.give
      rw [poll_holding, List.append_assoc]
      cases hSingle : Q.single with
      | true =>
        rw [hSingle] at hGive
        refine .of_poll rfl (.refl _) (drains_ended (l := l ++ [.item a]) ?_)
        simpa [Event.item?] using hGive
      | false =>
        rw [hSingle] at hGive
        refine ih _ ?_ (l := l ++ [.item a]) hOk (by simpa [Event.item?] using hGive) rfl
        subst hn
        simp [Receiving.held]
    | idle =>
      rcases hReceive : Q.receive w.channel with _ | ⟨a, c⟩
      · have hGiven : l.filterMap Event.item? = Q.received w.channel := by
          simpa [Receiving.held] using h.received
        cases hGone : Q.gone w.channel with
        | false =>
          refine ⟨_, .refl _, .refl _, ?_, by simp [hGone]⟩
          rw [items_receiving, hGiven, hQ.drained hOk hReceive]
        | true =>
          have hClosed := h.close hQ hOk hReceive hGone
          refine .of_poll rfl ?_ ?_
          · rw [poll_gone hReceive hGone]
            cases Q.single <;> exact .refl _
          · rw [poll_gone hReceive hGone]
            cases Q.single with
            | true => exact .of_poll rfl (.refl _) (drains_ended hClosed)
            | false => exact drains_ended hClosed
      · obtain ⟨hReceived, hLe⟩ := receive_length hQ hOk hReceive
        refine .of_poll rfl ?_ ?_
        · rw [poll_receive hReceive]
          exact later_of_receive hQ hReceive
        · rw [poll_receive hReceive, List.append_assoc]
          refine ih _ ?_ (l := l ++ [.effect .receive]) (w := { w with channel := c })
            (hQ.receive_ok hOk hReceive) ?_ rfl
          · have hSent := hQ.receive_sent hReceive
            subst hn
            simp only [Receiving.held, List.length_singleton, List.length_nil]
            rw [hSent] at hLe ⊢
            omega
          · simpa [List.filterMap_cons, Event.item?] using h.receive hQ hOk hReceive

theorem drains_feeding (hQ : Q.Lawful Ok) {done rest : List (X ⊕ E)} {w : Fed Q V}
    (hOk : Ok w.channel) (hEs : done ++ rest = es) (hNone : Q.received w.channel = []) :
    Drains value ⟨feeding Q rest value, w, done.map fun a => .effect (.by a), false⟩ := by
  induction rest generalizing done w with
  | nil =>
    obtain rfl : done = es := by simpa using hEs
    refine .of_poll rfl (.refl _) ?_
    rw [poll_value]
    exact drains_receiving hQ (l := []) hOk ⟨hNone.symm, fun hLast => hLast.elim⟩
  | cons a rest ih =>
    have hUsed : Q.Used w.channel (Acts.act (Effect.by a) w).channel := act_used a w
    refine .of_poll rfl (hUsed.later hQ hOk) ?_
    have hDone : (done ++ [a]) ++ rest = es := by simp [hEs]
    have hRest := ih (hUsed.ok hQ hOk) hDone ((hUsed.received hQ).trans hNone)
    rwa [List.map_append] at hRest

theorem Stands.drains (hQ : Q.Lawful Ok) (hOk : Ok s.world.channel) (h : Stands es value s) :
    Drains value s := by
  cases h with
  | effects done rest w hEs hNone => exact drains_feeding hQ hOk hEs hNone
  | receiving r l w hOnly hMeets => exact drains_receiving hQ hOk hMeets
  | ended j l w hOnly hMeets => exact drains_ended hMeets

end Drain

/-- The stream that is fed delivers, in every state of every run from its start. -/
theorem feeding_delivers (hQ : Q.Lawful Ok) {s : Polled (Fed Q V) (Effect X E) T} {w : Fed Q V}
    {as : List (Turn (X ⊕ V))} (hOk : Ok w.channel) (hNone : Q.received w.channel = [])
    (hRun : run (Polled.step env) (.new (feeding Q es value) w) as = some s) :
    Delivers Q es value s := by
  have hStart : Stands es value (.new (feeding Q es value) w) := .effects [] es w rfl hNone
  have hStep (s : Polled (Fed Q V) (Effect X E) T) (a : Turn (X ⊕ V))
      (t : Polled (Fed Q V) (Effect X E) T) (h : Ok s.world.channel ∧ Stands es value s)
      (hStep : Polled.step env s a = some t) : Ok t.world.channel ∧ Stands es value t :=
    h.2.step hQ h.1 hStep
  obtain ⟨hOk, hStands⟩ := run_invariant hStep ⟨hOk, hStart⟩ hRun
  obtain ⟨t, hPolls, hLater, hItems, hEnded⟩ := hStands.drains hQ hOk
  have hEnds (hGone : Q.gone s.world.channel = true) : ∃ t, Polled.Polls env s t ∧
      t.ended = true ∧ t.items = value :: Q.sent s.world.channel := by
    obtain ⟨hGone', hSent⟩ := hLater.gone hGone
    exact ⟨t, hPolls, hEnded.mpr hGone', hSent ▸ hItems⟩
  have hDrains : ∃ t, Polled.Polls env s t ∧ Q.sent s.world.channel <+: Q.sent t.world.channel ∧
      t.items = value :: Q.sent t.world.channel ∧
      (t.ended = true ↔ Q.gone t.world.channel = true) := ⟨t, hPolls, hLater.sent, hItems, hEnded⟩
  cases hStands with
  | effects done rest w hEs hNone =>
    have hItems : Polled.items ⟨feeding Q rest value, w,
        done.map fun a => .effect (.by a), false⟩ = [] := items_effects done
    exact ⟨.inl ⟨done, ⟨rest, hEs⟩, rfl⟩, hItems ▸ List.nil_prefix, (fun hEnded => by cases hEnded),
      hDrains, hEnds⟩
  | receiving r l w hOnly hMeets =>
    refine ⟨.inr ⟨l, rfl, hOnly⟩, ?_, (fun hEnded => by cases hEnded), hDrains, hEnds⟩
    rw [items_receiving]
    exact hMeets.given hQ hOk
  | ended j l w hOnly hMeets =>
    obtain ⟨hGone, hSent⟩ := hMeets.last trivial
    have hGiven : l.filterMap Event.item? = Q.received w.channel := by
      simpa [Receiving.held] using hMeets.received
    refine ⟨.inr ⟨l, rfl, hOnly⟩, ?_, fun _ => ⟨?_, hGone⟩, hDrains, hEnds⟩
    · rw [items_receiving]
      exact hMeets.given hQ hOk
    · rw [items_receiving, hGiven, hSent]

/-- So does every stream that is weakly equal to it. -/
theorem delivers_of_weakEq (hQ : Q.Lawful Ok) {s : Polled (Fed Q V) (Effect X E) T} {w : Fed Q V}
    {i : Strm (Fed Q V) (Effect X E) T} {as : List (Turn (X ⊕ V))} (hOk : Ok w.channel)
    (hNone : Q.received w.channel = []) (h : i ≈ feeding Q es value)
    (hRun : run (Polled.step env) (.new i w) as = some s) : Delivers Q es value s := by
  obtain ⟨bs, t, hRun', hAlike⟩ := (Polled.Alike.new h w).run hRun
  have hT := feeding_delivers hQ hOk hNone hRun'
  have hBack {r : Polled (Fed Q V) (Effect X E) T} (hPolls : Polled.Polls env t r) :
      ∃ r', Polled.Polls env s r' ∧ Polled.Alike r r' := hAlike.symm.polls hPolls
  refine ⟨?_, ?_, ?_, ?_, ?_⟩
  · rw [hAlike.events]
    exact hT.effects
  · rw [hAlike.items, hAlike.world]
    exact hT.items
  · rw [hAlike.items, hAlike.world, hAlike.ended]
    exact hT.ended
  · obtain ⟨r, hPolls, hSent, hItems, hEnded⟩ := hT.drains
    obtain ⟨r', hPolls', hSame⟩ := hBack hPolls
    rw [hSame.items, hSame.world] at hItems
    rw [hSame.ended, hSame.world] at hEnded
    rw [← hAlike.world, hSame.world] at hSent
    exact ⟨r', hPolls', hSent, hItems, hEnded⟩
  · rw [hAlike.world]
    intro hGone
    obtain ⟨r, hPolls, hEnded, hItems⟩ := hT.ends hGone
    obtain ⟨r', hPolls', hSame⟩ := hBack hPolls
    exact ⟨r', hPolls', hSame.ended ▸ hEnded, hSame.items ▸ hItems⟩

end Proof

end Feed

end Polling
