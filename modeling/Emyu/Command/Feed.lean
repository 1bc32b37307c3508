import Emyu.Command.Monad
import Emyu.Lib.Channels

/-! `oneshot` and `channel`: the commands whose closure is given a sender. -/

universe u

namespace Emyu.Command

open Polling Fed

variable {Ctx T V E : Type u}

/-- `oneshot`: the channel was made with the command, and `f` has the sender. -/
def oneshot (F : Conversions (Fed (Polling.oneshot T) V) (Effect (Give T) E))
    (f : Ctx → Fed (Polling.oneshot T) V → List (Give T ⊕ E) × T) :
    Command Ctx (Fed (Polling.oneshot T) V) (Effect (Give T) E) T :=
  .some fun ctx w =>
    let (es, action) := f ctx w
    (es.map .by, F.chain (F.once (ready action))
      (F.filterMap (F.intoStream (receiver (Polling.oneshot T))) okFn))

/-- `channel`: the same with an `mpsc::channel(1)`, whose receiver is a stream. -/
def channel {ready : Nat → Fifo.Channel T → Nat → Bool}
    (F : Combinators (Fed (mpsc (ready 1)) V) (Effect (Use T) E))
    (f : Ctx → Fed (mpsc (ready 1)) V → List (Use T ⊕ E) × T) :
    Command Ctx (Fed (mpsc (ready 1)) V) (Effect (Use T) E) T :=
  stream F fun ctx w =>
    let (es, action) := f ctx w
    (es.map .by, F.chain (F.once (Polling.ready action)) (receiving (mpsc (ready 1))))

/-- A ready value in front of a stream. -/
theorem chain_once_ready {W : Type u} {F : Combinators W E} (hF : F.Documented) (value : T)
    {s t : Strm W E T} (h : s ≈ t) :
    F.chain (F.once (ready value)) s ≈ Mealy.cons (some (.item value)) t := by
  have hOnce : F.once (ready value) ≈ single value :=
    WeakEq.trans (hF.once _) (once_ready value)
  have hSingle : Polling.chain (single value) t ≈ Mealy.cons (some (.item value)) t :=
    WeakEq.of_step (fun _ => rfl) fun _ _ => chain_empty t
  calc
    F.chain (F.once (ready value)) s ≈ Polling.chain (F.once (ready value)) s := hF.chain _ _
    _ ≈ Polling.chain (single value) t := chain_congr hOnce h
    _ ≈ Mealy.cons (some (.item value)) t := hSingle

/-- The task of a command when it was polled once, which is when the closure is called. -/
def start {W : Type u} [Acts E W] (c : Command Ctx W E T) (ctx : Ctx) (w : W) : Polled W E T :=
  (Polled.new (c.task ctx) w).poll

theorem oneshot_stream {F : Conversions (Fed (Polling.oneshot T) V) (Effect (Give T) E)}
    (hF : F.Documented) (es : List (Give T ⊕ E)) (value : T) :
    emit (es.map .by) (F.chain (F.once (ready value))
      (F.filterMap (F.intoStream (receiver (Polling.oneshot T))) okFn)) ≈
        feeding (Polling.oneshot T) es value := by
  have hReceiver : F.filterMap (F.intoStream (receiver (Polling.oneshot T))) okFn ≈
      receiving (Polling.oneshot T) :=
    calc
      F.filterMap (F.intoStream (receiver (Polling.oneshot T))) okFn ≈
          filterMap (F.intoStream (receiver (Polling.oneshot T))) okFn := hF.filterMap _ _
      _ ≈ filterMap (once (receiver (Polling.oneshot T))) okFn :=
        flatMap_congr (hF.intoStream _) (.refl _)
      _ ≈ receiving (Polling.oneshot T) := receiver_receiving rfl
  exact emit_congr _ (chain_once_ready hF.toDocumented value hReceiver)

theorem channel_stream {ready : Nat → Fifo.Channel T → Nat → Bool}
    {F : Combinators (Fed (mpsc (ready 1)) V) (Effect (Use T) E)} (hF : F.Documented)
    (es : List (Use T ⊕ E)) (value : T) :
    emit (es.map .by) (F.chain (yielding F)
      (F.chain (F.once (Polling.ready value)) (receiving (mpsc (ready 1))))) ≈
        feeding (mpsc (ready 1)) es value :=
  emit_congr _ (WeakEq.trans (stream_weakEq hF _) (chain_once_ready hF value (.refl _)))

/-- `f` is called once, by the first poll of the task; whatever it, other tasks and clones of the
sender send, before the next poll or between any later ones, follows the value of `f`, each value
once and in the order sent, and the stream ends exactly when no sender is left and all was given.
For `oneshot` that is the fed value, if the sender sent one. -/
theorem feeds_deliver [Acts E V] {ready : Nat → Fifo.Channel T → Nat → Bool}
    {F : Conversions (Fed (Polling.oneshot T) V) (Effect (Give T) E)} (hF : F.Documented)
    {G : Combinators (Fed (mpsc (ready 1)) V) (Effect (Use T) E)} (hG : G.Documented)
    (f : Ctx → Fed (Polling.oneshot T) V → List (Give T ⊕ E) × T)
    (g : Ctx → Fed (mpsc (ready 1)) V → List (Use T ⊕ E) × T) (ctx : Ctx) (v : V) :
    (∀ as s, Runs.run (Polled.step env) ((oneshot F f).start ctx ⟨.held, v⟩) as = some s →
      Feed.Delivers (Polling.oneshot T) (f ctx ⟨.held, v⟩).1 (f ctx ⟨.held, v⟩).2 s) ∧
    (∀ as s, Runs.run (Polled.step env) ((channel G g).start ctx ⟨.new, v⟩) as = some s →
      Feed.Delivers (mpsc (ready 1)) (g ctx ⟨.new, v⟩).1 (g ctx ⟨.new, v⟩).2 s) := by
  constructor
  · intro as s hRun
    exact Feed.delivers_of_weakEq oneshot_lawful trivial rfl (oneshot_stream hF _ _) hRun
  · intro as s hRun
    exact Feed.delivers_of_weakEq mpsc_lawful .new rfl (channel_stream hG _ _) hRun

/-- A queue that takes a send while it is not over its one slot. -/
def oneSlot (_ : Nat) (c : Fifo.Channel Nat) (_ : Nat) : Bool := c.queue.length ≤ 1

/-- The closure sends 7 and clones its sender, and returns 1. -/
def sender (_ : Unit) (_ : Fed (mpsc (oneSlot 1)) Unit) : List (Use Nat ⊕ Unit) × Nat :=
  ([.inl (.call 0 7), .inl (.accept 0), .inl (.clone 0)], 1)

instance : Acts Unit Unit := ⟨fun _ w => w⟩

/-- A clone sends 8 before the receiver was polled, then one sender goes, and later the other. -/
def senders : List (Turn (Use Nat ⊕ Unit)) :=
  [.poll, .poll, .poll, .other (.inl (.call 1 8)), .other (.inl (.accept 1)),
    .other (.inl (.drop 0))] ++ List.replicate 8 .poll ++ [.other (.inl (.drop 1))] ++
    List.replicate 3 .poll

theorem feeds_deliver_clone : ∃ s, Runs.run (Polled.step env)
    ((channel .reference sender).start () ⟨.new, ()⟩) senders = some s ∧ s.items = [1, 7, 8] ∧
    s.ended = true ∧ Feed.Delivers (mpsc (oneSlot 1)) (sender () ⟨.new, ()⟩).1 1 s := by
  have hRun : Runs.run (Polled.step env) ((channel .reference sender).start () ⟨.new, ()⟩)
    senders = some _ := rfl
  have hDelivers := feeds_deliver Conversions.reference_documented Combinators.reference_documented
    (fun _ _ => ([.inl (.send 5)], 4)) sender () ()
  exact ⟨_, hRun, rfl, rfl, hDelivers.2 _ _ hRun⟩

end Emyu.Command
