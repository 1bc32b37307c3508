import Emyu.Command

/-! The monad laws of commands, on the traces that a command's task can leave while the rest of the
program acts on the world. -/

universe u

namespace Emyu.Command

open Polling

variable {Ctx W E T O P : Type u} {F : Combinators W E}

/-- The yield in front of every stream shows nowhere: pending once, then the unit item, which the
closure of `filter_map` drops. -/
theorem yielding_empty (hF : F.Documented) : (yielding F : Strm W E T) ≈ empty := by
  have hOnce : (yielding F : Strm W E T) ≈
      filterMap (once yieldNow) (.stateless fun _ => ([], ready none)) :=
    WeakEq.trans (hF.filterMap _ _) (flatMap_congr (hF.once _) (.refl _))
  refine WeakEq.trans hOnce ?_
  refine WeakEq.of_silent (fun _ => rfl) fun _ => ?_
  refine WeakEq.of_silent (fun _ => rfl) fun _ => ?_
  refine WeakEq.of_silent (fun _ => rfl) fun _ => ?_
  show flatMap (Mealy.unfold (awaitStep (T := PUnit) some) none)
    (Fn.map (awaiting id) (.stateless fun _ => ([], ready none))) ≈ (empty : Strm W E T)
  exact WeakEq.of_eq (by rw [awaiting_stop, flatMap_empty])

/-- The stream of `stream(f)` is that of `f`. -/
theorem stream_weakEq (hF : F.Documented) (s : Strm W E T) : F.chain (yielding F) s ≈ s := by
  calc
    F.chain (yielding F) s ≈ Polling.chain (yielding F) s := hF.chain _ _
    _ ≈ Polling.chain empty s := chain_congr (yielding_empty hF) (.refl _)
    _ ≈ s := chain_empty s

/-- `done(v)` emits `v` and ends. -/
theorem doneStream_single (hF : F.Documented) (v : T) :
    F.chain (yielding F) (F.once (ready v)) ≈ (single v : Strm W E T) := by
  have hOnce : F.once (ready v) ≈ (single v : Strm W E T) :=
    WeakEq.trans (hF.once _) (once_ready v)
  calc
    F.chain (yielding F) (F.once (ready v)) ≈
        Polling.chain (yielding F) (F.once (ready v)) := hF.chain _ _
    _ ≈ Polling.chain empty (single v) := chain_congr (yielding_empty hF) hOnce
    _ ≈ single v := chain_empty _

/-- A pure function as a closure. -/
def pureFn (f : T → Command Ctx W E O) : Fn W E T (Command Ctx W E O) :=
  .stateless fun i => ([], f i.1)

variable [Acts E W]

/-- With a pure `f` the closure of `then` only calls the closure of `f`'s command. -/
theorem bindFn_pureFn (f : T → Command Ctx W E O) (ctx : Ctx) :
    bindFn F (pureFn f) ctx = .stateless fun i => (f i.1).call F ctx i.2 := rfl

/-- The closure of `c.then(f)` is that of `c` with its stream flattened by `f`. -/
theorem call_then_ (hF : F.Documented) (c : Command Ctx W E T) (f : Fn W E T (Command Ctx W E O))
    (ctx : Ctx) (w : W) :
    ((c.then_ F f).call F ctx w).1 = (c.call F ctx w).1 ∧
    ((c.then_ F f).call F ctx w).2 ≈ flatMap (c.call F ctx w).2 (bindFn F f ctx) := by
  cases c with
  | some streamFn => exact ⟨rfl, hF.flatMap _ _⟩
  | none =>
    refine ⟨rfl, ?_⟩
    calc
      F.empty ≈ empty := hF.empty
      _ ≈ flatMap empty (bindFn F f ctx) := WeakEq.of_eq (flatMap_empty _).symm
      _ ≈ flatMap F.empty (bindFn F f ctx) := flatMap_congr (WeakEq.symm hF.empty) (.refl _)

variable {env : W → W → Prop} {ctx : Ctx} {w : W}

/-- The traces of nonempty commands are compared after their closures were called. -/
theorem trace_some_le {f g : Ctx → W → List E × Strm W E T}
    (h : ∀ w l, Trace env (emit (f ctx w).1 (f ctx w).2) w l →
      Trace env (emit (g ctx w).1 (g ctx w).2) w l) {l : List (Event E T)}
    (hTrace : l ∈ trace env (.some f) ctx w) : l ∈ trace env (.some g) ctx w :=
  Trace.under_silent (s := (Command.some f).task ctx) (t := (Command.some g).task ctx)
    (fun _ => rfl) (fun _ => rfl) h hTrace

theorem trace_some_congr {f g : Ctx → W → List E × Strm W E T}
    (h : ∀ w l, Trace env (emit (f ctx w).1 (f ctx w).2) w l ↔
      Trace env (emit (g ctx w).1 (g ctx w).2) w l) :
    trace env (.some f) ctx w = trace env (.some g) ctx w :=
  Set.ext fun _ => ⟨trace_some_le fun w l => (h w l).mp, trace_some_le fun w l => (h w l).mpr⟩

theorem trace_some_weakEq {f g : Ctx → W → List E × Strm W E T}
    (h : ∀ w, emit (f ctx w).1 (f ctx w).2 ≈ emit (g ctx w).1 (g ctx w).2) :
    trace env (.some f) ctx w = trace env (.some g) ctx w :=
  trace_some_congr fun w _ => ⟨fun hf => hf.weakEq (h w), fun hg => hg.weakEq (WeakEq.symm (h w))⟩

/-- The task of any command, `none()` included, is that of its `call`. -/
theorem trace_call (hF : F.Documented) (c : Command Ctx W E T) :
    trace env c ctx w = trace env (.some (c.call F)) ctx w := by
  cases c with
  | some f => rfl
  | none =>
    refine trace_congr env (WeakEq.symm ?_) w
    exact WeakEq.of_silent (fun _ => rfl) fun _ => hF.empty

/-- `done(v).then(f)` is `f(v)`: the trace of the last inner stream is the trace of the whole. -/
theorem trace_done_then_ (hF : F.Documented) (v : T) (f : T → Command Ctx W E O) :
    trace env ((done F v).then_ F (pureFn f)) ctx w = trace env (f v) ctx w := by
  have hStream (w : W) : F.flatMap (F.chain (yielding F) (F.once (ready v)))
      (bindFn F (pureFn f) ctx) ≈ flatMap (single v) (bindFn F (pureFn f) ctx) :=
    WeakEq.trans (hF.flatMap _ _) (flatMap_congr (doneStream_single hF v) (.refl _))
  have hLeft : trace env ((done F v).then_ F (pureFn f)) ctx w =
      {l | Trace env (flatMap (single v) (bindFn F (pureFn f) ctx)) w l} :=
    trace_congr env (WeakEq.of_silent (fun _ => rfl) hStream) w
  have hNext (w : W) (l : List (Event E O)) :
      Trace env ((flatMap (single v) (bindFn F (pureFn f) ctx)).next w) w l ↔
        Trace env (((Command.some ((f v).call F)).task ctx).next w) w l :=
    trace_flat_last env _ _ w l
  rw [hLeft, trace_call hF (f v)]
  refine Set.ext fun l => ⟨?_, ?_⟩
  · exact Trace.under_silent (fun _ => rfl) (fun _ => rfl) fun w l => (hNext w l).mp
  · exact Trace.under_silent (fun _ => rfl) (fun _ => rfl) fun w l => (hNext w l).mpr

/-- `c.then(done)` is `c`. -/
theorem trace_then_done (hF : F.Documented) (c : Command Ctx W E T) :
    trace env (c.then_ F (pureFn (done F))) ctx w = trace env c ctx w := by
  cases c with
  | none => rfl
  | some streamFn =>
    refine trace_some_congr fun w l => ?_
    have hSingles : FnEq (bindFn F (pureFn (done F)) ctx) (singles (W := W) (E := E) (T := T)) :=
      .stateless fun i => ⟨rfl, doneStream_single hF i.1⟩
    have hStream := emit_congr (streamFn ctx w).1
      (WeakEq.trans (hF.flatMap (streamFn ctx w).2 (bindFn F (pureFn (done F)) ctx))
        (flatMap_congr (.refl _) hSingles))
    rw [← emit_flatMap] at hStream
    rw [← trace_flatMap_singles env (emit (streamFn ctx w).1 (streamFn ctx w).2)]
    exact ⟨fun h => h.weakEq hStream, fun h => h.weakEq (WeakEq.symm hStream)⟩

/-- `c.then(f).then(g)` is `c.then(|x| f(x).then(g))`. -/
theorem trace_then_then_ (hF : F.Documented) (c : Command Ctx W E T) (f : T → Command Ctx W E O)
    (g : O → Command Ctx W E P) :
    trace env ((c.then_ F (pureFn f)).then_ F (pureFn g)) ctx w =
      trace env (c.then_ F (pureFn fun x => (f x).then_ F (pureFn g))) ctx w := by
  cases c with
  | none => rfl
  | some streamFn =>
    refine trace_some_weakEq fun w => emit_congr _ ?_
    have hCall : FnEq (.stateless fun i : T × W => (((f i.1).call F ctx i.2).1,
        flatMap ((f i.1).call F ctx i.2).2 (bindFn F (pureFn g) ctx)))
        (bindFn F (pureFn fun x => (f x).then_ F (pureFn g)) ctx) :=
      .stateless fun i => ⟨(call_then_ hF (f i.1) (pureFn g) ctx i.2).1.symm,
        WeakEq.symm (call_then_ hF (f i.1) (pureFn g) ctx i.2).2⟩
    calc
      F.flatMap (F.flatMap (streamFn ctx w).2 (bindFn F (pureFn f) ctx)) (bindFn F (pureFn g) ctx)
          ≈ flatMap (F.flatMap (streamFn ctx w).2 (bindFn F (pureFn f) ctx))
              (bindFn F (pureFn g) ctx) := hF.flatMap _ _
      _ ≈ flatMap (flatMap (streamFn ctx w).2 (bindFn F (pureFn f) ctx))
            (bindFn F (pureFn g) ctx) := flatMap_congr (hF.flatMap _ _) (.refl _)
      _ ≈ flatMap (streamFn ctx w).2 (.stateless fun i => (((f i.1).call F ctx i.2).1,
            flatMap ((f i.1).call F ctx i.2).2 (bindFn F (pureFn g) ctx)))  :=
        WeakEq.of_eq (by rw [bindFn_pureFn, bindFn_pureFn, flatMap_assoc])
      _ ≈ flatMap (streamFn ctx w).2 (bindFn F (pureFn fun x => (f x).then_ F (pureFn g)) ctx) :=
        flatMap_congr (.refl _) hCall
      _ ≈ F.flatMap (streamFn ctx w).2
            (bindFn F (pureFn fun x => (f x).then_ F (pureFn g)) ctx) :=
        WeakEq.symm (hF.flatMap _ _)

/-- Commands are a monad on traces, whatever else acts on the world meanwhile. -/
theorem trace_monad (hF : F.Documented) (env : W → W → Prop) (ctx : Ctx) (w : W) :
    (∀ (v : T) (f : T → Command Ctx W E O),
      trace env ((done F v).then_ F (pureFn f)) ctx w = trace env (f v) ctx w) ∧
    (∀ c : Command Ctx W E T, trace env (c.then_ F (pureFn (done F))) ctx w = trace env c ctx w) ∧
    (∀ (c : Command Ctx W E T) (f : T → Command Ctx W E O) (g : O → Command Ctx W E P),
      trace env ((c.then_ F (pureFn f)).then_ F (pureFn g)) ctx w =
        trace env (c.then_ F (pureFn fun x => (f x).then_ F (pureFn g))) ctx w) ∧
    (∀ f : Fn W E T (Command Ctx W E O),
      (Command.none : Command Ctx W E T).then_ F f = Command.none) :=
  ⟨trace_done_then_ hF, trace_then_done hF, trace_then_then_ hF, fun _ => rfl⟩

/-- A world that counts. -/
instance : Acts Unit Nat := ⟨fun _ w => w + 1⟩

/-- Counts, then emits `n` and the count its closure saw. -/
def counting (n : Nat) : Command Unit Nat Unit (Nat × Nat) :=
  .some fun _ w => ([()], single (n, w))

theorem trace_monad_counting :
    [.effect (), .item (2, 0), .ended] ∈ trace (fun _ _ => False) (counting 2) () 0 ∧
    trace (fun _ _ => False) ((done .reference 2).then_ .reference (pureFn counting)) () 0 =
      trace (fun _ _ => False) (counting 2) () 0 :=
  ⟨.silent rfl (.event rfl (by simp) (.event rfl (by simp) (.ended rfl))),
    (trace_monad (P := Nat) Combinators.reference_documented (fun _ _ => False) () 0).1 2 counting⟩

end Emyu.Command
