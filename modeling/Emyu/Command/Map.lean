import Emyu.Command.Monad
import Emyu.Lib.Fusion

/-! `map`, which makes a command of every result, beside `run` and `perform`, which map within the
stream or future. -/

universe u

namespace Emyu.Command

open Polling

variable {Ctx W E A T O P : Type u} {F : Adapters W E}

instance : Coe (Adapters W E) (Combinators W E) := ⟨Adapters.toCombinators⟩

/-- `run`. -/
def run (F : Adapters W E) (streamFn : Ctx → W → List E × Strm W E A) (f : Fn W E A T) :
    Command Ctx W E T :=
  stream F fun ctx w => ((streamFn ctx w).1, F.map (streamFn ctx w).2 f)

/-- `perform`, with the closure called at most once. -/
def perform (F : Adapters W E) (futFn : Ctx → W → List E × Fut W E A)
    (f : A × W → List E × T) : Command Ctx W E T :=
  future F fun ctx w => ((futFn ctx w).1, F.futMap (futFn ctx w).2 f)

variable [Acts E W]

/-- `map`: `then(|output| done(f(output)))`. -/
def map (F : Combinators W E) (c : Command Ctx W E T) (f : Fn W E T O) : Command Ctx W E O :=
  c.then_ F (f.map (done F))

/-- The closure that `map` gives to `flat_map` gives the one-item streams of `f`'s results. -/
theorem bindFn_map (hF : F.Documented) (f : Fn W E T O) (ctx : Ctx) :
    FnEq (bindFn F (f.map (done F)) ctx) (f.map single) :=
  fun _ _ => ⟨List.append_nil _, doneStream_single hF.toDocumented _⟩

theorem flatMap_bindFn_map (hF : F.Documented) (s : Strm W E T) (f : Fn W E T O) (ctx : Ctx) :
    F.flatMap s (bindFn F (f.map (done F)) ctx) ≈ Polling.map s f := by
  calc
    F.flatMap s (bindFn F (f.map (done F)) ctx) ≈
        flatMap s (bindFn F (f.map (done F)) ctx) := hF.flatMap _ _
    _ ≈ flatMap s (f.map single) := flatMap_congr (.refl _) (bindFn_map hF f ctx)
    _ ≈ Polling.map s f := flatMap_map_single s f

variable {env : W → W → Prop} {ctx : Ctx} {w : W}

omit [Acts E W] in
/-- Mapping within the stream flattens the one-item streams of `f`'s results. -/
theorem run_weakEq (hF : F.Documented) (streamFn : Ctx → W → List E × Strm W E A)
    (f : Fn W E A T) :
    ((run F streamFn f).call F ctx w).2 ≈ flatMap (streamFn ctx w).2 (f.map single) := by
  calc
    F.chain (yielding F) (F.map (streamFn ctx w).2 f) ≈ F.map (streamFn ctx w).2 f :=
      stream_weakEq hF.toDocumented _
    _ ≈ Polling.map (streamFn ctx w).2 f := hF.map _ _
    _ ≈ flatMap (streamFn ctx w).2 (f.map single) := WeakEq.symm (flatMap_map_single _ _)

theorem map_weakEq (hF : F.Documented) (streamFn : Ctx → W → List E × Strm W E A)
    (f : Fn W E A T) :
    ((map F (stream F streamFn) f).call F ctx w).2 ≈
      flatMap (streamFn ctx w).2 (f.map single) := by
  calc
    F.flatMap (F.chain (yielding F) (streamFn ctx w).2) (bindFn F (f.map (done F)) ctx) ≈
        flatMap (F.chain (yielding F) (streamFn ctx w).2) (bindFn F (f.map (done F)) ctx) :=
      hF.flatMap _ _
    _ ≈ flatMap (streamFn ctx w).2 (f.map single) :=
      flatMap_congr (stream_weakEq hF.toDocumented _) (bindFn_map hF f ctx)

/-- `run(s, f)` leaves the traces of `stream(s).map(f)`. -/
theorem trace_run (hF : F.Documented) (streamFn : Ctx → W → List E × Strm W E A)
    (f : Fn W E A T) :
    trace env (run F streamFn f) ctx w = trace env (map F (stream F streamFn) f) ctx w :=
  trace_some_weakEq fun _ => emit_congr _
    (WeakEq.trans (run_weakEq hF streamFn f) (WeakEq.symm (map_weakEq hF streamFn f)))

/-- The runs of both are those of `s` with each item replaced by what one call of `f` does and
gives, call after call. -/
theorem mem_behaviours_map (hF : F.Documented) (streamFn : Ctx → W → List E × Strm W E A)
    (f : Fn W E A T) (l : List (W × Event E T)) (e : Bool) :
    ((l, e) ∈ behaviours ((run F streamFn f).call F ctx w).2 ↔
      ∃ ls, (ls, e) ∈ behaviours (streamFn ctx w).2 ∧ Flattens (f.map single) ls e l) ∧
    ((l, e) ∈ behaviours ((map F (stream F streamFn) f).call F ctx w).2 ↔
      ∃ ls, (ls, e) ∈ behaviours (streamFn ctx w).2 ∧ Flattens (f.map single) ls e l) := by
  rw [behaviours_congr (run_weakEq hF streamFn f), behaviours_congr (map_weakEq hF streamFn f)]
  exact ⟨mem_behaviours_flatMap, mem_behaviours_flatMap⟩

/-- `perform(s, f)` leaves the traces of `future(s).map(f)`. -/
theorem trace_perform (hF : F.Documented) (futFn : Ctx → W → List E × Fut W E A)
    (f : Fn W E A T) :
    trace env (perform F futFn f.head) ctx w = trace env (map F (future F futFn) f) ctx w := by
  refine trace_some_weakEq fun w => emit_congr _ ?_
  have hOnce : F.once (futFn ctx w).2 ≈ once (futFn ctx w).2 := hF.once _
  calc
    F.chain (yielding F) (F.once (F.futMap (futFn ctx w).2 f.head)) ≈
        F.once (F.futMap (futFn ctx w).2 f.head) := stream_weakEq hF.toDocumented _
    _ ≈ once (F.futMap (futFn ctx w).2 f.head) := hF.once _
    _ ≈ once (futMap (futFn ctx w).2 f.head) := hF.futMap _ _
    _ ≈ flatMap (once (futFn ctx w).2) (f.map single) :=
      WeakEq.symm (flatMap_once_map_single _ f)
    _ ≈ flatMap (F.once (futFn ctx w).2) (f.map single) :=
      flatMap_congr (WeakEq.symm hOnce) (.refl _)
    _ ≈ ((map F (future F futFn) f).call F ctx w).2 :=
      WeakEq.symm (map_weakEq hF (fun ctx w => ((futFn ctx w).1, F.once (futFn ctx w).2)) f)

/-- `c.map(f).map(g)` leaves the traces of `c.map(|x| g(f(x)))`. -/
theorem trace_map_map (hF : F.Documented) (c : Command Ctx W E T) (f : Fn W E T O)
    {g : Fn W E O P} (hg : g.Unchanged env) :
    trace env (map F (map F c f) g) ctx w = trace env (map F c (g.after f)) ctx w := by
  cases c with
  | none => rfl
  | some streamFn =>
    refine trace_some_congr fun w l => ?_
    set s := (streamFn ctx w).2
    have hTwice : F.flatMap (F.flatMap s (bindFn F (f.map (done F)) ctx))
        (bindFn F (g.map (done F)) ctx) ≈ Polling.map (Polling.map s f) g :=
      WeakEq.trans (flatMap_bindFn_map hF _ g ctx) (map_congr (flatMap_bindFn_map hF s f ctx) g)
    have hOnce := flatMap_bindFn_map hF s (g.after f) ctx
    have hFused := Polling.trace_map_map hg (emit (streamFn ctx w).1 s) w l (f := f)
    rw [emit_map, emit_map, emit_map] at hFused
    constructor
    · intro h
      exact (hFused.mp (h.weakEq (emit_congr _ hTwice))).weakEq (emit_congr _ (WeakEq.symm hOnce))
    · intro h
      exact (hFused.mpr (h.weakEq (emit_congr _ hOnce))).weakEq (emit_congr _ (WeakEq.symm hTwice))

/-- The closure that gives back its argument. -/
def identity : Fn W E T T := .stateless fun i => ([], i.1)

/-- Mapping by `map` agrees with mapping within the stream or future, fuses, and does nothing for
the identity, whatever else acts on the world. In `c.map(f).map(g)` the closure `g` is called a
turn after `f`, so to fuse them the others have to leave alone what `g` reads: they do when there
are none, and when `g` looks at nothing but its argument and its own state. -/
theorem map_agrees (hF : F.Documented) (env : W → W → Prop) (ctx : Ctx) (w : W) :
    (∀ (streamFn : Ctx → W → List E × Strm W E A) (f : Fn W E A T),
      trace env (run F streamFn f) ctx w = trace env (map F (stream F streamFn) f) ctx w) ∧
    (∀ (streamFn : Ctx → W → List E × Strm W E A) (f : Fn W E A T) l e,
      ((l, e) ∈ behaviours ((run F streamFn f).call F ctx w).2 ↔
        ∃ ls, (ls, e) ∈ behaviours (streamFn ctx w).2 ∧ Flattens (f.map single) ls e l) ∧
      ((l, e) ∈ behaviours ((map F (stream F streamFn) f).call F ctx w).2 ↔
        ∃ ls, (ls, e) ∈ behaviours (streamFn ctx w).2 ∧ Flattens (f.map single) ls e l)) ∧
    (∀ (futFn : Ctx → W → List E × Fut W E A) (f : Fn W E A T),
      trace env (perform F futFn f.head) ctx w = trace env (map F (future F futFn) f) ctx w) ∧
    (∀ (c : Command Ctx W E T) (f : Fn W E T O) (g : Fn W E O P), g.Unchanged env →
      trace env (map F (map F c f) g) ctx w = trace env (map F c (g.after f)) ctx w) ∧
    ((∀ w w', ¬env w w') → ∀ (c : Command Ctx W E T) (f : Fn W E T O) (g : Fn W E O P),
      trace env (map F (map F c f) g) ctx w = trace env (map F c (g.after f)) ctx w) ∧
    (∀ (c : Command Ctx W E T) (f : Fn W E T O) (g : OwnFn E O P),
      trace env (map F (map F c f) g.toFn) ctx w =
        trace env (map F c (Fn.after g.toFn f)) ctx w) ∧
    (∀ c : Command Ctx W E T, trace env (map F c identity) ctx w = trace env c ctx w) :=
  ⟨trace_run hF, mem_behaviours_map hF, trace_perform hF, fun c f _ hg => trace_map_map hF c f hg,
    fun hAlone c f g => trace_map_map hF c f (.alone hAlone g),
    fun c f g => trace_map_map hF c f (g.unchanged env), trace_then_done hF.toDocumented⟩

/-- Numbers the items, one tick of the world for each call. -/
def numbering : Fn Nat Unit Nat (Nat × Nat) := ⟨fun past i => ([()], (past.length, i.1))⟩

/-- Adds the ticks that it finds. -/
def addTicks : Fn Nat Unit (Nat × Nat) Nat := .stateless fun i => ([], i.1.2 + i.2)

/-- The items 7 and 8. -/
def sevenEight : Unit → Nat → List Unit × Strm Nat Unit Nat :=
  fun _ _ => ([], .cons (some (.item 7)) (single 8))

/-- Two closures that share the ticks, when nobody else ticks: the second one finds those of the
calls of the first one before it. -/
theorem map_agrees_numbering :
    [.effect (), .item 8, .effect (), .item 10, .ended] ∈ trace (fun _ _ => False)
      (run .reference sevenEight (addTicks.after numbering)) () 0 ∧
    trace (fun _ _ => False) (map .reference
        (map .reference (stream .reference sevenEight) numbering) addTicks) () 0 =
      trace (fun _ _ => False) (run .reference sevenEight (addTicks.after numbering)) () 0 := by
  have h := map_agrees (A := Nat) (E := Unit) (T := Nat) (O := Nat × Nat) (P := Nat)
    Adapters.reference_documented (fun _ _ => False) () 0
  have hFused := h.2.2.2.2.1 (fun _ _ hNobody => hNobody) (stream .reference sevenEight) numbering
    addTicks
  refine ⟨?_, hFused.trans (h.1 sevenEight (addTicks.after numbering)).symm⟩
  -- the first poll, the yield, and the item that is dropped there
  refine .silent rfl (.silent rfl (.silent rfl (.silent rfl (.silent rfl ?_))))
  refine .silent rfl (.event rfl (by simp) (.event rfl (by simp) ?_))
  exact .silent rfl (.event rfl (by simp) (.event rfl (by simp) (.ended rfl)))

end Emyu.Command
