import Emyu.Command.Collect
import Emyu.Lib.Delay

/-! Commands of options and of results: `and_then` and `map_err`, and the laws of an error monad,
item by item. -/

universe u

namespace Emyu.Command

open Polling Mealy

variable {Ctx W E T A B O X X' : Type u} {F : Adapters W E} [Acts E W]

/-- `and_then` of a command of options: `option.map_or_else(Command::none, &f)`. -/
def optionAndThen (F : Combinators W E) (c : Command Ctx W E (Option T))
    (f : Fn W E T (Command Ctx W E A)) : Command Ctx W E A :=
  c.then_ F (f.orElse fun i => match i.1 with
    | none => .inl ([], Command.none)
    | some x => .inr x)

/-- `and_then` of a command of results: `result.map_or_else(|error| done(Err(error)), &f)`. -/
def resultAndThen (F : Combinators W E) (c : Command Ctx W E (Except X T))
    (f : Fn W E T (Command Ctx W E (Except X A))) : Command Ctx W E (Except X A) :=
  c.then_ F (f.orElse fun i => match i.1 with
    | .error error => .inl ([], done F (.error error))
    | .ok x => .inr x)

/-- `map_err`. -/
def mapErr (F : Combinators W E) (c : Command Ctx W E (Except X T)) (f : Fn W E X X') :
    Command Ctx W E (Except X' T) :=
  map F c ((f.map .error).orElse fun i => match i.1 with
    | .error error => .inr error
    | .ok x => .inl ([], .ok x))

omit [Acts E W] in
/-- A pure function as a closure. -/
def lift (f : T → A) : Fn W E T A := .stateless fun i => ([], f i.1)

/-- What `and_then` with a pure `f` does with a result. -/
def onOk (F : Combinators W E) (f : T → Command Ctx W E (Except X A)) :
    Except X T → Command Ctx W E (Except X A)
  | .error error => done F (.error error)
  | .ok x => f x

theorem resultAndThen_lift (c : Command Ctx W E (Except X T))
    (f : T → Command Ctx W E (Except X A)) :
    resultAndThen F c (lift f) = c.then_ F (pureFn (onOk F f)) := by
  refine congrArg (c.then_ F) (Mealy.ext ?_)
  funext past i
  obtain ⟨_ | _, w⟩ := i <;> rfl

theorem mapErr_lift (c : Command Ctx W E (Except X T)) (f : X → X') :
    mapErr F c (lift f) = c.then_ F (pureFn fun r => done F (r.mapError f)) := by
  refine congrArg (c.then_ F) (Mealy.ext ?_)
  funext past i
  obtain ⟨_ | _, w⟩ := i <;> rfl

/-! ### Replacing the commands under `then` -/

/-- A command whose one item `f` turns into `done(y)` gives `y`. -/
theorem done_then_done (hF : F.Documented) {v : T} {y : O} {f : T → Command Ctx W E O}
    (hf : f v = done F y) (ctx : Ctx) (w : W) :
    (((done F v).then_ F (pureFn f)).call F ctx w).1 = [] ∧
    (((done F v).then_ F (pureFn f)).call F ctx w).2 ≈ single y := by
  have hCall := call_then_ hF.toDocumented (done F v) (pureFn f) ctx w
  refine ⟨hCall.1, ?_⟩
  calc
    (((done F v).then_ F (pureFn f)).call F ctx w).2 ≈
        flatMap (F.chain (yielding F) (F.once (ready v))) (bindFn F (pureFn f) ctx) := hCall.2
    _ ≈ flatMap (single v) (bindFn F (pureFn f) ctx) :=
      flatMap_congr (doneStream_single hF.toDocumented v) (.refl _)
    _ ≈ single y := by
      refine flatMap_single fun w => ?_
      rw [bindFn_pureFn, head_stateless, hf]
      exact ⟨rfl, doneStream_single hF.toDocumented y⟩

variable {env : W → W → Prop} {ctx : Ctx} {w : W}

/-- `then` looks at nothing but what the closures of the commands do and give. -/
theorem trace_then_congr (hF : F.Documented) (c : Command Ctx W E T) {f g : T → Command Ctx W E O}
    (h : ∀ x w, ((f x).call F ctx w).1 = ((g x).call F ctx w).1 ∧
      ((f x).call F ctx w).2 ≈ ((g x).call F ctx w).2) :
    trace env (c.then_ F (pureFn f)) ctx w = trace env (c.then_ F (pureFn g)) ctx w := by
  obtain rfl | ⟨streamFn, rfl⟩ := c.none_or_some
  · rfl
  refine trace_some_weakEq fun w => emit_congr _ ?_
  have hFn : FnEq (bindFn F (pureFn f) ctx) (bindFn F (pureFn g) ctx) :=
    .stateless fun i => h i.1 i.2
  calc
    F.flatMap (streamFn ctx w).2 (bindFn F (pureFn f) ctx) ≈
        flatMap (streamFn ctx w).2 (bindFn F (pureFn f) ctx) := hF.flatMap _ _
    _ ≈ flatMap (streamFn ctx w).2 (bindFn F (pureFn g) ctx) := flatMap_congr (.refl _) hFn
    _ ≈ F.flatMap (streamFn ctx w).2 (bindFn F (pureFn g) ctx) := WeakEq.symm (hF.flatMap _ _)

/-- What `c.then(|x| g(j(x)))` and `c.then(|x| done(j(x)).then(g))` do after `c`'s closure. -/
theorem then_delayed (hF : F.Documented) (streamFn : Ctx → W → List E × Strm W E T) (j : T → A)
    (g : A → Command Ctx W E O) (ctx : Ctx) (w : W) :
    F.flatMap (streamFn ctx w).2 (bindFn F (pureFn fun x => g (j x)) ctx) ≈
      flatMap (streamFn ctx w).2 (direct j fun i => (g i.1).call F ctx i.2) ∧
    F.flatMap (streamFn ctx w).2
        (bindFn F (pureFn fun x => (done F (j x)).then_ F (pureFn g)) ctx) ≈
      flatMap (streamFn ctx w).2 (delayed j fun i => (g i.1).call F ctx i.2) := by
  refine ⟨hF.flatMap _ _, ?_⟩
  have hFn : FnEq (bindFn F (pureFn fun x => (done F (j x)).then_ F (pureFn g)) ctx)
      (delayed j fun i => (g i.1).call F ctx i.2) := by
    refine .stateless fun i => ?_
    have hCall := call_then_ hF.toDocumented (done F (j i.1)) (pureFn g) ctx i.2
    refine ⟨hCall.1, WeakEq.trans hCall.2 ?_⟩
    exact flatMap_congr (doneStream_single hF.toDocumented _) (.refl _)
  exact WeakEq.trans (hF.flatMap _ _) (flatMap_congr (.refl _) hFn)

/-- `done(j(x)).then(g)` calls the closure of `g`'s command a turn after that of `g(j(x))` is
called: what is left at once can be left then. -/
theorem trace_then_done_then_le (hF : F.Documented) (c : Command Ctx W E T) (j : T → A)
    (g : A → Command Ctx W E O) :
    trace env (c.then_ F (pureFn fun x => g (j x))) ctx w ⊆
      trace env (c.then_ F (pureFn fun x => (done F (j x)).then_ F (pureFn g))) ctx w := by
  obtain rfl | ⟨streamFn, rfl⟩ := c.none_or_some
  · exact subset_rfl
  refine fun l => trace_some_le fun w l h => ?_
  obtain ⟨hDirect, hDelayed⟩ := then_delayed hF streamFn j g ctx w
  have hOuter := h.weakEq (emit_congr _ hDirect)
  rw [← emit_flatMap] at hOuter
  have hLate := trace_delayed hOuter
  rw [emit_flatMap] at hLate
  exact hLate.weakEq (emit_congr _ (WeakEq.symm hDelayed))

/-- When the closure of `g`'s command does the same a turn later, so does the whole. -/
theorem trace_then_done_then (hF : F.Documented) (c : Command Ctx W E T) (j : T → A)
    (g : A → Command Ctx W E O)
    (hg : ∀ y w w', env w w' → (g y).call F ctx w = (g y).call F ctx w') :
    trace env (c.then_ F (pureFn fun x => (done F (j x)).then_ F (pureFn g))) ctx w =
      trace env (c.then_ F (pureFn fun x => g (j x))) ctx w := by
  refine (trace_then_done_then_le hF c j g).antisymm' ?_
  obtain rfl | ⟨streamFn, rfl⟩ := c.none_or_some
  · exact subset_rfl
  refine fun l => trace_some_le fun w l h => ?_
  obtain ⟨hDirect, hDelayed⟩ := then_delayed hF streamFn j g ctx w
  have hOuter := h.weakEq (emit_congr _ hDelayed)
  rw [← emit_flatMap] at hOuter
  have hAtOnce := (trace_delayed_iff hg).mp hOuter
  rw [emit_flatMap] at hAtOnce
  exact hAtOnce.weakEq (emit_congr _ (WeakEq.symm hDirect))

/-! ### The laws -/

/-- What `c.and_then(f)` has given: for each result that `c` gave, in order, the outputs of `f`'s
command for an `Ok`, and the one error again for an `Err`. -/
theorem mem_outputs_and_then (hF : F.Documented) (c : Command Ctx W E (Except X T))
    (f : T → Command Ctx W E (Except X A)) (ctx : Ctx) (w : W) (ys : List (Except X A))
    (e : Bool) :
    (ys, e) ∈ outputs ((resultAndThen F c (lift f)).call F ctx w).2 ↔
      ∃ ls, (ls, e) ∈ behaviours (c.call F ctx w).2 ∧
        Pieces (fun w r => match r with
          | .ok x => outputs ((f x).call F ctx w).2
          | .error error => outputs (single (.error error) : Strm W E (Except X A)))
          (timedItems ls) e ys := by
  have hOutputs : (fun (w : W) (r : Except X T) => match r with
      | .ok x => outputs ((f x).call F ctx w).2
      | .error error => outputs (single (.error error) : Strm W E (Except X A))) =
      fun w r => outputs ((onOk F f r).call F ctx w).2 := by
    funext w r
    cases r with
    | error error => exact (outputs_congr (doneStream_single hF.toDocumented _)).symm
    | ok x => rfl
  rw [resultAndThen_lift, mem_outputs_then hF, hOutputs]

theorem trace_and_then_assoc (hF : F.Documented) (c : Command Ctx W E (Except X T))
    (f : T → Command Ctx W E (Except X A)) (g : A → Command Ctx W E (Except X B)) :
    trace env (resultAndThen F (resultAndThen F c (lift f)) (lift g)) ctx w =
      trace env (resultAndThen F c (lift fun x => resultAndThen F (f x) (lift g))) ctx w := by
  simp only [resultAndThen_lift]
  rw [trace_then_then_ hF.toDocumented]
  refine trace_then_congr hF c fun r w => ?_
  cases r with
  | ok x => exact ⟨rfl, .refl _⟩
  | error error =>
    -- the error passes both closures
    obtain ⟨hEffects, hStream⟩ := done_then_done (v := (.error error : Except X A))
      (f := onOk F g) hF rfl ctx w
    exact ⟨hEffects, WeakEq.trans hStream (WeakEq.symm (doneStream_single hF.toDocumented _))⟩

theorem trace_and_then_ok (hF : F.Documented) (c : Command Ctx W E (Except X T)) :
    trace env (resultAndThen F c (lift fun x => done F (.ok x))) ctx w = trace env c ctx w := by
  have hDone : onOk F (fun x : T => (done F (.ok x) : Command Ctx W E (Except X T))) = done F := by
    funext r
    cases r <;> rfl
  rw [resultAndThen_lift, hDone, trace_then_done hF.toDocumented]

/-- Mapping the errors under `and_then`, on the errors themselves and on those of `f`'s commands. -/
theorem trace_and_then_map_err_under (hF : F.Documented) (c : Command Ctx W E (Except X T))
    (f : T → Command Ctx W E (Except X A)) (h : X → X') :
    trace env (mapErr F (resultAndThen F c (lift f)) (lift h)) ctx w =
      trace env (c.then_ F (pureFn fun r =>
        onOk F (fun x => mapErr F (f x) (lift h)) (r.mapError h))) ctx w := by
  rw [mapErr_lift, resultAndThen_lift, trace_then_then_ hF.toDocumented]
  refine trace_then_congr hF c fun r w => ?_
  cases r with
  | ok x =>
    have hOk : onOk F (fun x => mapErr F (f x) (lift h)) ((.ok x : Except X T).mapError h) =
        (f x).then_ F (pureFn fun r => done F (r.mapError h)) := mapErr_lift _ _
    rw [hOk]
    exact ⟨rfl, .refl _⟩
  | error error =>
    obtain ⟨hEffects, hStream⟩ := done_then_done (v := (.error error : Except X A))
      (f := fun r => done F (r.mapError h)) hF rfl ctx w
    exact ⟨hEffects, WeakEq.trans hStream (WeakEq.symm (doneStream_single hF.toDocumented _))⟩

theorem map_err_and_then (hF : F.Documented) (c : Command Ctx W E (Except X T))
    (f : T → Command Ctx W E (Except X' A)) (h : X → X') :
    trace env (resultAndThen F (mapErr F c (lift h)) (lift f)) ctx w =
      trace env (c.then_ F (pureFn fun r =>
        (done F (r.mapError h)).then_ F (pureFn (onOk F f)))) ctx w := by
  rw [mapErr_lift, resultAndThen_lift, trace_then_then_ hF.toDocumented]

/-- `c.map_err(h).and_then(|x| f(x).map_err(h))` calls the closure of `f`'s command a turn later
than `c.and_then(f).map_err(h)`, so it can leave what that leaves. -/
theorem trace_map_err_le (hF : F.Documented) (c : Command Ctx W E (Except X T))
    (f : T → Command Ctx W E (Except X A)) (h : X → X') :
    trace env (mapErr F (resultAndThen F c (lift f)) (lift h)) ctx w ⊆
      trace env (resultAndThen F (mapErr F c (lift h))
        (lift fun x => mapErr F (f x) (lift h))) ctx w := by
  rw [trace_and_then_map_err_under hF, map_err_and_then hF]
  exact trace_then_done_then_le hF c (Except.mapError h) _

/-- And it leaves nothing else where the closures of `f`'s commands do the same a turn later. -/
theorem trace_map_err (hF : F.Documented) (c : Command Ctx W E (Except X T))
    (f : T → Command Ctx W E (Except X A)) (h : X → X')
    (hf : ∀ x w w', env w w' → (f x).call F ctx w = (f x).call F ctx w') :
    trace env (mapErr F (resultAndThen F c (lift f)) (lift h)) ctx w =
      trace env (resultAndThen F (mapErr F c (lift h))
        (lift fun x => mapErr F (f x) (lift h))) ctx w := by
  rw [trace_and_then_map_err_under hF, map_err_and_then hF]
  refine (trace_then_done_then hF c (Except.mapError h) _ fun r w w' hMove => ?_).symm
  cases r with
  | error error => rfl
  | ok x =>
    have hCall := hf x w w' hMove
    simp only [onOk, mapErr_lift]
    obtain hNone | ⟨streamFn, hSome⟩ := (f x).none_or_some
    · rw [hNone]
      rfl
    · rw [hSome] at hCall ⊢
      show (((streamFn ctx w).1, _) : List E × Strm W E (Except X' A)) = _
      rw [show streamFn ctx w = streamFn ctx w' from hCall]
      rfl

/-- Commands of results are an error monad item by item, whatever else acts on the world: `and_then`
runs `f` on each `Ok` and passes each `Err` on in its place, it is associative and `Ok` its unit,
and `map_err` goes through it for a pure `f`, one whose command does the same however the others
act before its closure is called. Where nobody else acts, that asks nothing of `f`. -/
theorem and_then_laws (hF : F.Documented) (env : W → W → Prop) (ctx : Ctx) (w : W)
    (c : Command Ctx W E (Except X T)) (f : T → Command Ctx W E (Except X A))
    (g : A → Command Ctx W E (Except X B)) (h : X → X') :
    (∀ ys e, (ys, e) ∈ outputs ((resultAndThen F c (lift f)).call F ctx w).2 ↔
      ∃ ls, (ls, e) ∈ behaviours (c.call F ctx w).2 ∧
        Pieces (fun w r => match r with
          | .ok x => outputs ((f x).call F ctx w).2
          | .error error => outputs (single (.error error) : Strm W E (Except X A)))
          (timedItems ls) e ys) ∧
    trace env (resultAndThen F (resultAndThen F c (lift f)) (lift g)) ctx w =
      trace env (resultAndThen F c (lift fun x => resultAndThen F (f x) (lift g))) ctx w ∧
    trace env (resultAndThen F c (lift fun x => done F (.ok x))) ctx w = trace env c ctx w ∧
    trace env (mapErr F (resultAndThen F c (lift f)) (lift h)) ctx w ⊆
      trace env (resultAndThen F (mapErr F c (lift h))
        (lift fun x => mapErr F (f x) (lift h))) ctx w ∧
    ((∀ x w w', env w w' → (f x).call F ctx w = (f x).call F ctx w') →
      trace env (mapErr F (resultAndThen F c (lift f)) (lift h)) ctx w =
        trace env (resultAndThen F (mapErr F c (lift h))
          (lift fun x => mapErr F (f x) (lift h))) ctx w) :=
  ⟨mem_outputs_and_then hF c f ctx w, trace_and_then_assoc hF c f g, trace_and_then_ok hF c,
    trace_map_err_le hF c f h, trace_map_err hF c f h⟩

/-- An `Err` and then an `Ok`. -/
def mixed : Command Unit Nat Unit (Except Nat Nat) :=
  stream .reference fun _ _ => ([], .cons (some (.item (.error 7))) (single (.ok 8)))

/-- The error does not stop the item after it. -/
theorem and_then_laws_mixed :
    ([.error 7, .ok 9], true) ∈ outputs ((resultAndThen .reference mixed
      (lift fun n => done .reference (.ok (n + 1)))).call .reference () 0).2 ∧
    trace (fun _ _ => True) (mapErr .reference (resultAndThen .reference mixed
        (lift fun n => done .reference (.ok (n + 1)))) (lift fun n => n + 1)) () 0 =
      trace (fun _ _ => True) (resultAndThen .reference
        (mapErr .reference mixed (lift fun n => n + 1)) (lift fun n => mapErr .reference
          (done .reference (.ok (n + 1))) (lift fun n => n + 1))) () 0 := by
  obtain ⟨hOutputs, -, -, -, hMapErr⟩ := and_then_laws (Adapters.reference_documented (W := Nat))
    (fun _ _ => True) () 0 mixed (fun n => done .reference (.ok (n + 1)))
    (fun n => done .reference (.ok n)) (fun n => n + 1)
  refine ⟨(hOutputs _ _).mpr ⟨[(0, .item (.error 7)), (0, .item (.ok 8))], ?_, ?_⟩,
    hMapErr fun _ _ _ _ => rfl⟩
  · have hStream : (mixed.call .reference () 0).2 ≈
        (Mealy.cons (some (.item (.error 7))) (single (.ok 8)) : Strm Nat Unit _) :=
      stream_weakEq Combinators.reference_documented _
    refine (Set.ext_iff.mp (behaviours_congr hStream) _).mpr ?_
    exact behaviours_event rfl (by simp) (mem_behaviours_single.mpr (.inr ⟨0, rfl⟩))
  · have hSingle (n : Nat) (r : Except Nat Nat) :
        ([r], true) ∈ outputs (single r : Strm Nat Unit (Except Nat Nat)) :=
      ⟨[(n, .item r)], mem_behaviours_single.mpr (.inr ⟨n, rfl⟩), rfl⟩
    have hDone : ([.ok 9], true) ∈ outputs ((done .reference (.ok 9) :
        Command Unit Nat Unit (Except Nat Nat)).call .reference () 0).2 :=
      (Set.ext_iff.mp (outputs_congr (doneStream_single Combinators.reference_documented _)) _).mpr
        (hSingle 0 _)
    show Pieces _ [(0, Except.error 7), (0, Except.ok 8)] true
      ([Except.error 7] ++ ([Except.ok 9] ++ []))
    exact .item (hSingle 0 _) (.item hDone .ended)

end Emyu.Command
