import Emyu.Lib.Adapters
import Emyu.Lib.Delay

/-! Mapping a stream twice beside mapping it once: the second closure is called a turn after the
first, which makes no difference where the others leave alone what it reads. -/

universe u

namespace Polling

open Mealy

variable {W E A B T O P : Type u}

/-- In worlds that are the `Same` to it the closure does the same, then and afterwards. -/
structure Fn.Reads (Same : W → W → Prop) (g : Fn W E A B) : Prop where
  now : ∀ past x w w', Same w w' → g.answer past (x, w) = g.answer past (x, w')
  later : ∀ past x w w' more i, Same w w' →
    g.answer (past ++ (x, w) :: more) i = g.answer (past ++ (x, w') :: more) i

namespace Fn.Reads

variable {Same : W → W → Prop} {g : Fn W E A B} {w w' : W}

theorem head (h : g.Reads Same) (x : A) (hSame : Same w w') : g.head (x, w) = g.head (x, w') :=
  h.now [] x w w' hSame

theorem next (h : g.Reads Same) (x : A) (hSame : Same w w') : g.next (x, w) = g.next (x, w') :=
  Mealy.ext (funext fun past => funext fun i => h.later [] x w w' past i hSame)

theorem rest (h : g.Reads Same) (i : A × W) : Fn.Reads Same (g.next i) where
  now past := h.now (i :: past)
  later past := h.later (i :: past)

end Fn.Reads

/-- A closure that looks at nothing but its argument and what it keeps between calls. -/
abbrev OwnFn (E A B : Type u) := Mealy A (List E × B)

def OwnFn.toFn (g : OwnFn E A B) : Fn W E A B := ⟨fun past i => g.answer (past.map Prod.fst) i.1⟩

variable [Acts E W]

def afterStep (p : Fn W E T O × Fn W E O P) (i : T × W) :
    (List E × P) × (Fn W E T O × Fn W E O P) :=
  let (es, y) := p.1.head i
  let (es', z) := p.2.head (y, actAll es i.2)
  ((es ++ es', z), (p.1.next i, p.2.next (y, actAll es i.2)))

/-- `g` after `f`, called one right after the other: `g` finds what `f` did to the world. -/
def Fn.after (g : Fn W E O P) (f : Fn W E T O) : Fn W E T P := unfold afterStep (f, g)

/-- Worlds that are the `Same` for a closure: what the others do makes no difference to it, also
after more effects. -/
structure Unread (E : Type u) [Acts E W] (env Same : W → W → Prop) : Prop where
  others : ∀ w w', env w w' → Same w w'
  effects : ∀ (e : E) w w', Same w w' → Same (Acts.act e w) (Acts.act e w')

theorem Unread.all {env Same : W → W → Prop} (h : Unread E env Same) (es : List E) {w w' : W}
    (hSame : Same w w') : Same (actAll es w) (actAll es w') := by
  induction es generalizing w w' with
  | nil => exact hSame
  | cons e es ih => exact ih (h.effects e w w' hSame)

/-- The others leave alone what the closure reads. -/
def Fn.Unchanged (env : W → W → Prop) (g : Fn W E O P) : Prop :=
  ∃ Same, g.Reads Same ∧ Unread E env Same

variable {env : W → W → Prop}

/-- Where nobody else acts, they leave everything alone. -/
theorem Fn.Unchanged.alone (hAlone : ∀ w w', ¬env w w') (g : Fn W E O P) : g.Unchanged env := by
  refine ⟨Eq, ⟨?_, ?_⟩, fun w w' hEnv => (hAlone w w' hEnv).elim, ?_⟩
  · rintro past x w _ rfl
    rfl
  · rintro past x w _ more i rfl
    rfl
  · rintro e w _ rfl
    rfl

/-- A closure that looks at no world has nothing that they could change. -/
theorem OwnFn.unchanged (env : W → W → Prop) (g : OwnFn E O P) :
    (g.toFn : Fn W E O P).Unchanged env := by
  refine ⟨fun _ _ => True, ⟨fun _ _ _ _ _ => rfl, fun past x w w' more i _ => ?_⟩,
    fun _ _ _ => trivial, fun _ _ _ _ => trivial⟩
  simp [toFn]

/-- Mapping twice beside mapping once by the composed closure, in the world `w`: where `f` was
called and its effects are still to come, what `g` will find is known. -/
inductive Fused (T O : Type u) (Same : W → W → Prop) (w : W) :
    Strm W E P → Strm W E P → Prop where
  | taking (s : Strm W E T) (f : Fn W E T O) (g : Fn W E O P) : g.Reads Same →
      Fused T O Same w (map (map s f) g) (map s (g.after f))
  | called (es : List E) (y : O) (s : Strm W E T) (f : Fn W E T O) (g : Fn W E O P) :
      g.Reads Same → Fused T O Same w (map (unfold mapStep (.giving es y s f)) g)
        (unfold mapStep (.giving (es ++ (g.head (y, actAll es w)).1) (g.head (y, actAll es w)).2 s
          (Fn.after (g.next (y, actAll es w)) f)))
  | giving (es : List E) (z : P) (s : Strm W E T) (f : Fn W E T O) (g : Fn W E O P) :
      g.Reads Same → Fused T O Same w (unfold mapStep (.giving es z (map s f) g))
        (unfold mapStep (.giving es z s (g.after f)))

namespace Fused

variable {Same : W → W → Prop} {w w' : W} {m n : Strm W E P} {ev : Event E P}

/-- What the others do does not change what `g` will do. -/
theorem others (hUnread : Unread E env Same) (hEnv : env w w') (h : Fused T O Same w m n) :
    Fused T O Same w' m n := by
  cases h with
  | taking s f g hg => exact .taking s f g hg
  | giving es z s f g hg => exact .giving es z s f g hg
  | called es y s f g hg =>
    have hSame := hUnread.all es (hUnread.others w w' hEnv)
    rw [hg.head y hSame, hg.next y hSame]
    exact .called es y s f g hg

/-- Both answer alike in the world `w`, and go on so. -/
structure InStep (T O : Type u) (Same : W → W → Prop) (w : W) (m n : Strm W E P) : Prop where
  head : m.head w = n.head w
  next : m.head w ≠ some .ended →
    Fused T O Same ((m.head w).elim w fun ev => ev.after w) (m.next w) (n.next w)

theorem inStep_taking (s : Strm W E T) (f : Fn W E T O) {g : Fn W E O P} (hg : g.Reads Same) :
    InStep T O Same w (map (map s f) g) (map s (g.after f)) := by
  rcases hS : s.head w with _ | e | x | _
  · refine ⟨by simp [map, mapStep, hS], fun _ => ?_⟩
    simpa [map, mapStep, hS] using Fused.taking (s.next w) f g hg
  · refine ⟨by simp [map, mapStep, hS], fun _ => ?_⟩
    simpa [map, mapStep, hS] using Fused.taking (s.next w) f g hg
  · refine ⟨by simp [map, mapStep, hS], fun _ => ?_⟩
    have hCalled := Fused.called (w := w) (f.head (x, w)).1 (f.head (x, w)).2 (s.next w)
      (f.next (x, w)) g hg
    simpa [map, mapStep, hS, Fn.after, afterStep] using hCalled
  · refine ⟨by simp [map, mapStep, hS], fun hEnded => (hEnded ?_).elim⟩
    simp [map, mapStep, hS]

theorem inStep_effect (e : E) (es : List E) (y : O) (s : Strm W E T) (f : Fn W E T O)
    {g : Fn W E O P} (hg : g.Reads Same) :
    InStep T O Same w (map (unfold mapStep (.giving (e :: es) y s f)) g)
      (unfold mapStep (.giving (e :: es ++ (g.head (y, actAll (e :: es) w)).1)
        (g.head (y, actAll (e :: es) w)).2 s (Fn.after (g.next (y, actAll (e :: es) w)) f))) :=
  ⟨rfl, fun _ => .called es y s f g hg⟩

theorem inStep_giving (es : List E) (z : P) (s : Strm W E T) (f : Fn W E T O) {g : Fn W E O P}
    (hg : g.Reads Same) :
    InStep T O Same w (unfold mapStep (.giving es z (map s f) g))
      (unfold mapStep (.giving es z s (g.after f))) := by
  cases es with
  | nil => exact ⟨rfl, fun _ => .taking s f g hg⟩
  | cons e es => exact ⟨rfl, fun _ => .giving es z s f g hg⟩

/-- They are in step but where the effects of `f` are done: there `g` is called first. -/
theorem inStep_or_call (h : Fused T O Same w m n) : InStep T O Same w m n ∨
    m.head w = none ∧ Fused T O Same w (m.next w) n ∧ InStep T O Same w (m.next w) n := by
  cases h with
  | taking s f g hg => exact .inl (inStep_taking s f hg)
  | giving es z s f g hg => exact .inl (inStep_giving es z s f hg)
  | called es y s f g hg =>
    cases es with
    | cons e es => exact .inl (inStep_effect e es y s f hg)
    | nil =>
      have hRest := hg.rest (y, w)
      exact .inr ⟨rfl, .giving _ _ s f (g.next (y, w)) hRest, inStep_giving _ _ s f hRest⟩

theorem InStep.silent (h : InStep T O Same w m n) (hHead : m.head w = none) :
    Fused T O Same w (m.next w) (n.next w) := by
  have hNext := h.next (by simp [hHead])
  rwa [hHead] at hNext

theorem InStep.event (h : InStep T O Same w m n) (hHead : m.head w = some ev) (hEv : ev ≠ .ended) :
    Fused T O Same (ev.after w) (m.next w) (n.next w) := by
  have hNext := h.next (by simp [hHead, hEv])
  rwa [hHead] at hNext

/-- What mapping twice leaves, mapping once leaves. -/
theorem trace_le (hUnread : Unread E env Same) {l : List (Event E P)} (h : Fused T O Same w m n)
    (hTrace : Trace env m w l) : Trace env n w l := by
  refine Trace.simulate_in (Fused T O Same) (fun _ _ _ _ hEnv h => h.others hUnread hEnv) ?_ ?_ h
    hTrace
  · intro w m n h hHead
    rcases h.inStep_or_call with hStep | ⟨-, hNext, -⟩
    · exact ⟨_, .one (hStep.head.symm.trans hHead), hStep.silent hHead⟩
    · exact ⟨n, .refl n, hNext⟩
  · intro w m n ev h hHead
    rcases h.inStep_or_call with hStep | ⟨hNone, -, -⟩
    · exact ⟨n, .refl n, hStep.head.symm.trans hHead, hStep.event hHead⟩
    · rw [hNone] at hHead
      cases hHead

/-- And the other way round: where `g` is to be called, it is called then. -/
theorem trace_ge (hUnread : Unread E env Same) {l : List (Event E P)} (h : Fused T O Same w m n)
    (hTrace : Trace env n w l) : Trace env m w l := by
  refine Trace.simulate_in (fun w n m => Fused T O Same w m n)
    (fun _ _ _ _ hEnv h => h.others hUnread hEnv) ?_ ?_ h hTrace
  · intro w n m h hHead
    rcases h.inStep_or_call with hStep | ⟨hNone, -, hStep⟩
    · exact ⟨_, .one (hStep.head.trans hHead), hStep.silent (hStep.head.trans hHead)⟩
    · exact ⟨_, .step hNone (.one (hStep.head.trans hHead)),
        hStep.silent (hStep.head.trans hHead)⟩
  · intro w n m ev h hHead
    rcases h.inStep_or_call with hStep | ⟨hNone, -, hStep⟩
    · exact ⟨m, .refl m, hStep.head.trans hHead, hStep.event (hStep.head.trans hHead)⟩
    · exact ⟨_, .one hNone, hStep.head.trans hHead, hStep.event (hStep.head.trans hHead)⟩

end Fused

/-- `s.map(f).map(g)` leaves what `s.map(|x| g(f(x)))` does: for each item `f` and then `g`. -/
theorem trace_map_map {f : Fn W E T O} {g : Fn W E O P} (hg : g.Unchanged env) (s : Strm W E T)
    (w : W) (l : List (Event E P)) :
    Trace env (map (map s f) g) w l ↔ Trace env (map s (g.after f)) w l := by
  obtain ⟨Same, hReads, hUnread⟩ := hg
  have h : Fused T O Same w (map (map s f) g) (map s (g.after f)) := .taking s f g hReads
  exact ⟨h.trace_le hUnread, h.trace_ge hUnread⟩

omit [Acts E W] in
theorem emit_map (es : List E) (s : Strm W E T) (f : Fn W E T O) :
    map (emit es s) f = emit es (map s f) := by
  induction es with
  | nil => rfl
  | cons e es ih =>
    rw [emit, emit, ← ih]
    refine Mealy.ext (funext fun past => funext fun w => ?_)
    cases past <;> rfl

end Polling
