import Emyu.Command.Collect

/-! `chain` as concatenation: what it emits, its laws, and how `then` and `collect` go through
it. -/

universe u

namespace Emyu.Command

open Polling

variable {Ctx W E T O : Type u} {F : Adapters W E} [Acts E W]

/-- Calling the closure of `a.chain(b)` calls that of `a` and then that of `b`. -/
theorem call_chain_effects (a b : Command Ctx W E T) (ctx : Ctx) (w : W) :
    ((chain F a b).call F ctx w).1 =
      (a.call F ctx w).1 ++ (b.call F ctx (actAll (a.call F ctx w).1 w)).1 := by
  obtain rfl | ⟨f, rfl⟩ := a.none_or_some
  · rfl
  · obtain rfl | ⟨g, rfl⟩ := b.none_or_some
    · exact (List.append_nil _).symm
    · rfl

/-- The runs of `a.chain(b)`, either of which may be `none()`, are those of the chained streams. -/
theorem behaviours_chain (hF : F.Documented) (a b : Command Ctx W E T) (ctx : Ctx) (w : W) :
    behaviours ((chain F a b).call F ctx w).2 = behaviours (Polling.chain (a.call F ctx w).2
      (b.call F ctx (actAll (a.call F ctx w).1 w)).2) := by
  obtain rfl | ⟨f, rfl⟩ := a.none_or_some
  · refine behaviours_congr (WeakEq.symm ?_)
    exact WeakEq.trans (chain_congr hF.empty (.refl _)) (chain_empty _)
  · obtain rfl | ⟨g, rfl⟩ := b.none_or_some
    · have hEmpty : behaviours (Polling.chain (f ctx w).2 F.empty) =
          behaviours (Polling.chain (f ctx w).2 empty) :=
        behaviours_congr (chain_congr (.refl _) hF.empty)
      exact (hEmpty.trans (behaviours_chain_empty w _)).symm
    · exact behaviours_congr (hF.chain _ _)

variable {env : W → W → Prop} {ctx : Ctx} {w : W}

theorem trace_chain_chain (hF : F.Documented) (a b c : Command Ctx W E T) :
    trace env (chain F (chain F a b) c) ctx w = trace env (chain F a (chain F b c)) ctx w := by
  obtain rfl | ⟨f, rfl⟩ := a.none_or_some
  · rfl
  obtain rfl | ⟨g, rfl⟩ := b.none_or_some
  · rfl
  obtain rfl | ⟨h, rfl⟩ := c.none_or_some
  · rfl
  refine trace_some_weakEq fun w => ?_
  have hStream (s s' s'' : Strm W E T) :
      F.chain (F.chain s s') s'' ≈ F.chain s (F.chain s' s'') := by
    calc
      F.chain (F.chain s s') s'' ≈ Polling.chain (F.chain s s') s'' := hF.chain _ _
      _ ≈ Polling.chain (Polling.chain s s') s'' := chain_congr (hF.chain _ _) (.refl _)
      _ ≈ Polling.chain s (Polling.chain s' s'') := WeakEq.of_eq (chain_assoc s s' s'')
      _ ≈ Polling.chain s (F.chain s' s'') :=
        chain_congr (.refl _) (WeakEq.symm (hF.chain _ _))
      _ ≈ F.chain s (F.chain s' s'') := WeakEq.symm (hF.chain _ _)
  -- the third closure sees the world after both lists of effects
  simp only [actAll_append, List.append_assoc]
  exact emit_congr _ (hStream _ _ _)

/-- `a.chain(b).then(f)` is `a.then(f).chain(b.then(f))`. -/
theorem trace_chain_then (hF : F.Documented) (a b : Command Ctx W E T)
    (f : T → Command Ctx W E O) :
    trace env ((chain F a b).then_ F (pureFn f)) ctx w =
      trace env (chain F (a.then_ F (pureFn f)) (b.then_ F (pureFn f))) ctx w := by
  obtain rfl | ⟨g, rfl⟩ := a.none_or_some
  · rfl
  obtain rfl | ⟨h, rfl⟩ := b.none_or_some
  · rfl
  refine trace_some_weakEq fun w => emit_congr _ ?_
  set k := bindFn F (pureFn f) ctx with hk
  have hStream (s s' : Strm W E T) :
      F.flatMap (F.chain s s') k ≈ F.chain (F.flatMap s k) (F.flatMap s' k) := by
    calc
      F.flatMap (F.chain s s') k ≈ flatMap (F.chain s s') k := hF.flatMap _ _
      _ ≈ flatMap (Polling.chain s s') k := flatMap_congr (hF.chain _ _) (.refl _)
      _ ≈ Polling.chain (flatMap s k) (flatMap s' k) :=
        WeakEq.of_eq (by rw [hk, bindFn_pureFn, flatMap_chain])
      _ ≈ Polling.chain (F.flatMap s k) (F.flatMap s' k) :=
        chain_congr (WeakEq.symm (hF.flatMap _ _)) (WeakEq.symm (hF.flatMap _ _))
      _ ≈ F.chain (F.flatMap s k) (F.flatMap s' k) := WeakEq.symm (hF.chain _ _)
  exact hStream _ _

/-- The runs of `a.chain(b)`: those of `a` that did not end, and those that did with one of `b`
after them. -/
theorem mem_behaviours_command_chain (hF : F.Documented) (a b : Command Ctx W E T) (ctx : Ctx)
    (w : W) (l : List (W × Event E T)) (e : Bool) :
    (l, e) ∈ behaviours ((chain F a b).call F ctx w).2 ↔
      (e = false ∧ (l, false) ∈ behaviours (a.call F ctx w).2) ∨
      ∃ l₁ l₂, l = l₁ ++ l₂ ∧ (l₁, true) ∈ behaviours (a.call F ctx w).2 ∧
        (l₂, e) ∈ behaviours (b.call F ctx (actAll (a.call F ctx w).1 w)).2 := by
  rw [behaviours_chain hF, mem_behaviours_chain]

/-- The outputs of `a.chain(b)`, to the end: those of `a` and then those of `b`. -/
theorem mem_outputs_chain (hF : F.Documented) (a b : Command Ctx W E T) (ctx : Ctx) (w : W)
    (zs : List T) :
    (zs, true) ∈ outputs ((chain F a b).call F ctx w).2 ↔
      ∃ xs ys, (xs, true) ∈ outputs (a.call F ctx w).2 ∧
        (ys, true) ∈ outputs (b.call F ctx (actAll (a.call F ctx w).1 w)).2 ∧ zs = xs ++ ys := by
  constructor
  · rintro ⟨l, hl, rfl⟩
    rcases (mem_behaviours_command_chain hF a b ctx w l true).mp hl with
      ⟨h, -⟩ | ⟨l₁, l₂, rfl, hA, hB⟩
    · cases h
    · exact ⟨itemsOf l₁, itemsOf l₂, ⟨l₁, hA, rfl⟩, ⟨l₂, hB, rfl⟩, itemsOf_append l₁ l₂⟩
  · rintro ⟨_, _, ⟨l₁, hA, rfl⟩, ⟨l₂, hB, rfl⟩, rfl⟩
    exact ⟨l₁ ++ l₂, (mem_behaviours_command_chain hF a b ctx w _ true).mpr
      (.inr ⟨l₁, l₂, rfl, hA, hB⟩), itemsOf_append l₁ l₂⟩

omit [Acts E W] in
/-- What `c.collect()` gives to the end is the one list of what `c` gives to its end. -/
theorem mem_outputs_collect_ended (hF : F.Documented) (c : Command Ctx W E T) (ctx : Ctx) (w : W)
    (vs : List (List T)) :
    (vs, true) ∈ outputs ((collect F c).call F ctx w).2 ↔
      ∃ xs, (xs, true) ∈ outputs (c.call F ctx w).2 ∧ vs = [xs] := by
  rw [mem_outputs_collect hF]
  exact or_iff_right fun h => by cases h.2

/-- `a.chain(b).collect()` gives the list of `a` with that of `b` appended. -/
theorem mem_outputs_collect_chain (hF : F.Documented) (a b : Command Ctx W E T) (ctx : Ctx)
    (w : W) (vs : List (List T)) :
    (vs, true) ∈ outputs ((collect F (chain F a b)).call F ctx w).2 ↔
      ∃ v v', ([v], true) ∈ outputs ((collect F a).call F ctx w).2 ∧
        ([v'], true) ∈ outputs ((collect F b).call F ctx (actAll (a.call F ctx w).1 w)).2 ∧
        vs = [v ++ v'] := by
  simp only [mem_outputs_collect_ended hF, mem_outputs_chain hF]
  constructor
  · rintro ⟨_, ⟨xs, ys, hA, hB, rfl⟩, rfl⟩
    exact ⟨xs, ys, ⟨xs, hA, rfl⟩, ⟨ys, hB, rfl⟩, rfl⟩
  · rintro ⟨v, v', ⟨xs, hA, hv⟩, ⟨ys, hB, hv'⟩, rfl⟩
    obtain rfl := List.singleton_inj.mp hv
    obtain rfl := List.singleton_inj.mp hv'
    exact ⟨_, ⟨v, v', hA, hB, rfl⟩, rfl⟩

/-- Chaining after a command that never ends changes nothing. -/
theorem behaviours_chain_of_endless (hF : F.Documented) (a b : Command Ctx W E T) (ctx : Ctx)
    (w : W) (hNever : ∀ l, (l, true) ∉ behaviours (a.call F ctx w).2) :
    behaviours ((chain F a b).call F ctx w).2 = behaviours (a.call F ctx w).2 := by
  ext ⟨l, e⟩
  rw [mem_behaviours_command_chain hF]
  constructor
  · rintro (⟨rfl, hA⟩ | ⟨l₁, l₂, rfl, hA, -⟩)
    · exact hA
    · exact (hNever l₁ hA).elim
  · intro hA
    cases e with
    | false => exact .inl ⟨rfl, hA⟩
    | true => exact (hNever l hA).elim

/-- `chain` is concatenation, associative with unit `none()`, and `then` and `collect` respect it.
The closure of `b` is called in the world that the effects of `a`'s closure left. -/
theorem chain_concatenates (hF : F.Documented) (a b c : Command Ctx W E T)
    (f : T → Command Ctx W E O) (env : W → W → Prop) (ctx : Ctx) (w : W) :
    (∀ l e, (l, e) ∈ behaviours ((chain F a b).call F ctx w).2 ↔
      (e = false ∧ (l, false) ∈ behaviours (a.call F ctx w).2) ∨
      ∃ l₁ l₂, l = l₁ ++ l₂ ∧ (l₁, true) ∈ behaviours (a.call F ctx w).2 ∧
        (l₂, e) ∈ behaviours (b.call F ctx (actAll (a.call F ctx w).1 w)).2) ∧
    trace env (chain F (chain F a b) c) ctx w = trace env (chain F a (chain F b c)) ctx w ∧
    chain F Command.none a = a ∧ chain F a Command.none = a ∧
    trace env ((chain F a b).then_ F (pureFn f)) ctx w =
      trace env (chain F (a.then_ F (pureFn f)) (b.then_ F (pureFn f))) ctx w ∧
    (∀ vs, (vs, true) ∈ outputs ((collect F (chain F a b)).call F ctx w).2 ↔
      ∃ v v', ([v], true) ∈ outputs ((collect F a).call F ctx w).2 ∧
        ([v'], true) ∈ outputs ((collect F b).call F ctx (actAll (a.call F ctx w).1 w)).2 ∧
        vs = [v ++ v']) ∧
    ((∀ l, (l, true) ∉ behaviours (a.call F ctx w).2) →
      behaviours ((chain F a b).call F ctx w).2 = behaviours (a.call F ctx w).2) := by
  refine ⟨mem_behaviours_command_chain hF a b ctx w, trace_chain_chain hF a b c, rfl, ?_,
    trace_chain_then hF a b f, mem_outputs_collect_chain hF a b ctx w,
    behaviours_chain_of_endless hF a b ctx w⟩
  obtain rfl | ⟨g, rfl⟩ := a.none_or_some <;> rfl

/-- `done(1).chain(done(2))` emits 1, 2 and ends. -/
theorem chain_concatenates_done : ([(0, .item 1), (0, .item 2)], true) ∈ behaviours
    ((chain .reference (done .reference 1) (done .reference 2) : Command Unit Nat Unit Nat).call
      .reference () 0).2 := by
  have hDone (n : Nat) : ([(0, .item n)], true) ∈ behaviours
      ((done .reference n : Command Unit Nat Unit Nat).call .reference () 0).2 := by
    have hSingle : ((done .reference n : Command Unit Nat Unit Nat).call .reference () 0).2 ≈
        single n := doneStream_single Combinators.reference_documented n
    rw [behaviours_congr hSingle]
    exact mem_behaviours_single.mpr (.inr ⟨0, rfl⟩)
  have hChain := (chain_concatenates (O := Nat) Adapters.reference_documented
    (done .reference 1 : Command Unit Nat Unit Nat) (done .reference 2) Command.none
    (done .reference) (fun _ _ => False) () 0).1
  exact (hChain _ _).mpr (.inr ⟨_, _, rfl, hDone 1, hDone 2⟩)

end Emyu.Command
