import Mathlib.Data.List.Induction
import Mathlib.Logic.Relation

/-! Runs of a system whose steps are a partial function of the state and an action: the run of a
list of actions, invariants of runs, and conditions on every step of a run. -/

namespace Runs

variable {σ α : Type*}

/-- The state after the actions in order, when each of them can be taken. -/
def run (step : σ → α → Option σ) : σ → List α → Option σ
  | s, [] => some s
  | s, a :: as => (step s a).bind fun t => run step t as

variable {step : σ → α → Option σ} {s t u : σ} {a : α} {as bs : List α}

@[simp] theorem run_nil : run step s [] = some s := rfl

theorem run_cons : run step s (a :: as) = (step s a).bind fun t => run step t as := rfl

theorem run_cons_eq_some :
    run step s (a :: as) = some u ↔ ∃ t, step s a = some t ∧ run step t as = some u := by
  simp [run_cons, Option.bind_eq_some_iff]

theorem run_append : run step s (as ++ bs) = (run step s as).bind fun t => run step t bs := by
  induction as generalizing s with
  | nil => rfl
  | cons a as ih =>
    simp only [List.cons_append, run_cons, Option.bind_assoc]
    congr 1
    funext t
    exact ih

theorem run_append_eq_some :
    run step s (as ++ bs) = some u ↔ ∃ t, run step s as = some t ∧ run step t bs = some u := by
  simp [run_append, Option.bind_eq_some_iff]

theorem run_trans (h : run step s as = some t) (h' : run step t bs = some u) :
    run step s (as ++ bs) = some u :=
  run_append_eq_some.mpr ⟨t, h, h'⟩

@[simp] theorem run_singleton : run step s [a] = step s a := by
  simp [run_cons]

/-- What every step keeps, a run keeps. -/
theorem run_invariant {Inv : σ → Prop}
    (hStep : ∀ s a t, Inv s → step s a = some t → Inv t) (hInv : Inv s)
    (h : run step s as = some t) : Inv t := by
  induction as generalizing s with
  | nil => cases h; exact hInv
  | cons a as ih =>
    obtain ⟨m, hm, hRest⟩ := run_cons_eq_some.mp h
    exact ih (hStep s a m hInv hm) hRest

/-- A reflexive and transitive relation that holds across every step holds across a run. -/
theorem run_relation {R : σ → σ → Prop} (hRefl : ∀ s, R s s)
    (hTrans : ∀ {s t u}, R s t → R t u → R s u)
    (hStep : ∀ s a t, step s a = some t → R s t) (h : run step s as = some t) : R s t := by
  induction as generalizing s with
  | nil => cases h; exact hRefl _
  | cons a as ih =>
    obtain ⟨m, hm, hRest⟩ := run_cons_eq_some.mp h
    exact hTrans (hStep s a m hm) (ih hRest)

/-- When each step of a kind is matched by steps of another system, every run of such steps is
followed by one of it, from state to state. -/
theorem run_follows {τ : Type*} {Kind : α → Prop} {R : σ → τ → Prop} {next : τ → τ → Prop} {x : τ}
    (hStep : ∀ s a t x, Kind a → R s x → step s a = some t →
      ∃ y, Relation.ReflTransGen next x y ∧ R t y)
    (hR : R s x) (as : List α) (hKind : ∀ a ∈ as, Kind a) : ∃ f : Nat → τ, f 0 = x ∧
      (∀ n, Relation.ReflTransGen next (f n) (f (n + 1))) ∧
      ∀ n t, run step s (as.take n) = some t → R t (f n) := by
  induction as generalizing s x with
  | nil =>
    refine ⟨fun _ => x, rfl, fun _ => .refl, fun n t h => ?_⟩
    rw [List.take_nil] at h
    cases h
    exact hR
  | cons a as ih =>
    cases hm : step s a with
    | none =>
      refine ⟨fun _ => x, rfl, fun _ => .refl, fun n t h => ?_⟩
      cases n with
      | zero => cases h; exact hR
      | succ n => simp [run_cons, hm] at h
    | some m =>
      obtain ⟨y, hFirst, hy⟩ := hStep s a m x (hKind a List.mem_cons_self) hR hm
      obtain ⟨f, rfl, hNext, hf⟩ := ih hy fun b hb => hKind b (List.mem_cons_of_mem _ hb)
      refine ⟨fun n => n.casesOn x f, rfl, fun n => ?_, fun n t h => ?_⟩
      · cases n with
        | zero => exact hFirst
        | succ n => exact hNext n
      · cases n with
        | zero => cases h; exact hR
        | succ n =>
          obtain ⟨m', hm', hRest⟩ := run_cons_eq_some.mp h
          obtain rfl := Option.some.inj (hm.symm.trans hm')
          exact hf n t hRest

/-- What holds of no action and of each run with one more action, given that it holds of the run,
holds of every run and the state it ends in. -/
theorem run_history {P : List α → σ → Prop} (hNil : P [] s)
    (hStep : ∀ as a t u, P as t → step t a = some u → P (as ++ [a]) u)
    (h : run step s as = some t) : P as t := by
  induction as using List.reverseRecOn generalizing t with
  | nil => cases h; exact hNil
  | append_singleton as a ih =>
    obtain ⟨m, hm, hLast⟩ := run_append_eq_some.mp h
    exact hStep as a m t (ih hm) (by simpa using hLast)

/-- When steps of a kind each leave less to do, and one of them can be taken as long as something is
to be done, they can only be taken so often, and when no more can be taken all is done. -/
theorem run_completes {Kind : α → Prop} {Done : σ → Prop} (Inv : σ → Prop) (left : σ → Nat)
    (hInv : ∀ s a t, Inv s → Kind a → step s a = some t → Inv t)
    (hLess : ∀ s a t, Inv s → Kind a → step s a = some t → left t < left s)
    (hNext : ∀ s, Inv s → ¬ Done s → ∃ a, Kind a ∧ step s a ≠ none) (hi : Inv s)
    (hKind : ∀ a ∈ as, Kind a) (h : run step s as = some t) :
    as.length ≤ left s ∧ ((∀ a, Kind a → step t a = none) → Done t) := by
  induction as generalizing s with
  | nil =>
    cases h
    refine ⟨Nat.zero_le _, fun hRest => ?_⟩
    by_contra hDone
    obtain ⟨a, hA, hSome⟩ := hNext _ hi hDone
    exact hSome (hRest a hA)
  | cons a as ih =>
    obtain ⟨m, hm, hRest⟩ := run_cons_eq_some.mp h
    have hFirst := hKind a List.mem_cons_self
    obtain ⟨hShort, hEnd⟩ :=
      ih (hInv s a m hi hFirst hm) (fun b hb => hKind b (List.mem_cons_of_mem _ hb)) hRest
    have hLeft := hLess s a m hi hFirst hm
    refine ⟨?_, hEnd⟩
    rw [List.length_cons]
    omega

/-- How many steps a system that leaves no choice takes, up to a bound. -/
def stepsLeft (step : σ → Unit → Option σ) : Nat → σ → Nat
  | 0, _ => 0
  | n + 1, s => (step s ()).elim 0 fun t => stepsLeft step n t + 1

theorem stepsLeft_eq {step : σ → Unit → Option σ} {as : List Unit} {n : Nat}
    (h : run step s as = some t) (hEnd : step t () = none) (hLe : as.length ≤ n) :
    stepsLeft step n s = as.length := by
  induction as generalizing s n with
  | nil =>
    cases h
    cases n <;> simp [stepsLeft, hEnd]
  | cons a as ih =>
    obtain ⟨m, hm, hRest⟩ := run_cons_eq_some.mp h
    obtain ⟨n, rfl⟩ := Nat.exists_eq_add_one_of_ne_zero (Nat.ne_zero_of_lt hLe)
    simp [stepsLeft, hm, ih hRest (Nat.le_of_succ_le_succ hLe)]

/-- A system that leaves no choice comes from wherever it has come to where it ends. -/
theorem exists_rest {step : σ → Unit → Option σ} {as bs : List Unit} (h : run step s as = some t)
    (hAll : run step s bs = some u) (hEnd : step u () = none) : ∃ cs, run step t cs = some u := by
  induction as generalizing s bs with
  | nil =>
    cases h
    exact ⟨bs, hAll⟩
  | cons a as ih =>
    obtain ⟨m, hm, hRest⟩ := run_cons_eq_some.mp h
    cases bs with
    | nil =>
      cases hAll
      rw [hEnd] at hm
      cases hm
    | cons b bs =>
      obtain ⟨m', hm', hLater⟩ := run_cons_eq_some.mp hAll
      obtain rfl := Option.some.inj (hm.symm.trans hm')
      exact ih hRest hLater

/-- What the steps of a run bring about, in order. -/
def produced {β : Type*} (step : σ → α → Option σ) (out : σ → α → List β) : σ → List α → List β
  | _, [] => []
  | s, a :: as => out s a ++ ((step s a).elim [] fun t => produced step out t as)

theorem produced_snoc {β : Type*} {out : σ → α → List β} (h : run step s as = some t) :
    produced step out s (as ++ [a]) = produced step out s as ++ out t a := by
  induction as generalizing s with
  | nil =>
    cases h
    cases hStep : step t a <;> simp [produced, hStep]
  | cons b as ih =>
    obtain ⟨m, hm, hRest⟩ := run_cons_eq_some.mp h
    simp [produced, hm, ih hRest]

/-- `P` holds of every action of the run and the state it is taken in. -/
def Every (step : σ → α → Option σ) (P : σ → α → Prop) : σ → List α → Prop
  | _, [] => True
  | s, a :: as => P s a ∧ ∀ t ∈ step s a, Every step P t as

instance Every.decidable {P : σ → α → Prop} [∀ s a, Decidable (P s a)] :
    (s : σ) → (as : List α) → Decidable (Every step P s as)
  | _, [] => isTrue trivial
  | s, a :: as =>
    have (t : σ) : Decidable (Every step P t as) := Every.decidable t as
    inferInstanceAs (Decidable (P s a ∧ ∀ t ∈ step s a, Every step P t as))

theorem Every.of_forall {P : σ → α → Prop} (hAll : ∀ s a, P s a) : Every step P s as := by
  induction as generalizing s with
  | nil => trivial
  | cons a as ih => exact ⟨hAll s a, fun _ _ => ih⟩

theorem Every.of_mem {Kind : α → Prop} (hAll : ∀ a ∈ as, Kind a) :
    Every step (fun _ a => Kind a) s as := by
  induction as generalizing s with
  | nil => trivial
  | cons a as ih =>
    exact ⟨hAll a List.mem_cons_self, fun _ _ => ih fun b hb => hAll b (List.mem_cons_of_mem _ hb)⟩

theorem Every.mono {P Q : σ → α → Prop} (hImp : ∀ s a, P s a → Q s a) (h : Every step P s as) :
    Every step Q s as := by
  induction as generalizing s with
  | nil => trivial
  | cons a as ih => exact ⟨hImp s a h.1, fun t ht => ih (h.2 t ht)⟩

/-- Systems that take the same steps along a run go the same way. -/
theorem run_congr {step' : σ → α → Option σ}
    (h : Every step (fun s a => step' s a = step s a) s as) : run step' s as = run step s as := by
  induction as generalizing s with
  | nil => rfl
  | cons a as ih =>
    obtain ⟨hFirst, hRest⟩ := h
    rw [run_cons, run_cons, hFirst]
    cases hStep : step s a with
    | none => rfl
    | some t => exact ih (hRest t hStep)

/-- One more step that meets the condition. -/
theorem Every.cons {P : σ → α → Prop} (hP : P s a) (hStep : step s a = some t)
    (h : Every step P t as) : Every step P s (a :: as) := by
  refine ⟨hP, fun t' ht' => ?_⟩
  obtain rfl := Option.some.inj (hStep.symm.trans ht')
  exact h

theorem Every.append {P : σ → α → Prop} (h : run step s as = some t) (hAs : Every step P s as)
    (hBs : Every step P t bs) : Every step P s (as ++ bs) := by
  induction as generalizing s with
  | nil => cases h; exact hBs
  | cons a as ih =>
    obtain ⟨m, hm, hRest⟩ := run_cons_eq_some.mp h
    exact .cons hAs.1 hm (ih hRest (hAs.2 m hm))

/-- `P` holds of some action of the run and the state it is taken in. -/
def Sometime (step : σ → α → Option σ) (P : σ → α → Prop) : σ → List α → Prop
  | _, [] => False
  | s, a :: as => P s a ∨ ∃ t ∈ step s a, Sometime step P t as

/-- Whether one more step is such a step. -/
theorem sometime_snoc {P : σ → α → Prop} (h : run step s as = some t) (hStep : step t a = some u) :
    Sometime step P s (as ++ [a]) ↔ Sometime step P s as ∨ P t a := by
  induction as generalizing s with
  | nil =>
    cases h
    simp [Sometime, hStep]
  | cons b as ih =>
    obtain ⟨m, hm, hRest⟩ := run_cons_eq_some.mp h
    simp [Sometime, hm, ih hRest, or_assoc]

/-- What each step gains exactly if it is such a step, and never loses, a run has exactly if some
step of it is. -/
theorem gained_iff_sometime (Has : σ → Prop) {P : σ → α → Prop} (Inv : σ → Prop)
    (hInv : ∀ s a t, Inv s → step s a = some t → Inv t)
    (hStep : ∀ s a t, Inv s → step s a = some t → (Has t ↔ Has s ∨ P s a)) (hi : Inv s)
    (hNot : ¬ Has s) (h : run step s as = some t) : Has t ↔ Sometime step P s as := by
  induction as using List.reverseRecOn generalizing t with
  | nil => cases h; exact iff_of_false hNot fun hNo => hNo
  | append_singleton as a ih =>
    obtain ⟨m, hm, hLast⟩ := run_append_eq_some.mp h
    rw [run_singleton] at hLast
    rw [sometime_snoc hm hLast, hStep m a t (run_invariant hInv hi hm) hLast, ih hm]

/-- What every step that meets `P` keeps, a run of such steps keeps. -/
theorem run_invariant_of {Inv : σ → Prop} {P : σ → α → Prop}
    (hKeep : ∀ s a t, Inv s → P s a → step s a = some t → Inv t) (hInv : Inv s)
    (hP : Every step P s as) (h : run step s as = some t) : Inv t := by
  induction as generalizing s with
  | nil => cases h; exact hInv
  | cons a as ih =>
    obtain ⟨m, hm, hRest⟩ := run_cons_eq_some.mp h
    exact ih (hKeep s a m hInv hP.1 hm) (hP.2 m hm) hRest

/-- What every step that meets `R` from a state that keeps the invariant meets, every step of a run
of such steps meets. -/
theorem Every.of_invariant (Inv : σ → Prop) {P R : σ → α → Prop}
    (hKeep : ∀ s a t, Inv s → R s a → step s a = some t → Inv t)
    (hMeet : ∀ s a, Inv s → R s a → P s a) (hi : Inv s) (hR : Every step R s as) :
    Every step P s as := by
  induction as generalizing s with
  | nil => trivial
  | cons a as ih =>
    exact ⟨hMeet s a hi hR.1, fun t ht => ih (hKeep s a t hi hR.1 ht) (hR.2 t ht)⟩

/-- In a run whose steps all meet `R`: when such a step from a good state is good exactly if it
meets `P`, and a bad state stays bad, a run from a good state ends in a good state exactly if every
one of its steps meets `P`. -/
theorem good_iff_every_of {Good : σ → Prop} {P R : σ → α → Prop} (Inv : σ → Prop)
    (hInv : ∀ s a t, Inv s → step s a = some t → Inv t)
    (hStep : ∀ s a t, Inv s → R s a → Good s → step s a = some t → (Good t ↔ P s a))
    (hBack : ∀ s a t, step s a = some t → Good t → Good s) (hi : Inv s) (hGood : Good s)
    (hR : Every step R s as) (h : run step s as = some t) : Good t ↔ Every step P s as := by
  induction as generalizing s with
  | nil => cases h; exact iff_of_true hGood trivial
  | cons a as ih =>
    obtain ⟨m, hm, hRest⟩ := run_cons_eq_some.mp h
    obtain ⟨hFirst, hLater⟩ := hR
    have hOnly : ∀ t, step s a = some t → t = m := fun t ht =>
      Option.some.inj (ht.symm.trans hm)
    have hBackRun : Good t → Good m :=
      run_relation (R := fun s t => Good t → Good s) (fun _ h => h) (fun h h' hU => h (h' hU))
        hBack hRest
    constructor
    · intro hT
      have hM := hBackRun hT
      refine ⟨(hStep s a m hi hFirst hGood hm).mp hM, fun t' ht' => ?_⟩
      rw [hOnly t' ht']
      exact (ih (hInv s a m hi hm) hM (hLater m hm) hRest).mp hT
    · rintro ⟨hP, hAll⟩
      have hM := (hStep s a m hi hFirst hGood hm).mpr hP
      exact (ih (hInv s a m hi hm) hM (hLater m hm) hRest).mpr (hAll m hm)

/-- The same when nothing is asked of the steps. -/
theorem good_iff_every {Good : σ → Prop} {P : σ → α → Prop} (Inv : σ → Prop)
    (hInv : ∀ s a t, Inv s → step s a = some t → Inv t)
    (hStep : ∀ s a t, Inv s → Good s → step s a = some t → (Good t ↔ P s a))
    (hBack : ∀ s a t, step s a = some t → Good t → Good s) (hi : Inv s) (hGood : Good s)
    (h : run step s as = some t) : Good t ↔ Every step P s as :=
  good_iff_every_of (R := fun _ _ => True) Inv hInv
    (fun s a t hi _ hGood hm => hStep s a t hi hGood hm) hBack hi hGood
    (Every.of_forall fun _ _ => trivial) h

/-- Along a run that can be taken, conditions that agree on every step taken from a state that
keeps the invariant agree on the run. -/
theorem every_congr {P Q : σ → α → Prop} (Inv : σ → Prop)
    (hInv : ∀ s a t, Inv s → step s a = some t → Inv t)
    (hIff : ∀ s a t, Inv s → step s a = some t → (P s a ↔ Q s a)) (hi : Inv s)
    (h : run step s as = some t) : Every step P s as ↔ Every step Q s as := by
  induction as generalizing s with
  | nil => exact Iff.rfl
  | cons a as ih =>
    obtain ⟨m, hm, hRest⟩ := run_cons_eq_some.mp h
    have hOnly : ∀ t, step s a = some t → t = m := fun t ht =>
      Option.some.inj (ht.symm.trans hm)
    refine and_congr (hIff s a m hi hm) (forall₂_congr fun t ht => ?_)
    rw [hOnly t ht]
    exact ih (hInv s a m hi hm) hRest

/-- What holds of one of many still does when one of them moves on to where it holds too. -/
theorem exists_update {ι β : Type*} [DecidableEq ι] {f : ι → β} {Q : β → Prop} {i : ι} {b : β}
    (h : ∃ j, Q (f j)) (hKeep : Q (f i) → Q b) : ∃ j, Q (Function.update f i b j) := by
  obtain ⟨j, hj⟩ := h
  by_cases hji : j = i
  · subst hji
    exact ⟨j, by simpa using hKeep hj⟩
  · exact ⟨j, by simpa [Function.update_of_ne hji] using hj⟩

end Runs
