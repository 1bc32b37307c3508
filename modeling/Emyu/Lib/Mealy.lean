import Mathlib.Data.List.Basic

/-! Deterministic machines, each taken as what it answers to an input after the inputs before it:
no state type is named, so machines can be stored, passed and compared as values. -/

universe u v w

/-- `answer past i`: the answer to `i` after the inputs `past`, oldest first. -/
@[ext] structure Mealy (I : Type u) (O : Type v) where
  answer : List I → I → O

namespace Mealy

variable {I : Type u} {O : Type v} {σ : Type w}

def head (m : Mealy I O) (i : I) : O := m.answer [] i

def next (m : Mealy I O) (i : I) : Mealy I O := ⟨fun past => m.answer (i :: past)⟩

/-- A machine from its first answers and the machines it goes on as. -/
def node (f : I → O × Mealy I O) : Mealy I O :=
  ⟨fun
    | [], i => (f i).1
    | j :: past, i => (f j).2.answer past i⟩

/-- The machine that first answers `o` and goes on as `m`. -/
def cons (o : O) (m : Mealy I O) : Mealy I O := node fun _ => (o, m)

/-- The machine without memory. -/
def stateless (f : I → O) : Mealy I O := ⟨fun _ => f⟩

def answerFrom (step : σ → I → O × σ) : σ → List I → I → O
  | s, [], i => (step s i).1
  | s, j :: past, i => answerFrom step (step s j).2 past i

/-- The machine that a step function drives from the state `s`. -/
def unfold (step : σ → I → O × σ) (s : σ) : Mealy I O := ⟨answerFrom step s⟩

variable {m n : Mealy I O} {i : I} {step : σ → I → O × σ} {s : σ}

@[simp] theorem head_stateless (f : I → O) : (stateless f).head i = f i := rfl

@[simp] theorem next_stateless (f : I → O) : (stateless f).next i = stateless f := rfl

@[simp] theorem head_node (f : I → O × Mealy I O) : (node f).head i = (f i).1 := rfl

@[simp] theorem next_node (f : I → O × Mealy I O) : (node f).next i = (f i).2 := rfl

@[simp] theorem head_unfold : (unfold step s).head i = (step s i).1 := rfl

@[simp] theorem next_unfold : (unfold step s).next i = unfold step (step s i).2 := rfl

/-- Machines in lockstep are equal. -/
theorem eq_of_bisim (R : Mealy I O → Mealy I O → Prop)
    (hHead : ∀ m n, R m n → ∀ i, m.head i = n.head i)
    (hNext : ∀ m n, R m n → ∀ i, R (m.next i) (n.next i)) (h : R m n) : m = n := by
  ext past i
  induction past generalizing m n with
  | nil => exact hHead m n h i
  | cons j past ih => exact ih (hNext m n h j)

/-- States in lockstep drive equal machines. -/
theorem unfold_eq_of_bisim {τ : Type*} {step' : τ → I → O × τ} (R : σ → τ → Prop)
    (hStep : ∀ s t, R s t → ∀ i,
      (step s i).1 = (step' t i).1 ∧ R (step s i).2 (step' t i).2) {s : σ} {t : τ}
    (h : R s t) : unfold step s = unfold step' t := by
  refine eq_of_bisim (fun m n => ∃ s t, R s t ∧ m = unfold step s ∧ n = unfold step' t) ?_ ?_
    ⟨s, t, h, rfl, rfl⟩
  · rintro _ _ ⟨s, t, h, rfl, rfl⟩ i
    exact (hStep s t h i).1
  · rintro _ _ ⟨s, t, h, rfl, rfl⟩ i
    exact ⟨_, _, (hStep s t h i).2, rfl, rfl⟩

end Mealy
