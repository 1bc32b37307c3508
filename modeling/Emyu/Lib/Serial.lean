import Mathlib.Data.List.Sort
import Mathlib.Logic.Function.Basic

/-! Accesses to a family of values by numbered owners: when the trace of accesses that really
happened can be put in the order of the owners, as if each owner had run alone. -/

namespace Serial

/-- A value that was seen, or a change that was made. -/
inductive Access (S : Type*) (Val : S → Type*) where
  | read (cell : S) (seen : Val cell)
  | write (cell : S) (f : Val cell → Val cell)

variable {S : Type*} {Val : S → Type*}

namespace Access

def cell : Access S Val → S
  | .read σ _ | .write σ _ => σ

def isWrite : Access S Val → Bool
  | .read .. => false
  | .write .. => true

/-- The two are to one cell, and one of them is a write. -/
def Conflicts (a b : Access S Val) : Prop :=
  a.cell = b.cell ∧ (a.isWrite = true ∨ b.isWrite = true)

variable [DecidableEq S]

/-- What an access does: a read sees the value that is there. -/
inductive Step (value : ∀ σ, Val σ) : Access S Val → (∀ σ, Val σ) → Prop where
  | read (σ : S) : Step value (.read σ (value σ)) value
  | write (σ : S) (f : Val σ → Val σ) :
      Step value (.write σ f) (Function.update value σ (f (value σ)))

end Access

open Access

variable {trace : List (Nat × Access S Val)} {x : Nat × Access S Val}

/-- A trace of accesses by their owners' numbers, in the order of the numbers, each owner's own
accesses in the order it made them. -/
def serial (trace : List (Nat × Access S Val)) : List (Nat × Access S Val) :=
  trace.insertionSort fun x y => x.1 ≤ y.1

/-- An access only ever comes before one of a smaller owner if the two do not conflict. -/
def Sortable (trace : List (Nat × Access S Val)) : Prop :=
  trace.Pairwise fun x y => y.1 < x.1 → ¬ x.2.Conflicts y.2

theorem perm_serial (trace : List (Nat × Access S Val)) : (serial trace).Perm trace :=
  List.perm_insertionSort _ _

theorem sorted_serial (trace : List (Nat × Access S Val)) :
    (serial trace).Pairwise fun x y => x.1 ≤ y.1 :=
  have : Std.Total fun x y : Nat × Access S Val => x.1 ≤ y.1 := ⟨fun x y => Nat.le_total x.1 y.1⟩
  have : IsTrans (Nat × Access S Val) fun x y => x.1 ≤ y.1 := ⟨fun _ _ _ => Nat.le_trans⟩
  List.pairwise_insertionSort _ _

/-- No owner's accesses are reordered. -/
theorem filter_serial (trace : List (Nat × Access S Val)) (n : Nat) :
    (serial trace).filter (fun x => x.1 == n) = trace.filter fun x => x.1 == n := by
  have : Std.Total fun x y : Nat × Access S Val => x.1 ≤ y.1 := ⟨fun x y => Nat.le_total x.1 y.1⟩
  have : IsTrans (Nat × Access S Val) fun x y => x.1 ≤ y.1 := ⟨fun _ _ _ => Nat.le_trans⟩
  have hOwn : (trace.filter fun x => x.1 == n).Pairwise fun x y => x.1 ≤ y.1 := by
    refine List.pairwise_of_forall_mem_list fun x hx y hy => ?_
    have hx' := (List.mem_filter.mp hx).2
    have hy' := (List.mem_filter.mp hy).2
    simp only [beq_iff_eq] at hx' hy'
    omega
  have hSub := (List.sublist_insertionSort hOwn List.filter_sublist).filter fun x => x.1 == n
  rw [List.filter_filter] at hSub
  simp only [Bool.and_self] at hSub
  exact (hSub.eq_of_length ((perm_serial trace).filter _).length_eq.symm).symm

variable [DecidableEq S] {value value' : ∀ σ, Val σ} {a b : Access S Val}
  {l : List (Access S Val)}

/-- The accesses in order lead from the first values to the last. -/
inductive Exec : (∀ σ, Val σ) → List (Access S Val) → (∀ σ, Val σ) → Prop where
  | nil (value : ∀ σ, Val σ) : Exec value [] value
  | cons {value middle last : ∀ σ, Val σ} {a : Access S Val} {l : List (Access S Val)} :
      Step value a middle → Exec middle l last → Exec value (a :: l) last

theorem Exec.append {middle last : ∀ σ, Val σ} {m : List (Access S Val)}
    (h : Exec value l middle) (h' : Exec middle m last) : Exec value (l ++ m) last := by
  induction h with
  | nil => exact h'
  | cons hStep _ ih => exact .cons hStep (ih h')

theorem Exec.snoc {middle last : ∀ σ, Val σ} (h : Exec value l middle)
    (hStep : Step middle a last) : Exec value (l ++ [a]) last :=
  h.append (.cons hStep (.nil _))

/-- Two accesses that do not conflict can be made in the other order. -/
theorem Exec.swap (h : Exec value (a :: b :: l) value') (hFree : ¬ a.Conflicts b) :
    Exec value (b :: a :: l) value' := by
  obtain ⟨⟩ | @⟨_, first, _, _, _, hFirst, ⟨⟩ | @⟨_, second, _, _, _, hSecond, hRest⟩⟩ := h
  cases hFirst with
  | read σ =>
    cases hSecond with
    | read τ => exact .cons (.read τ) (.cons (.read σ) hRest)
    | write τ g =>
      have hNe : σ ≠ τ := fun hEq => hFree ⟨hEq, .inr rfl⟩
      refine .cons (.write τ g) (.cons ?_ hRest)
      have hSame : Function.update value τ (g (value τ)) σ = value σ :=
        Function.update_of_ne hNe _ _
      rw [← hSame]
      exact .read σ
  | write σ f =>
    cases hSecond with
    | read τ =>
      have hNe : τ ≠ σ := fun hEq => hFree ⟨hEq.symm, .inl rfl⟩
      rw [Function.update_of_ne hNe]
      exact .cons (.read τ) (.cons (.write σ f) hRest)
    | write τ g =>
      have hNe : τ ≠ σ := fun hEq => hFree ⟨hEq.symm, .inl rfl⟩
      rw [Function.update_of_ne hNe, Function.update_comm hNe.symm] at hRest
      refine .cons (.write τ g) (.cons ?_ hRest)
      have hSame : Function.update value τ (g (value τ)) σ = value σ :=
        Function.update_of_ne hNe.symm _ _
      rw [← hSame]
      exact .write σ f

theorem exec_orderedInsert (h : Exec value (x.2 :: trace.map Prod.snd) value')
    (hFree : ∀ y ∈ trace, y.1 < x.1 → ¬ x.2.Conflicts y.2) :
    Exec value ((trace.orderedInsert (fun x y => x.1 ≤ y.1) x).map Prod.snd) value' := by
  induction trace generalizing value with
  | nil => exact h
  | cons y rest ih =>
    rw [List.orderedInsert_cons]
    split
    next => exact h
    next hLater =>
      have hSwap := h.swap (hFree y (List.mem_cons_self ..) (by omega))
      obtain ⟨⟩ | @⟨_, middle, _, _, _, hFirst, hRest⟩ := hSwap
      exact .cons hFirst (ih hRest fun z hMem => hFree z (List.mem_cons_of_mem _ hMem))

/-- A sortable trace comes to the same in the order of the owners. -/
theorem Sortable.exec_serial (hSortable : Sortable trace)
    (h : Exec value (trace.map Prod.snd) value') :
    Exec value ((serial trace).map Prod.snd) value' := by
  induction trace generalizing value with
  | nil => exact h
  | cons x rest ih =>
    obtain ⟨hFirst, hRest⟩ := List.pairwise_cons.mp hSortable
    obtain ⟨⟩ | @⟨_, middle, _, _, _, hStep, hExec⟩ := h
    refine exec_orderedInsert (.cons hStep (ih hRest hExec)) fun y hMem => ?_
    exact hFirst y ((perm_serial rest).mem_iff.mp hMem)

end Serial
