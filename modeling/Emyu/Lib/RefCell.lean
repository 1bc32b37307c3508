import Mathlib.Data.List.Perm.Basic

/-! The borrow flag of a `RefCell` and the guards that are alive: the flag counts the shared ones,
and is -1 while the one exclusive guard is out. -/

namespace RefCell

inductive Borrow where
  | shared
  | exclusive
  deriving DecidableEq, Repr

/-- Two guards that cannot be alive together. -/
def Borrow.conflicts : Borrow → Borrow → Bool
  | .shared, .shared => false
  | _, _ => true

/-- `borrow()` or `borrow_mut()`: the new flag, or `none` where they panic. -/
def tryBorrow (flag : Int) : Borrow → Option Int
  | .shared => if 0 < flag + 1 then some (flag + 1) else none
  | .exclusive => if flag = 0 then some (flag - 1) else none

/-- A guard is dropped. -/
def release (flag : Int) : Borrow → Int
  | .shared => flag - 1
  | .exclusive => flag + 1

/-- The flag says which guards are alive. -/
def Counts (flag : Int) (guards : List Borrow) : Prop :=
  flag = guards.length ∧ Borrow.exclusive ∉ guards ∨ flag = -1 ∧ guards = [.exclusive]

variable {flag flag' : Int} {b : Borrow} {guards guards' : List Borrow}

theorem Counts.nil : Counts 0 [] := .inl ⟨rfl, by simp⟩

theorem Counts.perm (h : Counts flag guards) (hp : guards.Perm guards') : Counts flag guards' := by
  rcases h with ⟨hFlag, hShared⟩ | ⟨hFlag, rfl⟩
  · exact .inl ⟨by rw [hFlag, hp.length_eq], fun hMem => hShared (hp.mem_iff.mpr hMem)⟩
  · exact .inr ⟨hFlag, (List.singleton_perm.mp hp).symm⟩

theorem eq_shared (hb : b ≠ .exclusive) : b = .shared := by
  cases b with
  | shared => rfl
  | exclusive => exact (hb rfl).elim

/-- A borrow fails exactly if a guard that conflicts with it is alive. -/
theorem Counts.tryBorrow_eq_none (h : Counts flag guards) :
    tryBorrow flag b = none ↔ ∃ g ∈ guards, g.conflicts b = true := by
  rcases h with ⟨rfl, hShared⟩ | ⟨rfl, rfl⟩
  · cases b with
    | shared =>
      refine iff_of_false (by simp [tryBorrow]) ?_
      rintro ⟨g, hMem, hConflict⟩
      obtain rfl := eq_shared fun hg => hShared (hg ▸ hMem)
      cases hConflict
    | exclusive =>
      cases guards with
      | nil => simp [tryBorrow]
      | cons g rest =>
        refine iff_of_true ?_ ⟨g, List.mem_cons_self .., by cases g <;> rfl⟩
        simp only [tryBorrow, List.length_cons]
        rw [if_neg (by omega)]
  · cases b <;> simp [tryBorrow, Borrow.conflicts]

/-- The guards say what the flag is. -/
theorem Counts.flag_eq (h : Counts flag guards) (h' : Counts flag' guards) : flag = flag' := by
  rcases h with ⟨rfl, hShared⟩ | ⟨rfl, rfl⟩
  · rcases h' with ⟨rfl, -⟩ | ⟨-, rfl⟩
    · rfl
    · exact (hShared (List.mem_singleton.mpr rfl)).elim
  · rcases h' with ⟨-, hShared⟩ | ⟨rfl, -⟩
    · exact (hShared (List.mem_singleton.mpr rfl)).elim
    · rfl

theorem Counts.tryBorrow (h : Counts flag guards) (hb : tryBorrow flag b = some flag') :
    Counts flag' (b :: guards) := by
  cases b with
  | shared =>
    obtain ⟨hPositive, rfl⟩ : 0 < flag + 1 ∧ flag + 1 = flag' := by
      simpa [RefCell.tryBorrow] using hb
    rcases h with ⟨rfl, hShared⟩ | ⟨rfl, -⟩
    · exact .inl ⟨by simp, by simpa using hShared⟩
    · omega
  | exclusive =>
    obtain ⟨rfl, rfl⟩ : flag = 0 ∧ flag - 1 = flag' := by
      simpa [RefCell.tryBorrow] using hb
    rcases h with ⟨hZero, -⟩ | ⟨hFlag, -⟩
    · have hNil : guards = [] := List.length_eq_zero_iff.mp (by omega)
      exact .inr ⟨rfl, by rw [hNil]⟩
    · omega

theorem Counts.release (h : Counts flag (b :: guards)) : Counts (release flag b) guards := by
  rcases h with ⟨rfl, hShared⟩ | ⟨rfl, hSingle⟩
  · obtain rfl := eq_shared fun hb => hShared (hb ▸ List.mem_cons_self ..)
    exact .inl ⟨by simp [RefCell.release], fun hMem => hShared (List.mem_cons_of_mem _ hMem)⟩
  · obtain ⟨rfl, rfl⟩ := List.cons.inj hSingle
    exact .nil

theorem Counts.releaseAll (h : Counts flag (guards' ++ guards)) :
    Counts (guards'.foldl RefCell.release flag) guards := by
  induction guards' generalizing flag with
  | nil => exact h
  | cons b rest ih => exact ih (Counts.release h)

end RefCell
