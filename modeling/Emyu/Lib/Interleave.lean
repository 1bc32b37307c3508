import Mathlib.Data.List.Forall2

/-! Interleavings of lists, of any number of them, and that interleaving what was interleaved is
interleaving all at once. -/

namespace Interleaving

open List

variable {α β : Type*}

/-- The third list has the elements of the first two, each in its order. -/
inductive Interleave : List α → List α → List α → Prop where
  | nil : Interleave [] [] []
  | left {x : α} {l m n : List α} : Interleave l m n → Interleave (x :: l) m (x :: n)
  | right {x : α} {l m n : List α} : Interleave l m n → Interleave l (x :: m) (x :: n)

/-- The list has the elements of all the lists, each in its order. -/
inductive Interleaves : List (List α) → List α → Prop where
  | nil : Interleaves [] []
  | cons {l m n : List α} {ls : List (List α)} :
      Interleaves ls m → Interleave l m n → Interleaves (l :: ls) n

variable {l m n : List α} {ls ls' : List (List α)}

namespace Interleave

theorem nil_left (l : List α) : Interleave [] l l := by
  induction l with
  | nil => exact .nil
  | cons x l ih => exact .right ih

theorem eq_of_nil_left (h : Interleave [] m n) : n = m := by
  generalize hl : ([] : List α) = l at h
  induction h with
  | nil => rfl
  | left => cases hl
  | right _ ih => rw [ih hl]

/-- Of three lists the last two can be interleaved first. -/
theorem assoc {a b c x : List α} (h : Interleave x c n) (hx : Interleave a b x) :
    ∃ y, Interleave b c y ∧ Interleave a y n := by
  induction h generalizing a b with
  | nil =>
    cases hx
    exact ⟨[], .nil, .nil⟩
  | left _ ih =>
    cases hx with
    | left hx =>
      obtain ⟨y, hy, hn⟩ := ih hx
      exact ⟨y, hy, .left hn⟩
    | right hx =>
      obtain ⟨y, hy, hn⟩ := ih hx
      exact ⟨_, .left hy, .right hn⟩
  | right _ ih =>
    obtain ⟨y, hy, hn⟩ := ih hx
    exact ⟨_, .right hy, .right hn⟩

/-- Of three lists the first two can be interleaved first. -/
theorem assoc' {a b c y : List α} (h : Interleave a y n) (hy : Interleave b c y) :
    ∃ x, Interleave a b x ∧ Interleave x c n := by
  induction h generalizing b c with
  | nil =>
    cases hy
    exact ⟨[], .nil, .nil⟩
  | left _ ih =>
    obtain ⟨x, hx, hn⟩ := ih hy
    exact ⟨_, .left hx, .left hn⟩
  | right _ ih =>
    cases hy with
    | left hy =>
      obtain ⟨x, hx, hn⟩ := ih hy
      exact ⟨_, .right hx, .left hn⟩
    | right hy =>
      obtain ⟨x, hx, hn⟩ := ih hy
      exact ⟨x, hx, .right hn⟩

theorem filterMap (f : α → Option β) (h : Interleave l m n) :
    Interleave (l.filterMap f) (m.filterMap f) (n.filterMap f) := by
  induction h with
  | nil => exact .nil
  | @left x _ _ _ _ ih =>
    rcases hf : f x with _ | y
    · simpa [hf] using ih
    · simpa [hf] using .left ih
  | @right x _ _ _ _ ih =>
    rcases hf : f x with _ | y
    · simpa [hf] using ih
    · simpa [hf] using .right ih

end Interleave

namespace Interleaves

theorem filterMap (f : α → Option β) (h : Interleaves ls n) :
    Interleaves (ls.map (List.filterMap f)) (n.filterMap f) := by
  induction h with
  | nil => exact .nil
  | cons _ hInterleave ih => exact .cons ih (hInterleave.filterMap f)

end Interleaves

/-- The interleavings of a run of each, ended only where every run had ended. -/
def shuffled (Bs : List (Set (List α × Bool))) : Set (List α × Bool) :=
  {b | ∃ rs, Forall₂ (fun B r => r ∈ B) Bs rs ∧ Interleaves (rs.map Prod.fst) b.1 ∧
    (b.2 = true → ∀ r ∈ rs, r.2 = true)}

variable {Bs : List (Set (List α × Bool))} {Bss : List (List (Set (List α × Bool)))}

theorem mem_shuffled_nil {e : Bool} : (l, e) ∈ shuffled ([] : List (Set (List α × Bool))) ↔
    l = [] := by
  constructor
  · rintro ⟨_, ⟨⟩, ⟨⟩, -⟩
    rfl
  · rintro rfl
    exact ⟨[], .nil, .nil, fun _ => by simp⟩

theorem mem_shuffled_cons {B : Set (List α × Bool)} {e : Bool} :
    (n, e) ∈ shuffled (B :: Bs) ↔ ∃ l e₁ m e₂, (l, e₁) ∈ B ∧ (m, e₂) ∈ shuffled Bs ∧
      Interleave l m n ∧ (e = true → e₁ = true ∧ e₂ = true) := by
  constructor
  · rintro ⟨_, ⟨⟩ | ⟨hB, hBs⟩, ⟨⟩ | ⟨hm, hn⟩, hEnd⟩
    refine ⟨_, _, _, e, hB, ⟨_, hBs, hm, fun he => ?_⟩, hn, fun he => ⟨?_, he⟩⟩
    · exact (forall_mem_cons.mp (hEnd he)).2
    · exact (forall_mem_cons.mp (hEnd he)).1
  · rintro ⟨l, e₁, m, e₂, hB, ⟨rs, hBs, hm, hEnd⟩, hn, hEnds⟩
    refine ⟨(l, e₁) :: rs, .cons hB hBs, .cons hm hn, fun he => ?_⟩
    exact forall_mem_cons.mpr ⟨(hEnds he).1, hEnd (hEnds he).2⟩

theorem shuffled_cons_congr {B : Set (List α × Bool)} {Bs' : List (Set (List α × Bool))}
    (h : shuffled Bs = shuffled Bs') : shuffled (B :: Bs) = shuffled (B :: Bs') := by
  ext ⟨n, e⟩
  rw [mem_shuffled_cons, mem_shuffled_cons, h]

/-- One that shows nothing adds nothing. -/
theorem shuffled_cons_of_nil {B : Set (List α × Bool)} (h : ∀ l e, (l, e) ∈ B ↔ l = []) :
    shuffled (B :: Bs) = shuffled Bs := by
  ext ⟨n, e⟩
  rw [mem_shuffled_cons]
  constructor
  · rintro ⟨l, e₁, m, e₂, hB, ⟨rs, hBs, hm, hEnd⟩, hn, hEnds⟩
    obtain rfl := (h l e₁).mp hB
    rw [hn.eq_of_nil_left]
    exact ⟨rs, hBs, hm, fun he => hEnd (hEnds he).2⟩
  · exact fun hBs => ⟨[], true, n, e, (h _ _).mpr rfl, hBs, .nil_left n, fun he => ⟨rfl, he⟩⟩

/-- What was shuffled was so before the end was seen. -/
theorem shuffled_of {e e' : Bool} (h : (l, e') ∈ shuffled Bs) (he : e = true → e' = true) :
    (l, e) ∈ shuffled Bs := by
  obtain ⟨rs, hBs, hl, hEnd⟩ := h
  exact ⟨rs, hBs, hl, fun hTrue => hEnd (he hTrue)⟩

theorem mem_shuffled_append {Bs' : List (Set (List α × Bool))} {e : Bool} :
    (n, e) ∈ shuffled (Bs ++ Bs') ↔ ∃ l e₁ m e₂, (l, e₁) ∈ shuffled Bs ∧
      (m, e₂) ∈ shuffled Bs' ∧ Interleave l m n ∧ (e = true → e₁ = true ∧ e₂ = true) := by
  induction Bs generalizing n e with
  | nil =>
    simp only [nil_append, mem_shuffled_nil]
    constructor
    · exact fun h => ⟨[], true, n, e, rfl, h, .nil_left n, fun he => ⟨rfl, he⟩⟩
    · rintro ⟨_, _, m, e₂, rfl, hm, hn, hEnds⟩
      rw [hn.eq_of_nil_left]
      exact shuffled_of hm fun he => (hEnds he).2
  | cons B Bs ih =>
    rw [cons_append, mem_shuffled_cons]
    constructor
    · rintro ⟨l, e₁, m, e₂, hB, hMid, hn, hEnds⟩
      obtain ⟨l', e₁', m', e₂', hl', hm', hm, hEnds'⟩ := ih.mp hMid
      obtain ⟨x, hx, hn⟩ := hn.assoc' hm
      refine ⟨x, e₁ && e₁', m', e₂', mem_shuffled_cons.mpr ⟨l, e₁, l', e₁', hB, hl', hx, ?_⟩, hm',
        hn, fun he => ?_⟩
      · simp
      · simp [(hEnds he).1, hEnds' (hEnds he).2]
    · rintro ⟨x, e₁, m, e₂, hX, hm, hn, hEnds⟩
      obtain ⟨l, e₃, l', e₄, hB, hl', hx, hEnds'⟩ := mem_shuffled_cons.mp hX
      obtain ⟨y, hy, hn⟩ := hn.assoc hx
      refine ⟨l, e₃, y, e₄ && e₂, hB, ih.mpr ⟨l', e₄, m, e₂, hl', hm, hy, ?_⟩, hn, fun he => ?_⟩
      · simp
      · simp [hEnds he, hEnds' (hEnds he).1]

/-- Shuffling in groups is shuffling all. -/
theorem shuffled_flatten : shuffled Bss.flatten = shuffled (Bss.map shuffled) := by
  ext ⟨n, e⟩
  induction Bss generalizing n e with
  | nil => rfl
  | cons Bs Bss ih =>
    rw [map_cons, flatten_cons, mem_shuffled_cons, mem_shuffled_append]
    simp only [ih]

/-- More runs of each, more interleavings. -/
theorem shuffled_mono {Bs' : List (Set (List α × Bool))} (h : Forall₂ (· ⊆ ·) Bs Bs') :
    shuffled Bs ⊆ shuffled Bs' := by
  rintro b ⟨rs, hRuns, hRest⟩
  refine ⟨rs, ?_, hRest⟩
  clear hRest
  induction h generalizing rs with
  | nil => exact hRuns
  | cons hSub _ ih =>
    cases hRuns with
    | cons hRun hRuns => exact .cons (hSub hRun) (ih _ hRuns)

/-- Where each run of `f c` is one of `g d` for some `d`, so is each interleaving. -/
theorem shuffled_choose {γ δ : Type*} {f : γ → Set (List α × Bool)} {g : δ → Set (List α × Bool)}
    {P : γ → δ → Prop} (h : ∀ c, ∀ r ∈ f c, ∃ d, P c d ∧ r ∈ g d) {cs : List γ}
    {b : List α × Bool} (hb : b ∈ shuffled (cs.map f)) :
    ∃ ds, Forall₂ P cs ds ∧ b ∈ shuffled (ds.map g) := by
  obtain ⟨rs, hRuns, hRest⟩ := hb
  suffices hChoose : ∃ ds, Forall₂ P cs ds ∧ Forall₂ (fun B r => r ∈ B) (ds.map g) rs by
    obtain ⟨ds, hP, hDs⟩ := hChoose
    exact ⟨ds, hP, rs, hDs, hRest⟩
  clear hRest
  induction cs generalizing rs with
  | nil => exact ⟨[], .nil, hRuns⟩
  | cons c cs ih =>
    cases hRuns with
    | cons hRun hRuns =>
      obtain ⟨d, hD, hMem⟩ := h c _ hRun
      obtain ⟨ds, hP, hDs⟩ := ih _ hRuns
      exact ⟨d :: ds, .cons hD hP, .cons hMem hDs⟩

end Interleaving
