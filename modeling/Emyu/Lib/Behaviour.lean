import Emyu.Lib.Combinators

/-! What polling a stream can show, in whatever worlds it is polled, and what that is for streams
made by combinators: equations between sets of finite runs. -/

universe u

namespace Polling

open Mealy

variable {W E T O : Type u}

/-- Polling `s`, in whatever worlds, shows the events `l`, each in its world, and leaves the stream
that goes on, or none once its end was seen. -/
inductive Plays : Strm W E T → List (W × Event E T) → Option (Strm W E T) → Prop where
  | stop (s : Strm W E T) : Plays s [] (some s)
  | ended {s : Strm W E T} {w : W} : s.head w = some .ended → Plays s [] none
  | silent {s : Strm W E T} {w : W} {l : List (W × Event E T)} {o : Option (Strm W E T)} :
      s.head w = none → Plays (s.next w) l o → Plays s l o
  | event {s : Strm W E T} {w : W} {ev : Event E T} {l : List (W × Event E T)}
      {o : Option (Strm W E T)} : s.head w = some ev → ev ≠ .ended → Plays (s.next w) l o →
      Plays s ((w, ev) :: l) o

/-- The finite runs of the stream: the events shown, and whether the end was. -/
def behaviours (s : Strm W E T) : Set (List (W × Event E T) × Bool) :=
  {b | ∃ o, Plays s b.1 o ∧ o.isNone = b.2}

/-- The items among the events shown. -/
def itemsOf (l : List (W × Event E T)) : List T :=
  l.filterMap fun p => match p.2 with
    | .item x => some x
    | _ => none

/-- The effects among the events shown. -/
def effectsOf (l : List (W × Event E T)) : List (W × Event E O) :=
  l.filterMap fun p => match p.2 with
    | .effect e => some (p.1, .effect e)
    | _ => none

/-- What a run of the stream can have given, and whether it had ended. -/
def outputs (s : Strm W E T) : Set (List T × Bool) :=
  {b | ∃ l, (l, b.2) ∈ behaviours s ∧ itemsOf l = b.1}

@[simp] theorem itemsOf_nil : itemsOf ([] : List (W × Event E T)) = [] := rfl

@[simp] theorem itemsOf_effect (w : W) (e : E) (l : List (W × Event E T)) :
    itemsOf ((w, .effect e) :: l) = itemsOf l := rfl

@[simp] theorem itemsOf_item (w : W) (x : T) (l : List (W × Event E T)) :
    itemsOf ((w, .item x) :: l : List (W × Event E T)) = x :: itemsOf l := rfl

@[simp] theorem itemsOf_append (l m : List (W × Event E T)) :
    itemsOf (l ++ m) = itemsOf l ++ itemsOf m := List.filterMap_append

@[simp] theorem effectsOf_nil :
    (effectsOf ([] : List (W × Event E T)) : List (W × Event E O)) = [] := rfl

@[simp] theorem effectsOf_effect (w : W) (e : E) (l : List (W × Event E T)) :
    (effectsOf ((w, .effect e) :: l) : List (W × Event E O)) = (w, .effect e) :: effectsOf l := rfl

@[simp] theorem effectsOf_item (w : W) (x : T) (l : List (W × Event E T)) :
    (effectsOf ((w, .item x) :: l : List (W × Event E T)) : List (W × Event E O)) =
      effectsOf l := rfl

@[simp] theorem itemsOf_effectsOf (l : List (W × Event E T)) :
    itemsOf (effectsOf l : List (W × Event E O)) = [] := by
  induction l with
  | nil => rfl
  | cons p l ih =>
    obtain ⟨w, ev⟩ := p
    cases ev with
    | effect e => simpa using ih
    | item x => simpa using ih
    | ended => exact ih

section Rules

variable {s t : Strm W E T} {w : W} {ev : Event E T} {l : List (W × Event E T)} {e : Bool}
  {o : Option (Strm W E T)}

theorem Plays.of_silent (h : Silent w s t) (hPlays : Plays t l o) : Plays s l o := by
  induction h with
  | refl _ => exact hPlays
  | step hHead _ ih => exact .silent hHead (ih hPlays)

theorem Plays.mem (h : Plays s l o) : (l, o.isNone) ∈ behaviours s := ⟨o, h, rfl⟩

theorem behaviours_stop (s : Strm W E T) : ([], false) ∈ behaviours s := ⟨_, .stop s, rfl⟩

theorem behaviours_ended (h : s.head w = some .ended) : ([], true) ∈ behaviours s :=
  ⟨_, .ended h, rfl⟩

theorem behaviours_silent (h : s.head w = none) (hNext : (l, e) ∈ behaviours (s.next w)) :
    (l, e) ∈ behaviours s := by
  obtain ⟨o, hPlays, hEnd⟩ := hNext
  exact ⟨o, .silent h hPlays, hEnd⟩

theorem behaviours_event (h : s.head w = some ev) (hEv : ev ≠ .ended)
    (hNext : (l, e) ∈ behaviours (s.next w)) : ((w, ev) :: l, e) ∈ behaviours s := by
  obtain ⟨o, hPlays, hEnd⟩ := hNext
  exact ⟨o, .event h hEv hPlays, hEnd⟩

/-- What was shown was shown before the end was seen. -/
theorem Plays.before_end (h : Plays s l o) : (l, false) ∈ behaviours s := by
  induction h with
  | stop => exact behaviours_stop _
  | ended => exact behaviours_stop _
  | silent hHead _ ih => exact behaviours_silent hHead ih
  | event hHead hEv _ ih => exact behaviours_event hHead hEv ih

theorem Plays.append {l' : List (W × Event E T)} {o' : Option (Strm W E T)} (h : Plays s l o)
    (ho : o = some t) (hRest : Plays t l' o') : Plays s (l ++ l') o' := by
  induction h with
  | stop s =>
    cases ho
    exact hRest
  | ended => cases ho
  | silent hHead _ ih => exact .silent hHead (ih ho)
  | event hHead hEv _ ih => exact .event hHead hEv (ih ho)

theorem Yields.plays {xs : List T} (h : Yields s xs t) :
    ∃ l, Plays s l (some t) ∧ itemsOf l = xs := by
  induction h with
  | refl => exact ⟨[], .stop s, rfl⟩
  | @quiet xs t w _ hItem hEnded ih =>
    obtain ⟨l, hPlays, rfl⟩ := ih
    rcases hHead : t.head w with _ | ev
    · exact ⟨l ++ [], hPlays.append rfl (.silent hHead (.stop _)), by simp⟩
    · cases ev with
      | effect e =>
        exact ⟨l ++ [(w, .effect e)], hPlays.append rfl (.event hHead (by simp) (.stop _)),
          by simp⟩
      | item x => exact (hItem x hHead).elim
      | ended => exact (hEnded hHead).elim
  | @item xs t w x _ hHead ih =>
    obtain ⟨l, hPlays, rfl⟩ := ih
    exact ⟨l ++ [(w, .item x)], hPlays.append rfl (.event hHead (by simp) (.stop _)), by simp⟩

theorem Plays.yields {r : Strm W E T} {xs : List T} (h : Plays s l o) (hYields : Yields r xs s) :
    ∃ t, Yields r (xs ++ itemsOf l) t := by
  induction h generalizing xs with
  | stop s => exact ⟨s, by simpa using hYields⟩
  | @ended s => exact ⟨s, by simpa using hYields⟩
  | silent hHead _ ih => exact ih (hYields.quiet (by simp [hHead]) (by simp [hHead]))
  | @event s w ev _ _ hHead hEv _ ih =>
    cases ev with
    | effect e => exact ih (hYields.quiet (by simp [hHead]) (by simp [hHead]))
    | item x =>
      obtain ⟨t, hAll⟩ := ih (hYields.item hHead)
      exact ⟨t, by simpa using hAll⟩
    | ended => exact (hEv rfl).elim

/-- The items that polling can have given are those of the runs. -/
theorem exists_yields_iff {xs : List T} :
    (∃ t, Yields s xs t) ↔ ∃ l, (l, false) ∈ behaviours s ∧ itemsOf l = xs := by
  constructor
  · rintro ⟨t, hYields⟩
    obtain ⟨l, hPlays, hItems⟩ := hYields.plays
    exact ⟨l, hPlays.mem, hItems⟩
  · rintro ⟨l, ⟨o, hPlays, -⟩, rfl⟩
    exact hPlays.yields .refl

/-- Weakly equal streams have the same runs. -/
theorem Plays.weakEq (h : s ≈ t) (hPlays : Plays s l o) :
    ∃ o', Plays t l o' ∧ o'.isNone = o.isNone := by
  induction hPlays generalizing t with
  | stop s => exact ⟨_, .stop t, rfl⟩
  | ended hHead =>
    obtain ⟨t', hSilent, hHead', -⟩ := h.answers.event _ _ hHead
    exact ⟨_, .of_silent hSilent (.ended hHead'), rfl⟩
  | silent hHead _ ih =>
    obtain ⟨t', hSilent, hEq⟩ := h.answers.silent _ hHead
    obtain ⟨o', hPlays', hEnd⟩ := ih hEq
    exact ⟨o', .of_silent hSilent hPlays', hEnd⟩
  | event hHead hEv _ ih =>
    obtain ⟨t', hSilent, hHead', hEq⟩ := h.answers.event _ _ hHead
    obtain ⟨o', hPlays', hEnd⟩ := ih (hEq hEv)
    exact ⟨o', .of_silent hSilent (.event hHead' hEv hPlays'), hEnd⟩

theorem behaviours_congr (h : s ≈ t) : behaviours s = behaviours t := by
  ext ⟨l, e⟩
  constructor
  · rintro ⟨o, hPlays, hEnd⟩
    obtain ⟨o', hPlays', hEnd'⟩ := hPlays.weakEq h
    exact ⟨o', hPlays', hEnd'.trans hEnd⟩
  · rintro ⟨o, hPlays, hEnd⟩
    obtain ⟨o', hPlays', hEnd'⟩ := hPlays.weakEq (WeakEq.symm h)
    exact ⟨o', hPlays', hEnd'.trans hEnd⟩

theorem outputs_congr (h : s ≈ t) : outputs s = outputs t := by
  simp only [outputs, behaviours_congr h]

/-- A stream that has ended, in whatever worlds, shows nothing but its end. -/
theorem plays_of_ended (hEnded : ∀ w, s.head w = some .ended) (h : Plays s l o) :
    l = [] ∧ ∀ t, o = some t → t = s := by
  cases h with
  | stop => exact ⟨rfl, fun _ h => (Option.some.inj h).symm⟩
  | ended => exact ⟨rfl, fun _ h => by cases h⟩
  | silent hHead =>
    rw [hEnded] at hHead
    cases hHead
  | event hHead hEv =>
    rw [hEnded] at hHead
    exact (hEv (Option.some.inj hHead).symm).elim

theorem mem_behaviours_empty (w : W) : (l, e) ∈ behaviours (empty : Strm W E T) ↔ l = [] := by
  constructor
  · rintro ⟨o, hPlays, -⟩
    exact (plays_of_ended (fun _ => rfl) hPlays).1
  · rintro rfl
    cases e with
    | false => exact behaviours_stop _
    | true => exact behaviours_ended (w := w) rfl

theorem mem_behaviours_single {x : T} :
    (l, e) ∈ behaviours (single x : Strm W E T) ↔
      (l = [] ∧ e = false) ∨ ∃ w, l = [(w, .item x)] := by
  constructor
  · rintro ⟨o, hPlays, hEnd⟩
    cases hPlays with
    | stop => exact .inl ⟨rfl, hEnd.symm⟩
    | ended hHead | silent hHead => cases hHead
    | @event _ w _ _ _ hHead _ hPlays =>
      obtain rfl := Option.some.inj hHead
      obtain ⟨rfl, -⟩ := plays_of_ended (s := empty) (fun _ => rfl) hPlays
      exact .inr ⟨w, rfl⟩
  · rintro (⟨rfl, rfl⟩ | ⟨w, rfl⟩)
    · exact behaviours_stop _
    · exact behaviours_event rfl (by simp) ((mem_behaviours_empty w).mpr rfl)

end Rules

section Chain

variable {a b : Strm W E T} {l : List (W × Event E T)} {e : Bool} {o : Option (Strm W E T)}

theorem chain_head {w : W} (h : a.head w ≠ some .ended) :
    (Polling.chain a b).head w = a.head w := by
  rcases hA : a.head w with _ | ev
  · simp [Polling.chain, chainStep, hA]
  · cases ev <;> simp_all [Polling.chain, chainStep]

theorem chain_next {w : W} (h : a.head w ≠ some .ended) :
    (Polling.chain a b).next w = Polling.chain (a.next w) b := by
  rcases hA : a.head w with _ | ev
  · simp [Polling.chain, chainStep, hA]
  · cases ev <;> simp_all [Polling.chain, chainStep]

theorem chain_head_ended {w : W} (h : a.head w = some .ended) :
    (Polling.chain a b).head w = none := by
  simp [Polling.chain, chainStep, h]

theorem chain_next_ended {w : W} (h : a.head w = some .ended) :
    (Polling.chain a b).next w = b := by
  simp [Polling.chain, chainStep, h, unfold_second]

/-- A run of the first stream that stops, or one to its end and then one of the second. -/
theorem Plays.of_chain {s : Strm W E T} (h : Plays s l o) :
    ∀ a, s = Polling.chain a b → (∃ a', Plays a l (some a') ∧ o = some (Polling.chain a' b)) ∨
      ∃ l₁ l₂, l = l₁ ++ l₂ ∧ Plays a l₁ none ∧ Plays b l₂ o := by
  induction h with
  | stop s =>
    rintro a rfl
    exact .inl ⟨a, .stop a, rfl⟩
  | @ended s w hHead =>
    rintro a rfl
    by_cases hA : a.head w = some .ended
    · rw [chain_head_ended hA] at hHead
      cases hHead
    · rw [chain_head hA] at hHead
      exact (hA hHead).elim
  | @silent s w l o hHead hPlays ih =>
    rintro a rfl
    by_cases hA : a.head w = some .ended
    · rw [chain_next_ended hA] at hPlays
      exact .inr ⟨[], l, rfl, .ended hA, hPlays⟩
    · rw [chain_head hA] at hHead
      rcases ih (a.next w) (chain_next hA) with ⟨a', hA', rfl⟩ | ⟨l₁, l₂, rfl, hA', hB⟩
      · exact .inl ⟨a', .silent hHead hA', rfl⟩
      · exact .inr ⟨l₁, l₂, rfl, .silent hHead hA', hB⟩
  | @event s w ev l o hHead hEv hPlays ih =>
    rintro a rfl
    by_cases hA : a.head w = some .ended
    · rw [chain_head_ended hA] at hHead
      cases hHead
    · rw [chain_head hA] at hHead
      rcases ih (a.next w) (chain_next hA) with ⟨a', hA', rfl⟩ | ⟨l₁, l₂, rfl, hA', hB⟩
      · exact .inl ⟨a', .event hHead hEv hA', rfl⟩
      · exact .inr ⟨(w, ev) :: l₁, l₂, rfl, .event hHead hEv hA', hB⟩

theorem Plays.chain_stop {a' : Strm W E T} (h : Plays a l o) (ho : o = some a') :
    Plays (Polling.chain a b) l (some (Polling.chain a' b)) := by
  induction h with
  | stop s =>
    cases ho
    exact .stop _
  | ended => cases ho
  | @silent s w _ _ hHead _ ih =>
    have hNe : s.head w ≠ some .ended := by simp [hHead]
    exact .silent ((chain_head hNe).trans hHead) (chain_next hNe ▸ ih ho)
  | @event s w _ _ _ hHead hEv _ ih =>
    have hNe : s.head w ≠ some .ended := by simp [hHead, hEv]
    exact .event ((chain_head hNe).trans hHead) hEv (chain_next hNe ▸ ih ho)

theorem Plays.chain {l₁ l₂ : List (W × Event E T)} {o' : Option (Strm W E T)}
    (h : Plays a l₁ o') (ho : o' = none) (hB : Plays b l₂ o) :
    Plays (Polling.chain a b) (l₁ ++ l₂) o := by
  induction h with
  | stop s => cases ho
  | ended hHead => exact .silent (chain_head_ended hHead) (chain_next_ended hHead ▸ hB)
  | @silent s w _ _ hHead _ ih =>
    have hNe : s.head w ≠ some .ended := by simp [hHead]
    exact .silent ((chain_head hNe).trans hHead) (chain_next hNe ▸ ih ho)
  | @event s w _ _ _ hHead hEv _ ih =>
    have hNe : s.head w ≠ some .ended := by simp [hHead, hEv]
    exact .event ((chain_head hNe).trans hHead) hEv (chain_next hNe ▸ ih ho)

theorem mem_behaviours_chain : (l, e) ∈ behaviours (Polling.chain a b) ↔
    (e = false ∧ (l, false) ∈ behaviours a) ∨
      ∃ l₁ l₂, l = l₁ ++ l₂ ∧ (l₁, true) ∈ behaviours a ∧ (l₂, e) ∈ behaviours b := by
  constructor
  · rintro ⟨o, hPlays, rfl⟩
    rcases hPlays.of_chain a rfl with ⟨a', hA, rfl⟩ | ⟨l₁, l₂, hAppend, hA, hB⟩
    · exact .inl ⟨rfl, hA.mem⟩
    · exact .inr ⟨l₁, l₂, hAppend, hA.mem, hB.mem⟩
  · rintro (⟨rfl, o, hA, hEnd⟩ | ⟨l₁, l₂, rfl, ⟨o', hA, hEnd⟩, ⟨o, hB, rfl⟩⟩)
    · obtain ⟨a', rfl⟩ := Option.isSome_iff_exists.mp (Option.isNone_eq_false_iff.mp hEnd)
      exact (hA.chain_stop rfl).mem
    · exact (hA.chain (Option.isNone_iff_eq_none.mp hEnd) hB).mem

/-- A stream that has ended already is a right unit of `chain`, in its runs. -/
theorem behaviours_chain_empty (w : W) (a : Strm W E T) :
    behaviours (Polling.chain a empty) = behaviours a := by
  ext ⟨l, e⟩
  rw [mem_behaviours_chain]
  simp only [mem_behaviours_empty w]
  constructor
  · rintro (⟨rfl, hA⟩ | ⟨l₁, l₂, rfl, hA, rfl⟩)
    · exact hA
    · cases e with
      | true => simpa using hA
      | false =>
        obtain ⟨o, hPlays, -⟩ := hA
        simpa using hPlays.before_end
  · intro hA
    cases e with
    | false => exact .inl ⟨rfl, hA⟩
    | true => exact .inr ⟨l, [], (List.append_nil l).symm, hA, rfl⟩

theorem chain_assoc (a b c : Strm W E T) :
    Polling.chain (Polling.chain a b) c = Polling.chain a (Polling.chain b c) := by
  refine eq_of_bisim (fun m n => m = n ∨ ∃ a,
    m = Polling.chain (Polling.chain a b) c ∧ n = Polling.chain a (Polling.chain b c)) ?_ ?_
    (.inr ⟨a, rfl, rfl⟩)
  · rintro m n (rfl | ⟨a, rfl, rfl⟩) w
    · rfl
    · by_cases hA : a.head w = some .ended
      · have hInner := chain_head_ended (b := b) hA
        rw [chain_head (by simp [hInner]), hInner, chain_head_ended hA]
      · rw [chain_head (by rwa [chain_head hA]), chain_head hA, chain_head hA]
  · rintro m n (rfl | ⟨a, rfl, rfl⟩) w
    · exact .inl rfl
    · by_cases hA : a.head w = some .ended
      · have hInner := chain_head_ended (b := b) hA
        rw [chain_next (by simp [hInner]), chain_next_ended hA, chain_next_ended hA]
        exact .inl rfl
      · rw [chain_next (by rwa [chain_head hA]), chain_next hA, chain_next hA]
        exact .inr ⟨_, rfl, rfl⟩

end Chain

section FlatMap

/-- The stream that the call of the closure for an item gives, its effects first. -/
def Fn.called (g : Fn W E T (Strm W E O)) (i : T × W) : Strm W E O :=
  emit (g.head i).1 (g.head i).2

/-- What a run of `s.flat_map(g)` shows for a run of `s`: the effects of `s`, and for each item a
run to the end of the stream that `g` gives for it, but for the last one that is under way. -/
inductive Flattens : Fn W E T (Strm W E O) → List (W × Event E T) → Bool →
    List (W × Event E O) → Prop where
  | stop (g : Fn W E T (Strm W E O)) : Flattens g [] false []
  | ended (g : Fn W E T (Strm W E O)) : Flattens g [] true []
  | effect {g : Fn W E T (Strm W E O)} {w : W} {x : E} {ls : List (W × Event E T)} {e : Bool}
      {l : List (W × Event E O)} : Flattens g ls e l →
      Flattens g ((w, .effect x) :: ls) e ((w, .effect x) :: l)
  | inner {g : Fn W E T (Strm W E O)} {w : W} {x : T} {l : List (W × Event E O)} :
      (l, false) ∈ behaviours (g.called (x, w)) → Flattens g [(w, .item x)] false l
  | item {g : Fn W E T (Strm W E O)} {w : W} {x : T} {ls : List (W × Event E T)} {e : Bool}
      {l₁ l₂ : List (W × Event E O)} : (l₁, true) ∈ behaviours (g.called (x, w)) →
      Flattens (g.next (x, w)) ls e l₂ → Flattens g ((w, .item x) :: ls) e (l₁ ++ l₂)

variable {s : Strm W E T} {g : Fn W E T (Strm W E O)} {l : List (W × Event E O)} {e : Bool}
  {o : Option (Strm W E O)}

/-- A run of the flattened stream comes from one of the outer stream, and, where it starts within
an inner stream, from one of that. -/
theorem Plays.of_flat {m : Strm W E O} (h : Plays m l o) :
    (∀ (s : Strm W E T) (g : Fn W E T (Strm W E O)), m = flatMap s g →
      ∃ ls, (ls, o.isNone) ∈ behaviours s ∧ Flattens g ls o.isNone l) ∧
    (∀ (s : Strm W E T) (g : Fn W E T (Strm W E O)) i, m = unfold flatStep (.inner s g i) →
      (o.isNone = false ∧ (l, false) ∈ behaviours i) ∨
      ∃ l₁ l₂, l = l₁ ++ l₂ ∧ (l₁, true) ∈ behaviours i ∧
        ∃ ls, (ls, o.isNone) ∈ behaviours s ∧ Flattens g ls o.isNone l₂) := by
  induction h with
  | stop m =>
    refine ⟨fun s g hm => ⟨[], behaviours_stop s, .stop g⟩, fun s g i hm => .inl ⟨rfl, ?_⟩⟩
    exact behaviours_stop i
  | @ended m w hHead =>
    constructor
    · rintro s g rfl
      exact ⟨[], behaviours_ended (outer_ended.mp hHead), .ended g⟩
    · rintro s g i rfl
      exact ((inner_event.mp hHead).2 rfl).elim
  | @silent m w l o hHead hPlays ih =>
    constructor
    · rintro s g rfl
      rcases outer_silent.mp hHead with hS | ⟨x, hS⟩
      · obtain ⟨ls, hs, hFlat⟩ := ih.1 (s.next w) g (outer_next (by simp [hS]))
        exact ⟨ls, behaviours_silent hS hs, hFlat⟩
      · rcases ih.2 _ _ _ (outer_next_item hS) with
          ⟨hEnd, hI⟩ | ⟨l₁, l₂, rfl, hI, ls, hs, hFlat⟩
        · rw [hEnd]
          exact ⟨[(w, .item x)], behaviours_event hS (by simp) (behaviours_stop _), .inner hI⟩
        · exact ⟨(w, .item x) :: ls, behaviours_event hS (by simp) hs, .item hI hFlat⟩
    · rintro s g i rfl
      rcases inner_silent.mp hHead with hI | hI
      · rcases ih.2 s g (i.next w) (inner_next (by simp [hI])) with
          ⟨hEnd, hRun⟩ | ⟨l₁, l₂, rfl, hRun, hRest⟩
        · exact .inl ⟨hEnd, behaviours_silent hI hRun⟩
        · exact .inr ⟨l₁, l₂, rfl, behaviours_silent hI hRun, hRest⟩
      · have hRest := ih.1 s g (inner_next_ended hI)
        exact .inr ⟨[], l, rfl, behaviours_ended hI, hRest⟩
  | @event m w ev l o hHead hEv hPlays ih =>
    constructor
    · rintro s g rfl
      cases ev with
      | effect x =>
        have hS := outer_effect.mp hHead
        obtain ⟨ls, hs, hFlat⟩ := ih.1 (s.next w) g (outer_next (by simp [hS]))
        exact ⟨(w, .effect x) :: ls, behaviours_event hS (by simp) hs, .effect hFlat⟩
      | item y => exact (outer_item hHead).elim
      | ended => exact (hEv rfl).elim
    · rintro s g i rfl
      have hI := (inner_event.mp hHead).1
      rcases ih.2 s g (i.next w) (inner_next (by simp [hI, hEv])) with
        ⟨hEnd, hRun⟩ | ⟨l₁, l₂, rfl, hRun, hRest⟩
      · exact .inl ⟨hEnd, behaviours_event hI hEv hRun⟩
      · exact .inr ⟨(w, ev) :: l₁, l₂, rfl, behaviours_event hI hEv hRun, hRest⟩

theorem behaviours_inner_silent {i : Strm W E O} {w : W} (hHead : i.head w = none)
    (h : (l, e) ∈ behaviours (unfold flatStep (.inner s g (i.next w)))) :
    (l, e) ∈ behaviours (unfold flatStep (.inner s g i)) := by
  refine behaviours_silent (w := w) (inner_silent.mpr (.inl hHead)) ?_
  rwa [inner_next (by simp [hHead])]

theorem behaviours_inner_event {i : Strm W E O} {w : W} {ev : Event E O}
    (hHead : i.head w = some ev) (hEv : ev ≠ .ended)
    (h : (l, e) ∈ behaviours (unfold flatStep (.inner s g (i.next w)))) :
    ((w, ev) :: l, e) ∈ behaviours (unfold flatStep (.inner s g i)) := by
  refine behaviours_event (inner_event.mpr ⟨hHead, hEv⟩) hEv ?_
  rwa [inner_next (by simp [hHead, hEv])]

theorem Plays.inner_stop {i : Strm W E O} {o : Option (Strm W E O)} (h : Plays i l o)
    (ho : o.isNone = false) : (l, false) ∈ behaviours (unfold flatStep (.inner s g i)) := by
  induction h with
  | stop i => exact behaviours_stop _
  | ended => cases ho
  | silent hHead _ ih => exact behaviours_inner_silent hHead (ih ho)
  | event hHead hEv _ ih => exact behaviours_inner_event hHead hEv (ih ho)

theorem Plays.inner {i : Strm W E O} {l₁ l₂ : List (W × Event E O)} (h : Plays i l₁ o)
    (ho : o.isNone = true) (hRest : (l₂, e) ∈ behaviours (flatMap s g)) :
    (l₁ ++ l₂, e) ∈ behaviours (unfold flatStep (.inner s g i)) := by
  induction h with
  | stop i => cases ho
  | @ended i w hHead =>
    refine behaviours_silent (w := w) (inner_silent.mpr (.inr hHead)) ?_
    rwa [inner_next_ended hHead]
  | silent hHead _ ih => exact behaviours_inner_silent hHead (ih ho)
  | event hHead hEv _ ih => exact behaviours_inner_event hHead hEv (ih ho)

/-- A run of the outer stream and what it flattens to make a run of the flattened stream. -/
theorem Plays.flat {ls : List (W × Event E T)} {o : Option (Strm W E T)} (h : Plays s ls o)
    (hFlat : Flattens g ls o.isNone l) : (l, o.isNone) ∈ behaviours (flatMap s g) := by
  induction h generalizing g l with
  | stop s =>
    cases hFlat
    exact behaviours_stop _
  | ended hHead =>
    cases hFlat
    exact behaviours_ended (outer_ended.mpr hHead)
  | @silent s w _ _ hHead _ ih =>
    refine behaviours_silent (w := w) (outer_silent.mpr (.inl hHead)) ?_
    rw [outer_next (by simp [hHead])]
    exact ih hFlat
  | @event s w ev _ o hHead hEv _ ih =>
    cases ev with
    | ended => exact (hEv rfl).elim
    | effect x =>
      cases hFlat with
      | effect hFlat =>
        refine behaviours_event (outer_effect.mpr hHead) (by simp) ?_
        rw [outer_next (by simp [hHead])]
        exact ih hFlat
    | item x =>
      refine behaviours_silent (w := w) (outer_silent.mpr (.inr ⟨x, hHead⟩)) ?_
      rw [outer_next_item hHead]
      generalize hEnd : o.isNone = e at hFlat
      cases hFlat with
      | inner hI =>
        obtain ⟨o', hI, hEnd'⟩ := hI
        exact hI.inner_stop hEnd'
      | item hI hFlat =>
        obtain ⟨o', hI, hEnd'⟩ := hI
        rw [← hEnd] at hFlat ⊢
        exact hI.inner hEnd' (ih hFlat)

/-- What a run shows after leading effects is all that matters of what comes after them. -/
theorem exists_run_of_emit {es : List E} {i : Strm W E O}
    (h : (l, e) ∈ behaviours (emit es i)) :
    ∃ r ∈ behaviours i,
      ∀ i' : Strm W E O, r ∈ behaviours i' → (l, e) ∈ behaviours (emit es i') := by
  induction es generalizing l with
  | nil => exact ⟨(l, e), h, fun _ h => h⟩
  | cons x es ih =>
    obtain ⟨o, hPlays, hEnd⟩ := h
    cases hPlays with
    | stop =>
      obtain rfl : false = e := hEnd
      exact ⟨([], false), behaviours_stop i, fun _ _ => behaviours_stop _⟩
    | ended hHead | silent hHead => cases hHead
    | @event _ w _ _ _ hHead _ hPlays =>
      obtain rfl := Option.some.inj hHead
      obtain ⟨r, hr, hMore⟩ := ih ⟨o, hPlays, hEnd⟩
      exact ⟨r, hr, fun i' hi' => behaviours_event rfl (by simp) (hMore i' hi')⟩

open Classical in
/-- The closure that does as `a` says for `i`, then as `rest`, and for anything else as `g`. -/
noncomputable def Fn.graft {B : Type u} (i : T × W) (a : List E × B) (rest g : Fn W E T B) :
    Fn W E T B :=
  ⟨fun past j => match past with
    | [] => if j = i then a else g.answer [] j
    | k :: past => if k = i then rest.answer past j else g.answer (k :: past) j⟩

theorem Fn.head_graft {B : Type u} (i : T × W) (a : List E × B) (rest g : Fn W E T B) :
    (graft i a rest g).head i = a :=
  if_pos rfl

theorem Fn.next_graft {B : Type u} (i : T × W) (a : List E × B) (rest g : Fn W E T B) :
    (graft i a rest g).next i = rest := by
  refine Mealy.ext ?_
  funext past j
  exact if_pos rfl

theorem Fn.graft_mem {B : Type u} {K : List (T × W) → T × W → Set (List E × B)} {i : T × W}
    {a : List E × B} {rest g : Fn W E T B} (ha : a ∈ K [] i)
    (hRest : ∀ past j, rest.answer past j ∈ K (i :: past) j)
    (hg : ∀ past j, g.answer past j ∈ K past j) (past : List (T × W)) (j : T × W) :
    (graft i a rest g).answer past j ∈ K past j := by
  cases past with
  | nil =>
    simp only [graft]
    split
    · next hj => exact hj ▸ ha
    · exact hg [] j
  | cons k past =>
    simp only [graft]
    split
    · next hk => exact hk ▸ hRest past j
    · exact hg (k :: past) j

section Replace

variable {B : Type u} {sel : T × W → (List E × Strm W E O) ⊕ B}

theorem Fn.next_orElse_inl {f : Fn W E B (Strm W E O)} {i : T × W} {a : List E × Strm W E O}
    (h : sel i = .inl a) : (f.orElse sel).next i = f.orElse sel := by
  refine Mealy.ext ?_
  funext past j
  simp [Mealy.next, Fn.orElse, h]

theorem Fn.next_orElse_inr {f : Fn W E B (Strm W E O)} {i : T × W} {x : B}
    (h : sel i = .inr x) : (f.orElse sel).next i = Fn.orElse sel (f.next (x, i.2)) := by
  refine Mealy.ext ?_
  funext past j
  simp [Mealy.next, Fn.orElse, h]

theorem Fn.head_orElse_inr {f : Fn W E B (Strm W E O)} {i : T × W} {x : B}
    (h : sel i = .inr x) : (f.orElse sel).head i = f.head (x, i.2) := by
  simp [Mealy.head, Fn.orElse, h]

theorem Fn.head_orElse_inl {f : Fn W E B (Strm W E O)} {i : T × W} {a : List E × Strm W E O}
    (h : sel i = .inl a) : (f.orElse sel).head i = a := by
  simp [Mealy.head, Fn.orElse, h]

/-- A run of the flattened stream asks each call of the closure for one run: where each call has a
replacement with that run, a closure made of replacements has them all. -/
theorem Flattens.replace {f : Fn W E B (Strm W E O)} {ls : List (W × Event E T)}
    (h : Flattens (f.orElse sel) ls e l) (K : List (B × W) → B × W → Set (List E × Strm W E O))
    (hK : ∀ past i, ∀ r ∈ behaviours (f.answer past i).2,
      ∃ a ∈ K past i, a.1 = (f.answer past i).1 ∧ r ∈ behaviours a.2) :
    ∃ f' : Fn W E B (Strm W E O), (∀ past i, f'.answer past i ∈ K past i) ∧
      Flattens (f'.orElse sel) ls e l := by
  have hSome {f : Fn W E B (Strm W E O)} {K : List (B × W) → B × W → Set (List E × Strm W E O)}
      (hK : ∀ past i, ∀ r ∈ behaviours (f.answer past i).2,
        ∃ a ∈ K past i, a.1 = (f.answer past i).1 ∧ r ∈ behaviours a.2) :
      ∃ f' : Fn W E B (Strm W E O), ∀ past i, f'.answer past i ∈ K past i := by
    choose a ha _ using fun past i => hK past i _ (behaviours_stop _)
    exact ⟨⟨a⟩, ha⟩
  generalize hg : f.orElse sel = g at h
  induction h generalizing f K with
  | stop g =>
    obtain ⟨f', hf'⟩ := hSome hK
    exact ⟨f', hf', .stop _⟩
  | ended g =>
    obtain ⟨f', hf'⟩ := hSome hK
    exact ⟨f', hf', .ended _⟩
  | effect _ ih =>
    obtain ⟨f', hf', hFlat⟩ := ih K hK hg
    exact ⟨f', hf', .effect hFlat⟩
  | @inner g w x l hInner =>
    subst hg
    obtain ⟨f', hf'⟩ := hSome hK
    rcases hSel : sel (x, w) with a | y
    · refine ⟨f', hf', .inner ?_⟩
      rw [Fn.called, Fn.head_orElse_inl hSel] at hInner ⊢
      exact hInner
    · rw [Fn.called, Fn.head_orElse_inr hSel] at hInner
      obtain ⟨r, hr, hMore⟩ := exists_run_of_emit hInner
      obtain ⟨a, ha, hEffects, hRun⟩ := hK [] (y, w) r hr
      refine ⟨.graft (y, w) a (f'.next (y, w)) f', Fn.graft_mem ha (fun past => hf' _) hf',
        .inner ?_⟩
      rw [Fn.called, Fn.head_orElse_inr hSel, Fn.head_graft, hEffects]
      exact hMore a.2 hRun
  | @item g w x ls e l₁ l₂ hItem _ ih =>
    subst hg
    rcases hSel : sel (x, w) with a | y
    · obtain ⟨f', hf', hFlat⟩ := ih K hK (Fn.next_orElse_inl hSel).symm
      refine ⟨f', hf', .item ?_ ?_⟩
      · rw [Fn.called, Fn.head_orElse_inl hSel] at hItem ⊢
        exact hItem
      · rwa [Fn.next_orElse_inl hSel]
    · rw [Fn.called, Fn.head_orElse_inr hSel] at hItem
      obtain ⟨f', hf'⟩ := hSome hK
      obtain ⟨r, hr, hMore⟩ := exists_run_of_emit hItem
      obtain ⟨a, ha, hEffects, hRun⟩ := hK [] (y, w) r hr
      obtain ⟨rest, hRest, hFlat⟩ := ih (fun past => K ((y, w) :: past)) (fun past => hK _)
        (Fn.next_orElse_inr hSel).symm
      refine ⟨.graft (y, w) a rest f', Fn.graft_mem ha hRest hf', .item ?_ ?_⟩
      · rw [Fn.called, Fn.head_orElse_inr hSel, Fn.head_graft, hEffects]
        exact hMore a.2 hRun
      · rwa [Fn.next_orElse_inr hSel, Fn.next_graft]

end Replace

theorem mem_behaviours_flatMap : (l, e) ∈ behaviours (flatMap s g) ↔
    ∃ ls, (ls, e) ∈ behaviours s ∧ Flattens g ls e l := by
  constructor
  · rintro ⟨o, hPlays, rfl⟩
    exact hPlays.of_flat.1 s g rfl
  · rintro ⟨ls, ⟨o, hPlays, rfl⟩, hFlat⟩
    exact hPlays.flat hFlat

section Distribute

variable {a b : Strm W E T} {k : T × W → List E × Strm W E O}

/-- Lockstep states of `a.chain(b).flat_map(k)` and `a.flat_map(k).chain(b.flat_map(k))`. -/
inductive Distributed (b : Strm W E T) (k : T × W → List E × Strm W E O) :
    Strm W E O → Strm W E O → Prop where
  | outer (a : Strm W E T) : Distributed b k (flatMap (Polling.chain a b) (stateless k))
      (Polling.chain (flatMap a (stateless k)) (flatMap b (stateless k)))
  | inner (a : Strm W E T) (i : Strm W E O) : Distributed b k
      (unfold flatStep (.inner (Polling.chain a b) (stateless k) i))
      (Polling.chain (unfold flatStep (.inner a (stateless k) i)) (flatMap b (stateless k)))
  | second (m : Strm W E O) : Distributed b k m m

theorem Distributed.step {m n : Strm W E O} (h : Distributed b k m n) (w : W) :
    m.head w = n.head w ∧ Distributed b k (m.next w) (n.next w) := by
  cases h with
  | second m => exact ⟨rfl, .second _⟩
  | outer a =>
    rcases hA : a.head w with _ | e | x | _
    · have hC : (Polling.chain a b).head w = none := by rw [chain_head (by simp [hA]), hA]
      have hM : (flatMap a (stateless k)).head w = none := outer_silent.mpr (.inl hA)
      refine ⟨by rw [outer_silent.mpr (.inl hC), chain_head (by simp [hM]), hM], ?_⟩
      rw [outer_next (by simp [hC]), chain_next (by simp [hA]), chain_next (by simp [hM]),
        outer_next (by simp [hA])]
      exact .outer _
    · have hC : (Polling.chain a b).head w = some (.effect e) := by
        rw [chain_head (by simp [hA]), hA]
      have hM : (flatMap a (stateless k)).head w = some (.effect e) := outer_effect.mpr hA
      refine ⟨by rw [outer_effect.mpr hC, chain_head (by simp [hM]), hM], ?_⟩
      rw [outer_next (by simp [hC]), chain_next (by simp [hA]), chain_next (by simp [hM]),
        outer_next (by simp [hA])]
      exact .outer _
    · have hC : (Polling.chain a b).head w = some (.item x) := by
        rw [chain_head (by simp [hA]), hA]
      have hM : (flatMap a (stateless k)).head w = none := outer_silent.mpr (.inr ⟨x, hA⟩)
      refine ⟨by rw [outer_silent.mpr (.inr ⟨x, hC⟩), chain_head (by simp [hM]), hM], ?_⟩
      rw [outer_next_item hC, chain_next (by simp [hA]), chain_next (by simp [hM]),
        outer_next_item hA]
      exact .inner _ _
    · have hC := chain_head_ended (b := b) hA
      have hM : (flatMap a (stateless k)).head w = some .ended := outer_ended.mpr hA
      refine ⟨by rw [outer_silent.mpr (.inl hC), chain_head_ended hM], ?_⟩
      rw [outer_next (by simp [hC]), chain_next_ended hA, chain_next_ended hM]
      exact .second _
  | inner a i =>
    by_cases hI : i.head w = some .ended
    · have hLeft : (unfold flatStep (.inner (Polling.chain a b) (stateless k) i)).head w = none :=
        inner_silent.mpr (.inr hI)
      have hRight : (unfold flatStep (.inner a (stateless k) i)).head w = none :=
        inner_silent.mpr (.inr hI)
      refine ⟨by rw [hLeft, chain_head (by simp [hRight]), hRight], ?_⟩
      rw [inner_next_ended hI, chain_next (by simp [hRight]), inner_next_ended hI]
      exact .outer a
    · refine ⟨by rw [inner_head hI, chain_head (by rwa [inner_head hI]), inner_head hI], ?_⟩
      rw [inner_next hI, chain_next (by rwa [inner_head hI]), inner_next hI]
      exact .inner a _

/-- Flattening a chain is chaining what is flattened. -/
theorem flatMap_chain (a b : Strm W E T) (k : T × W → List E × Strm W E O) :
    flatMap (Polling.chain a b) (stateless k) =
      Polling.chain (flatMap a (stateless k)) (flatMap b (stateless k)) :=
  eq_of_bisim (Distributed b k) (fun _ _ h w => (h.step w).1) (fun _ _ h w => (h.step w).2)
    (.outer a)

end Distribute

end FlatMap

/-! ### Outputs -/

section Outputs

/-- The items among the events shown, each with its world. -/
def timedItems (l : List (W × Event E T)) : List (W × T) :=
  l.filterMap fun p => match p.2 with
    | .item x => some (p.1, x)
    | _ => none

@[simp] theorem timedItems_nil : timedItems ([] : List (W × Event E T)) = [] := rfl

@[simp] theorem timedItems_effect (w : W) (e : E) (l : List (W × Event E T)) :
    timedItems ((w, .effect e) :: l) = timedItems l := rfl

@[simp] theorem timedItems_item (w : W) (x : T) (l : List (W × Event E T)) :
    timedItems ((w, .item x) :: l : List (W × Event E T)) = (w, x) :: timedItems l := rfl

@[simp] theorem timedItems_append (l m : List (W × Event E T)) :
    timedItems (l ++ m) = timedItems l ++ timedItems m := List.filterMap_append

@[simp] theorem timedItems_effectsOf (l : List (W × Event E T)) :
    timedItems (effectsOf l : List (W × Event E O)) = [] := by
  induction l with
  | nil => rfl
  | cons p l ih =>
    obtain ⟨w, ev⟩ := p
    cases ev with
    | effect e => simpa using ih
    | item x => simpa using ih
    | ended => exact ih

/-- Outputs put together from one for each item: all of them to the end but for the last one. -/
inductive Pieces (P : W → T → Set (List O × Bool)) : List (W × T) → Bool → List O → Prop where
  | stop : Pieces P [] false []
  | ended : Pieces P [] true []
  | inner {w : W} {x : T} {ys : List O} : (ys, false) ∈ P w x → Pieces P [(w, x)] false ys
  | item {w : W} {x : T} {ps : List (W × T)} {e : Bool} {ys zs : List O} :
      (ys, true) ∈ P w x → Pieces P ps e zs → Pieces P ((w, x) :: ps) e (ys ++ zs)

/-- The outputs for one item, to the end. -/
theorem pieces_singleton {P : W → T → Set (List O × Bool)} {w : W} {x : T} {ys : List O} :
    Pieces P [(w, x)] true ys ↔ (ys, true) ∈ P w x := by
  constructor
  · intro h
    cases h with
    | item hItem hRest =>
      cases hRest
      rwa [List.append_nil]
  · intro h
    simpa using Pieces.item h .ended

variable {s : Strm W E T} {w : W} {es : List E} {ys : List T} {e : Bool}

/-- Leading effects give nothing. -/
theorem mem_outputs_emit (w : W) : (ys, e) ∈ outputs (emit es s) ↔ (ys, e) ∈ outputs s := by
  induction es with
  | nil => rfl
  | cons x es ih =>
    rw [← ih]
    constructor
    · rintro ⟨l, ⟨o, hPlays, hEnd⟩, rfl⟩
      cases hPlays with
      | stop =>
        obtain rfl : e = false := hEnd.symm
        exact ⟨[], behaviours_stop _, rfl⟩
      | ended hHead | silent hHead => cases hHead
      | @event _ _ _ l _ hHead _ hPlays =>
        obtain rfl := Option.some.inj hHead
        exact ⟨l, ⟨o, hPlays, hEnd⟩, rfl⟩
    · rintro ⟨l, hl, rfl⟩
      exact ⟨(w, .effect x) :: l, behaviours_event rfl (by simp) hl, rfl⟩

theorem Flattens.pieces {k : T × W → List E × Strm W E O} {ls : List (W × Event E T)}
    {l : List (W × Event E O)} (h : Flattens (stateless k) ls e l) :
    Pieces (fun w x => outputs (k (x, w)).2) (timedItems ls) e (itemsOf l) := by
  generalize hg : stateless k = g at h
  induction h with
  | stop => exact .stop
  | ended => exact .ended
  | effect _ ih => exact ih hg
  | @inner g w x l hInner =>
    subst hg
    exact .inner ((mem_outputs_emit w).mp ⟨l, hInner, rfl⟩)
  | @item g w x ls e l₁ l₂ hItem _ ih =>
    subst hg
    rw [itemsOf_append]
    exact .item ((mem_outputs_emit w).mp ⟨l₁, hItem, rfl⟩) (ih rfl)

/-- A run of the outer stream and outputs put together for its items are outputs of the flattened
stream. -/
theorem Plays.pieces {k : T × W → List E × Strm W E O} {ls : List (W × Event E T)}
    {o : Option (Strm W E T)} {zs : List O} (h : Plays s ls o)
    (hPieces : Pieces (fun w x => outputs (k (x, w)).2) (timedItems ls) o.isNone zs) :
    (zs, o.isNone) ∈ outputs (flatMap s (stateless k)) := by
  induction h generalizing zs with
  | stop s =>
    cases hPieces
    exact ⟨[], behaviours_stop _, rfl⟩
  | ended hHead =>
    cases hPieces
    exact ⟨[], behaviours_ended (outer_ended.mpr hHead), rfl⟩
  | @silent s w _ _ hHead _ ih =>
    obtain ⟨l, hl, rfl⟩ := ih hPieces
    refine ⟨l, behaviours_silent (w := w) (outer_silent.mpr (.inl hHead)) ?_, rfl⟩
    rwa [outer_next (by simp [hHead])]
  | @event s w ev ls o hHead hEv _ ih =>
    cases ev with
    | ended => exact (hEv rfl).elim
    | effect x =>
      obtain ⟨l, hl, rfl⟩ := ih hPieces
      refine ⟨(w, .effect x) :: l, behaviours_event (outer_effect.mpr hHead) (by simp) ?_, rfl⟩
      rwa [outer_next (by simp [hHead])]
    | item x =>
      -- the closure is called, and its stream is drained or under way
      suffices hInner : ∃ l, (l, o.isNone) ∈ behaviours ((flatMap s (stateless k)).next w) ∧
          itemsOf l = zs by
        obtain ⟨l, hl, rfl⟩ := hInner
        exact ⟨l, behaviours_silent (outer_silent.mpr (.inr ⟨x, hHead⟩)) hl, rfl⟩
      rw [outer_next_item hHead]
      rw [timedItems_item] at hPieces
      generalize hEnd : o.isNone = e at hPieces
      generalize hItems : timedItems ls = ps at hPieces
      cases hPieces with
      | inner hRun =>
        obtain ⟨l, ⟨o', hI, hEnd'⟩, rfl⟩ := (mem_outputs_emit w).mpr hRun
        exact ⟨l, hI.inner_stop hEnd', rfl⟩
      | item hRun hRest =>
        obtain ⟨l₁, ⟨o', hI, hEnd'⟩, rfl⟩ := (mem_outputs_emit w).mpr hRun
        rw [← hEnd, ← hItems] at hRest
        obtain ⟨l₂, hl₂, rfl⟩ := ih hRest
        rw [hEnd] at hl₂
        exact ⟨l₁ ++ l₂, hI.inner hEnd' hl₂, itemsOf_append _ _⟩

/-- What a flattened stream has given is put together from what the closure's streams gave for the
items of a run of the outer stream, in order. -/
theorem mem_outputs_flatMap {k : T × W → List E × Strm W E O} {zs : List O} :
    (zs, e) ∈ outputs (flatMap s (stateless k)) ↔ ∃ ls, (ls, e) ∈ behaviours s ∧
      Pieces (fun w x => outputs (k (x, w)).2) (timedItems ls) e zs := by
  constructor
  · rintro ⟨l, hl, rfl⟩
    obtain ⟨ls, hs, hFlat⟩ := mem_behaviours_flatMap.mp hl
    exact ⟨ls, hs, hFlat.pieces⟩
  · rintro ⟨ls, ⟨o, hPlays, rfl⟩, hPieces⟩
    exact hPlays.pieces hPieces

end Outputs

end Polling
