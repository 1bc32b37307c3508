import Emyu.Lib.Behaviour
import Emyu.Lib.Interleave

/-! Streams that select among members: what such a stream may do, that it shows an interleaving of
runs of its members, and that every interleaving is what some such stream shows. -/

universe u

namespace Polling

open Mealy Interleaving List Relation

variable {W E T : Type u}

/-- One of the members answers `o` in the world `w` and goes on. -/
inductive Moves (w : W) (o : Option (Event E T)) :
    List (Strm W E T) → List (Strm W E T) → Prop where
  | here {m : Strm W E T} (ms : List (Strm W E T)) : m.head w = o →
      Moves w o (m :: ms) (m.next w :: ms)
  | later (m : Strm W E T) {ms ms' : List (Strm W E T)} : Moves w o ms ms' →
      Moves w o (m :: ms) (m :: ms')

/-- One of the members is at its end in the world `w` and is dropped. -/
inductive Drops (w : W) : List (Strm W E T) → List (Strm W E T) → Prop where
  | here {m : Strm W E T} (ms : List (Strm W E T)) : m.head w = some .ended →
      Drops w (m :: ms) ms
  | later (m : Strm W E T) {ms ms' : List (Strm W E T)} : Drops w ms ms' →
      Drops w (m :: ms) (m :: ms')

/-- Members are polled in the world `w` and show nothing, or are dropped at their end. -/
def Idles (w : W) : List (Strm W E T) → List (Strm W E T) → Prop :=
  ReflTransGen fun ms ms' => Moves w none ms ms' ∨ Drops w ms ms'

/-- What one poll among the members may answer in the world `w`, and the members it leaves: it is
pending unless every member is at its end, shows an event of one member, or is the end once every
member was dropped. -/
inductive Selected (w : W) (ms : List (Strm W E T)) :
    Option (Event E T) → List (Strm W E T) → Prop where
  | pending {m : Strm W E T} {ms' : List (Strm W E T)} : m ∈ ms → m.head w ≠ some .ended →
      Idles w ms ms' → Selected w ms none ms'
  | event {ev : Event E T} {ms₁ ms' : List (Strm W E T)} : ev ≠ .ended → Idles w ms ms₁ →
      Moves w (some ev) ms₁ ms' → Selected w ms (some ev) ms'
  | ended {ms' : List (Strm W E T)} : Idles w ms [] → Selected w ms (some .ended) ms'

/-- Whatever the world, the stream answers what a poll among the members may, and up to its end
goes on as one related to the members left. -/
def Selecting (R : List (Strm W E T) → Strm W E T → Prop) (ms : List (Strm W E T))
    (s : Strm W E T) : Prop :=
  ∀ w, ∃ ms', Selected w ms (s.head w) ms' ∧ (s.head w ≠ some .ended → R ms' (s.next w))

/-- The stream selects among the members. -/
def Selects (ms : List (Strm W E T)) (s : Strm W E T) : Prop :=
  ∃ R : List (Strm W E T) → Strm W E T → Prop, R ms s ∧ ∀ ms s, R ms s → Selecting R ms s

variable {w : W} {ms ms' : List (Strm W E T)} {s : Strm W E T}

theorem Selecting.mono {R R' : List (Strm W E T) → Strm W E T → Prop}
    (hR : ∀ ms s, R ms s → R' ms s) (h : Selecting R ms s) : Selecting R' ms s := by
  intro w
  obtain ⟨ms', hSelected, hNext⟩ := h w
  exact ⟨ms', hSelected, fun hEv => hR _ _ (hNext hEv)⟩

theorem Selects.selecting (h : Selects ms s) : Selecting Selects ms s := by
  obtain ⟨R, hRel, hR⟩ := h
  exact (hR ms s hRel).mono fun ms s h => ⟨R, h, hR⟩

theorem Selecting.selects (h : Selecting Selects ms s) : Selects ms s :=
  ⟨Selecting Selects, h, fun _ _ h => h.mono fun _ _ h => h.selecting⟩

theorem Idles.later (m : Strm W E T) (h : Idles w ms ms') : Idles w (m :: ms) (m :: ms') :=
  h.lift (m :: ·) fun _ _ hStep => hStep.imp (.later m) (.later m)

theorem Idles.quiet {m : Strm W E T} (hHead : m.head w = none) (h : Idles w ms ms') :
    Idles w (m :: ms) (m.next w :: ms') :=
  .head (.inl (.here ms hHead)) (h.later _)

theorem Idles.drop {m : Strm W E T} (hHead : m.head w = some .ended) (h : Idles w ms ms') :
    Idles w (m :: ms) ms' :=
  .head (.inr (.here ms hHead)) h

/-- A member that answers anything but its end is not at its end. -/
theorem Moves.exists_open {o : Option (Event E T)} (h : Moves w o ms ms')
    (ho : o ≠ some .ended) : ∃ m ∈ ms, m.head w ≠ some .ended := by
  induction h with
  | here ms hHead => exact ⟨_, mem_cons_self, hHead ▸ ho⟩
  | later m _ ih =>
    obtain ⟨m', hm', hNe⟩ := ih
    exact ⟨m', mem_cons_of_mem _ hm', hNe⟩

theorem Drops.subset (h : Drops w ms ms') : ms' ⊆ ms := by
  induction h with
  | here ms _ => exact subset_cons_self _ _
  | later m _ ih => exact cons_subset_cons m ih

/-- A member at its end is dropped before the others are polled. -/
theorem Selected.drop {m : Strm W E T} {o : Option (Event E T)} (h : Selected w ms o ms')
    (hHead : m.head w = some .ended) : Selected w (m :: ms) o ms' := by
  cases h with
  | pending hm hNe hIdles => exact .pending (mem_cons_of_mem _ hm) hNe (hIdles.drop hHead)
  | event hEv hIdles hMoves => exact .event hEv (hIdles.drop hHead) hMoves
  | ended hIdles => exact .ended (hIdles.drop hHead)

/-- Where every member is at its end nothing can happen but that they are dropped. -/
theorem Idles.all_ended (h : Idles w ms ms') (hEnded : ∀ m ∈ ms, m.head w = some .ended) :
    ∀ m ∈ ms', m.head w = some .ended := by
  induction h with
  | refl => exact hEnded
  | tail _ hStep ih =>
    rcases hStep with hMoves | hDrops
    · obtain ⟨m, hm, hNe⟩ := hMoves.exists_open (by simp)
      exact (hNe (ih m hm)).elim
    · exact fun m hm => ih m (hDrops.subset hm)

/-- Once all members are at their end, the selecting stream is. -/
theorem Selects.head_ended (h : Selects ms s) (hEnded : ∀ m ∈ ms, m.head w = some .ended) :
    s.head w = some .ended := by
  obtain ⟨ms', hSelected, -⟩ := h.selecting w
  generalize s.head w = o at hSelected ⊢
  cases hSelected with
  | pending hm hNe _ => exact (hNe (hEnded _ hm)).elim
  | event hEv hIdles hMoves =>
    obtain ⟨m, hm, hNe⟩ := hMoves.exists_open (by simpa using hEv)
    exact (hNe (hIdles.all_ended hEnded m hm)).elim
  | ended _ => rfl

/-! ### What is shown is an interleaving -/

/-- Runs of the members, each with what it leaves, and an interleaving of them. -/
def Merges (ms : List (Strm W E T))
    (rs : List (List (W × Event E T) × Option (Strm W E T))) (l : List (W × Event E T)) : Prop :=
  Forall₂ (fun m r => Plays m r.1 r.2) ms rs ∧ Interleaves (rs.map Prod.fst) l

section Merges

variable {rs : List (List (W × Event E T) × Option (Strm W E T))} {l : List (W × Event E T)}

theorem merges_cons_iff {m : Strm W E T} : Merges (m :: ms) rs l ↔
    ∃ r rs' n, rs = r :: rs' ∧ Plays m r.1 r.2 ∧ Merges ms rs' n ∧ Interleave r.1 n l := by
  constructor
  · rintro ⟨_ | ⟨hPlays, hRest⟩, hl⟩
    cases hl with
    | cons hn hl => exact ⟨_, _, _, rfl, hPlays, ⟨hRest, hn⟩, hl⟩
  · rintro ⟨r, rs, n, rfl, hPlays, ⟨hRest, hn⟩, hl⟩
    exact ⟨.cons hPlays hRest, .cons hn hl⟩

theorem Merges.items (h : Merges ms rs l) :
    Interleaves ((rs.map Prod.fst).map itemsOf) (itemsOf l) :=
  h.2.filterMap _

/-- The runs in which nothing was done yet. -/
theorem merges_stop (ms : List (Strm W E T)) : Merges ms (ms.map fun m => ([], some m)) [] := by
  induction ms with
  | nil => exact ⟨.nil, .nil⟩
  | cons m ms ih => exact merges_cons_iff.mpr ⟨_, _, _, rfl, .stop m, ih, .nil⟩

/-- A poll that shows nothing belongs to the run of its member. -/
theorem Moves.merges (h : Moves w none ms ms') (hMerges : Merges ms' rs l) : Merges ms rs l := by
  induction h generalizing rs l with
  | here ms hHead =>
    obtain ⟨r, rs, n, rfl, hPlays, hRest, hl⟩ := merges_cons_iff.mp hMerges
    exact merges_cons_iff.mpr ⟨r, rs, n, rfl, .silent hHead hPlays, hRest, hl⟩
  | later m _ ih =>
    obtain ⟨r, rs, n, rfl, hPlays, hRest, hl⟩ := merges_cons_iff.mp hMerges
    exact merges_cons_iff.mpr ⟨r, rs, n, rfl, hPlays, ih hRest, hl⟩

/-- An event is the next of its member. -/
theorem Moves.merges_event {ev : Event E T} (h : Moves w (some ev) ms ms') (hEv : ev ≠ .ended)
    (hMerges : Merges ms' rs l) :
    ∃ rs', Merges ms rs' ((w, ev) :: l) ∧ rs'.map Prod.snd = rs.map Prod.snd := by
  induction h generalizing rs l with
  | here ms hHead =>
    obtain ⟨r, rs, n, rfl, hPlays, hRest, hl⟩ := merges_cons_iff.mp hMerges
    refine ⟨((w, ev) :: r.1, r.2) :: rs, merges_cons_iff.mpr ⟨_, _, n, rfl, ?_, hRest, .left hl⟩,
      rfl⟩
    exact .event hHead hEv hPlays
  | later m _ ih =>
    obtain ⟨r, rs, n, rfl, hPlays, hRest, hl⟩ := merges_cons_iff.mp hMerges
    obtain ⟨rs', hRest', hSame⟩ := ih hRest
    exact ⟨r :: rs', merges_cons_iff.mpr ⟨r, rs', _, rfl, hPlays, hRest', .right hl⟩,
      congrArg (r.2 :: ·) hSame⟩

/-- A member that is dropped has ended. -/
theorem Drops.merges (h : Drops w ms ms') (hMerges : Merges ms' rs l) :
    ∃ rs', Merges ms rs' l ∧ rs'.filterMap Prod.snd = rs.filterMap Prod.snd := by
  induction h generalizing rs l with
  | here ms hHead =>
    exact ⟨([], none) :: rs, merges_cons_iff.mpr
      ⟨_, rs, l, rfl, .ended hHead, hMerges, .nil_left l⟩, rfl⟩
  | later m _ ih =>
    obtain ⟨r, rs, n, rfl, hPlays, hRest, hl⟩ := merges_cons_iff.mp hMerges
    obtain ⟨rs', hRest', hSame⟩ := ih hRest
    refine ⟨r :: rs', merges_cons_iff.mpr ⟨r, rs', n, rfl, hPlays, hRest', hl⟩, ?_⟩
    rw [filterMap_cons, filterMap_cons, hSame]

theorem Idles.merges (h : Idles w ms ms') (hMerges : Merges ms' rs l) :
    ∃ rs', Merges ms rs' l ∧ rs'.filterMap Prod.snd = rs.filterMap Prod.snd := by
  induction h using ReflTransGen.head_induction_on with
  | refl => exact ⟨rs, hMerges, rfl⟩
  | head hStep _ ih =>
    obtain ⟨rs', hRest, hSame⟩ := ih
    rcases hStep with hMoves | hDrops
    · exact ⟨rs', hMoves.merges hRest, hSame⟩
    · obtain ⟨rs'', hAll, hSame'⟩ := hDrops.merges hRest
      exact ⟨rs'', hAll, hSame'.trans hSame⟩

/-- A run of the selecting stream is an interleaving of runs of the members: it goes on selecting
among what these leave, and where its end was seen they leave nothing. -/
theorem Selects.merges {o : Option (Strm W E T)} (hPlays : Plays s l o) (h : Selects ms s) :
    ∃ rs, Merges ms rs l ∧ (o = none → rs.filterMap Prod.snd = []) ∧
      ∀ s', o = some s' → Selects (rs.filterMap Prod.snd) s' := by
  induction hPlays generalizing ms with
  | stop s =>
    have hLeft : (ms.map fun m => (([], some m) : List (W × Event E T) × _)).filterMap Prod.snd =
        ms := by
      rw [filterMap_map]
      exact filterMap_some
    exact ⟨_, merges_stop ms, by simp, fun s' hs' => by rwa [hLeft, ← Option.some.inj hs']⟩
  | @ended s w hHead =>
    obtain ⟨ms', hSelected, -⟩ := h.selecting w
    rw [hHead] at hSelected
    cases hSelected with
    | event hEv => exact (hEv rfl).elim
    | ended hIdles =>
      obtain ⟨rs, hMerges, hLeft⟩ := hIdles.merges (merges_stop [])
      exact ⟨rs, hMerges, fun _ => hLeft, by simp⟩
  | @silent s w _ _ hHead _ ih =>
    obtain ⟨ms', hSelected, hNext⟩ := h.selecting w
    obtain ⟨rs, hMerges, hEnd, hGo⟩ := ih (hNext (by simp [hHead]))
    rw [hHead] at hSelected
    cases hSelected with
    | pending _ _ hIdles =>
      obtain ⟨rs', hMerges', hSame⟩ := hIdles.merges hMerges
      rw [← hSame] at hEnd hGo
      exact ⟨rs', hMerges', hEnd, hGo⟩
  | @event s w ev _ _ hHead hEv _ ih =>
    obtain ⟨ms', hSelected, hNext⟩ := h.selecting w
    obtain ⟨rs, hMerges, hEnd, hGo⟩ := ih (hNext (by simp [hHead, hEv]))
    rw [hHead] at hSelected
    cases hSelected with
    | ended => exact (hEv rfl).elim
    | event _ hIdles hMoves =>
      obtain ⟨rs₁, hMerges₁, hSame₁⟩ := hMoves.merges_event hEv hMerges
      obtain ⟨rs', hMerges', hSame⟩ := hIdles.merges hMerges₁
      have hLeft : rs'.filterMap Prod.snd = rs.filterMap Prod.snd := by
        have hIds := congrArg (List.filterMap id) hSame₁
        rw [filterMap_map, filterMap_map] at hIds
        exact hSame.trans hIds
      rw [← hLeft] at hEnd hGo
      exact ⟨rs', hMerges', hEnd, hGo⟩

end Merges

/-- Up to what is left, a selecting stream shows an interleaving of runs of its members. -/
theorem Selects.behaviours_subset (h : Selects ms s) :
    behaviours s ⊆ shuffled (ms.map behaviours) := by
  rintro ⟨l, e⟩ ⟨o, hPlays, hEnd⟩
  obtain ⟨rs, ⟨hRuns, hl⟩, hLeft, -⟩ := h.merges hPlays
  refine ⟨rs.map fun r => (r.1, r.2.isNone), ?_, ?_, fun he => ?_⟩
  · rw [forall₂_map_left_iff, forall₂_map_right_iff]
    exact hRuns.imp fun _ _ h => h.mem
  · rwa [List.map_map]
  · have hNone : o = none := Option.isNone_iff_eq_none.mp (hEnd.trans he)
    have hAll := filterMap_eq_nil_iff.mp (hLeft hNone)
    exact forall_mem_map.mpr fun r hr => Option.isNone_iff_eq_none.mpr (hAll r hr)

/-! ### Every interleaving can be shown -/

/-- One poll of members in turn: those at their end are dropped, and the first event is shown. -/
def selectStep : List (Strm W E T) → W → Option (Event E T) × List (Strm W E T)
  | [], _ => (some .ended, [])
  | m :: ms, w =>
    match m.head w with
    | some .ended => selectStep ms w
    | some ev => (some ev, m.next w :: ms)
    | none =>
      match selectStep ms w with
      | (some .ended, _) => (none, [m.next w])
      | (o, ms') => (o, m.next w :: ms')

theorem selectStep_selected (ms : List (Strm W E T)) (w : W) :
    Selected w ms (selectStep ms w).1 (selectStep ms w).2 := by
  induction ms with
  | nil => exact .ended .refl
  | cons m ms ih =>
    rcases hM : m.head w with _ | ev
    · rcases hRest : selectStep ms w with ⟨o, ms'⟩
      have hNe : m.head w ≠ some .ended := by simp [hM]
      rw [hRest] at ih
      cases ih with
      | pending _ _ hIdles =>
        rw [show selectStep (m :: ms) w = (none, m.next w :: ms') by simp [selectStep, hM, hRest]]
        exact .pending mem_cons_self hNe (hIdles.quiet hM)
      | @event ev _ _ hEv hIdles hMoves =>
        rw [show selectStep (m :: ms) w = (some ev, m.next w :: ms') by
          cases ev <;> simp_all [selectStep]]
        exact .event hEv (hIdles.quiet hM) (.later _ hMoves)
      | ended hIdles =>
        rw [show selectStep (m :: ms) w = (none, [m.next w]) by simp [selectStep, hM, hRest]]
        exact .pending mem_cons_self hNe (hIdles.quiet hM)
    · by_cases hEv : ev = .ended
      · subst hEv
        rw [show selectStep (m :: ms) w = selectStep ms w by simp [selectStep, hM]]
        exact ih.drop hM
      · rw [show selectStep (m :: ms) w = (some ev, m.next w :: ms) by
          cases ev <;> simp_all [selectStep]]
        exact .event hEv .refl (.here ms hM)

theorem selects_selectStep (ms : List (Strm W E T)) : Selects ms (unfold selectStep ms) := by
  refine ⟨fun ms s => s = unfold selectStep ms, rfl, ?_⟩
  rintro ms _ rfl w
  exact ⟨_, selectStep_selected ms w, fun _ => rfl⟩

open Classical in
/-- The stream that polls in turn but answers `o` and goes on as `s` in the world `w`. -/
noncomputable def instead (w : W) (o : Option (Event E T)) (s : Strm W E T)
    (ms : List (Strm W E T)) : Strm W E T :=
  node fun w' => if w' = w then (o, s) else
    ((selectStep ms w').1, unfold selectStep (selectStep ms w').2)

section Instead

variable {o : Option (Event E T)}

theorem instead_head : (instead w o s ms).head w = o := by
  simp [instead]

theorem instead_next : (instead w o s ms).next w = s := by
  simp [instead]

theorem instead_selects (hSelected : Selected w ms o ms')
    (hNext : o ≠ some .ended → Selects ms' s) : Selects ms (instead w o s ms) := by
  refine Selecting.selects fun w' => ?_
  by_cases hw : w' = w
  · subst hw
    rw [instead_head, instead_next]
    exact ⟨ms', hSelected, hNext⟩
  · have hHead : (instead w o s ms).head w' = (selectStep ms w').1 := by
      simp [instead, hw]
    have hRest : (instead w o s ms).next w' = unfold selectStep (selectStep ms w').2 := by
      simp [instead, hw]
    rw [hHead, hRest]
    exact ⟨_, selectStep_selected ms w', fun _ => selects_selectStep _⟩

end Instead

variable {l : List (W × Event E T)} {e : Bool}

/-- A pending poll can come first. -/
theorem exists_selects_pending {m : Strm W E T} (hm : m ∈ ms) (hNe : m.head w ≠ some .ended)
    (hIdles : Idles w ms ms') (h : ∃ s, Selects ms' s ∧ (l, e) ∈ behaviours s) :
    ∃ s, Selects ms s ∧ (l, e) ∈ behaviours s := by
  obtain ⟨s, hSelects, hl⟩ := h
  refine ⟨instead w none s ms, instead_selects (.pending hm hNe hIdles) fun _ => hSelects, ?_⟩
  refine behaviours_silent instead_head ?_
  rwa [instead_next]

theorem idles_nil (h : ∀ m ∈ ms, m.head w = some .ended) : Idles w ms [] := by
  induction ms with
  | nil => exact .refl
  | cons m ms ih =>
    rw [forall_mem_cons] at h
    exact (ih h.2).drop h.1

/-- A member that has only its end to show can be dropped first. -/
theorem Plays.exists_selects {m : Strm W E T} {o : Option (Strm W E T)} (h : Plays m l o)
    (hl : l = []) (ho : o = none) (hRest : ∃ s, Selects ms s ∧ ([], true) ∈ behaviours s) :
    ∃ s, Selects (m :: ms) s ∧ ([], true) ∈ behaviours s := by
  induction h with
  | stop => cases ho
  | event => cases hl
  | @silent m w _ _ hHead _ ih =>
    have hIdles : Idles w (m :: ms) (m.next w :: ms) := .single (.inl (.here ms hHead))
    exact exists_selects_pending mem_cons_self (by simp [hHead]) hIdles (ih hl ho)
  | @ended m w hHead =>
    by_cases hAll : ∀ m' ∈ ms, m'.head w = some .ended
    · have hSelected : Selected w (m :: ms) (some .ended) [] :=
        .ended ((idles_nil hAll).drop hHead)
      exact ⟨instead w (some .ended) empty (m :: ms),
        instead_selects hSelected fun h => (h rfl).elim, behaviours_ended instead_head⟩
    · obtain ⟨m', hm', hNe⟩ := not_forall₂.mp hAll
      exact exists_selects_pending (mem_cons_of_mem m hm') hNe (.drop hHead .refl) hRest

/-- Members that have only their end to show can all be dropped. -/
theorem exists_selects_ended (w : W) (h : ([], true) ∈ shuffled (ms.map behaviours)) :
    ∃ s, Selects ms s ∧ ([], true) ∈ behaviours s := by
  induction ms with
  | nil => exact ⟨_, selects_selectStep [], behaviours_ended (w := w) rfl⟩
  | cons m ms ih =>
    obtain ⟨_, _, _, _, ⟨o, hPlays, hEnd⟩, hRest, ⟨⟩, hEnds⟩ := mem_shuffled_cons.mp h
    obtain ⟨rfl, rfl⟩ := hEnds rfl
    exact hPlays.exists_selects rfl (Option.isNone_iff_eq_none.mp hEnd) (ih hRest)

/-- Polls of members that show nothing, in whatever worlds. -/
def Leads : List (Strm W E T) → List (Strm W E T) → Prop :=
  ReflTransGen fun ms ms' => ∃ w, Moves w none ms ms'

theorem Plays.leads {m : Strm W E T} {o : Option (Strm W E T)} {ev : Event E T}
    (ms : List (Strm W E T)) (h : Plays m ((w, ev) :: l) o) :
    ∃ m₁ : Strm W E T, Leads (m :: ms) (m₁ :: ms) ∧ m₁.head w = some ev ∧ ev ≠ .ended ∧
      Plays (m₁.next w) l o := by
  generalize hl : (w, ev) :: l = l' at h
  induction h with
  | stop | ended => cases hl
  | @silent m w' _ _ hHead _ ih =>
    obtain ⟨m₁, hLeads, hRest⟩ := ih hl
    exact ⟨m₁, .head ⟨w', .here ms hHead⟩ hLeads, hRest⟩
  | @event m w' ev' _ _ hHead hEv hPlays _ =>
    cases hl
    exact ⟨m, .refl, hHead, hEv, hPlays⟩

/-- What is shown first of an interleaving is what one member shows first. -/
theorem exists_moves {ev : Event E T} (h : ((w, ev) :: l, e) ∈ shuffled (ms.map behaviours)) :
    ∃ ms₁ ms', Leads ms ms₁ ∧ Moves w (some ev) ms₁ ms' ∧ ev ≠ .ended ∧
      (l, e) ∈ shuffled (ms'.map behaviours) := by
  induction ms generalizing l e with
  | nil => exact (cons_ne_nil _ _ (mem_shuffled_nil.mp h)).elim
  | cons m ms ih =>
    obtain ⟨l₁, e₁, n, e₂, ⟨o, hPlays, hEnd⟩, hRest, hl, hEnds⟩ := mem_shuffled_cons.mp h
    cases hl with
    | left hl =>
      obtain ⟨m₁, hLeads, hHead, hEv, hPlays⟩ := hPlays.leads ms
      exact ⟨_, _, hLeads, .here ms hHead, hEv,
        mem_shuffled_cons.mpr ⟨_, e₁, n, e₂, ⟨o, hPlays, hEnd⟩, hRest, hl, hEnds⟩⟩
    | right hl =>
      obtain ⟨ms₁, ms', hLeads, hMoves, hEv, hRest⟩ := ih hRest
      refine ⟨m :: ms₁, m :: ms', ?_, .later m hMoves, hEv,
        mem_shuffled_cons.mpr ⟨l₁, e₁, _, e₂, ⟨o, hPlays, hEnd⟩, hRest, hl, hEnds⟩⟩
      exact hLeads.lift (m :: ·) fun _ _ ⟨w, hMoves⟩ => ⟨w, .later m hMoves⟩

theorem Leads.exists_selects (hLeads : Leads ms ms')
    (h : ∃ s, Selects ms' s ∧ (l, e) ∈ behaviours s) :
    ∃ s, Selects ms s ∧ (l, e) ∈ behaviours s := by
  induction hLeads using ReflTransGen.head_induction_on with
  | refl => exact h
  | head hStep _ ih =>
    obtain ⟨w, hMoves⟩ := hStep
    obtain ⟨m, hm, hNe⟩ := hMoves.exists_open (by simp)
    exact exists_selects_pending hm hNe (.single (.inl hMoves)) ih

/-- Every interleaving of runs of the members is shown by a stream that selects among them. -/
theorem exists_selects (w : W) (h : (l, e) ∈ shuffled (ms.map behaviours)) :
    ∃ s, Selects ms s ∧ (l, e) ∈ behaviours s := by
  induction l generalizing ms with
  | nil =>
    cases e with
    | false => exact ⟨_, selects_selectStep ms, behaviours_stop _⟩
    | true => exact exists_selects_ended w h
  | cons p l ih =>
    obtain ⟨w', ev⟩ := p
    obtain ⟨ms₁, ms', hLeads, hMoves, hEv, hRest⟩ := exists_moves h
    obtain ⟨s, hSelects, hl⟩ := ih hRest
    refine hLeads.exists_selects ⟨instead w' (some ev) s ms₁,
      instead_selects (.event hEv .refl hMoves) fun _ => hSelects,
      behaviours_event instead_head hEv ?_⟩
    rwa [instead_next]

/-- A way to select among streams, as the documentation of `SelectAll` has it: in what order the
members that are ready are polled is its own. -/
structure SelectAll (W E T : Type u) where
  select : List (Strm W E T) → Strm W E T
  selects : ∀ ms, Selects ms (select ms)

/-- Polling in turn. -/
def SelectAll.inTurn : SelectAll W E T := ⟨unfold selectStep, selects_selectStep⟩

/-- What selecting among the members can show is every interleaving of their runs. -/
theorem mem_shuffled_iff (w : W) : (l, e) ∈ shuffled (ms.map behaviours) ↔
    ∃ S : SelectAll W E T, (l, e) ∈ behaviours (S.select ms) := by
  classical
  constructor
  · intro h
    obtain ⟨s, hSelects, hl⟩ := exists_selects w h
    refine ⟨⟨fun ms' => if ms' = ms then s else unfold selectStep ms', fun ms' => ?_⟩, ?_⟩
    · by_cases hms : ms' = ms
      · rwa [if_pos hms, hms]
      · rw [if_neg hms]
        exact selects_selectStep ms'
    · simpa using hl
  · rintro ⟨S, hl⟩
    exact (S.selects ms).behaviours_subset hl

end Polling
