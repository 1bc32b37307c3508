import Emyu.Command.Map

/-! `collect`: the unfolding with an optional accumulator gathers every item once. -/

universe u

namespace Emyu.Command

open Polling Mealy

variable {Ctx W E T O : Type u} {F : Adapters W E}

/-- The closure that `collect` gives to `unfold`: the `?` ends the stream once the outputs were
given. -/
def collectFn (F : Adapters W E) : Strm W E T × Option (List T) →
    Fut W E (Option (Option (List T) × (Strm W E T × Option (List T))))
  | (_, none) => ready none
  | (stream, some outputs) => Fut.map (fun
      | (none, stream) => some (some outputs, (stream, none))
      | (some output, stream) => some (none, (stream, some (outputs ++ [output]))))
    (F.next stream)

/-- `filter_map(future::ready)`. -/
def readyFn : Fn W E (Option T) (Fut W E (Option T)) := .stateless fun i => ([], ready i.1)

def collect (F : Adapters W E) (c : Command Ctx W E T) : Command Ctx W E (List T) :=
  match c with
  | .none => done F []
  | .some streamFn => stream F fun ctx w =>
    let (es, s) := streamFn ctx w
    (es, F.filterMap (F.unfold (s, some []) (collectFn F)) readyFn)

/-- The unfolding of `collect`, as the adapters are documented. -/
def unfolded (s : Strm W E T) (acc : Option (List T)) : Strm W E (Option (List T)) :=
  unfolding (s, acc) (collectFn .reference)

section Unfolded

variable {s : Strm W E T} {w : W}

theorem unfolded_silent (acc : List T) (hS : s.head w = none) :
    (unfolded s (some acc)).head w = none ∧
    (unfolded s (some acc)).next w = unfolded (s.next w) (some acc) := by
  constructor
  · simp [unfolded, unfolding, unfoldStep, collectFn, futMap_head, Adapters.reference,
      Polling.next, nextStep, hS]
  · simp only [unfolded, unfolding, unfoldStep, collectFn, futMap_head, Adapters.reference,
      Polling.next, nextStep, hS, next_unfold, head_unfold, Option.map_none]
    rfl

theorem unfolded_effect {e : E} (acc : List T) (hS : s.head w = some (.effect e)) :
    (unfolded s (some acc)).head w = some (.effect e) ∧
    (unfolded s (some acc)).next w = unfolded (s.next w) (some acc) := by
  constructor
  · simp [unfolded, unfolding, unfoldStep, collectFn, futMap_head, Adapters.reference,
      Polling.next, nextStep, hS]
  · simp only [unfolded, unfolding, unfoldStep, collectFn, futMap_head, Adapters.reference,
      Polling.next, nextStep, hS, next_unfold, head_unfold, Option.map_some, Sum.map_inl]
    rfl

theorem unfolded_item {x : T} (acc : List T) (hS : s.head w = some (.item x)) :
    (unfolded s (some acc)).head w = some (.item none) ∧
    (unfolded s (some acc)).next w = unfolded (s.next w) (some (acc ++ [x])) := by
  constructor <;> simp [unfolded, unfolding, unfoldStep, collectFn, futMap_head,
    Adapters.reference, Polling.next, nextStep, hS]

theorem unfolded_ended (acc : List T) (hS : s.head w = some .ended) :
    (unfolded s (some acc)).head w = some (.item (some acc)) ∧
    (unfolded s (some acc)).next w = unfolded (s.next w) none := by
  constructor <;> simp [unfolded, unfolding, unfoldStep, collectFn, futMap_head,
    Adapters.reference, Polling.next, nextStep, hS]

end Unfolded

/-- The unfolding beside the gatherer: a turn for every item in which the accumulator grows, and
one after the end in which it is given. -/
inductive GatherSteps : Nat → Strm W E (List T) → Strm W E (List T) → Prop where
  | taking (s : Strm W E T) (acc : List T) :
      GatherSteps 0 (filterMap (unfolded s (some acc)) readyFn) (gather s acc)
  | dropped (s : Strm W E T) (acc : List T) : GatherSteps 1
      (unfold flatStep (.inner (unfolded s (some acc)) (readyFn.map (awaiting id))
        (awaiting id (ready none)))) (gather s acc)
  | giving (s : Strm W E T) (acc : List T) : GatherSteps 0
      (unfold flatStep (.inner (unfolded s none) (readyFn.map (awaiting id))
        (awaiting id (ready (some acc))))) (single acc)
  | given (s : Strm W E T) : GatherSteps 1
      (unfold flatStep (.inner (unfolded s none) (readyFn.map (awaiting id)) empty)) empty
  | done (s : Strm W E T) : GatherSteps 0 (filterMap (unfolded s none) readyFn) empty

theorem filterMap_unfolded (s : Strm W E T) :
    filterMap (unfolded s (some [])) readyFn ≈ gather s [] := by
  refine WeakEq.of_stutter GatherSteps ?_ (.taking s [])
  rintro _ _ _ (⟨s, acc⟩ | ⟨s, acc⟩ | ⟨s, acc⟩ | ⟨s⟩ | ⟨s⟩) w
  · refine .inl ?_
    rcases hS : s.head w with _ | e | x | _
    · obtain ⟨hHead, hNext⟩ := unfolded_silent acc hS
      obtain ⟨hHead', hNext'⟩ := gather_silent acc hS
      refine ⟨by rw [hHead', filterMap, outer_silent.mpr (.inl hHead)], fun _ => ⟨0, ?_⟩⟩
      rw [hNext', filterMap, outer_next (by simp [hHead]), hNext]
      exact .taking _ acc
    · obtain ⟨hHead, hNext⟩ := unfolded_effect acc hS
      obtain ⟨hHead', hNext'⟩ := gather_effect acc hS
      refine ⟨by rw [hHead', filterMap, outer_effect.mpr hHead], fun _ => ⟨0, ?_⟩⟩
      rw [hNext', filterMap, outer_next (by simp [hHead]), hNext]
      exact .taking _ acc
    · obtain ⟨hHead, hNext⟩ := unfolded_item acc hS
      obtain ⟨hHead', hNext'⟩ := gather_item acc hS
      refine ⟨by rw [hHead', filterMap, outer_silent.mpr (.inr ⟨none, hHead⟩)],
        fun _ => ⟨1, ?_⟩⟩
      rw [hNext', filterMap, outer_next_item hHead, hNext]
      exact .dropped _ _
    · obtain ⟨hHead, hNext⟩ := unfolded_ended acc hS
      obtain ⟨hHead', hNext'⟩ := gather_ended acc hS
      refine ⟨by rw [hHead', filterMap, outer_silent.mpr (.inr ⟨some acc, hHead⟩)],
        fun _ => ⟨0, ?_⟩⟩
      rw [hNext', filterMap, outer_next_item hHead, hNext]
      exact .giving _ acc
  · exact .inr ⟨rfl, 0, Nat.one_pos, .taking s acc⟩
  · refine .inl ⟨rfl, fun _ => ⟨1, ?_⟩⟩
    have hNext : (single acc : Strm W E (List T)).next w = empty := rfl
    rw [inner_next (by simp [awaiting, awaitStep, ready]), hNext]
    simpa [awaiting, awaitStep, ready, awaiting_stop] using GatherSteps.given s
  · exact .inr ⟨rfl, 0, Nat.one_pos, .done s⟩
  · exact .inl ⟨rfl, fun h => (h rfl).elim⟩

theorem collectFn_futEq (hF : F.Documented) (st : Strm W E T × Option (List T)) :
    FutEq (collectFn F st) (collectFn .reference st) := by
  obtain ⟨s, _ | outputs⟩ := st
  · exact WeakEq.refl _
  · exact (hF.next s).map _

/-- The stream of `collect` gathers that of the command, `none()` included. -/
theorem collect_weakEq (hF : F.Documented) (c : Command Ctx W E T) (ctx : Ctx) (w : W) :
    ((collect F c).call F ctx w).2 ≈ gather (c.call F ctx w).2 [] := by
  obtain rfl | ⟨streamFn, rfl⟩ := c.none_or_some
  · calc
      F.chain (yielding F) (F.once (ready [])) ≈ single [] := doneStream_single hF.toDocumented []
      _ ≈ gather empty [] := WeakEq.symm gather_empty
      _ ≈ gather F.empty [] := gather_congr (WeakEq.symm hF.empty)
  · set s := (streamFn ctx w).2
    have hUnfold : F.unfold (s, some []) (collectFn F) ≈ unfolded s (some []) :=
      WeakEq.trans (hF.unfold _ _) (unfolding_congr _ (collectFn_futEq hF))
    calc
      F.chain (yielding F) (F.filterMap (F.unfold (s, some []) (collectFn F)) readyFn) ≈
          F.filterMap (F.unfold (s, some []) (collectFn F)) readyFn :=
        stream_weakEq hF.toDocumented _
      _ ≈ filterMap (F.unfold (s, some []) (collectFn F)) readyFn := hF.filterMap _ _
      _ ≈ filterMap (unfolded s (some [])) readyFn := flatMap_congr hUnfold (.refl _)
      _ ≈ gather s [] := filterMap_unfolded s

/-- The runs of `c.collect()`: the effects of a run of `c`, and after its end its items in one
list. -/
theorem mem_behaviours_collect (hF : F.Documented) (c : Command Ctx W E T) (ctx : Ctx) (w : W)
    (l : List (W × Event E (List T))) (e : Bool) :
    (l, e) ∈ behaviours ((collect F c).call F ctx w).2 ↔
      (e = false ∧ ∃ ls b, (ls, b) ∈ behaviours (c.call F ctx w).2 ∧ l = effectsOf ls) ∨
      ∃ ls w', (ls, true) ∈ behaviours (c.call F ctx w).2 ∧
        l = effectsOf ls ++ [(w', .item (itemsOf ls))] := by
  rw [behaviours_congr (collect_weakEq hF c ctx w), mem_behaviours_gather]
  rfl

/-- What `c.collect()` has given: nothing, or once `c` has ended the list of its items. -/
theorem mem_outputs_collect (hF : F.Documented) (c : Command Ctx W E T) (ctx : Ctx) (w : W)
    {vs : List (List T)} {e : Bool} :
    (vs, e) ∈ outputs ((collect F c).call F ctx w).2 ↔
      (vs = [] ∧ e = false) ∨ ∃ xs, (xs, true) ∈ outputs (c.call F ctx w).2 ∧ vs = [xs] := by
  constructor
  · rintro ⟨l, hl, rfl⟩
    rcases (mem_behaviours_collect hF c ctx w l e).mp hl with
      ⟨rfl, ls, b, -, rfl⟩ | ⟨ls, w', hs, rfl⟩
    · exact .inl ⟨by simp, rfl⟩
    · exact .inr ⟨itemsOf ls, ⟨ls, hs, rfl⟩, by simp⟩
  · rintro (⟨rfl, rfl⟩ | ⟨xs, ⟨ls, hs, rfl⟩, rfl⟩)
    · exact ⟨[], behaviours_stop _, rfl⟩
    · exact ⟨_, (mem_behaviours_collect hF c ctx w _ _).mpr (.inr ⟨ls, w, hs, rfl⟩), by simp⟩

/-! ### Polls after the end -/

/-- The effects of a stream that is watched: its own, and a poll after it returned its end. -/
inductive Watch (E : Type u) where
  | does (e : E)
  | again
  deriving DecidableEq

def watchStep : Option (Strm W E T) → W →
    Option (Event (Watch E) T) × Option (Strm W E T)
  | none, _ => (some (.effect .again), none)
  | some s, w =>
    match s.head w with
    | none => (none, some (s.next w))
    | some (.effect e) => (some (.effect (.does e)), some (s.next w))
    | some (.item x) => (some (.item x), some (s.next w))
    | some .ended => (some .ended, none)

/-- The command with its stream watched. -/
def watched (c : Command Ctx W E T) : Command Ctx W (Watch E) T :=
  Option.map (fun f ctx w => ((f ctx w).1.map .does, unfold watchStep (some (f ctx w).2))) c

/-- The stream is not polled after its end. -/
def NeverAgain (l : List (W × Event (Watch E) O)) : Prop := ∀ p ∈ l, p.2 ≠ .effect .again

/-- Up to its end a watched stream shows no poll after the end. -/
theorem Plays.neverAgain {m : Strm W (Watch E) T} {l : List (W × Event (Watch E) T)}
    {o : Option (Strm W (Watch E) T)} (h : Plays m l o) :
    ∀ s, m = unfold watchStep (some s) → NeverAgain l := by
  induction h with
  | stop | ended => exact fun _ _ => List.forall_mem_nil _
  | @silent m w l o hHead _ ih =>
    rintro s rfl
    refine ih (s.next w) ?_
    rcases hS : s.head w with _ | _ | _ | _ <;> simp_all [watchStep]
  | @event m w ev l o hHead hEv _ ih =>
    rintro s rfl
    refine List.forall_mem_cons.mpr ⟨?_, ih (s.next w) ?_⟩
    · rintro rfl
      rcases hS : s.head w with _ | _ | _ | _ <;> simp [watchStep, hS] at hHead
    · rcases hS : s.head w with _ | _ | _ | _ <;> simp_all [watchStep]

theorem NeverAgain.effectsOf {l : List (W × Event (Watch E) T)} (h : NeverAgain l) :
    NeverAgain (effectsOf l : List (W × Event (Watch E) O)) := by
  induction l with
  | nil => exact List.forall_mem_nil _
  | cons p l ih =>
    obtain ⟨hHead, hRest⟩ := List.forall_mem_cons.mp h
    obtain ⟨w, ev⟩ := p
    cases ev with
    | effect e => exact List.forall_mem_cons.mpr ⟨by simpa using hHead, ih hRest⟩
    | item x => exact ih hRest
    | ended => exact ih hRest

theorem watched_neverAgain {F : Adapters W (Watch E)} (hF : F.Documented)
    (c : Command Ctx W E T) (ctx : Ctx) (w : W) {l : List (W × Event (Watch E) T)} {e : Bool}
    (h : (l, e) ∈ behaviours ((watched c).call F ctx w).2) : NeverAgain l := by
  obtain rfl | ⟨streamFn, rfl⟩ := c.none_or_some
  · have hNone : behaviours ((watched (Command.none : Command Ctx W E T)).call F ctx w).2 =
        behaviours empty := behaviours_congr hF.empty
    rw [hNone, mem_behaviours_empty w] at h
    subst h
    exact List.forall_mem_nil _
  · obtain ⟨o, hPlays, -⟩ := h
    exact Plays.neverAgain hPlays _ rfl

/-- `collect` does not poll the stream again after its end. -/
theorem collect_neverAgain {F : Adapters W (Watch E)} (hF : F.Documented)
    (c : Command Ctx W E T) (ctx : Ctx) (w : W) {l : List (W × Event (Watch E) (List T))}
    {e : Bool} (h : (l, e) ∈ behaviours ((collect F (watched c)).call F ctx w).2) :
    NeverAgain l := by
  rcases (mem_behaviours_collect hF _ ctx w l e).mp h with ⟨-, ls, b, hs, rfl⟩ | ⟨ls, w', hs, rfl⟩
  · exact (watched_neverAgain hF c ctx w hs).effectsOf
  · refine List.forall_mem_append.mpr ⟨(watched_neverAgain hF c ctx w hs).effectsOf, ?_⟩
    simp

variable [Acts E W]

/-- The command that gives the elements of `v`. -/
def elements (F : Combinators W E) (v : List T) : Command Ctx W E T :=
  stream F fun _ _ => ([], iter v)

/-- What `c.then(f)` has given, for a pure `f`: outputs of the streams of `f`'s commands, put
together for the items of a run of `c`. -/
theorem mem_outputs_then (hF : F.Documented) (c : Command Ctx W E T) (f : T → Command Ctx W E O)
    (ctx : Ctx) (w : W) {ys : List O} {e : Bool} :
    (ys, e) ∈ outputs ((c.then_ F (pureFn f)).call F ctx w).2 ↔
      ∃ ls, (ls, e) ∈ behaviours (c.call F ctx w).2 ∧
        Pieces (fun w x => outputs ((f x).call F ctx w).2) (timedItems ls) e ys := by
  rw [outputs_congr (call_then_ hF.toDocumented c (pureFn f) ctx w).2, bindFn_pureFn,
    mem_outputs_flatMap]

/-- `c.collect().then(|v| stream of v's elements)` gives what `c` gives, when `c` ends. -/
theorem mem_outputs_collect_elements (hF : F.Documented) (c : Command Ctx W E T) (ctx : Ctx)
    (w : W) (xs : List T) :
    (xs, true) ∈ outputs (((collect F c).then_ F (pureFn (elements F))).call F ctx w).2 ↔
      (xs, true) ∈ outputs (c.call F ctx w).2 := by
  have hElements (w : W) (v xs : List T) :
      (xs, true) ∈ outputs ((elements F v : Command Ctx W E T).call F ctx w).2 ↔ xs = v := by
    rw [← mem_outputs_iter (E := E) w]
    exact Set.ext_iff.mp (outputs_congr (stream_weakEq hF.toDocumented (iter v))) (xs, true)
  rw [mem_outputs_then hF]
  constructor
  · rintro ⟨ls', hs, hPieces⟩
    rcases (mem_behaviours_collect hF c ctx w ls' true).mp hs with
      ⟨h, -⟩ | ⟨ls, w', hRun, rfl⟩
    · cases h
    · have hItems : timedItems (effectsOf ls ++ [(w', .item (itemsOf ls))]) =
          [(w', itemsOf ls)] := by simp
      rw [hItems, pieces_singleton, hElements] at hPieces
      exact ⟨ls, hRun, hPieces.symm⟩
  · rintro ⟨ls, hs, rfl⟩
    refine ⟨_, (mem_behaviours_collect hF c ctx w _ true).mpr (.inr ⟨ls, w, hs, rfl⟩), ?_⟩
    have hItems : timedItems (effectsOf ls ++ [(w, .item (itemsOf ls))]) =
        [(w, itemsOf ls)] := by simp
    rw [hItems, pieces_singleton, hElements]

/-- `c.collect()` gathers: up to empty steps it is the gatherer of `c`'s stream; its runs show the
effects of one of `c` and, once that ended, its items in one list, and nothing else; it does not
poll `c` after its end; it gives nothing when `c` never ends; and giving the elements of the list
gives what `c` gives. -/
theorem collect_gathers (hF : F.Documented) {F' : Adapters W (Watch E)} (hF' : F'.Documented)
    (c : Command Ctx W E T) (ctx : Ctx) (w : W) :
    ((collect F c).call F ctx w).2 ≈ gather (c.call F ctx w).2 [] ∧
    (∀ l e, (l, e) ∈ behaviours ((collect F c).call F ctx w).2 ↔
      (e = false ∧ ∃ ls b, (ls, b) ∈ behaviours (c.call F ctx w).2 ∧ l = effectsOf ls) ∨
      ∃ ls w', (ls, true) ∈ behaviours (c.call F ctx w).2 ∧
        l = effectsOf ls ++ [(w', .item (itemsOf ls))]) ∧
    (∀ l e, (l, e) ∈ behaviours ((collect F' (watched c)).call F' ctx w).2 → NeverAgain l) ∧
    ((∀ ls, (ls, true) ∉ behaviours (c.call F ctx w).2) →
      ∀ b ∈ outputs ((collect F c).call F ctx w).2, b = ([], false)) ∧
    (∀ xs, (xs, true) ∈ outputs (((collect F c).then_ F (pureFn (elements F))).call F ctx w).2 ↔
      (xs, true) ∈ outputs (c.call F ctx w).2) := by
  refine ⟨collect_weakEq hF c ctx w, mem_behaviours_collect hF c ctx w,
    fun l e h => collect_neverAgain hF' c ctx w h, ?_, mem_outputs_collect_elements hF c ctx w⟩
  rintro hNever ⟨vs, e⟩ hOut
  rcases (mem_outputs_collect hF c ctx w).mp hOut with ⟨rfl, rfl⟩ | ⟨xs, ⟨ls, hs, -⟩, -⟩
  · rfl
  · exact (hNever ls hs).elim

/-- The items 5 and 6, with a pending poll between them and one before the end. -/
def fiveSix : Unit → Nat → List Unit × Strm Nat Unit Nat :=
  fun _ _ => ([], .cons (some (.item 5)) (.cons none (.cons (some (.item 6)) (.cons none empty))))

/-- Collected they are one list. -/
theorem collect_gathers_fiveSix : ([(7, .item [5, 6])], true) ∈ behaviours
    ((collect .reference (stream .reference fiveSix)).call .reference () 0).2 := by
  have hStream : ((stream .reference fiveSix : Command Unit Nat Unit Nat).call .reference () 0).2 ≈
      (fiveSix () 0).2 := stream_weakEq Combinators.reference_documented _
  have hItems : ([(0, .item 5), (3, .item 6)], true) ∈ behaviours
      ((stream .reference fiveSix : Command Unit Nat Unit Nat).call .reference () 0).2 := by
    rw [behaviours_congr hStream]
    refine behaviours_event rfl (by simp) (behaviours_silent (w := 0) rfl ?_)
    exact behaviours_event rfl (by simp) (behaviours_silent (w := 0) rfl
      (behaviours_ended (w := 0) rfl))
  have hCollect := (collect_gathers Adapters.reference_documented Adapters.reference_documented
    (stream .reference fiveSix) () 0).2.1
  exact (hCollect _ _).mpr (.inr ⟨_, 7, hItems, rfl⟩)

end Emyu.Command
