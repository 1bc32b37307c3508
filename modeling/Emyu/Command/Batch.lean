import Emyu.Command.Monad
import Emyu.Lib.Select

/-! `batch`: whatever the schedule, an interleaving of the members. -/

universe u

namespace Emyu.Command

open Polling Interleaving List

variable {Ctx W E T : Type u} [Acts E W]

/-- The loop of `batch`: the closures of the members are called one after the other, and those
that are `none()` are skipped. -/
def callAll : List (Command Ctx W E T) → Ctx → W → List E × List (Strm W E T)
  | [], _, _ => ([], [])
  | .none :: commands, ctx, w => callAll commands ctx w
  | .some repr :: commands, ctx, w =>
    let (es, s) := repr ctx w
    let (es', ss) := callAll commands ctx (actAll es w)
    (es ++ es', s :: ss)

def batch (S : SelectAll W E T) (commands : List (Command Ctx W E T)) : Command Ctx W E T :=
  .some fun ctx w =>
    let (es, ss) := callAll commands ctx w
    (es, S.select ss)

/-- The own calls of the commands, one after the other: each finds the world that the effects of
those before it left. -/
def callEach (F : Combinators W E) : List (Command Ctx W E T) → Ctx → W →
    List (List E × Strm W E T)
  | [], _, _ => []
  | c :: cs, ctx, w => c.call F ctx w :: callEach F cs ctx (actAll (c.call F ctx w).1 w)

/-- The streams that these calls give. -/
def members (F : Combinators W E) (cs : List (Command Ctx W E T)) (ctx : Ctx) (w : W) :
    List (Strm W E T) :=
  (callEach F cs ctx w).map Prod.snd

variable {F : Combinators W E} {S : SelectAll W E T} {ctx : Ctx} {w : W}

/-- The loop has the effects of the members' own calls. -/
theorem callAll_effects (F : Combinators W E) (cs : List (Command Ctx W E T)) (ctx : Ctx) (w : W) :
    (callAll cs ctx w).1 = ((callEach F cs ctx w).map Prod.fst).flatten := by
  induction cs generalizing w with
  | nil => rfl
  | cons c cs ih =>
    obtain rfl | ⟨f, rfl⟩ := c.none_or_some
    · exact ih w
    · exact congrArg ((f ctx w).1 ++ ·) (ih _)

/-- A member that was skipped shows nothing and has ended. -/
theorem merges_callEach (hF : F.Documented) {cs : List (Command Ctx W E T)}
    {rs : List (List (W × Event E T) × Option (Strm W E T))} {l : List (W × Event E T)}
    (h : Merges (callAll cs ctx w).2 rs l) :
    ∃ rs', Merges (members F cs ctx w) rs' l ∧
      rs'.filterMap Prod.snd = rs.filterMap Prod.snd := by
  induction cs generalizing w rs l with
  | nil => exact ⟨rs, h, rfl⟩
  | cons c cs ih =>
    obtain rfl | ⟨f, rfl⟩ := c.none_or_some
    · obtain ⟨rs', hRest, hLeft⟩ := ih h
      have hEmpty : ([], true) ∈ behaviours (F.empty : Strm W E T) := by
        rw [behaviours_congr hF.empty]
        exact (mem_behaviours_empty w).mpr rfl
      obtain ⟨o, hPlays, hEnd⟩ := hEmpty
      obtain rfl := Option.isNone_iff_eq_none.mp hEnd
      exact ⟨([], none) :: rs', merges_cons_iff.mpr ⟨_, rs', l, rfl, hPlays, hRest, .nil_left l⟩,
        hLeft⟩
    · obtain ⟨r, rs, n, rfl, hPlays, hRest, hl⟩ := merges_cons_iff.mp h
      obtain ⟨rs', hAll, hLeft⟩ := ih hRest
      refine ⟨r :: rs', merges_cons_iff.mpr ⟨r, rs', n, rfl, hPlays, hAll, hl⟩, ?_⟩
      rw [filterMap_cons, filterMap_cons, hLeft]

theorem shuffled_callEach (hF : F.Documented) (cs : List (Command Ctx W E T)) (ctx : Ctx) (w : W) :
    shuffled ((callAll cs ctx w).2.map behaviours) =
      shuffled ((members F cs ctx w).map behaviours) := by
  induction cs generalizing w with
  | nil => rfl
  | cons c cs ih =>
    obtain rfl | ⟨f, rfl⟩ := c.none_or_some
    · have hSkipped : ∀ l e, (l, e) ∈ behaviours (F.empty : Strm W E T) ↔ l = [] := fun l e => by
        rw [behaviours_congr hF.empty]
        exact mem_behaviours_empty w
      exact (ih w).trans (shuffled_cons_of_nil hSkipped).symm
    · exact shuffled_cons_congr (ih _)

theorem callAll_append (cs cs' : List (Command Ctx W E T)) (ctx : Ctx) (w : W) :
    callAll (cs ++ cs') ctx w = ((callAll cs ctx w).1 ++
      (callAll cs' ctx (actAll (callAll cs ctx w).1 w)).1,
      (callAll cs ctx w).2 ++ (callAll cs' ctx (actAll (callAll cs ctx w).1 w)).2) := by
  induction cs generalizing w with
  | nil => rfl
  | cons c cs ih =>
    obtain rfl | ⟨f, rfl⟩ := c.none_or_some
    · exact ih w
    · have hRest := ih (actAll (f ctx w).1 w)
      show ((f ctx w).1 ++ (callAll (cs ++ cs') ctx (actAll (f ctx w).1 w)).1,
        (f ctx w).2 :: (callAll (cs ++ cs') ctx (actAll (f ctx w).1 w)).2) = _
      rw [hRest]
      simp only [← append_assoc, ← actAll_append]
      rfl

/-- The streams of the groups of commands, called one after the other. -/
def groups : List (List (Command Ctx W E T)) → Ctx → W → List (List (Strm W E T))
  | [], _, _ => []
  | cs :: css, ctx, w =>
    (callAll cs ctx w).2 :: groups css ctx (actAll (callAll cs ctx w).1 w)

theorem groups_flatten (css : List (List (Command Ctx W E T))) (ctx : Ctx) (w : W) :
    (groups css ctx w).flatten = (callAll css.flatten ctx w).2 := by
  induction css generalizing w with
  | nil => rfl
  | cons cs css ih =>
    rw [flatten_cons, callAll_append, groups, flatten_cons, ih]

/-- The batches of the groups, each with a schedule of its own. -/
def Batches (css : List (List (Command Ctx W E T))) (bs : List (Command Ctx W E T)) : Prop :=
  Forall₂ (fun cs b => ∃ S, b = batch S cs) css bs

/-- The stream selects among the members by some schedule. -/
def Scheduled (ms : List (Strm W E T)) (s : Strm W E T) : Prop :=
  ∃ S : SelectAll W E T, s = S.select ms

/-- Calling the closures of batches calls those of all their members in order. -/
theorem Batches.callAll {css : List (List (Command Ctx W E T))} {bs : List (Command Ctx W E T)}
    (h : Batches css bs) (ctx : Ctx) (w : W) :
    (callAll bs ctx w).1 = (Command.callAll css.flatten ctx w).1 ∧
    Forall₂ Scheduled (groups css ctx w) (Command.callAll bs ctx w).2 := by
  induction h generalizing w with
  | nil => exact ⟨rfl, .nil⟩
  | @cons cs b css bs hBatch _ ih =>
    obtain ⟨S, rfl⟩ := hBatch
    obtain ⟨hEffects, hAll⟩ := ih (actAll (Command.callAll cs ctx w).1 w)
    rw [flatten_cons, callAll_append]
    exact ⟨congrArg (_ ++ ·) hEffects, .cons ⟨S, rfl⟩ hAll⟩

/-- However the groups are scheduled, batches of them are. -/
theorem exists_batches (css : List (List (Command Ctx W E T))) (ctx : Ctx) (w : W)
    {ss : List (Strm W E T)} (h : Forall₂ Scheduled (groups css ctx w) ss) :
    ∃ bs, Batches css bs ∧ (callAll bs ctx w).2 = ss := by
  induction css generalizing w ss with
  | nil =>
    cases h
    exact ⟨[], .nil, rfl⟩
  | cons cs css ih =>
    rcases h with _ | ⟨⟨S, rfl⟩, hRest⟩
    obtain ⟨bs, hBatches, rfl⟩ := ih _ hRest
    exact ⟨batch S cs :: bs, .cons ⟨S, rfl⟩ hBatches, rfl⟩

/-- Batching batches shows the interleavings that batching all their members shows. -/
theorem mem_behaviours_batches (css : List (List (Command Ctx W E T))) (ctx : Ctx) (w : W)
    (l : List (W × Event E T)) (e : Bool) :
    (∃ bs, Batches css bs ∧ ∃ S : SelectAll W E T,
      (l, e) ∈ behaviours (S.select (callAll bs ctx w).2)) ↔
    ∃ S : SelectAll W E T, (l, e) ∈ behaviours (S.select (callAll css.flatten ctx w).2) := by
  have hFlatten : shuffled ((callAll css.flatten ctx w).2.map behaviours) =
      shuffled ((groups css ctx w).map fun ms => shuffled (ms.map behaviours)) := by
    have hMap : ((groups css ctx w).map fun ms => shuffled (ms.map behaviours)) =
        ((groups css ctx w).map (List.map behaviours)).map shuffled := by
      rw [List.map_map]
      rfl
    rw [hMap, ← shuffled_flatten, ← groups_flatten, map_flatten]
  simp only [← mem_shuffled_iff w, hFlatten]
  constructor
  · rintro ⟨bs, hBatches, hl⟩
    refine shuffled_mono ?_ hl
    rw [forall₂_map_left_iff, forall₂_map_right_iff]
    refine ((hBatches.callAll ctx w).2.flip).imp ?_
    rintro s ms ⟨S, rfl⟩
    exact (S.selects ms).behaviours_subset
  · intro hl
    have hChoose (ms : List (Strm W E T)) (r : List (W × Event E T) × Bool)
        (hr : r ∈ shuffled (ms.map behaviours)) : ∃ s, Scheduled ms s ∧ r ∈ behaviours s := by
      obtain ⟨S, hMem⟩ := (mem_shuffled_iff w).mp hr
      exact ⟨S.select ms, ⟨S, rfl⟩, hMem⟩
    obtain ⟨ss, hScheduled, hMem⟩ := shuffled_choose hChoose hl
    obtain ⟨bs, hBatches, rfl⟩ := exists_batches css ctx w hScheduled
    exact ⟨bs, hBatches, hMem⟩

/-- A run of the batch: runs of the members, interleaved, that have all ended where the batch has,
and once these are all at their end, so is the batch. -/
theorem batch_merges (hF : F.Documented) (S : SelectAll W E T) (cs : List (Command Ctx W E T))
    (ctx : Ctx) (w : W) {l : List (W × Event E T)} {o : Option (Strm W E T)}
    (h : Plays (S.select (callAll cs ctx w).2) l o) :
    ∃ rs, Merges (members F cs ctx w) rs l ∧
      Interleaves (rs.map fun r => itemsOf r.1) (itemsOf l) ∧
      (o = none → ∀ r ∈ rs, r.2 = none) ∧
      ∀ s', o = some s' → ∀ w', (∀ r ∈ rs, ∀ m, r.2 = some m → m.head w' = some .ended) →
        s'.head w' = some .ended := by
  obtain ⟨rs, hCalled, hEnd, hGo⟩ := (S.selects _).merges h
  obtain ⟨rs', hMerges, hLeft⟩ := merges_callEach hF hCalled
  rw [← hLeft] at hEnd hGo
  refine ⟨rs', hMerges, ?_, fun ho => filterMap_eq_nil_iff.mp (hEnd ho), fun s' ho w' hEnded => ?_⟩
  · have hItems := hMerges.items
    rwa [List.map_map] at hItems
  · refine (hGo s' ho).head_ended fun m hm => ?_
    obtain ⟨r, hr, hStill⟩ := mem_filterMap.mp hm
    exact hEnded r hr m hStill

/-- `batch` is an exact interleaving of its members, each called by itself in the world that those
before it left, with `none()` as one that has ended: the batch has the effects of these calls, each
of its runs is one of runs of the members, ended only with all of them and at once when they are;
over the schedules it can be any; and batching batches is batching all members. -/
theorem batch_interleaves (hF : F.Documented) (ctx : Ctx) (w : W) :
    (∀ (S : SelectAll W E T) (cs : List (Command Ctx W E T)),
      ((batch S cs).call F ctx w).1 = ((callEach F cs ctx w).map Prod.fst).flatten ∧
      ∀ l o, Plays ((batch S cs).call F ctx w).2 l o →
        ∃ rs, Merges (members F cs ctx w) rs l ∧
          Interleaves (rs.map fun r => itemsOf r.1) (itemsOf l) ∧
          (o = none → ∀ r ∈ rs, r.2 = none) ∧
          ∀ s', o = some s' → ∀ w', (∀ r ∈ rs, ∀ m, r.2 = some m → m.head w' = some .ended) →
            s'.head w' = some .ended) ∧
    (∀ (S : SelectAll W E T) w',
      ((batch S ([] : List (Command Ctx W E T))).call F ctx w).2.head w' = some .ended) ∧
    (∀ (cs : List (Command Ctx W E T)) l e,
      (∃ S : SelectAll W E T, (l, e) ∈ behaviours ((batch S cs).call F ctx w).2) ↔
        (l, e) ∈ shuffled ((members F cs ctx w).map behaviours)) ∧
    (∀ (css : List (List (Command Ctx W E T))) bs (S S' : SelectAll W E T), Batches css bs →
      ((batch S bs).call F ctx w).1 = ((batch S' css.flatten).call F ctx w).1) ∧
    (∀ (css : List (List (Command Ctx W E T))) l e,
      (∃ bs, Batches css bs ∧ ∃ S : SelectAll W E T,
        (l, e) ∈ behaviours ((batch S bs).call F ctx w).2) ↔
      ∃ S : SelectAll W E T, (l, e) ∈ behaviours ((batch S css.flatten).call F ctx w).2) := by
  refine ⟨fun S cs => ⟨callAll_effects F cs ctx w, fun _ _ h => batch_merges hF S cs ctx w h⟩,
    fun S _ => (S.selects []).head_ended (by simp), fun cs l e => ?_,
    fun _ _ _ _ h => (h.callAll ctx w).1, fun css l e => mem_behaviours_batches css ctx w l e⟩
  rw [← shuffled_callEach hF cs ctx w]
  exact (mem_shuffled_iff w).symm

/-- A command that ticks once when it is called, and then gives the items, each with the ticks that
its call found added. -/
def ticking (items : List Nat) : Command Unit Nat Unit Nat :=
  .some fun _ w => ([()], items.foldr (fun n s => .cons (some (.item (n + w))) s) empty)

/-- `none()`, a command without items, and two with two items each. -/
def mixedBatch : List (Command Unit Nat Unit Nat) :=
  [.none, ticking [], ticking [10, 20], ticking [30, 40]]

/-- The items of the two are interleaved, and then the batch ends. -/
theorem batch_interleaves_mixed : ∃ S : SelectAll Nat Unit Nat,
    ([(0, .item 32), (0, .item 11), (0, .item 42), (0, .item 21)], true) ∈
      behaviours ((batch S mixedBatch).call .reference () 0).2 := by
  have h := (batch_interleaves (E := Unit) (T := Nat)
    Combinators.reference_documented () 0).2.2.1
  refine (h mixedBatch _ true).mpr ⟨[([], true), ([], true), ([(0, .item 11), (0, .item 21)], true),
    ([(0, .item 32), (0, .item 42)], true)], ?_, ?_, by simp⟩
  · have hEnded : ([], true) ∈ behaviours (empty : Strm Nat Unit Nat) :=
      behaviours_ended (w := 0) rfl
    have hPair (m n : Nat) : ([(0, .item m), (0, .item n)], true) ∈
        behaviours (Mealy.cons (some (.item m)) (.cons (some (.item n)) empty) :
          Strm Nat Unit Nat) :=
      behaviours_event rfl (by simp) (behaviours_event rfl (by simp) hEnded)
    exact .cons hEnded (.cons hEnded (.cons (hPair 11 21) (.cons (hPair 32 42) .nil)))
  · have hLast : Interleaves [[(0, .item 32), (0, .item 42)]]
        [(0, (.item 32 : Event Unit Nat)), (0, .item 42)] :=
      .cons .nil (.left (.left .nil))
    exact .cons (.cons (.cons hLast (.right (.left (.right (.left .nil))))) (.nil_left _))
      (.nil_left _)

end Emyu.Command
