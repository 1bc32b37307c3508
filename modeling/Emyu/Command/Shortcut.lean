import Emyu.Command.Batch
import Emyu.Command.Concat
import Emyu.Command.Fallible
import Emyu.Host.Tasks
import Mathlib.Data.List.FinRange

/-! The `None` shortcut: in every context of combinators a `none()` can be replaced by a command
with an empty stream. -/

universe u

namespace Emyu.Command

open Polling Interleaving List

variable {Ctx W E H T O A B X X' : Type u} [Acts E W]

/-- `discard`. -/
def discard (F : Combinators W E) (c : Command Ctx W E T) : Command Ctx W E O :=
  c.then_ F (.stateless fun _ => ([], Command.none))

/-- Commands with holes for a command of `H`s. Of a closure that returns commands, `es` is what
each call does itself, and its commands may have holes as well. -/
inductive Context (Ctx W E H : Type u) : Type u → Type (u + 1) where
  | hole : Context Ctx W E H H
  | command {T : Type u} (c : Command Ctx W E T) : Context Ctx W E H T
  | batch {T : Type u} {n : Nat} (Cs : Fin n → Context Ctx W E H T) : Context Ctx W E H T
  | map {T O : Type u} (f : Fn W E T O) (C : Context Ctx W E H T) : Context Ctx W E H O
  | then_ {T O : Type u} (es : List (T × W) → T × W → List E)
      (k : List (T × W) → T × W → Context Ctx W E H O) (C : Context Ctx W E H T) :
      Context Ctx W E H O
  | chain {T : Type u} (C D : Context Ctx W E H T) : Context Ctx W E H T
  | collect {T : Type u} (C : Context Ctx W E H T) : Context Ctx W E H (List T)
  | discard {T O : Type u} (C : Context Ctx W E H T) : Context Ctx W E H O
  | optionAndThen {T A : Type u} (es : List (T × W) → T × W → List E)
      (k : List (T × W) → T × W → Context Ctx W E H A) (C : Context Ctx W E H (Option T)) :
      Context Ctx W E H A
  | resultAndThen {X T A : Type u} (es : List (T × W) → T × W → List E)
      (k : List (T × W) → T × W → Context Ctx W E H (Except X A))
      (C : Context Ctx W E H (Except X T)) : Context Ctx W E H (Except X A)
  | mapErr {X X' T : Type u} (f : Fn W E X X') (C : Context Ctx W E H (Except X T)) :
      Context Ctx W E H (Except X' T)

/-- The closures that call by call do what `es` says and return one of the commands of `K`. -/
def closures (es : List (T × W) → T × W → List E)
    (K : List (T × W) → T × W → Set (Command Ctx W E O)) : Set (Fn W E T (Command Ctx W E O)) :=
  {f | ∀ past i, (f.answer past i).1 = es past i ∧ (f.answer past i).2 ∈ K past i}

/-- The commands that the context is with `h` in its holes: each batch, and each call of a closure,
may be scheduled in its own way. -/
def Context.fill (F : Adapters W E) (h : Command Ctx W E H) {T : Type u} :
    Context Ctx W E H T → Set (Command Ctx W E T)
  | .hole => {h}
  | .command c => {c}
  | .batch Cs => {b | ∃ (S : SelectAll W E _) (cs : _),
      Forall₂ (· ∈ ·) cs (List.ofFn fun i => fill F h (Cs i)) ∧ b = Command.batch S cs}
  | .map f C => {b | ∃ c ∈ fill F h C, b = Command.map F c f}
  | .then_ es k C => {b | ∃ c ∈ fill F h C,
      ∃ f ∈ closures es fun past i => fill F h (k past i), b = c.then_ F f}
  | .chain C D => {b | ∃ c ∈ fill F h C, ∃ d ∈ fill F h D, b = Command.chain F c d}
  | .collect C => {b | ∃ c ∈ fill F h C, b = Command.collect F c}
  | .discard C => {b | ∃ c ∈ fill F h C, b = Command.discard F c}
  | .optionAndThen es k C => {b | ∃ c ∈ fill F h C,
      ∃ f ∈ closures es fun past i => fill F h (k past i), b = Command.optionAndThen F c f}
  | .resultAndThen es k C => {b | ∃ c ∈ fill F h C,
      ∃ f ∈ closures es fun past i => fill F h (k past i), b = Command.resultAndThen F c f}
  | .mapErr f C => {b | ∃ c ∈ fill F h C, b = Command.mapErr F c f}

/-! ### What replacing keeps -/

/-- Each run of a command of the first set is one of a command of the second, whose closure has
the same effects. -/
def Below (F : Combinators W E) (K K' : Set (Command Ctx W E T)) : Prop :=
  ∀ c ∈ K, ∀ ctx w, ∀ r ∈ behaviours (c.call F ctx w).2,
    ∃ c' ∈ K', (c'.call F ctx w).1 = (c.call F ctx w).1 ∧ r ∈ behaviours (c'.call F ctx w).2

section Below

variable {F : Adapters W E} {K K' : Set (Command Ctx W E T)}

omit [Acts E W] in
theorem Below.refl (K : Set (Command Ctx W E T)) : Below F K K :=
  fun c hc _ _ _ hr => ⟨c, hc, rfl, hr⟩

theorem mem_behaviours_then (hF : F.Documented) (c : Command Ctx W E T)
    (f : Fn W E T (Command Ctx W E O)) (ctx : Ctx) (w : W) {l : List (W × Event E O)} {e : Bool} :
    (l, e) ∈ behaviours ((c.then_ F f).call F ctx w).2 ↔
      ∃ ls, (ls, e) ∈ behaviours (c.call F ctx w).2 ∧ Flattens (bindFn F f ctx) ls e l := by
  rw [behaviours_congr (call_then_ hF.toDocumented c f ctx w).2, mem_behaviours_flatMap]

/-- Under `then` by a closure without holes. -/
theorem Below.then_fn (hF : F.Documented) (h : Below F K K') (f : Fn W E T (Command Ctx W E O)) :
    Below F {b | ∃ c ∈ K, b = c.then_ F f} {b | ∃ c ∈ K', b = c.then_ F f} := by
  rintro _ ⟨c, hc, rfl⟩ ctx w ⟨l, e⟩ hr
  obtain ⟨ls, hs, hFlat⟩ := (mem_behaviours_then hF c f ctx w).mp hr
  obtain ⟨c', hc', hEffects, hs'⟩ := h c hc ctx w (ls, e) hs
  refine ⟨c'.then_ F f, ⟨c', hc', rfl⟩, ?_, ?_⟩
  · rw [(call_then_ hF.toDocumented c' f ctx w).1, (call_then_ hF.toDocumented c f ctx w).1,
      hEffects]
  · exact (mem_behaviours_then hF c' f ctx w).mpr ⟨ls, hs', hFlat⟩

/-- Calling the closure of the command that the closure returns. -/
theorem bindFn_orElse (sel : T × W → (List E × Command Ctx W E O) ⊕ B)
    (f : Fn W E B (Command Ctx W E O)) (ctx : Ctx) :
    bindFn F (f.orElse sel) ctx = (bindFn F f ctx).orElse fun i =>
      (sel i).map (fun a => (a.1 ++ (a.2.call F ctx (actAll a.1 i.2)).1,
        (a.2.call F ctx (actAll a.1 i.2)).2)) id := by
  refine Mealy.ext ?_
  funext past i
  rcases hSel : sel i with a | x
  · simp [bindFn, Fn.orElse, hSel]
  · simp [bindFn, Fn.orElse, hSel, Sum.getRight?_map]

omit [Acts E W] in
theorem orElse_inr (f : Fn W E T (Command Ctx W E O)) :
    (f.orElse fun i : T × W => .inr i.1) = f := by
  refine Mealy.ext ?_
  funext past i
  exact congrArg (f.answer · i) filterMap_some

/-- Under `then` by a closure that returns commands with holes, or decides by itself. -/
theorem Below.then_orElse (hF : F.Documented) (h : Below F K K')
    (sel : T × W → (List E × Command Ctx W E O) ⊕ B) (es : List (B × W) → B × W → List E)
    {L L' : List (B × W) → B × W → Set (Command Ctx W E O)}
    (hL : ∀ past i, Below F (L past i) (L' past i)) :
    Below F {b | ∃ c ∈ K, ∃ f ∈ closures es L, b = c.then_ F (f.orElse sel)}
      {b | ∃ c ∈ K', ∃ f ∈ closures es L', b = c.then_ F (f.orElse sel)} := by
  rintro _ ⟨c, hc, f, hf, rfl⟩ ctx w ⟨l, e⟩ hr
  obtain ⟨ls, hs, hFlat⟩ := (mem_behaviours_then hF c _ ctx w).mp hr
  obtain ⟨c', hc', hEffects, hs'⟩ := h c hc ctx w (ls, e) hs
  rw [bindFn_orElse] at hFlat
  -- each call of the closure returns a command that has the run the call was asked for
  obtain ⟨g, hg, hFlat'⟩ := hFlat.replace (fun past i => {a | ∃ d ∈ L' past i,
      a = (es past i ++ (d.call F ctx (actAll (es past i) i.2)).1,
        (d.call F ctx (actAll (es past i) i.2)).2)}) (by
    intro past i r hRun
    obtain ⟨hEs, hMem⟩ := hf past i
    have hAnswer : (bindFn F f ctx).answer past i =
        (es past i ++ ((f.answer past i).2.call F ctx (actAll (es past i) i.2)).1,
          ((f.answer past i).2.call F ctx (actAll (es past i) i.2)).2) := by
      rw [← hEs]
      rfl
    rw [hAnswer] at hRun ⊢
    obtain ⟨d, hd, hEffects, hRun'⟩ := hL past i _ hMem ctx _ r hRun
    exact ⟨_, ⟨d, hd, rfl⟩, by rw [hEffects], hRun'⟩)
  choose d hd hAnswer using hg
  set f' : Fn W E B (Command Ctx W E O) := ⟨fun past i => (es past i, d past i)⟩ with hf'
  have hBind : bindFn F f' ctx = g := by
    refine Mealy.ext ?_
    funext past i
    exact (hAnswer past i).symm
  refine ⟨c'.then_ F (f'.orElse sel), ⟨c', hc', f', fun past i => ⟨rfl, hd past i⟩, rfl⟩, ?_, ?_⟩
  · rw [(call_then_ hF.toDocumented c' _ ctx w).1, (call_then_ hF.toDocumented c _ ctx w).1,
      hEffects]
  · refine (mem_behaviours_then hF c' _ ctx w).mpr ⟨ls, hs', ?_⟩
    rw [bindFn_orElse, hBind]
    exact hFlat'

theorem Below.chain (hF : F.Documented) {L L' : Set (Command Ctx W E T)} (h : Below F K K')
    (hL : Below F L L') :
    Below F {b | ∃ c ∈ K, ∃ d ∈ L, b = Command.chain F c d}
      {b | ∃ c ∈ K', ∃ d ∈ L', b = Command.chain F c d} := by
  rintro _ ⟨c, hc, d, hd, rfl⟩ ctx w ⟨l, e⟩ hr
  rcases (mem_behaviours_command_chain hF c d ctx w l e).mp hr with
    ⟨rfl, hRun⟩ | ⟨l₁, l₂, rfl, hRun, hRest⟩
  · obtain ⟨c', hc', hEffects, hRun'⟩ := h c hc ctx w _ hRun
    obtain ⟨d', hd', hEffects', -⟩ := hL d hd ctx _ _ (behaviours_stop _)
    refine ⟨_, ⟨c', hc', d', hd', rfl⟩, ?_,
      (mem_behaviours_command_chain hF c' d' ctx w l false).mpr (.inl ⟨rfl, hRun'⟩)⟩
    rw [call_chain_effects, call_chain_effects, hEffects, hEffects']
  · obtain ⟨c', hc', hEffects, hRun'⟩ := h c hc ctx w _ hRun
    obtain ⟨d', hd', hEffects', hRest'⟩ := hL d hd ctx _ _ hRest
    refine ⟨_, ⟨c', hc', d', hd', rfl⟩, ?_, (mem_behaviours_command_chain hF c' d' ctx w _ e).mpr
      (.inr ⟨l₁, l₂, rfl, hRun', hEffects ▸ hRest'⟩)⟩
    rw [call_chain_effects, call_chain_effects, hEffects, hEffects']

omit [Acts E W] in
theorem call_collect_effects (c : Command Ctx W E T) (ctx : Ctx) (w : W) :
    ((Command.collect F c).call F ctx w).1 = (c.call F ctx w).1 := by
  obtain rfl | ⟨f, rfl⟩ := c.none_or_some <;> rfl

omit [Acts E W] in
theorem Below.collect (hF : F.Documented) (h : Below F K K') :
    Below F {b | ∃ c ∈ K, b = Command.collect F c} {b | ∃ c ∈ K', b = Command.collect F c} := by
  rintro _ ⟨c, hc, rfl⟩ ctx w ⟨l, e⟩ hr
  rcases (mem_behaviours_collect hF c ctx w l e).mp hr with
    ⟨rfl, ls, b, hRun, rfl⟩ | ⟨ls, w', hRun, rfl⟩
  · obtain ⟨c', hc', hEffects, hRun'⟩ := h c hc ctx w _ hRun
    exact ⟨_, ⟨c', hc', rfl⟩, by rw [call_collect_effects, call_collect_effects, hEffects],
      (mem_behaviours_collect hF c' ctx w _ _).mpr (.inl ⟨rfl, ls, b, hRun', rfl⟩)⟩
  · obtain ⟨c', hc', hEffects, hRun'⟩ := h c hc ctx w _ hRun
    exact ⟨_, ⟨c', hc', rfl⟩, by rw [call_collect_effects, call_collect_effects, hEffects],
      (mem_behaviours_collect hF c' ctx w _ _).mpr (.inr ⟨ls, w', hRun', rfl⟩)⟩

/-- The sets of commands one after the other, each below its counterpart. -/
theorem Below.each {Ks Ks' : List (Set (Command Ctx W E T))} (h : Forall₂ (Below F) Ks Ks')
    {cs : List (Command Ctx W E T)} (hcs : Forall₂ (· ∈ ·) cs Ks) (ctx : Ctx) (w : W)
    {l : List (W × Event E T)} {e : Bool}
    (hRun : (l, e) ∈ shuffled ((members F cs ctx w).map behaviours)) :
    ∃ cs', Forall₂ (· ∈ ·) cs' Ks' ∧
      (callEach F cs' ctx w).map Prod.fst = (callEach F cs ctx w).map Prod.fst ∧
      (l, e) ∈ shuffled ((members F cs' ctx w).map behaviours) := by
  induction h generalizing cs w l e with
  | nil => exact ⟨cs, hcs, rfl, hRun⟩
  | cons hBelow _ ih =>
    cases hcs with
    | cons hc hcs =>
      obtain ⟨l₁, e₁, m, e₂, hFirst, hRest, hl, hEnds⟩ := mem_shuffled_cons.mp hRun
      obtain ⟨c', hc', hEffects, hFirst'⟩ := hBelow _ hc ctx w _ hFirst
      obtain ⟨cs', hcs', hEffects', hRest'⟩ := ih hcs _ hRest
      refine ⟨c' :: cs', .cons hc' hcs', ?_, ?_⟩
      · simp only [callEach, List.map_cons, hEffects, hEffects']
      · refine mem_shuffled_cons.mpr ⟨l₁, e₁, m, e₂, hFirst', ?_, hl, hEnds⟩
        rwa [hEffects]

theorem Below.batch (hF : F.Documented) {Ks Ks' : List (Set (Command Ctx W E T))}
    (h : Forall₂ (Below F) Ks Ks') :
    Below F {b | ∃ (S : SelectAll W E T) (cs : _), Forall₂ (· ∈ ·) cs Ks ∧ b = Command.batch S cs}
      {b | ∃ (S : SelectAll W E T) (cs : _), Forall₂ (· ∈ ·) cs Ks' ∧ b = Command.batch S cs} := by
  rintro _ ⟨S, cs, hcs, rfl⟩ ctx w ⟨l, e⟩ hr
  have hShuffled := (S.selects _).behaviours_subset hr
  rw [shuffled_callEach hF.toDocumented] at hShuffled
  obtain ⟨cs', hcs', hEffects, hShuffled'⟩ := Below.each h hcs ctx w hShuffled
  have hCalls : (callAll cs' ctx w).1 = (callAll cs ctx w).1 := by
    rw [callAll_effects F, callAll_effects F, hEffects]
  rw [← shuffled_callEach hF.toDocumented] at hShuffled'
  obtain ⟨S', hr'⟩ := (mem_shuffled_iff w).mp hShuffled'
  exact ⟨_, ⟨S', cs', hcs', rfl⟩, hCalls, hr'⟩

/-- Replacing in the holes keeps the runs of the whole, whatever the context. -/
theorem fill_below (hF : F.Documented) {h h' : Command Ctx W E H} (hBelow : Below F {h} {h'})
    {T : Type u} (C : Context Ctx W E H T) : Below F (C.fill F h) (C.fill F h') := by
  induction C with
  | hole => exact hBelow
  | command c => exact .refl _
  | batch Cs ih =>
    refine .batch hF ?_
    rw [ofFn_eq_map, ofFn_eq_map, forall₂_map_left_iff, forall₂_map_right_iff, forall₂_same]
    exact fun i _ => ih i
  | map f C ih => exact ih.then_fn hF _
  | then_ es k C ihk ih =>
    have hThen := ih.then_orElse hF (fun i => .inr i.1) es ihk
    simp only [orElse_inr] at hThen
    exact hThen
  | chain C D ihC ihD => exact ihC.chain hF ihD
  | collect C ih => exact ih.collect hF
  | discard C ih => exact ih.then_fn hF _
  | optionAndThen es k C ihk ih => exact ih.then_orElse hF _ es ihk
  | resultAndThen es k C ihk ih => exact ih.then_orElse hF _ es ihk
  | mapErr f C ih => exact ih.then_fn hF _

end Below

/-! ### Tasks and the messages they send -/

omit [Acts E W] in
/-- What a task that runs the command shows: nothing yet, or that the closure was called in some
world and then what it did and the stream shows. -/
theorem mem_behaviours_task {F : Adapters W E} (hF : F.Documented) (c : Command Ctx W E T)
    (ctx : Ctx) {l : List (W × Event E T)} {e : Bool} :
    (l, e) ∈ behaviours (c.task ctx) ↔ (l = [] ∧ e = false) ∨
      ∃ w, (l, e) ∈ behaviours (emit (c.call F ctx w).1 (c.call F ctx w).2) := by
  obtain rfl | ⟨f, rfl⟩ := c.none_or_some
  · have hEmpty : behaviours (F.empty : Strm W E T) = behaviours empty := behaviours_congr hF.empty
    show (l, e) ∈ behaviours empty ↔ _ ∨ ∃ w : W, (l, e) ∈ behaviours (F.empty : Strm W E T)
    rw [hEmpty]
    constructor
    · rintro ⟨o, hPlays, hEnd⟩
      cases hPlays with
      | stop => exact .inl ⟨rfl, hEnd.symm⟩
      | @ended _ w hHead => exact .inr ⟨w, _, .ended hHead, hEnd⟩
      | silent hHead => cases hHead
      | event hHead hEv => exact (hEv (Option.some.inj hHead).symm).elim
    · rintro (⟨rfl, rfl⟩ | ⟨-, h⟩)
      · exact behaviours_stop _
      · exact h
  · constructor
    · rintro ⟨o, hPlays, hEnd⟩
      cases hPlays with
      | stop => exact .inl ⟨rfl, hEnd.symm⟩
      | ended hHead | event hHead => cases hHead
      | @silent _ w _ _ _ hPlays => exact .inr ⟨w, o, hPlays, hEnd⟩
    · rintro (⟨rfl, rfl⟩ | ⟨w, h⟩)
      · exact behaviours_stop _
      · exact behaviours_silent (w := w) rfl h

omit [Acts E W] in
/-- What the tasks of the first commands show, those of the second can. -/
theorem Below.task {F : Adapters W E} (hF : F.Documented) {K K' : Set (Command Ctx W E T)}
    (h : Below F K K') (ctx : Ctx) (w : W) {b : List (W × Event E T) × Bool}
    (hb : ∃ c ∈ K, b ∈ behaviours (c.task ctx)) : ∃ c ∈ K', b ∈ behaviours (c.task ctx) := by
  obtain ⟨c, hc, hRun⟩ := hb
  rcases (mem_behaviours_task hF c ctx).mp hRun with ⟨hNothing, hOpen⟩ | ⟨w', hRun⟩
  · obtain ⟨c', hc', -⟩ := h c hc ctx w _ (behaviours_stop _)
    exact ⟨c', hc', (mem_behaviours_task hF c' ctx).mpr (.inl ⟨hNothing, hOpen⟩)⟩
  · obtain ⟨r, hr, hMore⟩ := exists_run_of_emit hRun
    obtain ⟨c', hc', hEffects, hr'⟩ := h c hc ctx w' r hr
    refine ⟨c', hc', (mem_behaviours_task hF c' ctx).mpr (.inr ⟨w', ?_⟩)⟩
    rw [hEffects]
    exact hMore _ hr'

/-- What the host can have sent for the command: it spawns a task only where there is a closure,
and the task sends each value of the stream. -/
def sent (c : Command Ctx W E T) (ctx : Ctx) : Set (List T) :=
  match c with
  | .none => {[]}
  | .some f => {xs | ∃ s, Yields ((Command.some f).task ctx) xs s}

omit [Acts E W] in
theorem mem_sent (c : Command Ctx W E T) (ctx : Ctx) {xs : List T} :
    xs ∈ sent c ctx ↔ ∃ l, (l, false) ∈ behaviours (c.task ctx) ∧ itemsOf l = xs := by
  obtain rfl | ⟨f, rfl⟩ := c.none_or_some
  · constructor
    · rintro rfl
      exact ⟨[], behaviours_stop _, rfl⟩
    · rintro ⟨l, ⟨o, hPlays, -⟩, rfl⟩
      obtain ⟨rfl, -⟩ := plays_of_ended (s := (empty : Strm W E T)) (fun _ => rfl) hPlays
      rfl
  · exact exists_yields_iff

/-- The tasks of a host have sent what the host can send for their commands. -/
theorem emitted_mem_sent {A : Application} {ready : Nat → Fifo.Channel A.RootMessage → Nat → Bool}
    {model : A.Model} {world : A.World} {interceptors : List A.Interceptor} {buffer : Nat}
    {as : List (Action A)} {s : Host A}
    (hRun : Runs.run (Host.step ready) (.new model world interceptors buffer) as = some s)
    {k : Nat} {task : Task A} (hGet : s.tasks[k]? = some task) :
    task.emitted ∈ sent (Command.some task.command) task.context := by
  have hRan := (((Host.Tasks.new model world interceptors buffer).run hRun).owned k task hGet).ran
  unfold Host.Task.Ran at hRan
  split at hRan
  · rw [hRan]
    exact ⟨_, .refl⟩
  · exact ⟨_, hRan⟩
  · obtain ⟨stream, hYields, -⟩ := hRan
    exact ⟨stream, hYields⟩

/-- Commands with an empty stream: one that ends at once, or a batch of no commands. -/
inductive Empty (F : Adapters W E) : Command Ctx W E H → Prop where
  | stream (s : Ctx → W → Strm W E H) : (∀ ctx w, s ctx w ≈ Polling.empty) →
      Empty F (Command.stream F fun ctx w => ([], s ctx w))
  | batch (S : SelectAll W E H) : Empty F (Command.batch S [])

theorem Empty.call {F : Adapters W E} (hF : F.Documented) {h : Command Ctx W E H}
    (hEmpty : Empty F h) (ctx : Ctx) (w : W) : (h.call F ctx w).1 = [] ∧
      behaviours (h.call F ctx w).2 = behaviours empty := by
  cases hEmpty with
  | stream s hs =>
    exact ⟨rfl, behaviours_congr (WeakEq.trans (stream_weakEq hF.toDocumented _) (hs ctx w))⟩
  | batch S =>
    refine ⟨rfl, Set.ext fun ⟨l, e⟩ => ?_⟩
    have hEnded (w : W) : (S.select []).head w = some .ended := (S.selects []).head_ended (by simp)
    rw [mem_behaviours_empty w]
    constructor
    · rintro ⟨o, hPlays, -⟩
      exact (plays_of_ended hEnded hPlays).1
    · rintro rfl
      cases e with
      | false => exact behaviours_stop _
      | true => exact behaviours_ended (hEnded w)

/-- In every context, a command with an empty stream in place of `none()` changes neither what a
task of the whole shows, its end included, over all schedules of the batches, nor what the host
sends for it. -/
theorem none_shortcut {F : Adapters W E} (hF : F.Documented) {h : Command Ctx W E H}
    (hEmpty : Empty F h) (C : Context Ctx W E H T) (ctx : Ctx) (w : W) :
    (∀ b, (∃ c ∈ C.fill F Command.none, b ∈ behaviours (c.task ctx)) ↔
      ∃ c ∈ C.fill F h, b ∈ behaviours (c.task ctx)) ∧
    (∀ xs, (∃ c ∈ C.fill F Command.none, xs ∈ sent c ctx) ↔ ∃ c ∈ C.fill F h, xs ∈ sent c ctx) := by
  have hNone (ctx : Ctx) (w : W) : ((Command.none : Command Ctx W E H).call F ctx w).1 = [] ∧
      behaviours ((Command.none : Command Ctx W E H).call F ctx w).2 = behaviours empty :=
    ⟨rfl, behaviours_congr hF.empty⟩
  have hBelow : Below F {Command.none} {h} := by
    rintro _ rfl ctx w r hr
    obtain ⟨hEffects, hRuns⟩ := hEmpty.call hF ctx w
    exact ⟨h, rfl, hEffects.trans (hNone ctx w).1.symm, by rw [hRuns, ← (hNone ctx w).2]; exact hr⟩
  have hAbove : Below F {h} {Command.none} := by
    rintro _ rfl ctx w r hr
    obtain ⟨hEffects, hRuns⟩ := hEmpty.call hF ctx w
    exact ⟨_, rfl, (hNone ctx w).1.trans hEffects.symm, by rw [(hNone ctx w).2, ← hRuns]; exact hr⟩
  have hTask (b : List (W × Event E T) × Bool) :
      (∃ c ∈ C.fill F Command.none, b ∈ behaviours (c.task ctx)) ↔
        ∃ c ∈ C.fill F h, b ∈ behaviours (c.task ctx) :=
    ⟨(fill_below hF hBelow C).task hF ctx w, (fill_below hF hAbove C).task hF ctx w⟩
  refine ⟨hTask, fun xs => ?_⟩
  simp only [mem_sent]
  constructor
  · rintro ⟨c, hc, l, hl, hItems⟩
    obtain ⟨c', hc', hl'⟩ := (hTask (l, false)).mp ⟨c, hc, hl⟩
    exact ⟨c', hc', l, hl', hItems⟩
  · rintro ⟨c, hc, l, hl, hItems⟩
    obtain ⟨c', hc', hl'⟩ := (hTask (l, false)).mpr ⟨c, hc, hl⟩
    exact ⟨c', hc', l, hl', hItems⟩

/-- The command that gives 5. -/
def five : Command Unit Nat Unit Nat := .some fun _ _ => ([], single 5)

/-- `batch([]).chain(five)` sends what `none().chain(five)` sends. -/
theorem none_shortcut_chain : ∃ c ∈ (Context.chain .hole (.command five)).fill .reference
    (batch .inTurn []), [5] ∈ sent c () := by
  have hCalled : (five.task ()).head 0 = none := rfl
  have hStart : Yields (five.task ()) [] ((five.task ()).next 0) :=
    .quiet .refl (by simp [hCalled]) (by simp [hCalled])
  have hNone : [5] ∈ sent five () := ⟨_, hStart.item (w := 0) rfl⟩
  refine ((none_shortcut Adapters.reference_documented (.batch .inTurn)
    (.chain .hole (.command five)) () 0).2 [5]).mp ⟨five, ?_, hNone⟩
  exact ⟨Command.none, rfl, five, rfl, rfl⟩

end Emyu.Command
