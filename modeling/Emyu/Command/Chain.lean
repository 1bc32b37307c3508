import Emyu.Command

/-! When `chain` is sequential: each command is run with its own steps marked, and no step of the
second may come before the end of the first. -/

universe u

namespace Emyu.Command

open Polling

variable {Ctx W E T : Type u}

inductive Side where
  | first
  | second
  deriving DecidableEq

/-- What a marked command shows: the call of its closure, polls that show nothing else, its own
effects, and the end of its stream. -/
inductive Mark (E : Type u) where
  | called (side : Side)
  | polled (side : Side)
  | did (side : Side) (e : E)
  | ended (side : Side)
  deriving DecidableEq

instance [Acts E W] : Acts (Mark E) W where
  act
    | .did _ e, w => Acts.act e w
    | _, w => w

def markStep (side : Side) : Option (Strm W E T) → W →
    Option (Event (Mark E) (Side × T)) × Option (Strm W E T)
  | none, _ => (some .ended, none)
  | some s, w =>
    match s.head w with
    | none => (some (.effect (.polled side)), some (s.next w))
    | some (.effect e) => (some (.effect (.did side e)), some (s.next w))
    | some (.item x) => (some (.item (side, x)), some (s.next w))
    | some .ended => (some (.effect (.ended side)), none)

/-- The command with every step of it marked. -/
def mark (side : Side) (c : Command Ctx W E T) : Command Ctx W (Mark E) (Side × T) :=
  c.map fun f ctx w => (.called side :: (f ctx w).1.map (.did side),
    Mealy.unfold (markStep side) (some (f ctx w).2))

/-- Whose step an event is. -/
def side : Event (Mark E) (Side × T) → Option Side
  | .effect (.called s) => some s
  | .effect (.polled s) => some s
  | .effect (.did s _) => some s
  | .effect (.ended s) => some s
  | .item (s, _) => some s
  | .ended => none

/-- No step of the second command comes before the end of the first. -/
def EndsFirst (l : List (Event (Mark E) (Side × T))) : Prop :=
  ∀ pre ev post, l = pre ++ ev :: post → side ev = some .second →
    .effect (.ended .first) ∈ pre

/-- In every run of `a.chain(b)` with a nonempty `a`, nothing of `b` happens before `a` ended. -/
def Sequential [Acts E W] (F : Combinators W (Mark E)) (env : W → W → Prop) (ctx : Ctx) (w : W)
    (a b : Command Ctx W E T) : Prop :=
  a ≠ Command.none → ∀ l ∈ trace env (chain F (mark .first a) (mark .second b)) ctx w, EndsFirst l

theorem markStep_side (s : Side) (o : Option (Strm W E T)) (w : W)
    (ev : Event (Mark E) (Side × T)) (h : (markStep s o w).1 = some ev) :
    side ev = some s ∨ ev = .ended := by
  cases o with
  | none => exact .inr (Option.some.inj h).symm
  | some strm =>
    refine .inl ?_
    rcases hHead : strm.head w with _ | ev'
    · obtain rfl := Option.some.inj (by simpa [markStep, hHead] using h)
      rfl
    · cases ev' <;> (simp only [markStep, hHead, Option.some.injEq] at h; subst h; rfl)

/-- A marked command alone shows steps of its side only. -/
theorem mark_shows (s : Side) (c : Command Ctx W E T) (ctx : Ctx) :
    Shows (fun ev => side ev = some s ∨ ev = .ended) ((mark s c).task ctx) := by
  cases c with
  | none => exact fun _ _ _ h => .inr (Option.some.inj h).symm
  | some f =>
    rintro (_ | ⟨w, past⟩) w' ev h
    · cases h
    · have hEffects : ∀ e ∈ Mark.called s :: (f ctx w).1.map (.did s),
          side (T := T) (.effect e) = some s ∨ Event.effect e = .ended (T := Side × T) := by
        simp [side]
      have hShows := (Shows.unfold (markStep_side s) (some (f ctx w).2)).emit hEffects
      exact hShows past w' ev h

variable [Acts E W] {F : Combinators W (Mark E)} {env : W → W → Prop} {ctx : Ctx} {w : W}

/-- With nothing to chain, nothing of the second command happens. -/
theorem sequential_none (a : Command Ctx W E T) : Sequential F env ctx w a Command.none := by
  rintro hNe l hl pre ev post rfl hSide
  have hChain : chain F (mark .first a) (mark .second Command.none) = mark .first a := by
    cases a with
    | none => exact (hNe rfl).elim
    | some f => rfl
  rw [hChain] at hl
  rcases (mark_shows .first a ctx).trace hl ev (by simp) with h | rfl
  · rw [h] at hSide
    cases hSide
  · cases hSide

/-- The closure of the second command is called before the stream of the first is polled at all. -/
theorem called_early (f g : Ctx → W → List E × Strm W E T) :
    (Mark.called .first :: (f ctx w).1.map (.did .first)).map .effect ++
        [.effect (.called .second)] ∈
      trace env (chain F (mark .first (.some f)) (mark .second (.some g))) ctx w := by
  set w' := actAll (Mark.called .first :: (f ctx w).1.map (.did .first)) w
  have hEmit := trace_emit env
    (Mark.called .first :: (f ctx w).1.map (.did .first) ++ [Mark.called .second])
    ((g ctx w').1.map (.did .second))
    (F.chain (Mealy.unfold (markStep .first) (some (f ctx w).2))
      (Mealy.unfold (markStep .second) (some (g ctx w').2))) w
  rw [List.map_append, List.append_assoc] at hEmit
  exact .silent rfl hEmit

/-- `a.chain(b)` is sequential exactly if one of the two is `none()`. -/
theorem sequential_iff (F : Combinators W (Mark E)) (env : W → W → Prop) (ctx : Ctx) (w : W)
    (a b : Command Ctx W E T) :
    Sequential F env ctx w a b ↔ a = Command.none ∨ b = Command.none := by
  constructor
  · intro h
    cases a with
    | none => exact .inl rfl
    | some f =>
      cases b with
      | none => exact .inr rfl
      | some g =>
        have hPre := h (fun hNone => by cases hNone) _ (called_early f g) _ _ [] rfl rfl
        simp at hPre
  · rintro (rfl | rfl)
    · exact fun hNe => (hNe rfl).elim
    · exact sequential_none a

/-- Writes to a world that is one number. -/
structure Write where
  value : Nat

instance : Acts Write Nat := ⟨fun e _ => e.value⟩

/-- `done(1).chain(Command::future(|ctx| { write(2); ready(3) }))` writes before `done(1)` ends. -/
theorem second_closure_called_first : ¬ ∀ a b : Command Unit Nat Write Nat,
    Sequential .reference (fun _ _ => False) () 0 a b := by
  intro h
  have hDone := h (done .reference 1) (future .reference fun _ _ => ([⟨2⟩], ready 3))
  have hPre := hDone (fun hNone => by cases hNone) _ (called_early _ _) _ _ [] rfl rfl
  simp at hPre

end Emyu.Command
