import Emyu.Lib.Tokens
import Mathlib.Data.List.Forall2

/-! Parsers of token lists whose groups are closed by the delimiters that belong to them: one that
takes a group, one that takes items to the end, and what such parsers take. -/

namespace Tokens

variable {τ α : Type}

/-- Every group that is opened is closed, and by the right delimiter. -/
inductive Matched (opens closes : τ → Bool) (pairs : τ → τ → Prop) : List τ → Prop where
  | nil : Matched opens closes pairs []
  | token {t : τ} {ts : List τ} : opens t = false → closes t = false →
      Matched opens closes pairs ts → Matched opens closes pairs (t :: ts)
  | group {o c : τ} {content ts : List τ} : opens o = true → opens c = false →
      closes c = true → pairs o c → Matched opens closes pairs content →
      Matched opens closes pairs ts → Matched opens closes pairs (o :: (content ++ c :: ts))

section Matched

variable {opens closes : τ → Bool} {pairs : τ → τ → Prop} {o c : τ} {xs ys ts content rest : List τ}

theorem Matched.balanced (h : Matched opens closes pairs ts) : Balanced opens closes ts := by
  induction h with
  | nil => exact .nil
  | token hOpens hCloses _ ih => exact .token hOpens hCloses ih
  | group hOpen hNot hClose _ _ _ ihContent ihRest =>
    exact .group hOpen hNot hClose ihContent ihRest

theorem Matched.append (hxs : Matched opens closes pairs xs) (hys : Matched opens closes pairs ys) :
    Matched opens closes pairs (xs ++ ys) := by
  induction hxs with
  | nil => exact hys
  | token hOpens hCloses _ ih => exact .token hOpens hCloses ih
  | group hOpen hNot hClose hPairs hContent _ _ ih =>
    rw [List.cons_append, List.append_assoc, List.cons_append]
    exact .group hOpen hNot hClose hPairs hContent ih

/-- A group ends in one place. -/
theorem Balanced.group_inj {c' : τ} {content' rest' : List τ} (h : Balanced opens closes content)
    (h' : Balanced opens closes content') (hc : opens c = false ∧ closes c = true)
    (hc' : opens c' = false ∧ closes c' = true)
    (hEq : content ++ c :: rest = content' ++ c' :: rest') :
    content = content' ∧ c = c' ∧ rest = rest' := by
  have hFirst : untilClosed opens closes 0 (content ++ c :: rest) = some (content, rest) :=
    untilClosed_group h hc.1 hc.2
  rw [hEq, untilClosed_group h' hc'.1 hc'.2] at hFirst
  cases hFirst
  cases List.append_cancel_left hEq
  exact ⟨rfl, rfl, rfl⟩

theorem Matched.opened (h : Matched opens closes pairs (o :: ts)) (ho : opens o = true) :
    ∃ content c rest, ts = content ++ c :: rest ∧ opens c = false ∧ closes c = true ∧ pairs o c ∧
      Matched opens closes pairs content ∧ Matched opens closes pairs rest := by
  cases h with
  | token hOpens _ _ =>
    rw [ho] at hOpens
    cases hOpens
  | group _ hNot hClose hPairs hContent hRest =>
    exact ⟨_, _, _, rfl, hNot, hClose, hPairs, hContent, hRest⟩

theorem Matched.tail (h : Matched opens closes pairs (o :: ts)) (ho : opens o = false) :
    Matched opens closes pairs ts := by
  cases h with
  | token _ _ hTail => exact hTail
  | group hOpen =>
    rw [ho] at hOpen
    cases hOpen

theorem Matched.of_append (hxs : Matched opens closes pairs xs)
    (h : Matched opens closes pairs (xs ++ ys)) : Matched opens closes pairs ys := by
  induction hxs with
  | nil => exact h
  | token hOpens _ _ ih => exact ih (h.tail hOpens)
  | group hOpen hNot hClose _ hContent _ _ ih =>
    rw [List.cons_append, List.append_assoc, List.cons_append] at h
    obtain ⟨content', c', rest', hEq, hNot', hClose', -, hContent', hRest'⟩ := h.opened hOpen
    obtain ⟨-, -, rfl⟩ :=
      hContent.balanced.group_inj hContent'.balanced ⟨hNot, hClose⟩ ⟨hNot', hClose'⟩ hEq
    exact ih hRest'

end Matched

section Group

variable [DecidableEq τ] (opens closes : τ → Bool) (o : τ)

/-- The contents of the group that the tokens begin with, and the tokens after it. -/
def group : List τ → Option (List τ × List τ)
  | [] => none
  | t :: ts => if t = o then untilClosed opens closes 0 ts else none

variable {opens closes o} {pairs : τ → τ → Prop} {ts content rest : List τ}

theorem group_iff (ho : opens o = true) (hts : Matched opens closes pairs ts) :
    group opens closes o ts = some (content, rest) ↔
      ∃ c, ts = o :: (content ++ c :: rest) ∧ opens c = false ∧ closes c = true ∧ pairs o c ∧
        Matched opens closes pairs content ∧ Matched opens closes pairs rest := by
  constructor
  · intro h
    cases ts with
    | nil => cases h
    | cons t ts =>
      obtain ⟨rfl, hClosed⟩ := Option.ite_none_right_eq_some.mp h
      obtain ⟨content', c, rest', rfl, hNot, hClose, hPairs, hContent, hRest⟩ := hts.opened ho
      rw [untilClosed_group hContent.balanced hNot hClose] at hClosed
      cases hClosed
      exact ⟨c, rfl, hNot, hClose, hPairs, hContent, hRest⟩
  · rintro ⟨c, rfl, hNot, hClose, -, hContent, -⟩
    rw [group, if_pos rfl, untilClosed_group hContent.balanced hNot hClose]

end Group

section Repeated

/-- Items to the end. `fuel` bounds their number. -/
def repeated (item : List τ → Option (α × List τ)) : Nat → List τ → Option (List α)
  | _, [] => some []
  | 0, _ :: _ => none
  | fuel + 1, t :: ts =>
    match item (t :: ts) with
    | none => none
    | some (a, rest) => (repeated item fuel rest).map (a :: ·)

variable {item : List τ → Option (α × List τ)} {P : List τ → Prop} {Text : List τ → α → Prop}

/-- A parser that takes the texts of single items off the front reads exactly the lists of them. -/
theorem repeated_iff
    (hItem : ∀ ts a rest, P ts →
      (item ts = some (a, rest) ↔ ∃ text, Text text a ∧ ts = text ++ rest))
    (hNonempty : ∀ text a, Text text a → text ≠ [])
    (hRest : ∀ text a rest, Text text a → P (text ++ rest) → P rest) {fuel : Nat} {ts : List τ}
    {as : List α} (hts : P ts) (hFuel : ts.length ≤ fuel) :
    repeated item fuel ts = some as ↔ ∃ texts, List.Forall₂ Text texts as ∧ ts = texts.flatten := by
  induction fuel generalizing ts as with
  | zero =>
    cases List.length_eq_zero_iff.mp (Nat.le_zero.mp hFuel)
    constructor
    · rintro ⟨⟩
      exact ⟨[], .nil, rfl⟩
    · rintro ⟨texts, hTexts, hEq⟩
      cases hTexts with
      | nil => rfl
      | cons hText _ => exact (hNonempty _ _ hText (List.append_eq_nil_iff.mp hEq.symm).1).elim
  | succ fuel ih =>
    cases ts with
    | nil =>
      constructor
      · rintro ⟨⟩
        exact ⟨[], .nil, rfl⟩
      · rintro ⟨texts, hTexts, hEq⟩
        cases hTexts with
        | nil => rfl
        | cons hText _ => exact (hNonempty _ _ hText (List.append_eq_nil_iff.mp hEq.symm).1).elim
    | cons t ts =>
      have hShorter {text : List τ} {a : α} {rest : List τ} (hText : Text text a)
          (hEq : t :: ts = text ++ rest) : rest.length ≤ fuel := by
        have hLength := congrArg List.length hEq
        have hPos := List.length_pos_iff.mpr (hNonempty text a hText)
        simp only [List.length_append, List.length_cons] at hLength hFuel
        omega
      constructor
      · intro h
        rw [repeated] at h
        split at h
        · cases h
        · next a rest hFirst =>
          obtain ⟨as', hLater, rfl⟩ := Option.map_eq_some_iff.mp h
          obtain ⟨text, hText, hEq⟩ := (hItem _ _ _ hts).mp hFirst
          obtain ⟨texts, hTexts, rfl⟩ :=
            (ih (hRest text a rest hText (hEq ▸ hts)) (hShorter hText hEq)).mp hLater
          exact ⟨text :: texts, .cons hText hTexts, hEq⟩
      · rintro ⟨texts, hTexts, hEq⟩
        cases hTexts with
        | nil => cases hEq
        | @cons text a texts as' hText hTexts =>
          have hFirst := (hItem _ _ _ hts).mpr ⟨text, hText, hEq⟩
          have hLater := (ih (hRest text a _ hText (by rw [← List.flatten_cons, ← hEq]; exact hts))
            (hShorter hText hEq)).mpr ⟨texts, hTexts, rfl⟩
          rw [repeated, hFirst]
          simp [hLater]

end Repeated

section Takes

variable {opens closes : τ → Bool} {pairs : τ → τ → Prop}

/-- The text is what the parser takes for the item in some place. -/
def Takes (opens closes : τ → Bool) (pairs : τ → τ → Prop)
    (parse : List τ → Option (α × List τ)) (text : List τ) (a : α) : Prop :=
  Matched opens closes pairs text ∧
    ∃ rest, Matched opens closes pairs rest ∧ parse (text ++ rest) = some (a, rest)

/-- A parser that takes whole groups off the front and, where it has stopped once, stops again when
one of the `stops` follows. -/
structure Prefixed (opens closes : τ → Bool) (pairs : τ → τ → Prop) (stops : List τ)
    (parse : List τ → Option (α × List τ)) : Prop where
  takes : ∀ ts a rest, Matched opens closes pairs ts → parse ts = some (a, rest) →
    ∃ text, Matched opens closes pairs text ∧ ts = text ++ rest
  again : ∀ text a t rest, Takes opens closes pairs parse text a → t ∈ stops →
    Matched opens closes pairs (t :: rest) → parse (text ++ t :: rest) = some (a, t :: rest)

variable {stops : List τ} {parse : List τ → Option (α × List τ)} {ts text rest : List τ} {a : α}

theorem Prefixed.exists_text (hParse : Prefixed opens closes pairs stops parse)
    (hts : Matched opens closes pairs ts) (h : parse ts = some (a, rest)) :
    ∃ text, Takes opens closes pairs parse text a ∧ ts = text ++ rest ∧
      Matched opens closes pairs rest := by
  obtain ⟨text, hText, rfl⟩ := hParse.takes ts a rest hts h
  have hRest := hText.of_append hts
  exact ⟨text, ⟨hText, rest, hRest, h⟩, rfl, hRest⟩

end Takes

end Tokens
