import Mathlib.Data.List.Basic

/-! Token lists in which groups stand between an opening and a closing delimiter: the contents of a
group, lists of items with a separator between them, and how a parser of items reads such a list. -/

namespace Tokens

variable {τ α : Type}

section Groups

variable (opens closes : τ → Bool)

/-- The tokens up to the delimiter that closes the group, `depth` groups deep, and those after. -/
def untilClosed : Nat → List τ → Option (List τ × List τ)
  | _, [] => none
  | depth, t :: ts =>
    if opens t then (untilClosed (depth + 1) ts).map (Prod.map (t :: ·) id)
    else if closes t then
      match depth with
      | 0 => some ([], ts)
      | depth + 1 => (untilClosed depth ts).map (Prod.map (t :: ·) id)
    else (untilClosed depth ts).map (Prod.map (t :: ·) id)

/-- Every group that is opened is closed. -/
inductive Balanced : List τ → Prop where
  | nil : Balanced []
  | token {t : τ} {ts : List τ} : opens t = false → closes t = false → Balanced ts →
      Balanced (t :: ts)
  | group {o c : τ} {content ts : List τ} : opens o = true → opens c = false →
      closes c = true → Balanced content → Balanced ts → Balanced (o :: (content ++ c :: ts))

variable {opens closes} {content ts rest : List τ} {t : τ} {depth : Nat}

theorem untilClosed_open (hOpens : opens t = true) : untilClosed opens closes depth (t :: ts) =
    (untilClosed opens closes (depth + 1) ts).map (Prod.map (t :: ·) id) := by
  cases depth <;> simp [untilClosed, hOpens]

theorem untilClosed_close (hOpens : opens t = false) (hCloses : closes t = true) :
    untilClosed opens closes (depth + 1) (t :: ts) =
      (untilClosed opens closes depth ts).map (Prod.map (t :: ·) id) := by
  simp [untilClosed, hOpens, hCloses]

theorem untilClosed_last (hOpens : opens t = false) (hCloses : closes t = true) :
    untilClosed opens closes 0 (t :: ts) = some ([], ts) := by
  simp [untilClosed, hOpens, hCloses]

theorem untilClosed_token (hOpens : opens t = false) (hCloses : closes t = false) :
    untilClosed opens closes depth (t :: ts) =
      (untilClosed opens closes depth ts).map (Prod.map (t :: ·) id) := by
  cases depth <;> simp [untilClosed, hOpens, hCloses]

theorem untilClosed_append (h : Balanced opens closes content) (depth : Nat) (ts : List τ) :
    untilClosed opens closes depth (content ++ ts) =
      (untilClosed opens closes depth ts).map (Prod.map (content ++ ·) id) := by
  induction h generalizing depth ts with
  | nil => exact (Option.map_id' ..).symm
  | token hOpens hCloses _ ih =>
    rw [List.cons_append, untilClosed_token hOpens hCloses, ih, Option.map_map]
    rfl
  | group hOpen hNot hClose _ _ ihContent ihRest =>
    rw [List.cons_append, List.append_assoc, List.cons_append, untilClosed_open hOpen, ihContent,
      untilClosed_close hNot hClose, ihRest, Option.map_map, Option.map_map, Option.map_map]
    refine congrArg (fun f => Option.map f _) (funext fun p => ?_)
    simp [Prod.map]

/-- A group with balanced contents is closed by its own delimiter. -/
theorem untilClosed_group (h : Balanced opens closes content) (hOpens : opens t = false)
    (hCloses : closes t = true) :
    untilClosed opens closes 0 (content ++ t :: ts) = some (content, ts) := by
  rw [untilClosed_append h, untilClosed_last hOpens hCloses]
  simp

/-- A token is taken into the contents, or it closes the group. -/
theorem untilClosed_cons (h : untilClosed opens closes depth (t :: ts) = some (content, rest)) :
    (∃ d more, untilClosed opens closes d ts = some (more, rest) ∧ content = t :: more) ∨
      (closes t = true ∧ rest = ts) := by
  have hTaken {d : Nat}
      (h : (untilClosed opens closes d ts).map (Prod.map (t :: ·) id) = some (content, rest)) :
      ∃ d more, untilClosed opens closes d ts = some (more, rest) ∧ content = t :: more := by
    obtain ⟨⟨more, rest'⟩, hMore, hEq⟩ := Option.map_eq_some_iff.mp h
    cases hEq
    exact ⟨d, more, hMore, rfl⟩
  cases hOpens : opens t with
  | true => exact .inl (hTaken (untilClosed_open hOpens ▸ h))
  | false =>
    cases hCloses : closes t with
    | false => exact .inl (hTaken (untilClosed_token hOpens hCloses ▸ h))
    | true =>
      cases depth with
      | zero =>
        rw [untilClosed_last hOpens hCloses] at h
        cases h
        exact .inr ⟨rfl, rfl⟩
      | succ depth => exact .inl (hTaken (untilClosed_close hOpens hCloses ▸ h))

theorem untilClosed_length (h : untilClosed opens closes depth ts = some (content, rest)) :
    rest.length < ts.length := by
  induction ts generalizing depth content with
  | nil => cases depth <;> cases h
  | cons t ts ih =>
    rcases untilClosed_cons h with ⟨d, more, hMore, -⟩ | ⟨-, rfl⟩
    · exact Nat.lt_succ_of_lt (ih hMore)
    · exact Nat.lt_succ_self _

end Groups

section Separated

variable [DecidableEq τ] (comma : τ)

def separated : List (List τ) → List τ
  | [] => []
  | [item] => item
  | item :: next :: rest => item ++ comma :: separated (next :: rest)

/-- Items with separators between them, and perhaps one after the last, to the end. `fuel` bounds
their number. -/
def terminated (item : List τ → Option (α × List τ)) : Nat → List τ → Option (List α)
  | _, [] => some []
  | 0, _ :: _ => none
  | fuel + 1, t :: ts =>
    match item (t :: ts) with
    | none => none
    | some (a, []) => some [a]
    | some (a, next :: rest) =>
      if next = comma then (terminated item fuel rest).map (a :: ·) else none

/-- Where an item can end. -/
def Ends (ts : List τ) : Prop := ts = [] ∨ ts.head? = some comma

/-- The parser reads the tokens as the item, and no further. -/
structure Reads (item : List τ → Option (α × List τ)) (tokens : List τ) (a : α) : Prop where
  nonempty : tokens ≠ []
  reads : ∀ rest, Ends comma rest → item (tokens ++ rest) = some (a, rest)

/-- Whatever comes after them, the parser takes nothing from the tokens. -/
structure Refuses (item : List τ → Option (α × List τ)) (tokens : List τ) : Prop where
  nonempty : tokens ≠ []
  refuses : ∀ rest, item (tokens ++ rest) = none

variable {comma} {item : List τ → Option (α × List τ)} {items : List (List τ)} {as : List α}

theorem terminated_cons {tokens : List τ} (hNonempty : tokens ≠ []) (fuel : Nat) :
    terminated comma item (fuel + 1) tokens =
      match item tokens with
      | none => none
      | some (a, []) => some [a]
      | some (a, next :: rest) =>
        if next = comma then (terminated comma item fuel rest).map (a :: ·) else none := by
  cases tokens with
  | nil => exact (hNonempty rfl).elim
  | cons t ts => rfl

omit [DecidableEq τ] in
theorem separated_ne_nil {tokens : List τ} {rest : List (List τ)} (h : tokens ≠ []) :
    separated comma (tokens :: rest) ≠ [] := by
  cases rest with
  | nil => exact h
  | cons next rest => simp [separated, h]

/-- What the parser reads item by item it reads as a list. -/
theorem terminated_separated (h : List.Forall₂ (Reads comma item) items as) {fuel : Nat}
    (hFuel : items.length ≤ fuel) :
    terminated comma item fuel (separated comma items) = some as := by
  induction h generalizing fuel with
  | nil => cases fuel <;> rfl
  | @cons tokens a rest as hFirst hRest ih =>
    obtain ⟨fuel, rfl⟩ : ∃ n, fuel = n + 1 := ⟨fuel - 1, by simp at hFuel; omega⟩
    have hLater := ih (Nat.le_of_succ_le_succ hFuel)
    rw [terminated_cons (separated_ne_nil hFirst.nonempty)]
    cases hRest with
    | nil =>
      have hLast := hFirst.reads [] (.inl rfl)
      rw [List.append_nil] at hLast
      rw [separated, hLast]
    | cons hSecond hMore =>
      rw [separated, hFirst.reads _ (.inr rfl)]
      simp [hLater]

/-- An item that is refused makes the list be refused, when those before it are read or refused
too. -/
theorem terminated_none (hAll : ∀ tokens ∈ items, Refuses item tokens ∨
      ∃ a, Reads comma item tokens a) (hSome : ∃ tokens ∈ items, Refuses item tokens)
    (fuel : Nat) : terminated comma item fuel (separated comma items) = none := by
  induction items generalizing fuel with
  | nil => simp at hSome
  | cons tokens rest ih =>
    have hNonempty : tokens ≠ [] := by
      rcases hAll tokens List.mem_cons_self with hFirst | ⟨a, hFirst⟩
      · exact hFirst.nonempty
      · exact hFirst.nonempty
    have hTokens : separated comma (tokens :: rest) ≠ [] := separated_ne_nil hNonempty
    cases fuel with
    | zero =>
      obtain ⟨t, ts, hEq⟩ := List.exists_cons_of_ne_nil hTokens
      rw [hEq]
      rfl
    | succ fuel =>
      obtain ⟨more, hMore⟩ : ∃ more, separated comma (tokens :: rest) = tokens ++ more := by
        cases rest with
        | nil => exact ⟨[], (List.append_nil _).symm⟩
        | cons next rest => exact ⟨_, rfl⟩
      rw [terminated_cons hTokens]
      rcases hAll tokens List.mem_cons_self with hFirst | ⟨a, hFirst⟩
      · rw [hMore, hFirst.refuses]
      · obtain ⟨other, hOther, hRefuses⟩ := hSome
        rcases List.mem_cons.mp hOther with rfl | hOther
        · rw [hMore, hRefuses.refuses]
        · cases rest with
          | nil => cases hOther
          | cons next rest =>
            have hLater := ih (fun tokens h => hAll tokens (List.mem_cons_of_mem _ h))
              ⟨other, hOther, hRefuses⟩ fuel
            rw [separated, hFirst.reads _ (.inr rfl)]
            simp [hLater]

omit [DecidableEq τ] in
theorem length_le_separated (h : ∀ tokens ∈ items, tokens ≠ []) :
    items.length ≤ (separated comma items).length := by
  induction items with
  | nil => exact Nat.le_refl _
  | cons tokens rest ih =>
    have hFirst := List.length_pos_iff.mpr (h tokens List.mem_cons_self)
    have hRest := ih fun tokens ht => h tokens (List.mem_cons_of_mem _ ht)
    cases rest with
    | nil => exact hFirst
    | cons next rest =>
      simp only [separated, List.length_append, List.length_cons] at hRest ⊢
      omega

end Separated

end Tokens
