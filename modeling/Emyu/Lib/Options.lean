import Mathlib.Data.List.Basic

/-! Records read from options with names: what the fields of a record promise of the options that it
is read from, and what one option more changes. -/

namespace Options

variable {ε κ α : Type}

/-- A field of a record, with what an option under its name does to the record. -/
structure Field (ε κ α : Type) where
  name : String
  multiple : Bool
  required : Bool
  store : κ → α → Except ε α

/-- What is set on the record stays set, and the field takes the same of the option. -/
def Field.Keeps (f : Field ε κ α) (set : α → α) : Prop :=
  ∀ option b, (f.store option (set b)).toOption = (f.store option b).toOption.map set

section Reads

variable (key : κ → Option String) (fields : List (Field ε κ α))

def lookup (name : String) : Option (Field ε κ α) := fields.find? (·.name == name)

/-- The options of one name. -/
def named (name : String) (options : List κ) : List κ :=
  options.filter fun option => key option == some name

/-- The record after one option, if a field takes it. -/
def storeIn (a : α) (option : κ) : Option α :=
  ((key option).bind (lookup fields)).bind fun f => (f.store option a).toOption

/-- The record that the options give: fields take all of them, one at most if they are not
`multiple` and one at least if they are required. -/
structure Reads (init : α) (options : List κ) (a : α) : Prop where
  stored : options.foldlM (storeIn key fields) init = some a
  once : ∀ f ∈ fields, f.multiple = false → (named key f.name options).length ≤ 1
  given : ∀ f ∈ fields, f.required = true → named key f.name options ≠ []

def parse (init : α) (options : List κ) : Option α :=
  if fields.all fun f => (f.multiple || decide ((named key f.name options).length ≤ 1)) &&
      (!f.required || !(named key f.name options).isEmpty)
  then options.foldlM (storeIn key fields) init
  else none

variable {key fields} {init a : α} {options pre post : List κ}

theorem parse_eq_some_iff : parse key fields init options = some a ↔
    Reads key fields init options a := by
  have hChecks : (fields.all fun f => (f.multiple || decide ((named key f.name options).length ≤ 1))
      && (!f.required || !(named key f.name options).isEmpty)) = true ↔
      ∀ f ∈ fields, (f.multiple = false → (named key f.name options).length ≤ 1) ∧
        (f.required = true → named key f.name options ≠ []) := by
    rw [List.all_eq_true]
    refine forall₂_congr fun f _ => ?_
    cases f.multiple <;> cases f.required <;> simp
  unfold parse
  split
  next h =>
    have hFields := hChecks.mp h
    exact ⟨fun hStored => ⟨hStored, fun f hf => (hFields f hf).1, fun f hf => (hFields f hf).2⟩,
      fun hReads => hReads.stored⟩
  next h =>
    refine iff_of_false (by simp) fun hReads => h (hChecks.mpr fun f hf => ?_)
    exact ⟨hReads.once f hf, hReads.given f hf⟩

theorem reads_nil (hOptional : ∀ f ∈ fields, f.required = false) :
    Reads key fields init [] init where
  stored := rfl
  once _ _ _ := Nat.zero_le 1
  given f hf hRequired := by
    rw [hOptional f hf] at hRequired
    cases hRequired

/-- An option that no field takes makes the options be refused. -/
theorem not_reads {option : κ} (hOption : option ∈ options)
    (hNone : ∀ b, storeIn key fields b option = none) : ¬ Reads key fields init options a := by
  intro h
  have hStored := h.stored
  clear h
  induction options generalizing init with
  | nil => cases hOption
  | cons first rest ih =>
    obtain ⟨b, hb, hRest⟩ := Option.bind_eq_some_iff.mp hStored
    rcases List.mem_cons.mp hOption with rfl | hOption
    · rw [hNone] at hb
      cases hb
    · exact ih hOption hRest

variable {set : α → α} {name : String} {option : κ}

/-- The fields of other names neither see nor undo what is set. -/
theorem storeIn_set (hKeeps : ∀ f ∈ fields, f.name ≠ name → f.Keeps set)
    (hKey : key option ≠ some name) (b : α) :
    storeIn key fields (set b) option = (storeIn key fields b option).map set := by
  unfold storeIn
  cases hOption : key option with
  | none => rfl
  | some other =>
    rw [Option.bind_some]
    cases hField : lookup fields other with
    | none => rfl
    | some f =>
      have hName : f.name = other := by simpa using List.find?_some hField
      rw [Option.bind_some, Option.bind_some]
      refine hKeeps f (List.mem_of_find?_eq_some hField) (fun hEq => hKey ?_) option b
      rw [hOption, ← hEq, hName]

theorem foldlM_set
    (hSet : ∀ other ∈ options, ∀ b, storeIn key fields (set b) other =
      (storeIn key fields b other).map set) (b : α) :
    options.foldlM (storeIn key fields) (set b) =
      (options.foldlM (storeIn key fields) b).map set := by
  induction options generalizing b with
  | nil => rfl
  | cons other rest ih =>
    rw [List.foldlM_cons, List.foldlM_cons, hSet other List.mem_cons_self]
    cases storeIn key fields b other with
    | none => rfl
    | some c => exact ih (fun y hy => hSet y (List.mem_cons_of_mem _ hy)) c

theorem named_insert (hKey : key option = some name) (other : String) :
    named key other (pre ++ option :: post) =
      if name = other then named key other pre ++ option :: named key other post
      else named key other (pre ++ post) := by
  by_cases hEq : name = other <;> simp [named, hKey, hEq]

theorem named_append :
    named key name (pre ++ post) = named key name pre ++ named key name post :=
  List.filter_append ..

theorem named_eq_nil_iff :
    named key name options = [] ↔ ∀ other ∈ options, key other ≠ some name := by
  simp [named, List.filter_eq_nil_iff]

/-- What an option sets is set in the end, if no other goes to its field. -/
theorem foldlM_insert (hThis : ∀ b, storeIn key fields b option = some (set b))
    (hKeeps : ∀ g ∈ fields, g.name ≠ name → g.Keeps set)
    (hOthers : named key name (pre ++ post) = []) :
    (pre ++ option :: post).foldlM (storeIn key fields) init =
      ((pre ++ post).foldlM (storeIn key fields) init).map set := by
  rw [List.foldlM_append, List.foldlM_append]
  cases pre.foldlM (storeIn key fields) init with
  | none => rfl
  | some b =>
    rw [Option.bind_eq_bind, Option.bind_some, List.foldlM_cons, hThis]
    exact foldlM_set (fun other ho => storeIn_set hKeeps
      (named_eq_nil_iff.mp hOthers other (List.mem_append_right _ ho))) b

/-- What no option goes to is in the end as it was. -/
theorem Reads.set_eq (h : Reads key fields init options a)
    (hKeeps : ∀ g ∈ fields, g.name ≠ name → g.Keeps set)
    (hNone : named key name options = []) (hInit : set init = init) : set a = a := by
  have hFold := foldlM_set (fun other ho => storeIn_set hKeeps (named_eq_nil_iff.mp hNone other ho))
    init
  rw [hInit, h.stored] at hFold
  exact (Option.some.inj hFold).symm

/-- Beside an option for a field that may not be given twice there is none of its name. -/
theorem Reads.named_others {f : Field ε κ α} (h : Reads key fields init (pre ++ option :: post) a)
    (hField : lookup fields name = some f) (hKey : key option = some name)
    (hMultiple : f.multiple = false) : named key name (pre ++ post) = [] := by
  have hName : f.name = name := by simpa using List.find?_some hField
  have hOnce := h.once f (List.mem_of_find?_eq_some hField) hMultiple
  rw [named_insert hKey, if_pos hName.symm, List.length_append, List.length_cons, hName] at hOnce
  rw [named_append, List.append_eq_nil_iff]
  exact ⟨List.length_eq_zero_iff.mp (by omega), List.length_eq_zero_iff.mp (by omega)⟩

/-- One option more, for a field that may be left out and may not be given twice. -/
theorem reads_insert {f : Field ε κ α} (hField : lookup fields name = some f)
    (hKey : key option = some name) (hMultiple : f.multiple = false)
    (hOptional : ∀ g ∈ fields, g.name = name → g.required = false)
    (hStore : ∀ b, (f.store option b).toOption = some (set b))
    (hKeeps : ∀ g ∈ fields, g.name ≠ name → g.Keeps set) :
    Reads key fields init (pre ++ option :: post) a ↔ named key name (pre ++ post) = [] ∧
      ∃ b, Reads key fields init (pre ++ post) b ∧ a = set b := by
  have hThis (b : α) : storeIn key fields b option = some (set b) := by
    rw [storeIn, hKey, Option.bind_some, hField, Option.bind_some, hStore]
  constructor
  · intro h
    have hOthers := h.named_others hField hKey hMultiple
    have hAll := h.stored
    rw [foldlM_insert hThis hKeeps hOthers] at hAll
    obtain ⟨b, hb, hSet⟩ := Option.map_eq_some_iff.mp hAll
    refine ⟨hOthers, b, ⟨hb, fun g hg hSingle => ?_, fun g hg hRequired => ?_⟩, hSet.symm⟩
    · by_cases hEq : name = g.name
      · rw [← hEq, hOthers]
        exact Nat.zero_le 1
      · have hOnce := h.once g hg hSingle
        rwa [named_insert hKey, if_neg hEq] at hOnce
    · have hEq : name ≠ g.name := fun hEq => by
        rw [hOptional g hg hEq.symm] at hRequired
        cases hRequired
      have hGiven := h.given g hg hRequired
      rwa [named_insert hKey, if_neg hEq] at hGiven
  · rintro ⟨hOthers, b, h, rfl⟩
    refine ⟨?_, fun g hg hSingle => ?_, fun g hg hRequired => ?_⟩
    · rw [foldlM_insert hThis hKeeps hOthers, h.stored]
      rfl
    · rw [named_insert hKey]
      split
      next hEq =>
        rw [named_append, List.append_eq_nil_iff] at hOthers
        rw [← hEq, hOthers.1, hOthers.2]
        exact Nat.le_refl 1
      next => exact h.once g hg hSingle
    · rw [named_insert hKey]
      split
      next => simp
      next => exact h.given g hg hRequired

end Reads

end Options
