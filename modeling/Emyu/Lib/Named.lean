import Mathlib.Data.List.Forall2
import Mathlib.Data.List.Nodup
import Mathlib.Data.List.Sigma

/-! Values under names: records read by field name, calls bound by position, and the member of a
list that a name picks out. -/

namespace Named

variable {ν α : Type}

abbrev Env (ν α : Type) := List (ν × α)

/-- Parameters bound to arguments by position, when there are as many of each. -/
def bind (params : List ν) (args : List α) : Option (Env ν α) :=
  if params.length = args.length then some (params.zip args) else none

theorem bind_eq_some {params : List ν} {args : List α} (h : params.length = args.length) :
    bind params args = some (params.zip args) := by
  simp [bind, h]

section Env

variable [DecidableEq ν]

/-- The values of these names, in the order of the names. -/
def Env.read (env : Env ν α) : List ν → Option (List α)
  | [] => some []
  | name :: rest => do
    let value ← env.lookup name
    let values ← read env rest
    pure (value :: values)

/-- A field that no name asks for does not matter. -/
theorem Env.read_cons_of_notMem {env : Env ν α} {names : List ν} {name : ν} {value : α}
    (h : name ∉ names) : Env.read ((name, value) :: env) names = env.read names := by
  induction names with
  | nil => rfl
  | cons other rest ih =>
    simp only [List.mem_cons, not_or] at h
    have hNe : (other == name) = false := by simpa using Ne.symm h.1
    simp only [Env.read, List.lookup_cons, hNe, ih h.2]

/-- Distinct names read back the values they were paired with. -/
theorem Env.read_zip {names : List ν} {values : List α} (hn : names.Nodup)
    (hl : names.length = values.length) : Env.read (names.zip values) names = some values := by
  induction names generalizing values with
  | nil =>
    have hv : values = [] := by simpa using hl.symm
    rw [hv]
    rfl
  | cons name rest ih =>
    cases values with
    | nil => simp at hl
    | cons value tail =>
      obtain ⟨hMem, hRest⟩ := List.nodup_cons.mp hn
      have hTail := ih hRest (by simpa using hl)
      simp [Env.read, Env.read_cons_of_notMem hMem, hTail]

theorem Env.read_isSome {env : Env ν α} {names : List ν}
    (h : ∀ name ∈ names, name ∈ env.map Prod.fst) : (env.read names).isSome := by
  induction names with
  | nil => rfl
  | cons name rest ih =>
    obtain ⟨values, hv⟩ := Option.isSome_iff_exists.mp
      (ih fun other ho => h other (List.mem_cons_of_mem _ ho))
    obtain ⟨value, hl⟩ : ∃ value, env.lookup name = some value := by
      rw [← Option.isSome_iff_exists, List.lookup_isSome_iff]
      obtain ⟨entry, he, hName⟩ := List.mem_map.mp (h name (List.mem_cons_self ..))
      exact ⟨entry, he, by simp [hName]⟩
    simp [Env.read, hl, hv]

end Env

section Resolve

variable {β : Type} {key : β → ν} {l : List β}

/-- Lists related member by member are related at each place. -/
theorem getElem?_of_forall₂ {R : α → β → Prop} {as : List α} (h : List.Forall₂ R as l) {i : Nat}
    {a : α} (hi : as[i]? = some a) : ∃ b, l[i]? = some b ∧ R a b := by
  induction h generalizing i with
  | nil => simp at hi
  | @cons c b _ _ hcb _ ih =>
    cases i with
    | zero =>
      have hca : c = a := by simpa using hi
      exact ⟨b, rfl, hca ▸ hcb⟩
    | succ k => exact ih (by simpa using hi)

theorem eq_of_key_eq (hn : (l.map key).Nodup) {i j : Nat} {b c : β} (hi : l[i]? = some b)
    (hj : l[j]? = some c) (h : key b = key c) : i = j := by
  have hi' : (l.map key)[i]? = some (key b) := by simp [hi]
  have hj' : (l.map key)[j]? = some (key b) := by simp [hj, h]
  have hLt : i < (l.map key).length := (List.getElem?_eq_some_iff.mp hi').1
  exact (List.getElem?_inj hLt hn).mp (hi'.trans hj'.symm)

variable [DecidableEq ν]

/-- The member of this name and its place, when the name has exactly one. -/
def resolve (key : β → ν) (l : List β) (name : ν) : Option (Nat × β) :=
  match l.zipIdx.filter fun entry => key entry.1 = name with
  | [(b, i)] => some (i, b)
  | _ => none

theorem resolve_getElem? {name : ν} {i : Nat} {b : β} (h : resolve key l name = some (i, b)) :
    l[i]? = some b ∧ key b = name := by
  unfold resolve at h
  split at h
  next c j hf =>
    have hMem : (c, j) ∈ l.zipIdx.filter fun entry => key entry.1 = name := by simp [hf]
    obtain ⟨hMem, hKey⟩ := List.mem_filter.mp hMem
    cases h
    exact ⟨List.mem_zipIdx_iff_getElem?.mp hMem, by simpa using hKey⟩
  · cases h

/-- Nothing else has the name that was resolved. -/
theorem resolve_unique {name : ν} {i j : Nat} {b c : β} (h : resolve key l name = some (i, b))
    (hj : l[j]? = some c) (hc : key c = name) : j = i := by
  unfold resolve at h
  split at h
  next d k hf =>
    have hMem : (c, j) ∈ l.zipIdx.filter fun entry => key entry.1 = name :=
      List.mem_filter.mpr ⟨List.mem_zipIdx_iff_getElem?.mpr hj, by simpa using hc⟩
    rw [hf] at hMem
    cases h
    cases List.mem_singleton.mp hMem
    rfl
  · cases h

theorem resolve_of_unique {i : Nat} {b : β} (hi : l[i]? = some b)
    (hu : ∀ j c, l[j]? = some c → key c = key b → j = i) :
    resolve key l (key b) = some (i, b) := by
  have hFilter : (l.zipIdx.filter fun entry => key entry.1 = key b) = [(b, i)] := by
    have hd : l.zipIdx.Nodup := (List.nodup_zipIdx_map_snd l).of_map
    apply List.perm_singleton.mp
    apply (List.perm_ext_iff_of_nodup (hd.filter _) (List.nodup_singleton _)).mpr
    intro entry
    obtain ⟨c, j⟩ := entry
    rw [List.mem_filter, List.mem_singleton, List.mem_zipIdx_iff_getElem?, decide_eq_true_eq]
    constructor
    · intro h
      have hj : j = i := hu j c h.1 h.2
      have hbc : some b = some c := by rw [← hi, ← hj, h.1]
      rw [hj, Option.some.inj hbc]
    · intro h
      cases h
      exact ⟨hi, rfl⟩
  simp [resolve, hFilter]

theorem resolve_of_nodup (hn : (l.map key).Nodup) {i : Nat} {b : β} (hi : l[i]? = some b) :
    resolve key l (key b) = some (i, b) :=
  resolve_of_unique hi fun _ _ hj h => eq_of_key_eq hn hj hi h

end Resolve

end Named
