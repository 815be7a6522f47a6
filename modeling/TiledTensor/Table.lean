/-!
# Finite tables

A table is the list of its entries in the order in which their keys were first put. Putting a key
again changes its value and keeps its place; an erased key that is put again goes to the end.
-/

namespace TiledTensor

/-- Entries by key, at most one for each key. -/
abbrev Table (κ ν : Type) := List (κ × ν)

namespace Table

variable {κ ν : Type} [DecidableEq κ]

def find? : Table κ ν → κ → Option ν
  | [], _ => none
  | (k, v) :: t, key => if k = key then some v else find? t key

def put : Table κ ν → κ → ν → Table κ ν
  | [], key, value => [(key, value)]
  | (k, v) :: t, key, value =>
    if k = key then (key, value) :: t else (k, v) :: put t key value

def erase : Table κ ν → κ → Table κ ν
  | [], _ => []
  | (k, v) :: t, key => if k = key then erase t key else (k, v) :: erase t key

def has (t : Table κ ν) (key : κ) : Bool := (find? t key).isSome

/-- The same entries with the value of one key changed; nothing changes where it is absent. -/
def adjust (t : Table κ ν) (key : κ) (f : ν → ν) : Table κ ν :=
  t.map fun e => if e.1 = key then (e.1, f e.2) else e

def keys (t : Table κ ν) : List κ := t.map (·.1)

theorem find?_put_self (t : Table κ ν) (k : κ) (v : ν) : (put t k v).find? k = some v := by
  induction t with
  | nil => simp [put, find?]
  | cons e t ih => by_cases h : e.1 = k <;> simp [put, find?, h, ih]

theorem find?_put_of_ne (t : Table κ ν) {k j : κ} (v : ν) (h : j ≠ k) :
    (put t k v).find? j = t.find? j := by
  induction t with
  | nil => simp [put, find?, Ne.symm h]
  | cons e t ih =>
    obtain ⟨i, u⟩ := e
    by_cases hk : i = k
    · subst hk
      simp [put, find?, Ne.symm h]
    · simp [put, find?, hk, ih]

theorem find?_erase_self (t : Table κ ν) (k : κ) : (erase t k).find? k = none := by
  induction t with
  | nil => rfl
  | cons e t ih => by_cases h : e.1 = k <;> simp [erase, find?, h, ih]

theorem find?_erase_of_ne (t : Table κ ν) {k j : κ} (h : j ≠ k) :
    (erase t k).find? j = t.find? j := by
  induction t with
  | nil => rfl
  | cons e t ih =>
    obtain ⟨i, u⟩ := e
    by_cases hk : i = k
    · subst hk
      simp [erase, find?, Ne.symm h, ih]
    · simp [erase, find?, hk, ih]

/-! ## Keys

The keys of a table stand in the order in which they were first put. An entry is found exactly
under its key, and a table with distinct keys finds every entry that it has. -/

theorem find?_put (t : Table κ ν) (k j : κ) (v : ν) :
    (put t k v).find? j = if j = k then some v else t.find? j := by
  by_cases h : j = k
  · rw [if_pos h, h, find?_put_self]
  · rw [if_neg h, find?_put_of_ne t v h]

theorem find?_erase (t : Table κ ν) (k j : κ) :
    (erase t k).find? j = if j = k then none else t.find? j := by
  by_cases h : j = k
  · rw [if_pos h, h, find?_erase_self]
  · rw [if_neg h, find?_erase_of_ne t h]

theorem find?_adjust (t : Table κ ν) (k j : κ) (f : ν → ν) :
    (adjust t k f).find? j = if j = k then (t.find? j).map f else t.find? j := by
  induction t with
  | nil => simp [adjust, find?]
  | cons e t ih =>
    obtain ⟨i, u⟩ := e
    rw [adjust] at ih
    by_cases hj : i = j
    · subst hj
      by_cases hk : i = k <;> simp [adjust, find?, hk]
    · by_cases hk : i = k
      · subst hk
        simp [adjust, find?, hj, ih]
      · simp [adjust, find?, hk, hj, ih]

theorem find?_append_singleton (t : Table κ ν) (k j : κ) (v : ν) :
    find? (t ++ [(k, v)]) j = (t.find? j).or (if j = k then some v else none) := by
  induction t with
  | nil => simp [find?, eq_comm]
  | cons e t ih => by_cases h : e.1 = j <;> simp [find?, h, ih]

theorem find?_eq_none_iff {t : Table κ ν} {k : κ} : t.find? k = none ↔ k ∉ t.keys := by
  induction t with
  | nil => simp [find?, keys]
  | cons e t ih =>
    obtain ⟨i, u⟩ := e
    rw [keys] at ih
    by_cases h : i = k
    · simp [find?, keys, h]
    · simp [find?, keys, h, ih, Ne.symm h]

theorem mem_keys_of_find? {t : Table κ ν} {k : κ} {v : ν} (h : t.find? k = some v) : k ∈ t.keys :=
  Decidable.byContradiction fun hk => by simp [find?_eq_none_iff.mpr hk] at h

theorem exists_find?_of_mem_keys {t : Table κ ν} {k : κ} (h : k ∈ t.keys) :
    ∃ v, t.find? k = some v := by
  cases hv : t.find? k with
  | none => exact absurd h (find?_eq_none_iff.mp hv)
  | some v => exact ⟨v, rfl⟩

theorem has_iff {t : Table κ ν} {k : κ} : t.has k = true ↔ k ∈ t.keys := by
  constructor
  · intro h
    obtain ⟨v, hv⟩ := Option.isSome_iff_exists.mp h
    exact mem_keys_of_find? hv
  · intro h
    obtain ⟨v, hv⟩ := exists_find?_of_mem_keys h
    simp [has, hv]

theorem keys_put_of_mem {t : Table κ ν} {k : κ} (v : ν) (h : k ∈ t.keys) :
    (put t k v).keys = t.keys := by
  induction t with
  | nil => simp [keys] at h
  | cons e t ih =>
    obtain ⟨i, u⟩ := e
    by_cases hk : i = k
    · simp [put, keys, hk]
    · have ht : k ∈ keys t := by simpa [keys, Ne.symm hk] using h
      simpa [put, keys, hk] using ih ht

theorem keys_put_of_notMem {t : Table κ ν} {k : κ} (v : ν) (h : k ∉ t.keys) :
    (put t k v).keys = t.keys ++ [k] := by
  induction t with
  | nil => rfl
  | cons e t ih =>
    obtain ⟨i, u⟩ := e
    have hk : i ≠ k := fun hk => h (by simp [keys, hk])
    have ht : k ∉ keys t := fun ht => h (by simpa [keys] using Or.inr (by simpa [keys] using ht))
    simpa [put, keys, hk] using ih ht

theorem keys_erase (t : Table κ ν) (k : κ) :
    (erase t k).keys = t.keys.filter fun j => decide (j ≠ k) := by
  induction t with
  | nil => rfl
  | cons e t ih =>
    obtain ⟨i, u⟩ := e
    rw [keys] at ih
    by_cases hk : i = k <;> simp [erase, keys, hk, ih]

@[simp] theorem keys_adjust (t : Table κ ν) (k : κ) (f : ν → ν) :
    (adjust t k f).keys = t.keys := by
  simp only [adjust, keys, List.map_map]
  apply List.map_congr_left
  intro e _
  by_cases h : e.1 = k <;> simp [h]

theorem nodup_keys_put {t : Table κ ν} (hn : t.keys.Nodup) (k : κ) (v : ν) :
    (put t k v).keys.Nodup := by
  by_cases h : k ∈ t.keys
  · rwa [keys_put_of_mem v h]
  · rw [keys_put_of_notMem v h, List.nodup_append]
    refine ⟨hn, by simp, fun a ha b hb hab => ?_⟩
    rw [hab, List.mem_singleton.mp hb] at ha
    exact h ha

theorem nodup_keys_erase {t : Table κ ν} (hn : t.keys.Nodup) (k : κ) : (erase t k).keys.Nodup := by
  rw [keys_erase]
  exact hn.filter _

theorem mem_of_find? {t : Table κ ν} {k : κ} {v : ν} (h : t.find? k = some v) : (k, v) ∈ t := by
  induction t with
  | nil => cases h
  | cons e t ih =>
    obtain ⟨i, u⟩ := e
    by_cases hi : i = k
    · rw [find?, if_pos hi, Option.some.injEq] at h
      rw [hi, h]
      exact List.mem_cons_self
    · rw [find?, if_neg hi] at h
      exact List.mem_cons_of_mem _ (ih h)

/-- A table with distinct keys finds every entry that it has. -/
theorem find?_eq_some_iff {t : Table κ ν} (hn : t.keys.Nodup) {k : κ} {v : ν} :
    t.find? k = some v ↔ (k, v) ∈ t := by
  refine ⟨mem_of_find?, fun h => ?_⟩
  induction t with
  | nil => cases h
  | cons e t ih =>
    obtain ⟨i, u⟩ := e
    rw [keys, List.map_cons, List.nodup_cons] at hn
    rcases List.mem_cons.mp h with h | h
    · rw [(Prod.mk.inj h).1, (Prod.mk.inj h).2, find?, if_pos rfl]
    · have hk : k ∈ t.map (·.1) := List.mem_map_of_mem h
      have hi : i ≠ k := fun hi => hn.1 (hi ▸ hk)
      rw [find?, if_neg hi]
      exact ih hn.2 h

theorem find?_foldl_adjust (f : ν → ν) {ks : List κ} (hn : ks.Nodup) (t : Table κ ν) (j : κ) :
    (ks.foldl (fun t k => t.adjust k f) t).find? j =
      if j ∈ ks then (t.find? j).map f else t.find? j := by
  induction ks generalizing t with
  | nil => simp
  | cons k ks ih =>
    rw [List.nodup_cons] at hn
    rw [List.foldl_cons, ih hn.2, find?_adjust]
    by_cases hj : j = k
    · subst hj
      simp [hn.1]
    · simp [hj]

/-- Changes that make no difference the second time may be made in any order and number. -/
theorem find?_foldl_adjust_of_idem {f : ν → ν} (hf : ∀ v, f (f v) = f v) (ks : List κ)
    (t : Table κ ν) (j : κ) :
    (ks.foldl (fun t k => t.adjust k f) t).find? j =
      if j ∈ ks then (t.find? j).map f else t.find? j := by
  induction ks generalizing t with
  | nil => simp
  | cons k ks ih =>
    rw [List.foldl_cons, ih, find?_adjust]
    by_cases hj : j = k
    · subst hj
      cases t.find? j <;> simp [hf]
    · simp [hj]

theorem keys_foldl_adjust (f : ν → ν) (ks : List κ) (t : Table κ ν) :
    (ks.foldl (fun t k => t.adjust k f) t).keys = t.keys := by
  induction ks generalizing t with
  | nil => rfl
  | cons k ks ih => rw [List.foldl_cons, ih, keys_adjust]

end Table

end TiledTensor
