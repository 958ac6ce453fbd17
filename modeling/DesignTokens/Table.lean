/-! # Ordered tables

A table is a list of pairs in which a key stands once.  The order of the pairs is the order in
which the keys were first put, and it is part of the data: every document, tree and answer of this
library is read back in that order.

Main statements:

* `get?_put_self`, `get?_put_of_ne` — what reading finds after a write;
* `keys_put_of_mem`, `keys_put_of_not_mem` — a known key keeps its place, a new one goes last.
-/

namespace DesignTokens

/-- A list of key and value pairs, in order of first insertion. -/
abbrev Table (κ α : Type) := List (κ × α)

namespace Table

variable {κ α β : Type} [DecidableEq κ]

def get? : Table κ α → κ → Option α
  | [], _ => none
  | (k, v) :: rest, key => if k = key then some v else get? rest key

def has (t : Table κ α) (key : κ) : Bool := (t.get? key).isSome

/-- Stores a value: a known key keeps its place, a new key goes last. -/
def put : Table κ α → κ → α → Table κ α
  | [], key, value => [(key, value)]
  | (k, v) :: rest, key, value =>
    if k = key then (k, value) :: rest else (k, v) :: put rest key value

/-- Stores a value only when the key is not present yet. -/
def putNew (t : Table κ α) (key : κ) (value : α) : Table κ α :=
  if t.has key then t else t.put key value

def keys (t : Table κ α) : List κ := t.map Prod.fst

def values (t : Table κ α) : List α := t.map Prod.snd

/-- The table that results from storing the pairs one after the other. -/
def ofPairs (pairs : List (κ × α)) : Table κ α := pairs.foldl (fun t p => t.put p.1 p.2) []

def modify : Table κ α → κ → (α → α) → Table κ α
  | [], _, _ => []
  | (k, v) :: rest, key, f => if k = key then (k, f v) :: rest else (k, v) :: modify rest key f

theorem get?_put_self (t : Table κ α) (key : κ) (value : α) :
    (t.put key value).get? key = some value := by
  induction t with
  | nil => simp [put, get?]
  | cons p rest ih =>
    obtain ⟨k, v⟩ := p
    by_cases h : k = key
    · simp [put, get?, h]
    · simp [put, get?, h, ih]

theorem get?_put_of_ne (t : Table κ α) {key other : κ} (value : α) (h : other ≠ key) :
    (t.put key value).get? other = t.get? other := by
  induction t with
  | nil => simp [put, get?, Ne.symm h]
  | cons p rest ih =>
    obtain ⟨k, v⟩ := p
    by_cases hk : k = key
    · subst hk
      simp [put, get?, Ne.symm h]
    · simp [put, get?, hk, ih]

theorem has_iff_mem_keys (t : Table κ α) (key : κ) : t.has key = true ↔ key ∈ t.keys := by
  induction t with
  | nil => simp [has, get?, keys]
  | cons p rest ih =>
    obtain ⟨k, v⟩ := p
    by_cases hk : k = key
    · simp [has, get?, keys, hk]
    · have hk' : key ≠ k := fun h => hk h.symm
      simpa [has, get?, keys, hk, hk'] using ih

theorem keys_put_of_mem (t : Table κ α) {key : κ} (value : α) (h : key ∈ t.keys) :
    (t.put key value).keys = t.keys := by
  induction t with
  | nil => simp [keys] at h
  | cons p rest ih =>
    obtain ⟨k, v⟩ := p
    by_cases hk : k = key
    · simp [put, keys, hk]
    · have hr : key ∈ keys rest := by
        have hk' : key ≠ k := fun e => hk e.symm
        simpa [keys, hk'] using h
      have := ih hr
      simp only [keys] at this ⊢
      simp [put, hk, this]

theorem keys_put_of_not_mem (t : Table κ α) {key : κ} (value : α) (h : key ∉ t.keys) :
    (t.put key value).keys = t.keys ++ [key] := by
  induction t with
  | nil => simp [put, keys]
  | cons p rest ih =>
    obtain ⟨k, v⟩ := p
    have hk : k ≠ key := fun e => h (by simp [keys, e])
    have hr : key ∉ keys rest := fun e => h (by simp only [keys] at e ⊢; simp [e])
    have := ih hr
    simp only [keys] at this ⊢
    simp [put, hk, this]

end Table

end DesignTokens
