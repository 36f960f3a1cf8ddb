import Mathlib

/-! Read-through caches.

A query asks the cache and, where that has nothing, the store; what the store
answers is remembered. What queries can see is the `view`, which no query
changes. -/
namespace ReadThrough
variable {κ β : Type}

/-- What a query answers. -/
def view (cache store : κ → Option β) (k : κ) : Option β := (cache k).or (store k)

/-- Nothing is remembered that the store does not hold. -/
def Coherent (cache store : κ → Option β) : Prop := ∀ k v, cache k = some v → store k = some v

variable {cache store : κ → Option β}

theorem Coherent.view (h : Coherent cache store) : view cache store = store := by
  funext k
  rw [ReadThrough.view]
  cases hc : cache k with
  | none => rfl
  | some v => rw [h k v hc]; rfl

theorem Coherent.erase (h : Coherent cache store) (p : κ → Prop) [DecidablePred p] :
    Coherent (fun k => if p k then none else cache k) store := by
  intro k v hk
  dsimp only at hk
  split at hk
  case isTrue => cases hk
  case isFalse => exact h k v hk

section Query
variable [DecidableEq κ]

def query (cache store : κ → Option β) (k : κ) : Option β × (κ → Option β) :=
  match cache k with
  | some v => (some v, cache)
  | none =>
    match store k with
    | some v => (some v, Function.update cache k (some v))
    | none => (none, cache)

theorem query_fst (k : κ) : (query cache store k).1 = view cache store k := by
  rw [query, view]
  cases cache k with
  | some v => rfl
  | none => cases store k with
    | some v => rfl
    | none => rfl

/-- What is in the cache after a query was there before, or has just been read from the store. -/
theorem query_snd {k k' : κ} {v : β} (h : (query cache store k).2 k' = some v) :
    cache k' = some v ∨ k' = k ∧ store k = some v := by
  rw [query] at h
  cases hc : cache k with
  | some w =>
    rw [hc] at h
    exact Or.inl h
  | none =>
    rw [hc] at h
    cases hs : store k with
    | none =>
      rw [hs] at h
      exact Or.inl h
    | some w =>
      rw [hs] at h
      dsimp only at h
      rw [Function.update_apply] at h
      split at h
      case isTrue he => exact Or.inr ⟨he, h⟩
      case isFalse => exact Or.inl h

theorem view_query (k : κ) : view (query cache store k).2 store = view cache store := by
  funext k'
  rw [query]
  cases hc : cache k with
  | some v => rfl
  | none =>
    cases hs : store k with
    | none => rfl
    | some v =>
      dsimp only
      rw [view, view, Function.update_apply]
      split
      case isTrue he => rw [he, hc, hs]; rfl
      case isFalse => rfl

end Query
end ReadThrough
