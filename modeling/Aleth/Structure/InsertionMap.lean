import Mathlib.Data.List.Basic
import Mathlib.Data.List.Nodup
import Mathlib.Tactic.Common

/-! Maps that are gone through in an order of their own.

The order stands for the one of a hash table: a key keeps its place while it is
in the map, whatever is assigned to it. Assigning what the map has already
changes nothing (`set_self`), and a series of assignments changes nothing if
and only if the last one to each key does not (`assign_eq_iff`). -/

@[ext] structure InsertionMap (κ β : Type) where
  keys : List κ
  find : κ → Option β
  nodup : keys.Nodup
  mem_keys : ∀ k, k ∈ keys ↔ (find k).isSome = true

namespace InsertionMap
variable {κ β : Type}

def empty : InsertionMap κ β := ⟨[], fun _ => none, List.nodup_nil, fun k => by simp⟩

def contains (m : InsertionMap κ β) (k : κ) : Bool := (m.find k).isSome

theorem eq_of_find {m m' : InsertionMap κ β} (hkeys : m.keys = m'.keys)
    (hfind : ∀ k, m.find k = m'.find k) : m = m' :=
  InsertionMap.ext hkeys (funext hfind)

variable [DecidableEq κ]

/-- `m[k] = v`. -/
def set (m : InsertionMap κ β) (k : κ) (v : β) : InsertionMap κ β where
  keys := if m.contains k then m.keys else m.keys ++ [k]
  find k' := if k' = k then some v else m.find k'
  nodup := by
    cases hc : m.contains k with
    | true => exact m.nodup
    | false =>
      have hk : k ∉ m.keys := fun hk => by simp [contains, (m.mem_keys k).mp hk] at hc
      exact m.nodup.append (List.nodup_singleton k) (List.disjoint_singleton.mpr hk)
  mem_keys k' := by
    by_cases hk : k' = k
    · subst hk
      cases hc : m.contains k' with
      | false => simp
      | true => simpa using (m.mem_keys k').mpr hc
    · cases hc : m.contains k with
      | false => simp [hk, m.mem_keys]
      | true => simp [hk, m.mem_keys]

def erase (m : InsertionMap κ β) (k : κ) : InsertionMap κ β where
  keys := m.keys.filter (· ≠ k)
  find k' := if k' = k then none else m.find k'
  nodup := m.nodup.filter _
  mem_keys k' := by
    by_cases hk : k' = k
    · simp [hk]
    · simp [hk, m.mem_keys]

/-- The pairs in their order. -/
def entries (m : InsertionMap κ β) : List (κ × β) :=
  m.keys.filterMap fun k => (m.find k).map fun v => (k, v)

/-- A series of assignments. -/
def assign (m : InsertionMap κ β) (l : List (κ × β)) : InsertionMap κ β :=
  l.foldl (fun m p => m.set p.1 p.2) m

@[simp] theorem find_set (m : InsertionMap κ β) (k k' : κ) (v : β) :
    (m.set k v).find k' = if k' = k then some v else m.find k' := rfl

@[simp] theorem find_erase (m : InsertionMap κ β) (k k' : κ) :
    (m.erase k).find k' = if k' = k then none else m.find k' := rfl

theorem keys_set_of_contains {m : InsertionMap κ β} {k : κ} (h : m.contains k = true) (v : β) :
    (m.set k v).keys = m.keys := if_pos h

/-- A new key comes last. -/
theorem entries_set_new {m : InsertionMap κ β} {k : κ} (h : k ∉ m.keys) (v : β) :
    (m.set k v).entries = m.entries ++ [(k, v)] := by
  have hc : m.contains k = false := by
    cases hc : m.contains k with
    | false => rfl
    | true => exact absurd ((m.mem_keys k).mpr hc) h
  have hkeys : (m.set k v).keys = m.keys ++ [k] := if_neg (by rw [hc]; exact Bool.false_ne_true)
  unfold entries
  rw [hkeys, List.filterMap_append]
  congr 1
  · apply List.filterMap_congr
    intro k' hk'
    have hne : k' ≠ k := fun he => h (he ▸ hk')
    rw [find_set, if_neg hne]
  · simp

theorem set_self {m : InsertionMap κ β} {k : κ} {v : β} (h : m.find k = some v) :
    m.set k v = m := by
  have hc : m.contains k = true := by
    rw [contains, h]
    rfl
  apply eq_of_find (keys_set_of_contains hc v)
  intro k'
  rw [find_set]
  split
  case isTrue hk => rw [hk, h]
  case isFalse => rfl

/-! ### Series of assignments -/

/-- What is assigned last. -/
def latest : List (κ × β) → κ → Option β
  | [], _ => none
  | p :: l, k => (latest l k).or (if k = p.1 then some p.2 else none)

theorem find_assign (m : InsertionMap κ β) (l : List (κ × β)) (k : κ) :
    (m.assign l).find k = (latest l k).or (m.find k) := by
  induction l generalizing m with
  | nil => rfl
  | cons p l ih =>
    show ((m.set p.1 p.2).assign l).find k = _
    rw [ih, find_set, latest, Option.or_assoc]
    congr 1
    split <;> rfl

theorem exists_latest {l : List (κ × β)} {p : κ × β} (h : p ∈ l) : ∃ v, latest l p.1 = some v := by
  induction l with
  | nil => cases h
  | cons q l ih =>
    rcases List.mem_cons.mp h with rfl | h
    · rw [latest, if_pos rfl]
      cases latest l p.1 with
      | none => exact ⟨p.2, rfl⟩
      | some v => exact ⟨v, rfl⟩
    · obtain ⟨v, hv⟩ := ih h
      exact ⟨v, by rw [latest, hv]; rfl⟩

theorem keys_assign {m : InsertionMap κ β} {l : List (κ × β)}
    (h : ∀ p ∈ l, m.contains p.1 = true) : (m.assign l).keys = m.keys := by
  induction l generalizing m with
  | nil => rfl
  | cons p l ih =>
    have hp := h p List.mem_cons_self
    show ((m.set p.1 p.2).assign l).keys = _
    rw [ih, keys_set_of_contains hp]
    intro q hq
    show ((m.set p.1 p.2).find q.1).isSome = true
    rw [find_set]
    split
    · rfl
    · exact h q (List.mem_cons_of_mem p hq)

/-- The map has what the assignments leave. -/
def Has (m : InsertionMap κ β) (l : List (κ × β)) : Prop :=
  ∀ k v, latest l k = some v → m.find k = some v

theorem Has.contains {m : InsertionMap κ β} {l : List (κ × β)} (h : m.Has l) {p : κ × β}
    (hp : p ∈ l) : m.contains p.1 = true := by
  obtain ⟨v, hv⟩ := exists_latest hp
  rw [InsertionMap.contains, h p.1 v hv]
  rfl

/-- Assignments change nothing if and only if the last one to each key does not. -/
theorem assign_eq_iff {m : InsertionMap κ β} {l : List (κ × β)} : m.assign l = m ↔ m.Has l := by
  constructor
  · intro h k v hv
    rw [← h, find_assign, hv]
    rfl
  · intro h
    apply eq_of_find (keys_assign fun p hp => h.contains hp)
    intro k
    rw [find_assign]
    cases hv : latest l k with
    | none => rfl
    | some v => exact (h k v hv).symm

end InsertionMap
