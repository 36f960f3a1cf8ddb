import Aleth.Ethereum.TransactionQueue

/-! What the tables of the transaction queue hold.

`Consistent` ties the two tables over `m_current` to it, and the counter to
`m_future`. The moves of a transaction into `m_current`, out of it and between
the two parts keep it, and are seen from outside as what they do to the list of
transactions held. -/
namespace Aleth.Ethereum.TransactionQueue
open Devcore
variable {q : TransactionQueue} {o : Order} {t : Transaction}

def futures (q : TransactionQueue) : List Transaction := q.m_future.entries.map Prod.snd

/-- The transactions of `m_current` and `m_future`. -/
def held (q : TransactionQueue) : List Transaction := q.m_current ++ q.futures

/-- The tables over `m_current` lead to its transactions and to nothing else. -/
structure Indexed (q : TransactionQueue) : Prop where
  byHash : ∀ h t, q.m_currentByHash h = some t ↔ t ∈ q.m_current ∧ t.sha3 = h
  byNonce : ∀ k x, q.m_currentByAddressAndNonce.find k = some x ↔
    ∃ t ∈ q.m_current, t.slot = k ∧ x = some t

structure Consistent (q : TransactionQueue) : Prop extends Indexed q where
  keyed : ∀ k t, q.m_future.find k = some t → t.slot = k
  hashes : (q.held.map Transaction.sha3).Nodup
  slots : (q.held.map Transaction.slot).Nodup
  size : q.m_futureSize.toNat = q.m_future.entries.length

theorem mem_futures {u : Transaction} : u ∈ q.futures ↔ ∃ k, q.m_future.find k = some u := by
  simp only [futures, List.mem_map, SortedMap.find_eq_some_iff, Prod.exists, exists_eq_right]

namespace Consistent

theorem future_iff (hq : q.Consistent) {u : Transaction} :
    u ∈ q.futures ↔ q.m_future.find u.slot = some u := by
  rw [mem_futures]
  constructor
  · intro h
    obtain ⟨k, hk⟩ := h
    rwa [hq.keyed k u hk]
  · intro h
    exact ⟨_, h⟩

theorem eq_of_sha3 (hq : q.Consistent) {u v : Transaction} (hu : u ∈ q.held) (hv : v ∈ q.held)
    (h : u.sha3 = v.sha3) : u = v := List.inj_on_of_nodup_map hq.hashes hu hv h

theorem eq_of_slot (hq : q.Consistent) {u v : Transaction} (hu : u ∈ q.held) (hv : v ∈ q.held)
    (h : u.slot = v.slot) : u = v := List.inj_on_of_nodup_map hq.slots hu hv h

theorem nodup_held (hq : q.Consistent) : q.held.Nodup := List.Nodup.of_map _ hq.hashes

theorem nodup_current (hq : q.Consistent) : q.m_current.Nodup :=
  (List.nodup_append.mp hq.nodup_held).1

theorem byHash_none (hq : q.Consistent) {h : H256} (hh : ∀ u ∈ q.m_current, u.sha3 ≠ h) :
    q.m_currentByHash h = none := by
  cases hf : q.m_currentByHash h with
  | none => rfl
  | some u =>
    obtain ⟨hu, hs⟩ := (hq.byHash h u).mp hf
    exact absurd hs (hh u hu)

end Consistent

theorem fresh_consistent (limit futureLimit : UInt32) : (fresh limit futureLimit).Consistent where
  byHash h t := by simp [fresh]
  byNonce k x := by simp [fresh]
  keyed k t h := by cases h
  hashes := List.nodup_nil
  slots := List.nodup_nil
  size := rfl

/-! ### Moves -/

/-- `t` has been put into `m_current`. -/
def entered (o : Order) (t : Transaction) (q : TransactionQueue) : TransactionQueue :=
  {q with
    m_current := q.m_current.insertIdx (min (o.place q.m_current t) q.m_current.length) t
    m_currentByAddressAndNonce := q.m_currentByAddressAndNonce.insert t.slot (some t)
    m_currentByHash := Function.update q.m_currentByHash t.sha3 (some t)}

/-- `t` has been taken out of `m_current`. -/
def left (t : Transaction) (q : TransactionQueue) : TransactionQueue :=
  {q with
    m_current := q.m_current.erase t
    m_currentByAddressAndNonce := q.m_currentByAddressAndNonce.erase t.slot
    m_currentByHash := Function.update q.m_currentByHash t.sha3 none}

/-- `t` has been taken out of `m_future`. -/
def forgone (t : Transaction) (q : TransactionQueue) : TransactionQueue :=
  {q with m_future := q.m_future.erase t.slot, m_futureSize := q.m_futureSize - 1}

/-- `t` has been put into `m_future`. -/
def deferred (t : Transaction) (q : TransactionQueue) : TransactionQueue :=
  {q with m_future := q.m_future.insert t.slot t, m_futureSize := q.m_futureSize + 1}

theorem current_entered (o : Order) (t : Transaction) (q : TransactionQueue) :
    (q.entered o t).m_current.Perm (t :: q.m_current) :=
  List.perm_insertIdx t q.m_current (min_le_right _ _)

theorem held_entered (o : Order) (t : Transaction) (q : TransactionQueue) :
    (q.entered o t).held.Perm (t :: q.held) :=
  (current_entered o t q).append_right _

theorem held_left (ht : t ∈ q.m_current) : q.held.Perm (t :: (q.left t).held) :=
  (List.perm_cons_erase ht).append_right _

theorem held_forgone (h : q.m_future.find t.slot = some t) : q.held.Perm (t :: (q.forgone t).held) :=
  (((SortedMap.erase_perm h).map Prod.snd).append_left q.m_current).trans List.perm_middle

theorem held_deferred (h : q.m_future.find t.slot = none) : (q.deferred t).held.Perm (t :: q.held) :=
  (((SortedMap.insert_perm h t).map Prod.snd).append_left q.m_current).trans List.perm_middle

theorem Indexed.entered (hq : q.Indexed) (hh : ∀ u ∈ q.m_current, u.sha3 ≠ t.sha3)
    (hs : ∀ u ∈ q.m_current, u.slot ≠ t.slot) (o : Order) : (q.entered o t).Indexed where
  byHash h u := by
    rw [(current_entered o t q).mem_iff, List.mem_cons]
    show Function.update q.m_currentByHash t.sha3 (some t) h = some u ↔ _
    by_cases e : h = t.sha3
    · rw [e, Function.update_self]
      constructor
      · intro hu
        cases hu
        exact ⟨.inl rfl, rfl⟩
      · intro hu
        obtain ⟨rfl | hu, hhu⟩ := hu
        · rfl
        · exact absurd hhu (hh u hu)
    · rw [Function.update_of_ne e, hq.byHash]
      constructor
      · intro hu
        exact ⟨.inr hu.1, hu.2⟩
      · intro hu
        obtain ⟨rfl | hu, hhu⟩ := hu
        · exact absurd hhu.symm e
        · exact ⟨hu, hhu⟩
  byNonce k x := by
    show (q.m_currentByAddressAndNonce.insert t.slot (some t)).find k = some x ↔ _
    rw [SortedMap.find_insert]
    by_cases e : k = t.slot
    · rw [if_pos e]
      constructor
      · intro hx
        cases hx
        exact ⟨t, (current_entered o t q).mem_iff.mpr List.mem_cons_self, e.symm, rfl⟩
      · intro hx
        obtain ⟨u, hu, hk, rfl⟩ := hx
        cases List.mem_cons.mp ((current_entered o t q).mem_iff.mp hu) with
        | inl h => rw [h]
        | inr h => exact absurd (hk.trans e) (hs u h)
    · rw [if_neg e, hq.byNonce]
      constructor
      · intro hx
        obtain ⟨u, hu, hk⟩ := hx
        exact ⟨u, (current_entered o t q).mem_iff.mpr (List.mem_cons_of_mem _ hu), hk⟩
      · intro hx
        obtain ⟨u, hu, hk, hx⟩ := hx
        cases List.mem_cons.mp ((current_entered o t q).mem_iff.mp hu) with
        | inl h => exact absurd (by rw [← hk, h]) e
        | inr h => exact ⟨u, h, hk, hx⟩

theorem Indexed.left (hq : q.Indexed) (ht : t ∈ q.m_current)
    (hh : (q.m_current.map Transaction.sha3).Nodup)
    (hs : (q.m_current.map Transaction.slot).Nodup) : (q.left t).Indexed where
  byHash h u := by
    show Function.update q.m_currentByHash t.sha3 none h = some u ↔ u ∈ q.m_current.erase t ∧ _
    rw [(List.Nodup.of_map _ hh).mem_erase_iff]
    by_cases e : h = t.sha3
    · rw [e, Function.update_self]
      constructor
      · intro hu
        cases hu
      · intro hu
        exact absurd (List.inj_on_of_nodup_map hh hu.1.2 ht hu.2) hu.1.1
    · rw [Function.update_of_ne e, hq.byHash]
      constructor
      · intro hu
        refine ⟨⟨fun hut => e ?_, hu.1⟩, hu.2⟩
        rw [← hu.2, hut]
      · intro hu
        exact ⟨hu.1.2, hu.2⟩
  byNonce k x := by
    show (q.m_currentByAddressAndNonce.erase t.slot).find k = some x ↔
      ∃ u ∈ q.m_current.erase t, _
    rw [SortedMap.find_erase]
    by_cases e : k = t.slot
    · rw [if_pos e]
      constructor
      · intro hx
        cases hx
      · intro hx
        obtain ⟨u, hu, hk, -⟩ := hx
        obtain ⟨hne, hu⟩ := (List.Nodup.of_map _ hh).mem_erase_iff.mp hu
        exact absurd (List.inj_on_of_nodup_map hs hu ht (hk.trans e)) hne
    · rw [if_neg e, hq.byNonce]
      constructor
      · intro hx
        obtain ⟨u, hu, hk, hx⟩ := hx
        refine ⟨u, (List.Nodup.of_map _ hh).mem_erase_iff.mpr ⟨fun hut => e ?_, hu⟩, hk, hx⟩
        rw [← hk, hut]
      · intro hx
        obtain ⟨u, hu, hk, hx⟩ := hx
        exact ⟨u, List.mem_of_mem_erase hu, hk, hx⟩

theorem keyed_forgone (hq : q.Consistent) (u : Transaction) :
    ∀ k t, (q.forgone u).m_future.find k = some t → t.slot = k := by
  intro k t h
  rw [show (q.forgone u).m_future = q.m_future.erase u.slot from rfl, SortedMap.find_erase] at h
  split at h
  · cases h
  · exact hq.keyed k t h

theorem size_forgone (hq : q.Consistent) (h : q.m_future.find t.slot = some t) :
    (q.forgone t).m_futureSize.toNat = (q.forgone t).m_future.entries.length := by
  have hl := (SortedMap.erase_perm h).length_eq
  rw [List.length_cons] at hl
  have hs := hq.size
  have h1 : (1 : UInt32) ≤ q.m_futureSize := by
    rw [UInt32.le_iff_toNat_le]
    show 1 ≤ _
    omega
  show (q.m_futureSize - 1).toNat = (q.m_future.erase t.slot).entries.length
  rw [UInt32.toNat_sub_of_le _ _ h1]
  show q.m_futureSize.toNat - 1 = _
  omega

namespace Consistent

theorem nodup_of_perm_cons {α β : Type} {f : α → β} {a : α} {l l' : List α} (hp : l.Perm (a :: l'))
    (h : (l.map f).Nodup) : (l'.map f).Nodup :=
  (List.nodup_cons.mp ((hp.map f).nodup_iff.mp h)).2

/-- A new transaction, with a hash and a slot of its own. -/
theorem entered (hq : q.Consistent) (hh : ∀ u ∈ q.held, u.sha3 ≠ t.sha3)
    (hs : ∀ u ∈ q.held, u.slot ≠ t.slot) (o : Order) : (q.entered o t).Consistent where
  toIndexed := hq.toIndexed.entered (fun u hu => hh u (List.mem_append_left _ hu))
    (fun u hu => hs u (List.mem_append_left _ hu)) o
  keyed := hq.keyed
  hashes := by
    rw [((held_entered o t q).map Transaction.sha3).nodup_iff]
    refine List.nodup_cons.mpr ⟨fun hm => ?_, hq.hashes⟩
    obtain ⟨u, hu, he⟩ := List.mem_map.mp hm
    exact hh u hu he
  slots := by
    rw [((held_entered o t q).map Transaction.slot).nodup_iff]
    refine List.nodup_cons.mpr ⟨fun hm => ?_, hq.slots⟩
    obtain ⟨u, hu, he⟩ := List.mem_map.mp hm
    exact hs u hu he
  size := hq.size

theorem left (hq : q.Consistent) (ht : t ∈ q.m_current) : (q.left t).Consistent where
  toIndexed := hq.toIndexed.left ht
    (hq.hashes.sublist ((List.sublist_append_left _ _).map _))
    (hq.slots.sublist ((List.sublist_append_left _ _).map _))
  keyed := hq.keyed
  hashes := nodup_of_perm_cons (held_left ht) hq.hashes
  slots := nodup_of_perm_cons (held_left ht) hq.slots
  size := hq.size

theorem forgone (hq : q.Consistent) (h : q.m_future.find t.slot = some t) :
    (q.forgone t).Consistent where
  toIndexed := ⟨hq.byHash, hq.byNonce⟩
  keyed := keyed_forgone hq t
  hashes := nodup_of_perm_cons (held_forgone h) hq.hashes
  slots := nodup_of_perm_cons (held_forgone h) hq.slots
  size := size_forgone hq h

theorem deferred (hq : q.Consistent) (hh : ∀ u ∈ q.held, u.sha3 ≠ t.sha3)
    (hs : ∀ u ∈ q.held, u.slot ≠ t.slot) (hsize : q.m_future.entries.length + 1 < 2 ^ 32) :
    (q.deferred t).Consistent := by
  have hnone : q.m_future.find t.slot = none := by
    cases hf : q.m_future.find t.slot with
    | none => rfl
    | some u =>
      have hu : u ∈ q.held := List.mem_append_right _ (mem_futures.mpr ⟨_, hf⟩)
      exact absurd (hq.keyed _ u hf) (hs u hu)
  refine ⟨⟨hq.byHash, hq.byNonce⟩, fun k u h => ?_, ?_, ?_, ?_⟩
  · rw [show (q.deferred t).m_future = q.m_future.insert t.slot t from rfl,
      SortedMap.find_insert] at h
    split at h
    case isTrue e =>
      cases h
      exact e.symm
    case isFalse => exact hq.keyed k u h
  · rw [((held_deferred hnone).map Transaction.sha3).nodup_iff]
    refine List.nodup_cons.mpr ⟨fun hm => ?_, hq.hashes⟩
    obtain ⟨u, hu, he⟩ := List.mem_map.mp hm
    exact hh u hu he
  · rw [((held_deferred hnone).map Transaction.slot).nodup_iff]
    refine List.nodup_cons.mpr ⟨fun hm => ?_, hq.slots⟩
    obtain ⟨u, hu, he⟩ := List.mem_map.mp hm
    exact hs u hu he
  · have hl := (SortedMap.insert_perm hnone t).length_eq
    rw [List.length_cons] at hl
    show (q.m_futureSize + 1).toNat = (q.m_future.insert t.slot t).entries.length
    rw [hl, UInt32.toNat_add, hq.size, show (1 : UInt32).toNat = 1 from rfl, Nat.mod_eq_of_lt hsize]

end Consistent
end Aleth.Ethereum.TransactionQueue
