import Aleth.Devcore.FatTrie
import Aleth.Structure.Paging
import Aleth.Ethereum.Account
import Aleth.Ethcore.HeaderCodec
import Mathlib

/-! Pages of accounts (`State::addresses(h256 const&, size_t)`).

A page begins at a hash. The state trie is walked from there until there are as
many accounts as the page may have, all changed accounts of the cache from there
on are merged in, and what is too much is cut off again. `live` is all accounts
in the order of their hashes. A page is the next stretch of it; the next key is
right where the cut is `Paging.Sound`. `pages_complete_iff` puts the pages
together. -/
namespace Aleth.Ethereum
open Devcore Throwing Patricia GenericTrieDB FatGenericTrieDB
open Ethcore (addressOf addressBytes addressOf_addressBytes)
variable [Sha3]

abbrev AddressMap := SortedMap H256 Address

/-- `Address(bytes)`: zero if the size is another. -/
def toAddress (b : Bytes) : Address := if b.length = 20 then addressOf b else 0

def addressHash (a : Address) : H256 := sha3 (addressBytes a)

/-- `emplace` of each address. -/
def ofAddresses (l : List Address) : AddressMap :=
  SortedMap.empty.insertAll (l.map fun a => (addressHash a, a))

namespace State
variable {σ : Type} [NodeDB σ] (m_cache : SortedMap Address Account)

/-- Deleted in the cache. -/
def deleted (a : Address) : Bool :=
  (m_cache.find a).any fun account => account.isDirty && !account.m_isAlive

/-- Changed in the cache, and not deleted. -/
def changed (a : Address) : Bool :=
  (m_cache.find a).any fun account => account.isDirty && account.m_isAlive

/-- The loop over the trie. -/
def fromTrie (maxResults : ℕ) : (fuel : ℕ) → List TrailNode → AddressMap → FatM σ (AddressMap × H256)
  | 0, _, _ => throw .stackOverflow
  | fuel + 1, it, addresses =>
    if it = end_ then return (addresses, H256.zero)
    else do
      let (key, _) ← FatGenericTrieDB.entryAt it
      let address := toAddress key
      -- skip if deleted in cache
      if deleted m_cache address then do
        let it ← super (next fuel it)
        fromTrie maxResults fuel it addresses
      else do
        let (hashed, _) ← super (GenericTrieDB.entryAt it)
        let hashedAddress := H256.ofRef hashed
        if addresses.entries.length = maxResults then return (addresses, hashedAddress)
        else do
          let it ← super (next fuel it)
          fromTrie maxResults fuel it (addresses.insert hashedAddress address)

/-- Addresses from the cache with a hash from the begin on. -/
def cacheAddresses (beginHash : H256) : AddressMap :=
  ofAddresses ((m_cache.entries.filter fun e =>
    e.2.isDirty && e.2.m_isAlive && decide (beginHash ≤ addressHash e.1)).map Prod.fst)

/-- What is left when the entries from number `n` on are erased. -/
def upTo (n : ℕ) (addresses : AddressMap) : AddressMap :=
  ⟨addresses.entries.take n, addresses.sorted.sublist (List.take_sublist n _)⟩

omit [Sha3] in
theorem entries_upTo (n : ℕ) (addresses : AddressMap) :
    (upTo n addresses).entries = addresses.entries.take n := rfl

def addresses (fuel : ℕ) (root : H256) (beginHash : H256) (maxResults : ℕ) :
    FatM σ (AddressMap × H256) := do
  let it ← super (lowerBound fuel root beginHash.bytes)
  let (addresses, nextKey) ← fromTrie m_cache maxResults fuel it .empty
  let addresses := addresses.insertAll (cacheAddresses m_cache beginHash).entries
  match addresses.entries[maxResults]? with
  | some itEnd => return (upTo maxResults addresses, itEnd.1)
  | none => return (addresses, nextKey)

/-- The pages from a hash on, until the next key is zero. -/
def pages (root : H256) (maxResults : ℕ) : (fuel : ℕ) → (beginHash : H256) → FatM σ (List Address)
  | 0, _ => throw .stackOverflow
  | fuel + 1, beginHash => do
    let (page, nextKey) ← addresses m_cache fuel root beginHash maxResults
    if nextKey = H256.zero then return page.entries.map Prod.snd
    else do
      let rest ← pages root maxResults fuel nextKey
      return page.entries.map Prod.snd ++ rest

/-! ### What is to be listed -/

/-- In the trie or the cache, and not killed. An account of the cache that is not dirty is the one
of the trie. -/
def Alive (accounts : List Address) (a : Address) : Prop :=
  match m_cache.find a with
  | some account => if account.isDirty then account.m_isAlive = true else a ∈ accounts
  | none => a ∈ accounts

/-- All accounts that are alive. -/
def live (accounts : List Address) : AddressMap :=
  (ofAddresses (accounts.filter fun a => !deleted m_cache a)).insertAll
    (cacheAddresses m_cache H256.zero).entries

/-- The accounts of the trie, and those that were changed in the cache. -/
def inTrie (accounts : List Address) (e : H256 × Address) : Bool := decide (e.2 ∈ accounts)

def inCache (e : H256 × Address) : Bool := changed m_cache e.2

/-- The state trie has these accounts. -/
structure HoldsAccounts [LawfulNodeDB σ] (db : WithAux σ) (root : H256) (accounts : List Address) :
    Prop where
  keyed : ∃ m, Keyed sha3 db root m ∧
    ∀ key, (m.find key).isSome = true ↔ ∃ a ∈ accounts, key = addressBytes a
  noCollision : NoCollision sha3 db.main

/-- The hashes of the accounts at hand differ. -/
def Distinct (accounts : List Address) : Prop :=
  ∀ a b, (a ∈ accounts ∨ (m_cache.find a).isSome = true) →
    (b ∈ accounts ∨ (m_cache.find b).isSome = true) → addressHash a = addressHash b → a = b

section Listing
variable {m_cache} {accounts : List Address} {a : Address} {h b : H256}

theorem alive_iff : Alive m_cache accounts a ↔
    (a ∈ accounts ∧ deleted m_cache a = false) ∨ changed m_cache a = true := by
  unfold Alive deleted changed
  cases m_cache.find a with
  | none => simp
  | some account =>
    cases hd : account.isDirty with
    | false => simp [hd]
    | true => cases ha : account.m_isAlive <;> simp [hd, ha]

theorem deleted_of_changed (hc : changed m_cache a = true) : deleted m_cache a = false := by
  unfold changed at hc
  unfold deleted
  cases hf : m_cache.find a with
  | none => rfl
  | some account =>
    rw [hf] at hc
    simp only [Option.any_some, Bool.and_eq_true] at hc
    simp [hc.2]

theorem cached_of_changed (hc : changed m_cache a = true) : (m_cache.find a).isSome = true := by
  unfold changed at hc
  cases hf : m_cache.find a with
  | none => rw [hf] at hc; cases hc
  | some account => rfl

theorem mem_ofAddresses {l : List Address}
    (hl : ∀ x ∈ l, ∀ y ∈ l, addressHash x = addressHash y → x = y) :
    (h, a) ∈ (ofAddresses l).entries ↔ h = addressHash a ∧ a ∈ l := by
  rw [← SortedMap.find_eq_some_iff, ofAddresses, SortedMap.find_insertAll, SortedMap.find_empty,
    Option.none_or]
  constructor
  · intro hf
    obtain ⟨x, hx, heq⟩ := List.mem_map.mp (SortedMap.mem_of_findList hf)
    obtain ⟨rfl, rfl⟩ := Prod.mk.inj heq
    exact ⟨rfl, hx⟩
  · rintro ⟨rfl, ha⟩
    refine SortedMap.findList_of_mem (List.mem_map.mpr ⟨a, ha, rfl⟩) fun w hw => ?_
    obtain ⟨x, hx, heq⟩ := List.mem_map.mp hw
    obtain ⟨hhash, rfl⟩ := Prod.mk.inj heq
    exact hl x hx a ha hhash

theorem mem_cacheAddresses (hd : Distinct m_cache accounts) :
    (h, a) ∈ (cacheAddresses m_cache b).entries ↔
      h = addressHash a ∧ changed m_cache a = true ∧ b ≤ h := by
  have hmem : ∀ x, x ∈ ((m_cache.entries.filter fun e =>
      e.2.isDirty && e.2.m_isAlive && decide (b ≤ addressHash e.1)).map Prod.fst) ↔
        changed m_cache x = true ∧ b ≤ addressHash x := by
    intro x
    unfold changed
    simp only [List.mem_map, List.mem_filter, Prod.exists, exists_and_right, exists_eq_right,
      Bool.and_eq_true, decide_eq_true_eq]
    constructor
    · rintro ⟨account, hfind, hacc, hle⟩
      rw [SortedMap.find_eq_some_iff.mpr hfind]
      exact ⟨by simp [hacc], hle⟩
    · rintro ⟨hacc, hle⟩
      obtain ⟨account, hfind, hprop⟩ := Option.any_eq_true _ _ |>.mp hacc
      refine ⟨account, SortedMap.find_eq_some_iff.mp hfind, ?_, hle⟩
      simpa using hprop
  have hinj : ∀ x ∈ _, ∀ y ∈ _, addressHash x = addressHash y → x = y := fun x hx y hy heq =>
    hd x y (.inr (cached_of_changed ((hmem x).mp hx).1)) (.inr (cached_of_changed ((hmem y).mp hy).1))
      heq
  unfold cacheAddresses
  rw [mem_ofAddresses hinj, hmem]
  constructor
  · rintro ⟨rfl, hc, hle⟩
    exact ⟨rfl, hc, hle⟩
  · rintro ⟨rfl, hc, hle⟩
    exact ⟨rfl, hc, hle⟩

theorem mem_live (hd : Distinct m_cache accounts) :
    (h, a) ∈ (live m_cache accounts).entries ↔ h = addressHash a ∧ Alive m_cache accounts a := by
  have hmem : ∀ {x : Address} {y : H256}, (y, x) ∈ (ofAddresses (accounts.filter fun a =>
      !deleted m_cache a)).entries ↔ y = addressHash x ∧ x ∈ accounts ∧ deleted m_cache x = false := by
    intro x y
    rw [mem_ofAddresses fun x hx y hy => hd x y (.inl (List.mem_of_mem_filter hx))
      (.inl (List.mem_of_mem_filter hy))]
    simp
  unfold live
  rw [SortedMap.mem_insertAll, hmem, mem_cacheAddresses hd, alive_iff]
  · constructor
    · rintro (⟨rfl, hx⟩ | ⟨rfl, hc, _⟩)
      · exact ⟨rfl, .inl hx⟩
      · exact ⟨rfl, .inr hc⟩
    · rintro ⟨rfl, hx | hc⟩
      · exact .inl ⟨rfl, hx⟩
      · exact .inr ⟨rfl, hc, H256.zero_le _⟩
  · intro k x y hx hy
    obtain ⟨rfl, hacc, _⟩ := hmem.mp hx
    obtain ⟨heq, hc, _⟩ := (mem_cacheAddresses hd).mp hy
    exact hd x y (.inl hacc) (.inr (cached_of_changed hc)) heq

theorem inTrie_or_inCache (hd : Distinct m_cache accounts) :
    ∀ e ∈ (live m_cache accounts).entries, inTrie accounts e = true ∨ inCache m_cache e = true := by
  rintro ⟨h, a⟩ he
  rcases alive_iff.mp ((mem_live hd).mp he).2 with hx | hc
  · exact .inl (decide_eq_true hx.1)
  · exact .inr hc

end Listing

/-! ### A page -/

section Page
variable [LawfulNodeDB σ] {m_cache} {db : WithAux σ} {accounts : List Address} {m : ℕ}

/-- An entry of the trie as the iterator gives it. -/
def itemAt (db : WithAux σ) (e : Bytes × Bytes) : H256 × Address :=
  (H256.ofRef e.1, toAddress (db.lookupAux (H256.ofRef e.1)))

theorem run_fromTrie (hs : Devcore.Sound sha3 db.main) (hn : NoCollision sha3 db.main)
    {it : List TrailNode} {es : List (List Nibble × Value)} (h : Stands sha3 db.main it es)
    {bs : List (Bytes × Bytes)} (hm : Matches es bs) {acc : AddressMap}
    (hsorted : (acc.entries ++ bs.map (itemAt db)).Pairwise (fun e e' => e.1 < e'.1))
    (hlen : acc.entries.length ≤ m) :
    ∃ n addresses, addresses.entries = acc.entries ++
        ((bs.map (itemAt db)).filter fun e => !deleted m_cache e.2).take (m - acc.entries.length) ∧
      ∀ fuel, (fromTrie m_cache m (n + fuel) it acc).run db = (.ok (addresses,
        (((bs.map (itemAt db)).filter fun e => !deleted m_cache e.2)[m - acc.entries.length]?).elim
          H256.zero Prod.fst), db) := by
  induction es generalizing it bs acc with
  | nil =>
    cases h
    obtain rfl : bs = [] := List.map_eq_nil_iff.mp hm.symm
    refine ⟨1, acc, by simp, fun fuel => ?_⟩
    rw [Nat.add_comm]
    rfl
  | cons e es ih =>
    obtain ⟨key, bs, rfl, hk, hm'⟩ := hm.cons
    obtain ⟨hne, hentry, n₁, it', hit', hnext⟩ := h.step hs hn hk
    rw [List.map_cons] at hsorted ⊢
    have hread : (FatGenericTrieDB.entryAt it).run db =
        (.ok (db.lookupAux (H256.ofRef key), e.2.1), db) := by
      unfold FatGenericTrieDB.entryAt
      rw [run_bind_ok (by rw [run_super, hentry])]
      rfl
    have hhashed : (super (GenericTrieDB.entryAt it)).run db = (.ok (key, e.2.1), db) := by
      rw [run_super, hentry]
    have hmove : ∀ fuel, (super (next (n₁ + fuel) it)).run db = (.ok it', db) := fun fuel => by
      rw [run_super, hnext fuel]
    obtain ⟨_, _, hbefore⟩ := List.pairwise_append.mp hsorted
    cases hdel : deleted m_cache (itemAt db (key, e.2.1)).2 with
    | true =>
      rw [List.filter_cons_of_neg (by simp [hdel])]
      obtain ⟨n₂, addresses, haddr, hrun⟩ := ih hit' hm'
        (hsorted.sublist (List.Sublist.append_left (List.sublist_cons_self _ _) _)) hlen
      refine ⟨n₁ + n₂ + 1, addresses, haddr, fun fuel => ?_⟩
      have hrest := hrun (n₁ + fuel)
      rw [show n₂ + (n₁ + fuel) = n₁ + (n₂ + fuel) by omega] at hrest
      rw [show n₁ + n₂ + 1 + fuel = n₁ + (n₂ + fuel) + 1 by omega, fromTrie, if_neg hne,
        run_bind_ok hread]
      dsimp only
      rw [if_pos (show deleted m_cache (toAddress (db.lookupAux (H256.ofRef key))) = true from hdel),
        run_bind_ok (hmove _), hrest]
    | false =>
      have hkeep : ¬deleted m_cache (toAddress (db.lookupAux (H256.ofRef key))) = true := by
        rw [show deleted m_cache (toAddress (db.lookupAux (H256.ofRef key))) = false from hdel]
        decide
      rw [List.filter_cons_of_pos (by simp [hdel])]
      by_cases hfull : acc.entries.length = m
      · refine ⟨1, acc, by simp [hfull], fun fuel => ?_⟩
        rw [Nat.add_comm, fromTrie, if_neg hne, run_bind_ok hread]
        dsimp only
        rw [if_neg hkeep,
          run_bind_ok hhashed]
        dsimp only
        rw [if_pos hfull, hfull, Nat.sub_self]
        rfl
      · have hlast : (acc.insert (itemAt db (key, e.2.1)).1 (itemAt db (key, e.2.1)).2).entries =
            acc.entries ++ [itemAt db (key, e.2.1)] :=
          SortedMap.entries_insert_last (fun x hx => hbefore x hx _ List.mem_cons_self) _
        obtain ⟨k, hk⟩ : ∃ k, m - acc.entries.length = k + 1 :=
          ⟨m - acc.entries.length - 1, by omega⟩
        obtain ⟨n₂, addresses, haddr, hrun⟩ := @ih _ hit' _ hm' (acc.insert _ _)
          (by rw [hlast, List.append_assoc]; exact hsorted)
          (by rw [hlast, List.length_append, List.length_singleton]; omega)
        rw [hlast, List.length_append, List.length_singleton,
          show m - (acc.entries.length + 1) = k by omega] at haddr hrun
        refine ⟨n₁ + n₂ + 1, addresses, ?_, fun fuel => ?_⟩
        · rw [haddr, hk, List.take_succ_cons, List.append_assoc]
          rfl
        · have hrest := hrun (n₁ + fuel)
          rw [show n₂ + (n₁ + fuel) = n₁ + (n₂ + fuel) by omega] at hrest
          rw [show n₁ + n₂ + 1 + fuel = n₁ + (n₂ + fuel) + 1 by omega, fromTrie, if_neg hne,
            run_bind_ok hread]
          dsimp only
          rw [if_neg hkeep,
            run_bind_ok hhashed]
          dsimp only
          rw [if_neg hfull, run_bind_ok (hmove _), hk, List.getElem?_cons_succ]
          exact hrest

omit [Sha3] in
theorem toAddress_addressBytes (a : Address) : toAddress (addressBytes a) = a := by
  rw [toAddress, if_pos (by simp [addressBytes]), addressOf_addressBytes]

/-- The trie's entries from a hash on, without the deleted ones, are those of the live accounts. -/
theorem items_eq {hashed mm : BytesMap} {root : H256}
    (hhash : ∀ h v, hashed.find h = some v ↔ ∃ key, h = (sha3 key).bytes ∧ mm.find key = some v)
    (hkeyed : Keyed sha3 db root mm)
    (hkeys : ∀ key, (mm.find key).isSome = true ↔ ∃ a ∈ accounts, key = addressBytes a)
    (hd : Distinct m_cache accounts) (b : H256) :
    ((hashed.entries.filter fun e => b.bytes ≤ e.1).map (itemAt db)).Pairwise
        (fun e e' => e.1 < e'.1) ∧
      ((hashed.entries.filter fun e => b.bytes ≤ e.1).map (itemAt db)).filter
          (fun e => !deleted m_cache e.2) =
        ((live m_cache accounts).entries.filter fun e => b ≤ e.1).filter (inTrie accounts) := by
  have hname : ∀ a ∈ accounts, ∀ v, itemAt db ((addressHash a).bytes, v) = (addressHash a, a) := by
    intro a ha v
    have hlookup : db.lookupAux (addressHash a) = addressBytes a :=
      hkeyed.names _ ((hkeys _).mpr ⟨a, ha, rfl⟩)
    rw [itemAt, H256.ofRef_bytes, hlookup, toAddress_addressBytes]
  have hitem : ∀ e ∈ hashed.entries, ∃ a ∈ accounts, e.1 = (addressHash a).bytes ∧
      itemAt db e = (addressHash a, a) := by
    intro e he
    obtain ⟨key, hkey, hv⟩ := (hhash e.1 e.2).mp (SortedMap.find_eq_some_iff.mpr he)
    obtain ⟨a, ha, hka⟩ := (hkeys key).mp (by rw [hv]; rfl)
    have hbytes : e.1 = (addressHash a).bytes := by rw [hkey, hka, addressHash]
    exact ⟨a, ha, hbytes, by rw [← hname a ha e.2, ← hbytes]⟩
  have hsorted : ((hashed.entries.filter fun e => b.bytes ≤ e.1).map (itemAt db)).Pairwise
      (fun e e' => e.1 < e'.1) := by
    have hfrom : (hashed.entries.filter fun e => b.bytes ≤ e.1).Pairwise (fun e e' => e.1 < e'.1) :=
      hashed.sorted.sublist List.filter_sublist
    refine List.pairwise_map.mpr (List.Pairwise.imp_of_mem (fun {e e'} he he' hlt => ?_) hfrom)
    obtain ⟨x, _, hx, hix⟩ := hitem e (List.mem_of_mem_filter he)
    obtain ⟨y, _, hy, hiy⟩ := hitem e' (List.mem_of_mem_filter he')
    rw [hix, hiy, H256.lt_def, ← hx, ← hy]
    exact hlt
  refine ⟨hsorted, SortedMap.entries_ext (hsorted.sublist List.filter_sublist)
    (((live m_cache accounts).sorted.sublist List.filter_sublist).sublist List.filter_sublist) ?_⟩
  rintro ⟨h, a⟩
  simp only [List.mem_filter, List.mem_map, decide_eq_true_eq, Bool.not_eq_true', mem_live hd,
    inTrie]
  constructor
  · rintro ⟨⟨e, ⟨he, hle⟩, heq⟩, hdel⟩
    obtain ⟨x, hx, hbytes, hix⟩ := hitem e he
    rw [hix] at heq
    obtain ⟨rfl, rfl⟩ := Prod.mk.inj heq
    rw [hbytes] at hle
    exact ⟨⟨⟨rfl, alive_iff.mpr (.inl ⟨hx, hdel⟩)⟩, hle⟩, hx⟩
  · rintro ⟨⟨⟨rfl, halive⟩, hle⟩, hacc⟩
    have hdel : deleted m_cache a = false := by
      rcases alive_iff.mp halive with hx | hc
      · exact hx.2
      · exact deleted_of_changed hc
    obtain ⟨v, hv⟩ := Option.isSome_iff_exists.mp ((hkeys _).mpr ⟨a, hacc, rfl⟩)
    have hfind : hashed.find (addressHash a).bytes = some v := (hhash _ _).mpr ⟨_, rfl, hv⟩
    exact ⟨⟨_, ⟨SortedMap.find_eq_some_iff.mp hfind, hle⟩, hname a hacc v⟩, hdel⟩

/-- The live accounts from a hash on. -/
def liveFrom (m_cache : SortedMap Address Account) (accounts : List Address) (b : H256) :
    List (H256 × Address) := (live m_cache accounts).entries.filter fun e => b ≤ e.1

theorem sorted_liveFrom (b : H256) :
    (liveFrom m_cache accounts b).Pairwise (fun e e' => e.1 < e'.1) :=
  (live m_cache accounts).sorted.sublist List.filter_sublist

theorem inTrie_or_inCache_from (hd : Distinct m_cache accounts) (b : H256) :
    ∀ e ∈ liveFrom m_cache accounts b, inTrie accounts e = true ∨ inCache m_cache e = true :=
  fun e he => inTrie_or_inCache hd e (List.mem_of_mem_filter he)

/-- The entries of the trie for a page, with the changed ones of the cache. -/
theorem merged_eq (hd : Distinct m_cache accounts) {b : H256} {fromDb : AddressMap}
    (hdb : fromDb.entries = ((liveFrom m_cache accounts b).filter (inTrie accounts)).take m) :
    (fromDb.insertAll (cacheAddresses m_cache b).entries).entries =
      Paging.seen (inTrie accounts) (inCache m_cache) m (liveFrom m_cache accounts b) := by
  have hTC := inTrie_or_inCache_from hd b
  have hlive : ∀ {e}, e ∈ fromDb.entries → e ∈ liveFrom m_cache accounts b := fun he => by
    rw [hdb] at he
    exact List.mem_of_mem_filter (List.mem_of_mem_take he)
  refine SortedMap.entries_ext (SortedMap.sorted _)
    ((sorted_liveFrom b).sublist (Paging.seen_sublist m _)) ?_
  rintro ⟨h, a⟩
  have hcache : (h, a) ∈ (cacheAddresses m_cache b).entries ↔
      (h, a) ∈ liveFrom m_cache accounts b ∧ inCache m_cache (h, a) = true := by
    rw [mem_cacheAddresses hd, liveFrom, List.mem_filter, mem_live hd, decide_eq_true_eq]
    constructor
    · rintro ⟨rfl, hc, hle⟩
      exact ⟨⟨⟨rfl, alive_iff.mpr (.inr hc)⟩, hle⟩, hc⟩
    · rintro ⟨⟨⟨rfl, _⟩, hle⟩, hc⟩
      exact ⟨rfl, hc, hle⟩
  rw [Paging.mem_seen hTC, SortedMap.mem_insertAll, hcache, hdb]
  intro k x y hx hy
  obtain ⟨hkx, _⟩ := (mem_live hd).mp (List.mem_of_mem_filter (hlive hx))
  obtain ⟨hky, hc, _⟩ := (mem_cacheAddresses hd).mp hy
  obtain ⟨_, halive⟩ := (mem_live hd).mp (List.mem_of_mem_filter (hlive hx))
  have hx' : x ∈ accounts ∨ (m_cache.find x).isSome = true := by
    rcases alive_iff.mp halive with h | h
    · exact .inl h.1
    · exact .inr (cached_of_changed h)
  exact hd x y hx' (.inr (cached_of_changed hc)) (hkx.symm.trans hky)

/-- The key that a page gives for the next one. -/
def keyOrZero (e : Option (H256 × Address)) : H256 := e.elim H256.zero Prod.fst

variable {root : H256}

/-- One page. -/
theorem run_addresses (h : HoldsAccounts db root accounts) (hd : Distinct m_cache accounts)
    (b : H256) : ∃ n page,
      page.entries = (liveFrom m_cache accounts b).take m ∧ ∀ fuel,
        (addresses m_cache (n + fuel) root b m).run db = (.ok (page,
          keyOrZero (Paging.nextOf (inTrie accounts) (inCache m_cache) m
            (liveFrom m_cache accounts b))), db) := by
  obtain ⟨mm, hkeyed, hkeys⟩ := h.keyed
  obtain ⟨t, hashed, hholds, hreal, hhash⟩ := hkeyed.trie
  obtain ⟨hsorted, hitems⟩ := items_eq hhash hkeyed hkeys hd b
  obtain ⟨n₁, it, hit, hgo⟩ := goesTo_root hholds h.noCollision (asNibbles b.bytes)
  obtain ⟨n₂, fromDb, hdb, hwalk⟩ := @run_fromTrie _ _ _ m_cache _ db m hholds.sound h.noCollision
    it _ hit _ ((matches_of_realizes hreal).notBefore b.bytes) .empty hsorted (Nat.zero_le m)
  rw [hitems] at hdb hwalk
  have hlower : ∀ fuel, (super (lowerBound (n₁ + n₂ + fuel) root b.bytes)).run db =
      (.ok it, db) := by
    intro fuel
    have h₁ := hgo (n₂ + fuel)
    rw [← Nat.add_assoc] at h₁
    unfold lowerBound
    rw [run_super, run_bind_ok (run_entered hholds), h₁]
  have htake : fromDb.entries = ((liveFrom m_cache accounts b).filter (inTrie accounts)).take m :=
    hdb
  have hmerged := merged_eq hd htake
  have hseen := Paging.take_seen (T := inTrie accounts) (C := inCache m_cache) m
    (liveFrom m_cache accounts b)
  have hwalk' : ∀ fuel, (fromTrie m_cache m (n₁ + n₂ + fuel) it .empty).run db = (.ok (fromDb,
      keyOrZero ((liveFrom m_cache accounts b).filter (inTrie accounts))[m]?), db) := by
    intro fuel
    have h₂ := hwalk (n₁ + fuel)
    rwa [show n₂ + (n₁ + fuel) = n₁ + n₂ + fuel by omega] at h₂
  have hrun : ∀ fuel, (addresses m_cache (n₁ + n₂ + fuel) root b m).run db =
      (match (Paging.seen (inTrie accounts) (inCache m_cache) m (liveFrom m_cache accounts b))[m]? with
        | some itEnd => return (upTo m (fromDb.insertAll (cacheAddresses m_cache b).entries), itEnd.1)
        | none => return (fromDb.insertAll (cacheAddresses m_cache b).entries,
            keyOrZero ((liveFrom m_cache accounts b).filter (inTrie accounts))[m]?) :
        FatM σ (AddressMap × H256)).run db := by
    intro fuel
    unfold addresses
    rw [run_bind_ok (hlower fuel), run_bind_ok (hwalk' fuel)]
    dsimp only
    rw [hmerged]
  refine ⟨n₁ + n₂, ?_⟩
  cases hend : (Paging.seen (inTrie accounts) (inCache m_cache) m
      (liveFrom m_cache accounts b))[m]? with
  | some itEnd =>
    obtain ⟨hlt, _⟩ := List.getElem?_eq_some_iff.mp hend
    refine ⟨upTo m (fromDb.insertAll (cacheAddresses m_cache b).entries), ?_, fun fuel => ?_⟩
    · rw [entries_upTo, hmerged, hseen]
    · rw [hrun fuel, hend, Paging.nextOf, if_pos hlt, hend]
      rfl
  | none =>
    have hle := List.getElem?_eq_none_iff.mp hend
    refine ⟨fromDb.insertAll (cacheAddresses m_cache b).entries, ?_, fun fuel => ?_⟩
    · rw [hmerged, ← hseen, List.take_of_length_le hle]
    · rw [hrun fuel, hend, Paging.nextOf, if_neg (not_lt.mpr hle)]
      rfl

/-- All pages from a hash on. -/
theorem run_pages (h : HoldsAccounts db root accounts) (hd : Distinct m_cache accounts)
    (hm : 0 < m) {S L : List (H256 × Address)}
    (hf : Paging.Follows (inTrie accounts) (inCache m_cache) m S L) :
    ∀ b, S = liveFrom m_cache accounts b → ∃ n, ∀ fuel,
      (pages m_cache root m (n + fuel) b).run db = (.ok (L.map Prod.snd), db) := by
  induction hf with
  | @last S hnext =>
    rintro b rfl
    obtain ⟨n, page, hpage, hrun⟩ := run_addresses (m := m) h hd b
    refine ⟨n + 1, fun fuel => ?_⟩
    rw [show n + 1 + fuel = n + fuel + 1 by omega, pages, run_bind_ok (hrun fuel)]
    dsimp only
    rw [hnext, if_pos (show keyOrZero none = H256.zero from rfl), hpage, run_pure]
  | @more S L x hnext _ ih =>
    rintro b rfl
    obtain ⟨n₁, page, hpage, hrun⟩ := run_addresses (m := m) h hd b
    have hx := Paging.mem_drop_of_nextOf (inTrie_or_inCache_from hd b) hnext
    have hle : b ≤ x.1 := of_decide_eq_true (List.mem_filter.mp (List.mem_of_mem_drop hx)).2
    have hrest : (liveFrom m_cache accounts b).filter (fun e => x.1 ≤ e.1) =
        liveFrom m_cache accounts x.1 := by
      unfold liveFrom
      rw [List.filter_filter]
      refine List.filter_congr fun e _ => ?_
      by_cases hxe : x.1 ≤ e.1
      · simp [hxe, hle.trans hxe]
      · simp [hxe]
    have hne : x.1 ≠ H256.zero := by
      have hsorted : (liveFrom m_cache accounts b).Pairwise (fun e e' => e.1 < e'.1) :=
        sorted_liveFrom b
      rw [← List.take_append_drop m (liveFrom m_cache accounts b), List.pairwise_append] at hsorted
      have hpos := List.length_pos_of_mem hx
      rw [List.length_drop] at hpos
      obtain ⟨y, hy⟩ : ∃ y, y ∈ (liveFrom m_cache accounts b).take m :=
        List.exists_mem_of_length_pos (by rw [List.length_take]; omega)
      exact ne_of_gt (lt_of_le_of_lt (H256.zero_le y.1) (hsorted.2.2 y hy x hx))
    obtain ⟨n₂, hpages⟩ := ih x.1 hrest
    refine ⟨n₁ + n₂ + 1, fun fuel => ?_⟩
    have h₁ := hrun (n₂ + fuel)
    have h₂ := hpages (n₁ + fuel)
    rw [show n₂ + (n₁ + fuel) = n₁ + (n₂ + fuel) by omega] at h₂
    rw [show n₁ + n₂ + 1 + fuel = n₁ + (n₂ + fuel) + 1 by omega, pages, run_bind_ok h₁]
    dsimp only
    rw [hnext, show keyOrZero (some x) = x.1 from rfl, if_neg hne, run_bind_ok h₂, hpage, run_pure,
      List.map_append]

/-! ### All pages -/

/-- Following the pages from zero ends with every account that is alive, once each, in the order
of the hashes. -/
def Complete (m_cache : SortedMap Address Account) (db : WithAux σ) (root : H256)
    (accounts : List Address) (m : ℕ) : Prop :=
  ∃ L, (∃ n, ∀ fuel, n ≤ fuel → (pages m_cache root m fuel H256.zero).run db = (.ok L, db)) ∧
    (∀ a, a ∈ L ↔ Alive m_cache accounts a) ∧
    L.Pairwise (fun a b => addressHash a < addressHash b)

theorem complete_iff_eq (h : HoldsAccounts db root accounts) (hd : Distinct m_cache accounts)
    (hm : 0 < m) {L : List (H256 × Address)}
    (hf : Paging.Follows (inTrie accounts) (inCache m_cache) m (live m_cache accounts).entries L) :
    Complete m_cache db root accounts m ↔ L = (live m_cache accounts).entries := by
  have hall : (live m_cache accounts).entries = liveFrom m_cache accounts H256.zero :=
    (List.filter_eq_self.mpr fun e _ => decide_eq_true (H256.zero_le e.1)).symm
  obtain ⟨n, hrun⟩ := run_pages h hd hm hf H256.zero hall
  have hhash : ∀ e ∈ (live m_cache accounts).entries, e.1 = addressHash e.2 := fun e he =>
    ((mem_live hd).mp he).1
  constructor
  · rintro ⟨L', ⟨n', hrun'⟩, hmem, hsorted⟩
    have hsame : L' = L.map Prod.snd := by
      have h₁ := hrun n'
      rw [hrun' (n + n') (Nat.le_add_left _ _)] at h₁
      cases h₁
      rfl
    subst hsame
    have hLhash : ∀ e ∈ L, e.1 = addressHash e.2 := fun e he => hhash e (hf.mem he)
    have hLsorted : L.Pairwise (fun e e' => e.1 < e'.1) := by
      refine (List.pairwise_map.mp hsorted).imp_of_mem fun {e e'} he he' hlt => ?_
      rw [hLhash e he, hLhash e' he']
      exact hlt
    refine SortedMap.entries_ext hLsorted (live m_cache accounts).sorted ?_
    rintro ⟨k, a⟩
    refine ⟨fun he => hf.mem he, fun he => ?_⟩
    obtain ⟨rfl, halive⟩ := (mem_live hd).mp he
    obtain ⟨e, he', rfl⟩ := List.mem_map.mp ((hmem a).mpr halive)
    rwa [← hLhash e he']
  · rintro rfl
    refine ⟨(live m_cache accounts).entries.map Prod.snd, ⟨n, fun fuel hle => ?_⟩, fun a => ?_, ?_⟩
    · rw [← Nat.add_sub_cancel' hle]
      exact hrun (fuel - n)
    · constructor
      · intro ha
        obtain ⟨e, he, rfl⟩ := List.mem_map.mp ha
        exact ((mem_live hd).mp he).2
      · exact fun ha => List.mem_map.mpr ⟨(addressHash a, a), (mem_live hd).mpr ⟨rfl, ha⟩, rfl⟩
    · refine List.pairwise_map.mpr ((live m_cache accounts).sorted.imp_of_mem fun he he' hlt => ?_)
      rw [← hhash _ he, ← hhash _ he']
      exact hlt

/-- A trie that calls with addresses have made holds their accounts. -/
theorem holdsAccounts_runFresh {fuel : ℕ} (hf : 69 ≤ fuel) {calls : List FatCall}
    (hkeys : ∀ c ∈ calls, ∃ a, c.key = addressBytes a) (hinj : Apart sha3 calls)
    (hn : NoCollision sha3 ((runFresh sha3 fuel calls).run fresh).2.main) :
    ∃ root db, (runFresh sha3 fuel calls).run fresh = (.ok root, db) ∧
      HoldsAccounts db root ((present calls).entries.map fun e => toAddress e.1) := by
  obtain ⟨root, db, hrun, hkeyed⟩ := keyed_runFresh hf hinj hn
  rw [hrun] at hn
  have hfold : ∀ (l : List FatCall) (mm : BytesMap), (∀ c ∈ l, ∃ a, c.key = addressBytes a) →
      (∀ key, (mm.find key).isSome = true → ∃ a, key = addressBytes a) →
      ∀ key, ((l.foldl FatCall.onMap mm).find key).isSome = true → ∃ a, key = addressBytes a := by
    intro l
    induction l with
    | nil => exact fun mm _ hmm => hmm
    | cons c l ih =>
      refine fun mm hl hmm => ih _ (fun c' hc' => hl c' (List.mem_cons_of_mem _ hc')) fun key hkey => ?_
      rcases key_of_onMap hkey with rfl | hkey
      · exact hl c List.mem_cons_self
      · exact hmm key hkey
  have haddress : ∀ key, ((present calls).find key).isSome = true → ∃ a, key = addressBytes a :=
    hfold calls .empty hkeys fun key hkey => by simp at hkey
  refine ⟨root, db, hrun, ⟨present calls, hkeyed, fun key => ?_⟩, hn⟩
  constructor
  · intro hkey
    obtain ⟨a, hka⟩ := haddress key hkey
    obtain ⟨v, hv⟩ := Option.isSome_iff_exists.mp hkey
    have hname : toAddress key = a := by rw [hka, toAddress_addressBytes]
    exact ⟨a, List.mem_map.mpr ⟨(key, v), SortedMap.find_eq_some_iff.mp hv, hname⟩, hka⟩
  · rintro ⟨a, ha, hka⟩
    obtain ⟨e, he, rfl⟩ := List.mem_map.mp ha
    have hsome : ((present calls).find e.1).isSome = true := by
      rw [SortedMap.find_eq_some_iff.mpr he]
      rfl
    obtain ⟨b, heb⟩ := haddress e.1 hsome
    have hname : toAddress e.1 = b := by rw [heb, toAddress_addressBytes]
    rw [hka, hname, ← heb]
    exact hsome

/-- The cuts of the live accounts into pages of `m`: behind each, or before it in its page, stands
an account that the walk of the trie does not stop for, or the cache has nothing more. -/
def CutsSound (m_cache : SortedMap Address Account) (accounts : List Address) (m : ℕ) : Prop :=
  ∀ j, Paging.Sound (inTrie accounts) (inCache m_cache) m
    ((live m_cache accounts).entries.drop (j * m))

/-- **The pages have every account that is alive, once and in order, when and only when all cuts
are sound.** -/
theorem pages_complete_iff {σ : Type} [NodeDB σ] [LawfulNodeDB σ] (db : WithAux σ) (root : H256)
    (accounts : List Address) (m_cache : SortedMap Address Account) (m : ℕ) (hm : 0 < m)
    (h : HoldsAccounts db root accounts) (hd : Distinct m_cache accounts) :
    Complete m_cache db root accounts m ↔ CutsSound m_cache accounts m := by
  obtain ⟨L, hfollows, hiff, _⟩ := Paging.exists_follows hm (live m_cache accounts).sorted
    (inTrie_or_inCache hd)
  rw [complete_iff_eq h hd hm hfollows, hiff]
  rfl

end Page
end State

end Aleth.Ethereum

/-! ### A state with real hashes -/

namespace Aleth.Ethereum.State
open Devcore Throwing Patricia GenericTrieDB FatGenericTrieDB
open Ethcore (addressOf addressBytes addressOf_addressBytes)

def pageSamples : List (ℕ × ℕ × ℕ) :=
  [(1, 0x80,
    0x56e81f171bcc55a6ff8345e692c0f86e5b48e01b996cadc001622fb5e363b421),
   (0, 0x0,
    0xc5d2460186f7233c927e7db2dcc703c0e500b653ca82273b7bfad8045d85a470),
   (20, 0x0000000000000000000000000000000000000001,
    0x1468288056310c82aa4c01a7e12a10f8111a0560e72b700555479031b86c357d),
   (20, 0x0000000000000000000000000000000000000005,
    0x421df1fa259221d02aa4956eb0d35ace318ca24c0a33a64c1af96cf67cf245b6),
   (20, 0x0000000000000000000000000000000000000003,
    0x5b70e80538acdabd6137353b0f9d8d149f4dba91e8be2e7946e409bfdbe685b9),
   (108, 0xf86aa1201468288056310c82aa4c01a7e12a10f8111a0560e72b700555479031b86c357db846f8448001a056e81f171bcc55a6ff8345e692c0f86e5b48e01b996cadc001622fb5e363b421a0c5d2460186f7233c927e7db2dcc703c0e500b653ca82273b7bfad8045d85a470,
    0x8028c28b55eab8be08883e921f20d1b6cc9f2aa02cc6cd90cfaa9b0462ff6d3e),
   (107, 0xf869a03468288056310c82aa4c01a7e12a10f8111a0560e72b700555479031b86c357db846f8448001a056e81f171bcc55a6ff8345e692c0f86e5b48e01b996cadc001622fb5e363b421a0c5d2460186f7233c927e7db2dcc703c0e500b653ca82273b7bfad8045d85a470,
    0xab8cdb808c8303bb61fb48e276217be9770fa83ecf3f90f2234d558885f5abf1),
   (107, 0xf869a0321df1fa259221d02aa4956eb0d35ace318ca24c0a33a64c1af96cf67cf245b6b846f8448001a056e81f171bcc55a6ff8345e692c0f86e5b48e01b996cadc001622fb5e363b421a0c5d2460186f7233c927e7db2dcc703c0e500b653ca82273b7bfad8045d85a470,
    0x689dfd9a2ffe9b3792b014082ca8ab853ae05e696ac096a96692620b9bba9156),
   (83, 0xf85180a0ab8cdb808c8303bb61fb48e276217be9770fa83ecf3f90f2234d558885f5abf18080a0689dfd9a2ffe9b3792b014082ca8ab853ae05e696ac096a96692620b9bba9156808080808080808080808080,
    0x0bb262644d32d0717852577970aff09575e4866a3ccba08e4723b09c353b28b6)]

/-- Keccak-256 on the sample strings. -/
@[reducible] def pageSha3 : Sha3 where
  sha3 b := H256.alignRight (toBigEndian 32
    (((pageSamples.find? fun e => toBigEndian e.1 e.2.1 = b).map fun e => e.2.2).getD 0))

attribute [local instance] pageSha3

/-- A stored account: balance 1, no storage and no code. -/
def sampleStored : Value :=
  ⟨toBigEndian 70 0xf8448001a056e81f171bcc55a6ff8345e692c0f86e5b48e01b996cadc001622fb5e363b421a0c5d2460186f7233c927e7db2dcc703c0e500b653ca82273b7bfad8045d85a470,
    fun h => by cases congrArg List.length h⟩

def twoAccounts : List FatCall :=
  [.insert (addressBytes 1) sampleStored, .insert (addressBytes 5) sampleStored]

/-- An account is created whose hash is behind those of the two. -/
def thirdCreated : SortedMap Address Account := .insert .empty 3 (.ofBalance 0 1)

theorem holdsAccounts_sample : ∃ root db,
    (runFresh sha3 69 twoAccounts).run fresh = (.ok root, db) ∧ HoldsAccounts db root [1, 5] := by
  have hkeys : ∀ c ∈ twoAccounts, ∃ a, c.key = addressBytes a := by
    intro c hc
    simp only [twoAccounts, List.mem_cons, List.not_mem_nil, or_false] at hc
    rcases hc with rfl | rfl
    · exact ⟨1, rfl⟩
    · exact ⟨5, rfl⟩
  have hinj : ∀ c ∈ twoAccounts, ∀ c' ∈ twoAccounts, sha3 c.key = sha3 c'.key → c.key = c'.key := by
    decide +kernel
  obtain ⟨root, db, hrun, h⟩ := holdsAccounts_runFresh (le_refl 69) hkeys hinj (by decide +kernel)
  have haccounts : ((present twoAccounts).entries.map fun e => toAddress e.1) = [1, 5] := by
    decide +kernel
  rw [haccounts] at h
  exact ⟨root, db, hrun, h⟩

theorem distinct_sample : Distinct thirdCreated [1, 5] := by
  have hthree : ∀ x, (x ∈ [1, 5] ∨ (thirdCreated.find x).isSome = true) → x ∈ [1, 5, 3] := by
    rintro x (hx | hx)
    · exact List.mem_append_left [3] hx
    · rw [thirdCreated, SortedMap.find_insert] at hx
      split at hx
      case isTrue h => simp [h]
      case isFalse => simp at hx
  have hhashes : (([1, 5, 3] : List Address).map addressHash).Nodup := by decide +kernel
  exact fun a b ha hb => List.inj_on_of_nodup_map hhashes (hthree a ha) (hthree b hb)

theorem pages_complete_sample : ∃ root db,
    (runFresh sha3 69 twoAccounts).run fresh = (.ok root, db) ∧
      (Complete thirdCreated db root [1, 5] 1 ↔ CutsSound thirdCreated [1, 5] 1) := by
  obtain ⟨root, db, hrun, h⟩ := holdsAccounts_sample
  exact ⟨root, db, hrun,
    pages_complete_iff db root [1, 5] thirdCreated 1 one_pos h distinct_sample⟩

/-- Page by page there are the first account and the created one: the walk stops at the second
account, and the entry of the cache behind it is where the next page begins. -/
theorem secondAccount_skipped : ∃ root db,
    (runFresh sha3 69 twoAccounts).run fresh = (.ok root, db) ∧ HoldsAccounts db root [1, 5] ∧
      Alive thirdCreated [1, 5] 5 ∧
      (∃ n, ∀ fuel, n ≤ fuel →
        (pages thirdCreated root 1 fuel H256.zero).run db = (.ok [1, 3], db)) ∧
      ¬Complete thirdCreated db root [1, 5] 1 := by
  obtain ⟨root, db, hrun, h⟩ := holdsAccounts_sample
  have hfollows : Paging.Follows (inTrie [1, 5]) (inCache thirdCreated) 1
      (live thirdCreated [1, 5]).entries [(addressHash 1, 1), (addressHash 3, 3)] := by
    have hfirst : (live thirdCreated [1, 5]).entries.take 1 = [(addressHash 1, 1)] := by
      decide +kernel
    have hnext : Paging.nextOf (inTrie [1, 5]) (inCache thirdCreated) 1
        (live thirdCreated [1, 5]).entries = some (addressHash 3, 3) := by
      decide +kernel
    have hrest : ((live thirdCreated [1, 5]).entries.filter fun e => addressHash 3 ≤ e.1) =
        [(addressHash 3, 3)] := by
      decide +kernel
    have hlast : Paging.nextOf (inTrie [1, 5]) (inCache thirdCreated) 1 [(addressHash 3, 3)] =
        none := by
      decide +kernel
    have hend : Paging.Follows (inTrie [1, 5]) (inCache thirdCreated) 1
        ((live thirdCreated [1, 5]).entries.filter fun e => addressHash 3 ≤ e.1)
        [(addressHash 3, 3)] := by
      rw [hrest]
      exact .last hlast
    have hall := Paging.Follows.more hnext hend
    rwa [hfirst] at hall
  obtain ⟨n, hpages⟩ := run_pages h distinct_sample one_pos hfollows H256.zero
    (List.filter_eq_self.mpr fun e _ => decide_eq_true (H256.zero_le e.1)).symm
  refine ⟨root, db, hrun, h, alive_iff.mpr (.inl ⟨?_, ?_⟩), ⟨n, fun fuel hle => ?_⟩, ?_⟩
  · exact List.mem_cons_of_mem 1 List.mem_cons_self
  · decide +kernel
  · rw [← Nat.add_sub_cancel' hle]
    exact hpages (fuel - n)
  · rw [complete_iff_eq h distinct_sample one_pos hfollows]
    decide +kernel

end Aleth.Ethereum.State
