import Aleth.Ethereum.ImportRuns
import Aleth.Structure.Runs

/-! The table of transactions.

`transactionLocation` reads a table that an import extends along the route to the
new head. Nothing is ever removed from it: it lists the canonical chain as long
as every transaction of a block that leaves the chain comes back in a block that
enters it, and none comes twice. -/
namespace Aleth.Ethereum
open Devcore ReadThrough Throwing Ancestry

/-! ### Writing transactions -/

namespace Extras
variable (e : Extras)

/-- The locations of the transactions of one block, counted from `n`. -/
def locations (hash : H256) (l : List H256) (n : ℕ) : List ExtrasWrite :=
  (l.zipIdx n).map fun x => .transactionAddress x.1 ⟨hash, x.2⟩

theorem commit_locations_of_notMem (hash : H256) {t : H256} {l : List H256} (ht : t ∉ l) (n : ℕ) :
    (e.commit (locations hash l n)).transactionAddress t = e.transactionAddress t := by
  induction l generalizing e n with
  | nil => rfl
  | cons x l ih =>
    rw [List.mem_cons, not_or] at ht
    have hrest := ih (e.insert (.transactionAddress x ⟨hash, n⟩)) ht.2 (n + 1)
    exact hrest.trans (Function.update_of_ne ht.1 _ _)

theorem commit_locations_of_getElem (hash : H256) {t : H256} {l : List H256} (hl : l.Nodup) {i : ℕ}
    (ht : l[i]? = some t) (n : ℕ) :
    (e.commit (locations hash l n)).transactionAddress t = some ⟨hash, n + i⟩ := by
  induction l generalizing e n i with
  | nil => cases ht
  | cons x l ih =>
    have hnodup := List.nodup_cons.mp hl
    cases i with
    | zero =>
      have he : x = t := Option.some.inj ht
      have hrest := commit_locations_of_notMem (e.insert (.transactionAddress x ⟨hash, n⟩)) hash
        hnodup.1 (n + 1)
      rw [← he]
      exact hrest.trans (Function.update_self _ _ _)
    | succ i =>
      have hrest := ih (e.insert (.transactionAddress x ⟨hash, n⟩)) hnodup.2 ht (n + 1)
      rw [show n + 1 + i = n + (i + 1) by omega] at hrest
      exact hrest

/-- Besides its transactions, a block only enters its number. -/
theorem commit_canonicalWrites_transactionAddress (b : VerifiedBlock) :
    (e.commit (BlockChain.canonicalWrites b)).transactionAddress =
      (e.commit (locations b.info.hash b.transactions 0)).transactionAddress := by
  rw [BlockChain.canonicalWrites, commit_append]
  rfl

theorem commit_route_transactionAddress_of_notMem {t : H256} {l : List VerifiedBlock}
    (ht : t ∉ l.flatMap VerifiedBlock.transactions) :
    (e.commit (l.flatMap BlockChain.canonicalWrites)).transactionAddress t =
      e.transactionAddress t := by
  induction l generalizing e with
  | nil => rfl
  | cons b l ih =>
    rw [List.flatMap_cons, List.mem_append, not_or] at ht
    rw [List.flatMap_cons, commit_append, ih _ ht.2, commit_canonicalWrites_transactionAddress,
      commit_locations_of_notMem e _ ht.1]

/-- Where no transaction comes twice, each gets its place. -/
theorem commit_route_transactionAddress {t : H256} {l : List VerifiedBlock}
    (hl : (l.flatMap VerifiedBlock.transactions).Nodup) {b : VerifiedBlock} (hb : b ∈ l) {i : ℕ}
    (ht : b.transactions[i]? = some t) :
    (e.commit (l.flatMap BlockChain.canonicalWrites)).transactionAddress t =
      some ⟨b.info.hash, i⟩ := by
  induction l generalizing e with
  | nil => cases hb
  | cons c l ih =>
    rw [List.flatMap_cons] at hl
    obtain ⟨hc, hrest, hdisjoint⟩ := List.nodup_append'.mp hl
    rw [List.flatMap_cons, commit_append]
    cases List.mem_cons.mp hb with
    | inl he =>
      rw [he] at ht
      have hmem : t ∈ c.transactions := List.mem_of_getElem? ht
      rw [commit_route_transactionAddress_of_notMem _ (hdisjoint hmem),
        commit_canonicalWrites_transactionAddress, commit_locations_of_getElem e _ hc ht, he,
        Nat.zero_add]
    | inr hm => exact ih _ hrest hm

theorem commit_locations_of_mem (hash : H256) {t : H256} {l : List H256} (ht : t ∈ l) (n : ℕ) :
    ∃ i, (e.commit (locations hash l n)).transactionAddress t = some ⟨hash, i⟩ := by
  induction l generalizing e n with
  | nil => cases ht
  | cons x l ih =>
    by_cases hl : t ∈ l
    · exact ih (e.insert (.transactionAddress x ⟨hash, n⟩)) hl (n + 1)
    · cases (List.mem_cons.mp ht).resolve_right hl
      have hrest := commit_locations_of_notMem (e.insert (.transactionAddress t ⟨hash, n⟩)) hash hl
        (n + 1)
      exact ⟨n, hrest.trans (Function.update_self _ _ _)⟩

/-- A transaction of a route is located in a block of the route. -/
theorem commit_route_transactionAddress_of_mem {t : H256} {l : List VerifiedBlock}
    (ht : t ∈ l.flatMap VerifiedBlock.transactions) :
    ∃ b ∈ l, ∃ i, (e.commit (l.flatMap BlockChain.canonicalWrites)).transactionAddress t =
      some ⟨b.info.hash, i⟩ := by
  induction l generalizing e with
  | nil => cases ht
  | cons c l ih =>
    rw [List.flatMap_cons, commit_append]
    by_cases hl : t ∈ l.flatMap VerifiedBlock.transactions
    · obtain ⟨b, hb, i, hi⟩ := ih (e.commit (BlockChain.canonicalWrites c)) hl
      exact ⟨b, List.mem_cons_of_mem _ hb, i, hi⟩
    · have hc : t ∈ c.transactions := (List.mem_append.mp ht).resolve_right hl
      obtain ⟨i, hi⟩ := commit_locations_of_mem e c.info.hash hc 0
      refine ⟨c, List.mem_cons_self, i, ?_⟩
      rw [commit_route_transactionAddress_of_notMem _ hl, commit_canonicalWrites_transactionAddress,
        hi]

end Extras

namespace BlockChain
variable {bc : BlockChain}

/-! ### Queries -/

/-- `queryExtras` on the table of transactions. -/
def transactionAddress (t : H256) : Chain (Option TransactionAddress) := fun bc =>
  let q := query bc.m_transactionAddresses bc.m_extrasDB.transactionAddress t
  (.ok q.1, {bc with m_transactionAddresses := q.2})

/-- `transactionLocation(t)`; `(0, 0)` where there is none. -/
def transactionLocation (t : H256) : Chain (H256 × ℕ) := do
  match ← transactionAddress t with
  | none => return (H256.zero, 0)
  | some ta =>
    if ta.blockHash = H256.zero then return (H256.zero, 0)
    else return (ta.blockHash, ta.index)

def isKnownTransaction (t : H256) : Chain Bool := do
  match ← transactionAddress t with
  | none => return false
  | some ta => return ta.blockHash ≠ H256.zero

/-! ### The canonical chain -/

def transactionsOf (bc : BlockChain) (h : H256) : List H256 :=
  if h = bc.genesisHash then bc.m_genesis.transactions
  else ((bc.m_blocksDB h).map VerifiedBlock.transactions).getD []

/-- The transaction with number `i` of the block `h`, which is on the chain of the head, is `t`. -/
def IsAt (bc : BlockChain) (t h : H256) (i : ℕ) : Prop :=
  ∃ n, n ≤ bc.m_lastBlockNumber ∧ h = bc.ancestorOf bc.m_lastBlockHash n ∧
    (bc.transactionsOf h)[i]? = some t

/-- The transactions of the blocks that leave the chain of the head for a new block. -/
def leaving (bc : BlockChain) (b : VerifiedBlock) : List H256 :=
  (bc.pathOf bc.m_lastBlockHash (bc.forkBelow b)).flatMap bc.transactionsOf

/-- Those of the blocks that enter it. -/
def entering (bc : BlockChain) (b : VerifiedBlock) : List H256 :=
  (bc.routeBlocks b (bc.forkBelow b)).flatMap VerifiedBlock.transactions

/-- Those of the blocks that stay on it. -/
def staying (bc : BlockChain) (b : VerifiedBlock) : List H256 :=
  (bc.pathOf (bc.ancestorOf bc.m_lastBlockHash (bc.forkBelow b)) 0).flatMap bc.transactionsOf

/-- A block that becomes the head takes over every transaction that leaves the chain, and brings
none that is there already, or twice. -/
def TakesOver (bc : BlockChain) (b : VerifiedBlock) : Prop :=
  bc.improves b → bc.leaving b ⊆ bc.entering b ∧ (bc.entering b).Nodup ∧
    ∀ t ∈ bc.entering b, t ∉ bc.staying b

/-- The table lists the transactions of the canonical chain, and the cache holds nothing else. -/
structure Located (bc : BlockChain) : Prop where
  headed : bc.Headed
  genesis : bc.m_genesis.transactions = []
  located : ∀ t h i, bc.m_extrasDB.transactionAddress t = some ⟨h, i⟩ ↔ bc.IsAt t h i
  cached : Coherent bc.m_transactionAddresses bc.m_extrasDB.transactionAddress

theorem transactionsOf_old {bc' : BlockChain} {b : VerifiedBlock} (ha : Adds bc bc' b)
    (hi : bc.Insertable b) {h : H256} (hs : bc.Stored h) :
    bc'.transactionsOf h = bc.transactionsOf h := by
  rw [transactionsOf, transactionsOf, ha.genesisHash, ha.genesis]
  split
  case isTrue => rfl
  case isFalse hg =>
    obtain ⟨t, ht, _⟩ := hs.block hg
    rw [ha.blocks, Function.update_apply]
    split
    case isTrue he => rw [ht, hi.unique t (by rw [← he, ht])]
    case isFalse => rfl

/-- The transactions of a block of the route. -/
theorem transactionsOf_route (hl : bc.Linked) {b : VerifiedBlock} (hi : bc.Insertable b) {j : ℕ}
    (hj : 0 < j) (hle : j ≤ bc.heightOf b.info.parentHash) :
    bc.transactionsOf (bc.ancestorOf b.info.parentHash j) =
      (bc.blockOnRoute b (bc.ancestorOf b.info.parentHash j)).transactions := by
  obtain ⟨_, hg, hdb, _⟩ := blockOnRoute_ancestor hl hi hj hle
  rw [transactionsOf, if_neg hg, hdb]
  rfl

theorem Located.ne_genesis (hx : bc.Located) {t : H256} {h : H256} {i : ℕ}
    (ht : (bc.transactionsOf h)[i]? = some t) : h ≠ bc.genesisHash := by
  intro he
  rw [transactionsOf, if_pos he, hx.genesis] at ht
  cases ht

/-- A transaction of the chain of the head is in a block that stays, or in one that leaves. -/
theorem staying_or_leaving (hx : bc.Located) (b : VerifiedBlock) {t h : H256} {i n : ℕ}
    (hn : n ≤ bc.m_lastBlockNumber) (hh : h = bc.ancestorOf bc.m_lastBlockHash n)
    (ht : (bc.transactionsOf h)[i]? = some t) :
    (n ≤ bc.forkBelow b → t ∈ bc.staying b) ∧ (bc.forkBelow b < n → t ∈ bc.leaving b) := by
  have hr := hx.headed.linked.rooted
  have hhead := hx.headed.head
  have hmem : t ∈ bc.transactionsOf h := List.mem_of_getElem? ht
  rw [hx.headed.number] at hn
  have hheight : bc.heightOf h = n := by
    rw [hh]
    exact hr.height_ancestor hhead hn
  have hpos : 0 < n := by
    apply Nat.pos_of_ne_zero
    intro h0
    rw [h0] at hheight
    have hs : bc.Stored h := by
      rw [hh]
      exact hr.mem_ancestor hhead n
    exact hx.ne_genesis ht (hr.eq_root hs hheight)
  have hk : bc.forkBelow b ≤ bc.heightOf bc.m_lastBlockHash := fork_le_left _ _
  constructor
  · intro hle
    refine List.mem_flatMap.mpr ⟨h, mem_path.mpr ⟨n, hpos, ?_, ?_⟩, hmem⟩
    · rw [ancestorOf, hr.height_ancestor hhead hk]
      exact hle
    · rw [hh]
      exact hr.ancestor_ancestor hhead hle hk
  · intro hlt
    exact List.mem_flatMap.mpr ⟨h, mem_path.mpr ⟨n, hlt, hn, hh.symm⟩, hmem⟩

/-! ### Imports -/

section Inserts
variable {b : VerifiedBlock} {r : ImportRoute} {s : BlockChain}

theorem isAt_stays (hx : bc.Located) (hi : bc.Inserts b r s) (ht : bc.Stays b r s) (t h : H256)
    (i : ℕ) : s.IsAt t h i ↔ bc.IsAt t h i := by
  rw [IsAt, IsAt, ht.number, ht.head]
  have hins := hi.insertable
  have hhead := hx.headed.head
  have hstored : ∀ n, bc.Stored (bc.ancestorOf bc.m_lastBlockHash n) :=
    fun n => hx.headed.linked.rooted.mem_ancestor hhead n
  constructor
  · intro hex
    obtain ⟨n, hn, hh, hget⟩ := hex
    rw [hi.adds.ancestorOf_old hx.headed.linked hins hhead] at hh
    rw [transactionsOf_old hi.adds hins (by rw [hh]; exact hstored n)] at hget
    exact ⟨n, hn, hh, hget⟩
  · intro hex
    obtain ⟨n, hn, hh, hget⟩ := hex
    refine ⟨n, hn, ?_, ?_⟩
    · rw [hi.adds.ancestorOf_old hx.headed.linked hins hhead]
      exact hh
    · rw [transactionsOf_old hi.adds hins (by rw [hh]; exact hstored n)]
      exact hget

/-- The chain of the new head: the blocks of the old chain up to the fork, and those of the route. -/
theorem isAt_advances (hx : bc.Located) (hi : bc.Inserts b r s) (ha : bc.Advances b r s) (t h : H256)
    (i : ℕ) : s.IsAt t h i ↔
      (∃ n, n ≤ bc.forkBelow b ∧ h = bc.ancestorOf bc.m_lastBlockHash n ∧
        (bc.transactionsOf h)[i]? = some t) ∨
      ∃ c ∈ bc.routeBlocks b (bc.forkBelow b), h = c.info.hash ∧ c.transactions[i]? = some t := by
  have hl := hx.headed.linked
  have hr := hl.rooted
  have hins := hi.insertable
  have hp := hins.placed.parent
  have hnum := hins.placed.number
  have hkl : bc.forkBelow b ≤ bc.heightOf bc.m_lastBlockHash := fork_le_left _ _
  have hkp : bc.forkBelow b ≤ bc.heightOf b.info.parentHash := fork_le_right _ _
  have hagree : ∀ n, n ≤ bc.forkBelow b →
      bc.ancestorOf bc.m_lastBlockHash n = bc.ancestorOf b.info.parentHash n := fun n hn =>
    (hr.agree_iff hx.headed.head hp (hn.trans hkl) (hn.trans hkp)).mpr hn
  have hself : s.ancestorOf b.info.hash b.info.number = b.info.hash := by
    rw [← hi.adds.heightOf_new hins, ancestorOf, ancestor_self]
  have hbelow : ∀ n, n < b.info.number →
      s.ancestorOf b.info.hash n = bc.ancestorOf b.info.parentHash n :=
    fun n hn => ancestorOf_new hi.adds hl hi.linked hins hn
  have hnew : s.transactionsOf b.info.hash = b.transactions := by
    rw [transactionsOf, hi.adds.genesisHash, if_neg hins.placed.ne_genesis, hi.adds.blocks,
      Function.update_self]
    rfl
  have hold : ∀ n, s.transactionsOf (bc.ancestorOf b.info.parentHash n) =
      bc.transactionsOf (bc.ancestorOf b.info.parentHash n) := fun n =>
    transactionsOf_old hi.adds hins (hr.mem_ancestor hp n)
  rw [IsAt, ha.number, ha.head]
  constructor
  · intro hex
    obtain ⟨n, hn, hh, hget⟩ := hex
    by_cases he : n = b.info.number
    · rw [he, hself] at hh
      rw [hh, hnew] at hget
      exact Or.inr ⟨b, List.mem_map.mpr ⟨_, List.mem_cons_self, blockOnRoute_new bc b⟩, hh, hget⟩
    · rw [hbelow n (by omega)] at hh
      rw [hh, hold] at hget
      by_cases hk : n ≤ bc.forkBelow b
      · refine Or.inl ⟨n, hk, by rw [hh, hagree n hk], ?_⟩
        rw [hh]
        exact hget
      · have hpos : 0 < n := by omega
        have hle : n ≤ bc.heightOf b.info.parentHash := by omega
        obtain ⟨_, _, _, _, hhash⟩ := blockOnRoute_ancestor hl hins hpos hle
        rw [transactionsOf_route hl hins hpos hle] at hget
        refine Or.inr ⟨_, List.mem_map.mpr ⟨_, List.mem_cons_of_mem _
          (mem_path.mpr ⟨n, by omega, hle, rfl⟩), rfl⟩, ?_, hget⟩
        rw [hh]
        exact hhash.symm
  · intro hex
    cases hex with
    | inl hex =>
      obtain ⟨n, hn, hh, hget⟩ := hex
      rw [hagree n hn] at hh
      refine ⟨n, by omega, ?_, ?_⟩
      · rw [hbelow n (by omega)]
        exact hh
      · rw [hh, hold, ← hh]
        exact hget
    | inr hex =>
      obtain ⟨c, hc, hh, hget⟩ := hex
      obtain ⟨x, hx', rfl⟩ := List.mem_map.mp hc
      cases List.mem_cons.mp hx' with
      | inl he =>
        rw [he, blockOnRoute_new] at hh hget
        refine ⟨b.info.number, le_rfl, ?_, ?_⟩
        · rw [hself]
          exact hh
        · rw [hh, hnew]
          exact hget
      | inr hm =>
        obtain ⟨n, hn, hle, rfl⟩ := mem_path.mp hm
        have hpos : 0 < n := by omega
        obtain ⟨_, _, _, _, hhash⟩ := blockOnRoute_ancestor hl hins hpos hle
        have htx := transactionsOf_route hl hins hpos hle
        rw [ancestorOf] at hhash htx
        rw [hhash] at hh
        refine ⟨n, by omega, ?_, ?_⟩
        · rw [hbelow n (by omega)]
          exact hh
        · rw [hh, ← ancestorOf, hold, ancestorOf, htx]
          exact hget

theorem located_stays (hx : bc.Located) (hi : bc.Inserts b r s) (ht : bc.Stays b r s) :
    s.Located := by
  refine ⟨hi.headed hx.headed, ?_, fun t h i => ?_, ?_⟩
  · rw [hi.adds.genesis]
    exact hx.genesis
  · rw [ht.transactionAddress, isAt_stays hx hi ht]
    exact hx.located t h i
  · rw [ht.m_transactionAddresses, ht.transactionAddress]
    exact hx.cached

theorem located_advances (hx : bc.Located) (hi : bc.Inserts b r s) (ha : bc.Advances b r s)
    (hleaving : bc.leaving b ⊆ bc.entering b) (hnodup : (bc.entering b).Nodup)
    (hstaying : ∀ t ∈ bc.entering b, t ∉ bc.staying b) : s.Located := by
  have hk : bc.forkBelow b ≤ bc.m_lastBlockNumber := by
    rw [hx.headed.number]
    exact fork_le_left _ _
  have hkept : ∀ t, t ∉ bc.entering b →
      s.m_extrasDB.transactionAddress t = bc.m_extrasDB.transactionAddress t := by
    intro t ht
    rw [ha.transactionAddress]
    exact Extras.commit_route_transactionAddress_of_notMem _ ht
  have hentered : ∀ c ∈ bc.routeBlocks b (bc.forkBelow b), ∀ i t, c.transactions[i]? = some t →
      t ∈ bc.entering b ∧ s.m_extrasDB.transactionAddress t = some ⟨c.info.hash, i⟩ := by
    intro c hc i t hget
    refine ⟨List.mem_flatMap.mpr ⟨c, hc, List.mem_of_getElem? hget⟩, ?_⟩
    rw [ha.transactionAddress]
    exact Extras.commit_route_transactionAddress _ hnodup hc hget
  refine ⟨hi.headed hx.headed, ?_, fun t h i => ?_, fun t a hcached => ?_⟩
  · rw [hi.adds.genesis]
    exact hx.genesis
  · rw [isAt_advances hx hi ha]
    by_cases ht : t ∈ bc.entering b
    · obtain ⟨c, hc, hmem⟩ := List.mem_flatMap.mp ht
      obtain ⟨j, hj⟩ := List.getElem?_of_mem hmem
      obtain ⟨_, haddr⟩ := hentered c hc j t hj
      constructor
      · intro he
        rw [haddr] at he
        cases he
        exact Or.inr ⟨c, hc, rfl, hj⟩
      · intro hex
        cases hex with
        | inl hex =>
          obtain ⟨n, hn, hh, hget⟩ := hex
          exact absurd ((staying_or_leaving hx b (hn.trans hk) hh hget).1 hn) (hstaying t ht)
        | inr hex =>
          obtain ⟨c', hc', rfl, hget⟩ := hex
          exact (hentered c' hc' i t hget).2
    · rw [hkept t ht, hx.located]
      constructor
      · intro hex
        obtain ⟨n, hn, hh, hget⟩ := hex
        have hcases := staying_or_leaving hx b hn hh hget
        refine Or.inl ⟨n, ?_, hh, hget⟩
        by_contra hlt
        exact ht (hleaving (hcases.2 (Nat.lt_of_not_le hlt)))
      · intro hex
        cases hex with
        | inl hex =>
          obtain ⟨n, hn, hh, hget⟩ := hex
          exact ⟨n, hn.trans hk, hh, hget⟩
        | inr hex =>
          obtain ⟨c, hc, _, hget⟩ := hex
          exact absurd (hentered c hc i t hget).1 ht
  · rw [ha.m_transactionAddresses, reverted] at hcached
    split at hcached
    case isTrue he =>
      -- the old head stays on the chain, and with it all that is cached
      have hold := hx.cached t a hcached
      have hheight : bc.forkBelow b = bc.m_lastBlockNumber := by
        have hh : bc.heightOf (bc.ancestorOf bc.m_lastBlockHash (bc.forkBelow b)) =
            bc.forkBelow b :=
          hx.headed.linked.rooted.height_ancestor hx.headed.head (by rwa [← hx.headed.number])
        rw [← hh, he, hx.headed.number]
      obtain ⟨n, hn, hh, hget⟩ := (hx.located t a.blockHash a.index).mp hold
      rw [hkept t fun ht => hstaying t ht
        ((staying_or_leaving hx b hn hh hget).1 (by rw [hheight]; exact hn))]
      exact hold
    case isFalse => cases hcached

end Inserts

/-! ### Runs -/

/-- What can be asked of the chain, with lookups of transactions. -/
inductive LookupRequest where
  | chain (r : Request)
  | transactionLocation (t : H256)
  | isKnownTransaction (t : H256)

def lookupStep (bc : BlockChain) : LookupRequest → BlockChain
  | .chain r => bc.step r
  | .transactionLocation t => ((BlockChain.transactionLocation t).run bc).2
  | .isKnownTransaction t => ((BlockChain.isKnownTransaction t).run bc).2

/-- Blocks have hashes of their own, and take over the transactions of those they replace. -/
def Succeeds (bc : BlockChain) : LookupRequest → Prop
  | .chain (.importBlock b mustBeNew verdict) =>
    bc.Proper (.importBlock b mustBeNew verdict) ∧ bc.TakesOver b
  | _ => True

instance decidableImproves (bc : BlockChain) (b : VerifiedBlock) : Decidable (bc.improves b) :=
  inferInstanceAs (Decidable
    ((bc.detailsOf bc.m_lastBlockHash).totalDifficulty < bc.newDifficulty b ∨
      bc.tieBreakingGas = true ∧
        bc.newDifficulty b = (bc.detailsOf bc.m_lastBlockHash).totalDifficulty ∧
        ∀ info ∈ bc.header bc.m_lastBlockHash, info.gasUsed < b.info.gasUsed))

instance decidableTakesOver (bc : BlockChain) (b : VerifiedBlock) : Decidable (bc.TakesOver b) :=
  inferInstanceAs (Decidable (bc.improves b →
    (∀ t ∈ bc.leaving b, t ∈ bc.entering b) ∧ (bc.entering b).Nodup ∧
      ∀ t ∈ bc.entering b, t ∉ bc.staying b))

instance decidableSucceeds : (bc : BlockChain) → (r : LookupRequest) → Decidable (bc.Succeeds r)
  | bc, .chain (.importBlock b mustBeNew verdict) => inferInstanceAs
    (Decidable (bc.Proper (.importBlock b mustBeNew verdict) ∧ bc.TakesOver b))
  | _, .chain (.numberHash _) => isTrue trivial
  | _, .chain (.details _) => isTrue trivial
  | _, .chain (.block _) => isTrue trivial
  | _, .chain (.garbageCollect _ _ _) => isTrue trivial
  | _, .transactionLocation _ => isTrue trivial
  | _, .isKnownTransaction _ => isTrue trivial

theorem isAt_congr {bc' : BlockChain} (hg : bc'.m_genesis = bc.m_genesis)
    (hb : bc'.m_blocksDB = bc.m_blocksDB) (hlast : bc'.m_lastBlockHash = bc.m_lastBlockHash)
    (hnum : bc'.m_lastBlockNumber = bc.m_lastBlockNumber) : bc'.IsAt = bc.IsAt := by
  have htx : bc'.transactionsOf = bc.transactionsOf := by
    funext h
    rw [transactionsOf, transactionsOf, genesisHash, hg, hb, genesisHash]
  funext t h i
  rw [IsAt, IsAt, ancestorOf_congr hg hb, htx, hlast, hnum]

theorem Located.idle (hx : bc.Located) {s : BlockChain} (hs : bc.Idle s) : s.Located := by
  have hnum : s.m_lastBlockNumber = bc.m_lastBlockNumber := by
    rw [hs.headed.number, heightOf_congr hs.genesis hs.blocks, hs.head, hx.headed.number]
  refine ⟨hs.headed, by rw [hs.genesis, hx.genesis], fun t h i => ?_, fun t a ha => ?_⟩
  · rw [hs.extras, isAt_congr hs.genesis hs.blocks hs.head hnum]
    exact hx.located t h i
  · rw [hs.extras]
    exact hx.cached t a (hs.transactionAddresses t a ha)

/-- A lookup of a transaction changes nothing but its cache. -/
theorem Located.lookup (hx : bc.Located) (t : H256) :
    ((transactionAddress t).run bc).2.Located := by
  refine ⟨⟨hx.headed.linked.transfer rfl rfl hx.headed.linked.cached hx.headed.linked.describes
    fun _ h => h, hx.headed.head, hx.headed.number⟩, hx.genesis, hx.located, fun t' a ha => ?_⟩
  have ha' : (query bc.m_transactionAddresses bc.m_extrasDB.transactionAddress t).2 t' = some a := ha
  cases query_snd ha' with
  | inl hold => exact hx.cached t' a hold
  | inr hnew =>
    obtain ⟨rfl, hstore⟩ := hnew
    exact hstore

theorem run_transactionAddress (hx : bc.Located) (t : H256) :
    ((transactionAddress t).run bc).1 = .ok (bc.m_extrasDB.transactionAddress t) := by
  show Except.ok (query bc.m_transactionAddresses bc.m_extrasDB.transactionAddress t).1 = _
  rw [query_fst, hx.cached.view]

theorem transactionLocation_snd (bc : BlockChain) (t : H256) :
    ((transactionLocation t).run bc).2 = ((transactionAddress t).run bc).2 := by
  show ((transactionAddress t >>= _).run bc).2 = _
  rw [run_bind]
  cases (transactionAddress t).run bc with
  | mk r s =>
    cases r with
    | error e => rfl
    | ok o =>
      cases o with
      | none => rfl
      | some a =>
        dsimp only
        split
        case isTrue => rfl
        case isFalse => rfl

theorem isKnownTransaction_snd (bc : BlockChain) (t : H256) :
    ((isKnownTransaction t).run bc).2 = ((transactionAddress t).run bc).2 := by
  show ((transactionAddress t >>= _).run bc).2 = _
  rw [run_bind]
  cases (transactionAddress t).run bc with
  | mk r s =>
    cases r with
    | error e => rfl
    | ok o =>
      cases o with
      | none => rfl
      | some a => rfl

theorem located_step (hx : bc.Located) {r : LookupRequest} (hr : bc.Succeeds r) :
    (bc.lookupStep r).Located := by
  cases r with
  | transactionLocation t =>
    rw [lookupStep, transactionLocation_snd]
    exact hx.lookup t
  | isKnownTransaction t =>
    rw [lookupStep, isKnownTransaction_snd]
    exact hx.lookup t
  | chain r =>
    have hproper : bc.Proper r := by
      cases r with
      | importBlock b mustBeNew verdict => exact hr.1
      | numberHash i => exact trivial
      | details h => exact trivial
      | block h => exact trivial
      | garbageCollect blocks details transactions => exact trivial
    cases step_cases hx.headed hproper with
    | inl h => exact hx.idle h.1
    | inr h =>
      obtain ⟨b, mustBeNew, route, rfl, _, _, hi, _⟩ := h
      by_cases himp : bc.improves b
      · obtain ⟨hleaving, hnodup, hstaying⟩ := hr.2 himp
        exact located_advances hx hi (hi.advances himp) hleaving hnodup hstaying
      · exact located_stays hx hi (hi.stays himp)

theorem located_fresh {genesis : VerifiedBlock} (tieBreakingGas : Bool)
    (h0 : genesis.info.number = 0) (hne : genesis.info.hash ≠ H256.zero)
    (htx : genesis.transactions = []) : (fresh genesis tieBreakingGas).Located := by
  refine ⟨headed_fresh tieBreakingGas h0 hne, htx, fun t h i => ?_, fun t a ha => by cases ha⟩
  refine iff_of_false (fun he => by cases he) ?_
  intro hex
  obtain ⟨n, _, _, hget⟩ := hex
  have hnil : (fresh genesis tieBreakingGas).transactionsOf h = [] := by
    rw [transactionsOf]
    split
    case isTrue => exact htx
    case isFalse => rfl
  rw [hnil] at hget
  cases hget

theorem Located.ne_zero (hx : bc.Located) {t h : H256} {i : ℕ} (ht : bc.IsAt t h i) :
    h ≠ H256.zero := by
  obtain ⟨n, _, hh, _⟩ := ht
  rw [hh]
  exact hx.headed.linked.ne_zero (hx.headed.linked.rooted.mem_ancestor hx.headed.head n)

theorem run_transactionLocation (hx : bc.Located) (t : H256) {h : H256} (hh : h ≠ H256.zero)
    (i : ℕ) : ((transactionLocation t).run bc).1 = .ok (h, i) ↔ bc.IsAt t h i := by
  have hrun : (transactionAddress t).run bc =
      (.ok (bc.m_extrasDB.transactionAddress t), ((transactionAddress t).run bc).2) :=
    Prod.ext (run_transactionAddress hx t) rfl
  rw [← hx.located, transactionLocation, run_bind_ok hrun]
  cases ha : bc.m_extrasDB.transactionAddress t with
  | none =>
    refine iff_of_false (fun he => ?_) fun he => by cases he
    have hpair := Except.ok.inj he
    exact hh (congrArg Prod.fst hpair).symm
  | some a =>
    have hne : a.blockHash ≠ H256.zero := hx.ne_zero ((hx.located t a.blockHash a.index).mp ha)
    dsimp only
    rw [if_neg hne]
    constructor
    · intro he
      cases Except.ok.inj he
      rfl
    · intro he
      cases he
      rfl

theorem run_isKnownTransaction (hx : bc.Located) (t : H256) :
    ((isKnownTransaction t).run bc).1 = .ok true ↔ ∃ h i, bc.IsAt t h i := by
  have hrun : (transactionAddress t).run bc =
      (.ok (bc.m_extrasDB.transactionAddress t), ((transactionAddress t).run bc).2) :=
    Prod.ext (run_transactionAddress hx t) rfl
  rw [isKnownTransaction, run_bind_ok hrun]
  cases ha : bc.m_extrasDB.transactionAddress t with
  | none =>
    refine iff_of_false (fun he => Bool.false_ne_true (Except.ok.inj he)) ?_
    intro hex
    obtain ⟨h, i, hat⟩ := hex
    rw [(hx.located t h i).mpr hat] at ha
    cases ha
  | some a =>
    have hat := (hx.located t a.blockHash a.index).mp ha
    refine iff_of_true ?_ ⟨_, _, hat⟩
    show Except.ok (decide (a.blockHash ≠ H256.zero)) = _
    rw [decide_eq_true (hx.ne_zero hat)]

/-- In a run in which every new head takes over the transactions of the blocks it replaces, lookups
of transactions find those of the chain of the head, and no others, after every request. -/
theorem transactionLocation_of_takesOver (genesis : VerifiedBlock) (tieBreakingGas : Bool)
    (h0 : genesis.info.number = 0) (hne : genesis.info.hash ≠ H256.zero)
    (htx : genesis.transactions = []) (l : List LookupRequest)
    (hl : Runs.Along lookupStep Succeeds (fresh genesis tieBreakingGas) l) :
    ∀ pre, pre <+: l → let bc := pre.foldl lookupStep (fresh genesis tieBreakingGas)
      ∀ t, (∀ h, h ≠ H256.zero → ∀ i,
          ((transactionLocation t).run bc).1 = .ok (h, i) ↔ bc.IsAt t h i) ∧
        (((isKnownTransaction t).run bc).1 = .ok true ↔ ∃ h i, bc.IsAt t h i) := by
  intro pre hpre bc t
  have hx : bc.Located := (hl.initial hpre).foldl (P := Located)
    (fun hx hr => located_step hx hr) (located_fresh tieBreakingGas h0 hne htx)
  exact ⟨fun h hh i => run_transactionLocation hx t hh i, run_isKnownTransaction hx t⟩

/-! ### A transaction left behind -/

def sampleTransaction : H256 := H256.alignRight [0x77]

/-- A block with a transaction gives way to a heavier one. -/
def replacedBy (transactions : List H256) : List LookupRequest :=
  [.chain (.importBlock {sampleBlock 0xa1 0x01 1 1 with transactions := [sampleTransaction]}
      true true),
    .chain (.importBlock {sampleBlock 0xb1 0x01 1 9 with transactions := transactions} true true)]

theorem transactionLocation_of_takesOver_sample :
    (((transactionLocation sampleTransaction).run
      ((replacedBy [sampleTransaction]).foldl lookupStep (fresh sampleGenesis false))).1 =
        .ok (H256.alignRight [0xb1], 0) ↔
      ((replacedBy [sampleTransaction]).foldl lookupStep (fresh sampleGenesis false)).IsAt
        sampleTransaction (H256.alignRight [0xb1]) 0) :=
  (transactionLocation_of_takesOver sampleGenesis false rfl (by decide) rfl
    (replacedBy [sampleTransaction]) (by decide +kernel) _ (List.prefix_refl _)
    sampleTransaction).1 _ (by decide) 0

/-- Without the transaction in the heavier block, it is still found in the one that was replaced. -/
theorem transactionLocation_left_behind :
    ((replacedBy []).foldl lookupStep (fresh sampleGenesis false)).m_lastBlockHash =
      H256.alignRight [0xb1] ∧
    ((transactionLocation sampleTransaction).run
      ((replacedBy []).foldl lookupStep (fresh sampleGenesis false))).1 =
        .ok (H256.alignRight [0xa1], 0) ∧
    ((isKnownTransaction sampleTransaction).run
      ((replacedBy []).foldl lookupStep (fresh sampleGenesis false))).1 = .ok true ∧
    ¬ ((replacedBy []).foldl lookupStep (fresh sampleGenesis false)).IsAt sampleTransaction
      (H256.alignRight [0xa1]) 0 := by
  refine ⟨by decide +kernel, by decide +kernel, by decide +kernel, ?_⟩
  intro hat
  obtain ⟨n, hn, hh, _⟩ := hat
  have hnum : ((replacedBy []).foldl lookupStep (fresh sampleGenesis false)).m_lastBlockNumber =
      1 := by decide +kernel
  have hoff : ∀ n ≤ 1, H256.alignRight [0xa1] ≠
      ((replacedBy []).foldl lookupStep (fresh sampleGenesis false)).ancestorOf
        ((replacedBy []).foldl lookupStep (fresh sampleGenesis false)).m_lastBlockHash n := by
    decide +kernel
  exact hoff n (by rwa [hnum] at hn) hh

end BlockChain
end Aleth.Ethereum
