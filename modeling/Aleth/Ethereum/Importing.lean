import Aleth.Ethereum.BlockTree

/-! What an import does.

An import either fails, and then has filled caches at most, or stores the block
(`Inserts`). The block becomes the head if it is better than the present one:
the route to it is written to the index and to the table of transactions. -/
namespace Aleth.Ethereum
open Devcore ReadThrough Throwing Ancestry

/-! ### Batches -/

namespace Extras
variable (e : Extras)

theorem commit_append (l l' : List ExtrasWrite) : e.commit (l ++ l') = (e.commit l).commit l' :=
  List.foldl_append

theorem commit_blockHash_congr {e e' : Extras} (h : e'.blockHash = e.blockHash)
    (l : List ExtrasWrite) : (e'.commit l).blockHash = (e.commit l).blockHash := by
  induction l generalizing e e' with
  | nil => exact h
  | cons w l ih =>
    apply ih
    cases w with
    | details k d => exact h
    | blockHash n k => exact congrArg (Function.update · n (some k)) h
    | transactionAddress t a => exact h

theorem commit_transactionAddress_congr {e e' : Extras}
    (h : e'.transactionAddress = e.transactionAddress) (l : List ExtrasWrite) :
    (e'.commit l).transactionAddress = (e.commit l).transactionAddress := by
  induction l generalizing e e' with
  | nil => exact h
  | cons w l ih =>
    apply ih
    cases w with
    | details k d => exact h
    | blockHash n k => exact h
    | transactionAddress t a => exact congrArg (Function.update · t (some a)) h

theorem commit_transactions (hash : H256) (l : List (H256 × ℕ)) :
    (e.commit (l.map fun x => .transactionAddress x.1 ⟨hash, x.2⟩)).details = e.details ∧
    (e.commit (l.map fun x => .transactionAddress x.1 ⟨hash, x.2⟩)).blockHash = e.blockHash := by
  induction l generalizing e with
  | nil => exact ⟨rfl, rfl⟩
  | cons x l ih => exact ih (e.insert (.transactionAddress x.1 ⟨hash, x.2⟩))

theorem commit_canonicalWrites (b : VerifiedBlock) :
    (e.commit (BlockChain.canonicalWrites b)).details = e.details ∧
    (e.commit (BlockChain.canonicalWrites b)).blockHash =
      Function.update e.blockHash b.info.number (some b.info.hash) := by
  obtain ⟨hd, hb⟩ := commit_transactions e b.info.hash b.transactions.zipIdx
  rw [BlockChain.canonicalWrites, commit_append]
  refine ⟨hd, ?_⟩
  rw [← hb]
  rfl

theorem commit_route_details (l : List VerifiedBlock) :
    (e.commit (l.flatMap BlockChain.canonicalWrites)).details = e.details := by
  induction l generalizing e with
  | nil => rfl
  | cons b l ih => rw [List.flatMap_cons, commit_append, ih, (commit_canonicalWrites e b).1]

/-- A number that no block of the route has keeps its entry. -/
theorem commit_route_of_ne {l : List VerifiedBlock} {n : ℕ} (h : ∀ b ∈ l, b.info.number ≠ n) :
    (e.commit (l.flatMap BlockChain.canonicalWrites)).blockHash n = e.blockHash n := by
  induction l generalizing e with
  | nil => rfl
  | cons b l ih =>
    rw [List.flatMap_cons, commit_append, ih _ fun t ht => h t (List.mem_cons_of_mem b ht),
      (commit_canonicalWrites e b).2, Function.update_of_ne (h b List.mem_cons_self).symm]

/-- A number that blocks of the route have gets the entry they agree on. -/
theorem commit_route_of_mem {l : List VerifiedBlock} {n : ℕ} {h : H256}
    (hmem : ∃ b ∈ l, b.info.number = n) (hsame : ∀ b ∈ l, b.info.number = n → b.info.hash = h) :
    (e.commit (l.flatMap BlockChain.canonicalWrites)).blockHash n = some h := by
  induction l generalizing e with
  | nil =>
    obtain ⟨b, hb, _⟩ := hmem
    cases hb
  | cons t l ih =>
    rw [List.flatMap_cons, commit_append]
    by_cases hlater : ∃ b ∈ l, b.info.number = n
    · exact ih _ hlater fun b hb => hsame b (List.mem_cons_of_mem t hb)
    · have ht : t.info.number = n := by
        obtain ⟨b, hb, hn⟩ := hmem
        cases List.mem_cons.mp hb with
        | inl he => rw [← he, hn]
        | inr hm => exact absurd ⟨b, hm, hn⟩ hlater
      rw [commit_route_of_ne _ fun b hb hn => hlater ⟨b, hb, hn⟩, (commit_canonicalWrites e t).2,
        ht, Function.update_self, hsame t List.mem_cons_self ht]

end Extras

namespace BlockChain
variable {bc : BlockChain}

/-! ### The databases after an import -/

/-- A block that an import may add: it fits its parent, and its hash is that of no other block. -/
structure Insertable (bc : BlockChain) (b : VerifiedBlock) : Prop where
  placed : bc.Placed b.info.hash b
  unique : ∀ t, bc.m_blocksDB b.info.hash = some t → t = b

/-- `bc'` has the blocks of `bc` and the block `b`. -/
structure Adds (bc bc' : BlockChain) (b : VerifiedBlock) : Prop where
  genesis : bc'.m_genesis = bc.m_genesis
  blocks : bc'.m_blocksDB = Function.update bc.m_blocksDB b.info.hash (some b)

section Adds
variable {bc' : BlockChain} {b : VerifiedBlock}

theorem Adds.genesisHash (ha : Adds bc bc' b) : bc'.genesisHash = bc.genesisHash := by
  rw [BlockChain.genesisHash, ha.genesis, BlockChain.genesisHash]

theorem Adds.header_new (ha : Adds bc bc' b) (hi : bc.Insertable b) :
    bc'.header b.info.hash = some b.info := by
  rw [header_of_ne (by rw [ha.genesisHash]; exact hi.placed.ne_genesis), ha.blocks,
    Function.update_self]
  rfl

theorem Adds.header_old (ha : Adds bc bc' b) (hi : bc.Insertable b) {h : H256}
    (hs : bc.Stored h) : bc'.header h = bc.header h := by
  by_cases hg : h = bc.genesisHash
  · rw [hg, header_genesis, ← ha.genesisHash, header_genesis, ha.genesis]
  · rw [header_of_ne (by rwa [ha.genesisHash]), header_of_ne hg, ha.blocks, Function.update_apply]
    split
    case isTrue he =>
      obtain ⟨t, ht, _⟩ := hs.block hg
      rw [ht, hi.unique t (by rw [← he, ht])]
    case isFalse => rfl

theorem Adds.stored (ha : Adds bc bc' b) (hi : bc.Insertable b) {h : H256} (hs : bc.Stored h) :
    bc'.Stored h := by
  rw [Stored, ha.header_old hi hs]
  exact hs

theorem Adds.stored_new (ha : Adds bc bc' b) (hi : bc.Insertable b) : bc'.Stored b.info.hash := by
  rw [Stored, ha.header_new hi]
  rfl

theorem Adds.heightOf_old (ha : Adds bc bc' b) (hi : bc.Insertable b) {h : H256}
    (hs : bc.Stored h) : bc'.heightOf h = bc.heightOf h := by
  rw [heightOf, ha.header_old hi hs, heightOf]

theorem Adds.parentOf_old (ha : Adds bc bc' b) (hi : bc.Insertable b) {h : H256}
    (hs : bc.Stored h) : bc'.parentOf h = bc.parentOf h := by
  rw [parentOf, ha.header_old hi hs, parentOf]

theorem Adds.heightOf_new (ha : Adds bc bc' b) (hi : bc.Insertable b) :
    bc'.heightOf b.info.hash = b.info.number := by
  rw [heightOf, ha.header_new hi]
  rfl

theorem Adds.parentOf_new (ha : Adds bc bc' b) (hi : bc.Insertable b) :
    bc'.parentOf b.info.hash = b.info.parentHash := by
  rw [parentOf, ha.header_new hi]
  rfl

theorem Adds.ancestorOf_old (ha : Adds bc bc' b) (hl : bc.Linked) (hi : bc.Insertable b)
    {h : H256} (hs : bc.Stored h) (n : ℕ) : bc'.ancestorOf h n = bc.ancestorOf h n :=
  hl.rooted.ancestor_congr (fun _ hx _ => ha.parentOf_old hi hx)
    (fun _ hx => ha.heightOf_old hi hx) hs n

theorem Adds.placed (ha : Adds bc bc' b) (hi : bc.Insertable b) {h : H256} {t : VerifiedBlock}
    (hp : bc.Placed h t) : bc'.Placed h t where
  hash := hp.hash
  ne_zero := hp.ne_zero
  ne_genesis := by
    rw [ha.genesisHash]
    exact hp.ne_genesis
  number_lt := hp.number_lt
  parent := ha.stored hi hp.parent
  number := by
    rw [ha.heightOf_old hi hp.parent]
    exact hp.number

theorem Adds.describes (ha : Adds bc bc' b) (hi : bc.Insertable b) {h : H256} {d : BlockDetails}
    (hd : bc.Describes h d) : bc'.Describes h d := by
  obtain ⟨hs, hn, hp⟩ := hd
  refine ⟨ha.stored hi hs, by rw [ha.heightOf_old hi hs, hn], fun hg => ?_⟩
  rw [ha.parentOf_old hi hs]
  rw [ha.genesisHash] at hg
  exact hp hg

/-- Storing a block keeps the tree, if the details written are those of `b` or were there. -/
theorem Adds.linked (ha : Adds bc bc' b) (hl : bc.Linked) (hi : bc.Insertable b)
    (hcached : bc'.m_blocks = bc.m_blocks) (hdetails : bc'.m_details = bc.m_details)
    (hwritten : ∀ h d, bc'.m_extrasDB.details h = some d → bc.Describes h d ∨
      h = b.info.hash ∧ d.number = b.info.number ∧ d.parent = b.info.parentHash)
    (hkept : ∀ h, (bc.m_extrasDB.details h).isSome ∨ h = b.info.hash →
      (bc'.m_extrasDB.details h).isSome) : bc'.Linked where
  genesis_ne_zero := by
    rw [ha.genesisHash]
    exact hl.genesis_ne_zero
  genesis_number := by
    rw [ha.genesis]
    exact hl.genesis_number
  placed h t ht := by
    rw [ha.blocks, Function.update_apply] at ht
    split at ht
    case isTrue he =>
      cases ht
      rw [he]
      exact ha.placed hi hi.placed
    case isFalse => exact ha.placed hi (hl.placed h t ht)
  cached h t ht := by
    rw [hcached] at ht
    have hold := hl.cached h t ht
    rw [ha.blocks, Function.update_apply]
    split
    case isTrue he =>
      rw [he] at hold
      rw [hi.unique t hold]
    case isFalse => exact hold
  describes h d hd := by
    cases hd with
    | inl hd =>
      rw [hdetails] at hd
      exact ha.describes hi (hl.describes h d (Or.inl hd))
    | inr hd =>
      cases hwritten h d hd with
      | inl hold => exact ha.describes hi hold
      | inr hnew =>
        obtain ⟨rfl, hn, hp⟩ := hnew
        exact ⟨ha.stored_new hi, by rw [ha.heightOf_new hi, hn],
          fun _ => by rw [ha.parentOf_new hi, hp]⟩
  detailed h hs := by
    apply hkept
    by_cases he : h = b.info.hash
    · exact Or.inr he
    · refine Or.inl (hl.detailed h ?_)
      rw [Stored] at hs ⊢
      by_cases hg : h = bc.genesisHash
      · rw [hg]
        exact bc.stored_genesis
      · rw [header_of_ne (by rwa [ha.genesisHash]), ha.blocks, Function.update_of_ne he] at hs
        rwa [header_of_ne hg]

end Adds

/-! ### Writing the route -/

theorem asks_routeWrites (hl : bc.Linked) {b : VerifiedBlock} {common : H256}
    (blk : H256 → VerifiedBlock) {pre : List H256} (rest : List H256)
    (hne : ∀ i ∈ pre, i ≠ common)
    (hblk : ∀ i ∈ pre, i = b.info.hash ∧ blk i = b ∨
      i ≠ b.info.hash ∧ i ≠ bc.genesisHash ∧ bc.m_blocksDB i = some (blk i)) :
    bc.Asks (routeWrites b common (pre ++ common :: rest))
      (.ok ((pre.map blk).flatMap canonicalWrites)) := by
  induction pre with
  | nil =>
    show bc.Asks (routeWrites b common (common :: rest)) (.ok [])
    unfold routeWrites
    rw [if_pos rfl]
    exact Sees.pure _
  | cons i pre ih =>
    have hrest := ih (fun j hj => hne j (List.mem_cons_of_mem i hj))
      fun j hj => hblk j (List.mem_cons_of_mem i hj)
    have hfetch : bc.Asks (routeBlock b i) (.ok (some (blk i))) := by
      unfold routeBlock
      cases hblk i List.mem_cons_self with
      | inl h =>
        rw [if_pos h.1, h.2]
        exact Sees.pure _
      | inr h =>
        obtain ⟨hi, hg, hdb⟩ := h
        rw [if_neg hi]
        have := bc.asks_block i
        rwa [if_neg hg, hl.cached.view, hdb] at this
    rw [List.cons_append]
    unfold routeWrites
    rw [if_neg (hne i List.mem_cons_self)]
    exact hfetch.bind (hrest.bind (Sees.pure _))

theorem Insertable.congr {bc' : BlockChain} {b : VerifiedBlock} (hi : bc.Insertable b)
    (hg : bc'.m_genesis = bc.m_genesis) (hb : bc'.m_blocksDB = bc.m_blocksDB) :
    bc'.Insertable b := by
  refine ⟨placed_congr hg hb hi.placed, fun t ht => hi.unique t ?_⟩
  rwa [hb] at ht

/-- The writes that every import makes, followed by those along a route. -/
def batchOf (b : VerifiedBlock) (d d' : BlockDetails) (l : List VerifiedBlock) : List ExtrasWrite :=
  [.details b.info.parentHash d, .details b.info.hash d'] ++ l.flatMap canonicalWrites

theorem batchOf_details (e : Extras) (b : VerifiedBlock) (d d' : BlockDetails)
    (l : List VerifiedBlock) : (e.commit (batchOf b d d' l)).details =
      Function.update (Function.update e.details b.info.parentHash (some d)) b.info.hash (some d') := by
  rw [batchOf, Extras.commit_append, Extras.commit_route_details]
  rfl

theorem linked_commit (hl : bc.Linked) {b : VerifiedBlock} (hi : bc.Insertable b)
    {d d' : BlockDetails} (hd : bc.Describes b.info.parentHash d)
    (hd' : d'.number = b.info.number ∧ d'.parent = b.info.parentHash) (l : List VerifiedBlock) :
    (commit b (batchOf b d d' l) bc).Linked := by
  have ha : Adds bc (commit b (batchOf b d d' l) bc) b := ⟨rfl, rfl⟩
  have hdetails : (commit b (batchOf b d d' l) bc).m_extrasDB.details = _ :=
    batchOf_details bc.m_extrasDB b d d' l
  apply ha.linked hl hi rfl rfl
  · intro h e he
    rw [hdetails, Function.update_apply] at he
    split at he
    case isTrue heq =>
      cases he
      exact Or.inr ⟨heq, hd'⟩
    case isFalse =>
      rw [Function.update_apply] at he
      split at he
      case isTrue heq =>
        cases he
        rw [heq]
        exact Or.inl hd
      case isFalse => exact Or.inl (hl.describes h e (Or.inr he))
  · intro h hh
    rw [hdetails, Function.update_apply]
    split
    case isTrue => rfl
    case isFalse hne =>
      rw [Function.update_apply]
      split
      case isTrue => rfl
      case isFalse =>
        cases hh with
        | inl hold => exact hold
        | inr heq => exact absurd heq hne

/-- The chain of a new block is the block and the chain of its parent. -/
theorem ancestorOf_new {bc' : BlockChain} {b : VerifiedBlock} (ha : Adds bc bc' b)
    (hl : bc.Linked) (hl' : bc'.Linked) (hi : bc.Insertable b) {n : ℕ} (hn : n < b.info.number) :
    bc'.ancestorOf b.info.hash n = bc.ancestorOf b.info.parentHash n := by
  have hne : b.info.hash ≠ bc'.genesisHash := by
    rw [ha.genesisHash]
    exact hi.placed.ne_genesis
  have hp := hi.placed.number
  have hstep := hl'.rooted.ancestor_parent (ha.stored_new hi) hne (n := n) (by
    rw [ha.parentOf_new hi, ha.heightOf_old hi hi.placed.parent]
    omega)
  rw [ha.parentOf_new hi] at hstep
  rw [ancestorOf, hstep, ← ancestorOf, ha.ancestorOf_old hl hi hi.placed.parent]

/-- The block of a hash once `b` is stored. -/
def blockOnRoute (bc : BlockChain) (b : VerifiedBlock) (h : H256) : VerifiedBlock :=
  (Function.update bc.m_blocksDB b.info.hash (some b) h).getD b

/-- The blocks that become canonical with `b`, if its chain leaves the old one at height `k`. -/
def routeBlocks (bc : BlockChain) (b : VerifiedBlock) (k : ℕ) : List VerifiedBlock :=
  (b.info.hash :: bc.pathOf b.info.parentHash k).map (bc.blockOnRoute b)

section Route
variable {b : VerifiedBlock} {k : ℕ}

theorem blockOnRoute_new (bc : BlockChain) (b : VerifiedBlock) :
    bc.blockOnRoute b b.info.hash = b := by
  rw [blockOnRoute, Function.update_self]
  rfl

theorem blockOnRoute_old (hi : bc.Insertable b) {h : H256} (hs : bc.Stored h)
    (hg : h ≠ bc.genesisHash) : bc.m_blocksDB h = some (bc.blockOnRoute b h) := by
  obtain ⟨t, ht, _⟩ := hs.block hg
  rw [blockOnRoute, Function.update_apply]
  split
  case isTrue he => rw [ht, hi.unique t (by rw [← he, ht])]; rfl
  case isFalse => rw [ht]; rfl

/-- A block of the route below `b`: the ancestor of the parent at some height above `k`. -/
theorem blockOnRoute_ancestor (hl : bc.Linked) (hi : bc.Insertable b) {j : ℕ} (hj : 0 < j)
    (hle : j ≤ bc.heightOf b.info.parentHash) :
    let h := bc.ancestorOf b.info.parentHash j
    h ≠ b.info.hash ∧ h ≠ bc.genesisHash ∧ bc.m_blocksDB h = some (bc.blockOnRoute b h) ∧
      (bc.blockOnRoute b h).info.number = j ∧ (bc.blockOnRoute b h).info.hash = h := by
  intro h
  have hp := hi.placed.parent
  have hs : bc.Stored h := hl.rooted.mem_ancestor hp j
  have hheight : bc.heightOf h = j := hl.rooted.height_ancestor hp hle
  have hg : h ≠ bc.genesisHash := hl.ne_genesis (by rwa [hheight])
  have hb := blockOnRoute_old hi hs hg
  have hplaced := hl.placed h _ hb
  have hnum : (bc.blockOnRoute b h).info.number = j := by
    rw [← hheight, heightOf, header_of_ne hg, hb]
    rfl
  refine ⟨fun he => ?_, hg, hb, hnum, hplaced.hash⟩
  have := hi.placed.number
  rw [he, blockOnRoute_new] at hnum
  omega

theorem mem_routeBlocks (hl : bc.Linked) (hi : bc.Insertable b) {t : VerifiedBlock}
    (ht : t ∈ bc.routeBlocks b k) : t = b ∨ k < t.info.number ∧ t.info.number < b.info.number ∧
      t.info.hash = bc.ancestorOf b.info.parentHash t.info.number := by
  obtain ⟨h, hh, rfl⟩ := List.mem_map.mp ht
  cases List.mem_cons.mp hh with
  | inl he => exact Or.inl (by rw [he, blockOnRoute_new])
  | inr hm =>
    obtain ⟨j, hkj, hj, rfl⟩ := mem_path.mp hm
    obtain ⟨_, _, _, hnum, hhash⟩ := blockOnRoute_ancestor hl hi (Nat.zero_lt_of_lt hkj) hj
    have := hi.placed.number
    refine Or.inr ?_
    show k < (bc.blockOnRoute b (bc.ancestorOf b.info.parentHash j)).info.number ∧ _
    rw [show ancestor bc.parentOf bc.heightOf b.info.parentHash j =
      bc.ancestorOf b.info.parentHash j from rfl, hnum, hhash]
    exact ⟨hkj, by omega, rfl⟩

theorem exists_routeBlocks (hl : bc.Linked) (hi : bc.Insertable b) {j : ℕ} (hkj : k < j)
    (hj : j ≤ b.info.number) : ∃ t ∈ bc.routeBlocks b k, t.info.number = j := by
  have hnum := hi.placed.number
  by_cases he : j = b.info.number
  · exact ⟨b, List.mem_map.mpr ⟨_, List.mem_cons_self, blockOnRoute_new bc b⟩, he.symm⟩
  · have hj' : j ≤ bc.heightOf b.info.parentHash := by omega
    obtain ⟨_, _, _, hn, _⟩ := blockOnRoute_ancestor hl hi (Nat.zero_lt_of_lt hkj) hj'
    exact ⟨_, List.mem_map.mpr ⟨_, List.mem_cons_of_mem _ (mem_path.mpr ⟨j, hkj, hj', rfl⟩), rfl⟩,
      hn⟩

/-- Up to `k` the index is left alone, and above it lists the chain of `b`. -/
theorem blockHash_commit (hl : bc.Linked) (hi : bc.Insertable b) {n : ℕ}
    (hk : k ≤ bc.heightOf b.info.parentHash) :
    (bc.m_extrasDB.commit ((bc.routeBlocks b k).flatMap canonicalWrites)).blockHash n =
      if k < n ∧ n ≤ b.info.number then
        some (if n = b.info.number then b.info.hash else bc.ancestorOf b.info.parentHash n)
      else bc.m_extrasDB.blockHash n := by
  have hnum := hi.placed.number
  split
  case isTrue h =>
    apply Extras.commit_route_of_mem _ (exists_routeBlocks hl hi h.1 h.2)
    intro t ht hn
    cases mem_routeBlocks hl hi ht with
    | inl he => rw [if_pos (by rw [← hn, he]), he]
    | inr ho => rw [if_neg (by omega), ho.2.2, hn]
  case isFalse h =>
    apply Extras.commit_route_of_ne
    intro t ht hn
    cases mem_routeBlocks hl hi ht with
    | inl he =>
      rw [he] at hn
      omega
    | inr ho => omega

end Route

/-- Looking a stored block's details up leaves them in the cache. -/
theorem run_details (hl : bc.Linked) {h : H256} (hs : bc.Stored h) :
    ∃ s, (details h).run bc = (.ok (bc.detailsOf h), s) ∧ s.settled = bc.settled ∧
      s.m_details h = some (bc.detailsOf h) := by
  obtain ⟨s, hrun, hset⟩ := (bc.asks_details h).run rfl
  refine ⟨s, hrun, hset, ?_⟩
  obtain ⟨d, hd⟩ := Option.isSome_iff_exists.mp (hl.detailed h hs)
  have hs' : s = {bc with m_details := (query bc.m_details bc.m_extrasDB.details h).2} :=
    (congrArg Prod.snd hrun).symm
  rw [hs', detailsOf, view]
  show (query bc.m_details bc.m_extrasDB.details h).2 h = _
  rw [query]
  cases hc : bc.m_details h with
  | some e => exact hc
  | none =>
    rw [hd]
    exact Function.update_self _ _ _

/-- Hashes of blocks: none is zero, and no two blocks have the same. Numbers stay below the one
that marks missing details. -/
structure Admissible (bc : BlockChain) (b : VerifiedBlock) : Prop where
  ne_zero : b.info.hash ≠ H256.zero
  number_lt : b.info.number < c_invalidNumber
  genesis : b.info.hash = bc.genesisHash → b = bc.m_genesis
  unique : bc.m_blocksDB b.info.hash = none ∨ bc.m_blocksDB b.info.hash = some b

instance decidableAdmissible (bc : BlockChain) (b : VerifiedBlock) : Decidable (bc.Admissible b) :=
  decidable_of_iff (b.info.hash ≠ H256.zero ∧ b.info.number < c_invalidNumber ∧
      (b.info.hash = bc.genesisHash → b = bc.m_genesis) ∧
      (bc.m_blocksDB b.info.hash = none ∨ bc.m_blocksDB b.info.hash = some b))
    ⟨fun ⟨h₁, h₂, h₃, h₄⟩ => ⟨h₁, h₂, h₃, h₄⟩, fun ⟨h₁, h₂, h₃, h₄⟩ => ⟨h₁, h₂, h₃, h₄⟩⟩

/-- A block that passes for new is not stored, or stands above the head. -/
theorem asks_checkBlockIsNew (hl : bc.Linked) (b : VerifiedBlock) (mustBeNew : Bool) :
    ∃ r, bc.Asks (if mustBeNew then checkBlockIsNew b else return ()) r ∧
      (r = .ok () → mustBeNew = true → bc.Stored b.info.hash →
        bc.m_lastBlockNumber < bc.heightOf b.info.hash) := by
  cases mustBeNew with
  | false => exact ⟨_, Sees.pure _, fun _ h => by cases h⟩
  | true =>
    obtain ⟨r, hr, hknown⟩ := asks_isKnown hl b.info.hash true
    cases r with
    | true => exact ⟨_, hr.bind (Sees.throw _), fun h => by cases h⟩
    | false =>
      refine ⟨_, hr.bind (Sees.pure _), fun _ _ hs => ?_⟩
      by_contra hle
      exact Bool.false_ne_true (hknown.mpr ⟨hs, fun _ => Nat.le_of_not_lt hle⟩)

/-- A header that passes fits its parent. -/
theorem asks_verifyBlock (hl : bc.Linked) (h : BlockHeader) :
    ∃ r, bc.Asks (verifyBlock h) r ∧ (r = .ok () → h.number = bc.heightOf h.parentHash + 1) := by
  have hhead := asks_headerData hl h.parentHash
  cases hp : bc.header h.parentHash with
  | none =>
    rw [hp] at hhead
    exact ⟨_, hhead.bind (Sees.throw _), fun he => by cases he⟩
  | some parent =>
    rw [hp] at hhead
    have hheight : bc.heightOf h.parentHash = parent.number := by
      rw [heightOf, hp]
      rfl
    rw [hheight]
    by_cases hbig : 2 ^ 32 - 1 < h.number
    · refine ⟨_, hhead.bind (r := .error .invalidNumber) ?_, fun he => by cases he⟩
      dsimp only
      rw [if_pos hbig]
      exact Sees.throw _
    · by_cases hne : h.number ≠ parent.number + 1
      · refine ⟨_, hhead.bind (r := .error .invalidNumber) ?_, fun he => by cases he⟩
        dsimp only
        rw [if_neg hbig, if_pos hne]
        exact Sees.throw _
      · refine ⟨_, hhead.bind (r := .ok ()) ?_, fun _ => not_not.mp hne⟩
        dsimp only
        rw [if_neg hbig, if_neg hne]
        exact Sees.pure _

theorem asks_verifyBlock_ok (hl : bc.Linked) {h : BlockHeader} (hlt : h.number < c_invalidNumber)
    (hp : bc.Stored h.parentHash) (hn : h.number = bc.heightOf h.parentHash + 1) :
    bc.Asks (verifyBlock h) (.ok ()) := by
  obtain ⟨parent, hparent⟩ := Option.isSome_iff_exists.mp hp
  have hhead := asks_headerData hl h.parentHash
  have hheight : bc.heightOf h.parentHash = parent.number := by
    rw [heightOf, hparent]
    rfl
  rw [hparent] at hhead
  have hbig : ¬2 ^ 32 - 1 < h.number := by
    rw [c_invalidNumber] at hlt
    omega
  refine hhead.bind (r := .ok ()) ?_
  dsimp only
  rw [if_neg hbig, if_neg (not_not.mpr (hheight ▸ hn))]
  exact Sees.pure _

theorem asks_verifyBlock_error (hl : bc.Linked) {h : BlockHeader}
    (hlt : h.number < c_invalidNumber) (hp : bc.Stored h.parentHash)
    (hn : h.number ≠ bc.heightOf h.parentHash + 1) :
    bc.Asks (verifyBlock h) (.error .invalidNumber) := by
  obtain ⟨parent, hparent⟩ := Option.isSome_iff_exists.mp hp
  have hhead := asks_headerData hl h.parentHash
  have hheight : bc.heightOf h.parentHash = parent.number := by
    rw [heightOf, hparent]
    rfl
  rw [hparent] at hhead
  have hbig : ¬2 ^ 32 - 1 < h.number := by
    rw [c_invalidNumber] at hlt
    omega
  refine hhead.bind (r := .error .invalidNumber) ?_
  dsimp only
  rw [if_neg hbig, if_pos (hheight ▸ hn)]
  exact Sees.throw _

/-! ### Moving the head -/

/-- The head is a stored block, at its height. -/
structure Headed (bc : BlockChain) : Prop where
  linked : bc.Linked
  head : bc.Stored bc.m_lastBlockHash
  number : bc.m_lastBlockNumber = bc.heightOf bc.m_lastBlockHash

theorem Headed.of_settled {bc' : BlockChain} (hh : bc.Headed) (h : bc.settled = bc'.settled) :
    bc'.Headed := by
  obtain ⟨hg, _, hb, _, _, _, hlast, hnum⟩ := settled_eq h
  refine ⟨hh.linked.of_settled h, ?_, ?_⟩
  · rw [stored_congr hg hb, hlast]
    exact hh.head
  · rw [heightOf_congr hg hb, hlast, hnum]
    exact hh.number

/-- The height at which the chain of the head and that of a new block part. -/
def forkBelow (bc : BlockChain) (b : VerifiedBlock) : ℕ :=
  bc.forkOf bc.m_lastBlockHash b.info.parentHash

/-- The chain with the head about to leave its branch at height `k`. -/
def reverted (bc : BlockChain) (k : ℕ) : BlockChain :=
  if bc.ancestorOf bc.m_lastBlockHash k = bc.m_lastBlockHash then bc
  else clearCachesDuringChainReversion (k + 1) bc

theorem settled_reverted {bc' : BlockChain} (h : bc.settled = bc'.settled) (k : ℕ) :
    (bc.reverted k).settled = (bc'.reverted k).settled := by
  obtain ⟨hg, _, hb, _, _, _, hlast, _⟩ := settled_eq h
  rw [reverted, reverted, ancestorOf_congr hg hb, hlast]
  split
  case isTrue => exact h
  case isFalse =>
    have hsettled : ∀ c : BlockChain, (clearCachesDuringChainReversion (k + 1) c).settled =
        clearCachesDuringChainReversion (k + 1) c.settled := fun _ => rfl
    rw [hsettled, hsettled, h]

theorem run_revert (hh : bc.Headed) {k : ℕ} (hk : k ≤ bc.m_lastBlockNumber) :
    ∃ s, (revert (bc.ancestorOf bc.m_lastBlockHash k) bc.m_lastBlockHash).run bc = (.ok (), s) ∧
      s.settled = (bc.reverted k).settled := by
  obtain ⟨common, hcommon⟩ : ∃ c, c = bc.ancestorOf bc.m_lastBlockHash k := ⟨_, rfl⟩
  have hheight : bc.heightOf common = k := by
    rw [hcommon]
    exact hh.linked.rooted.height_ancestor hh.head (by rwa [← hh.number])
  have hstored : bc.Stored common := by
    rw [hcommon]
    exact hh.linked.rooted.mem_ancestor hh.head k
  rw [reverted, ← hcommon, revert]
  by_cases he : common = bc.m_lastBlockHash
  · rw [if_pos he, if_pos he]
    exact ⟨bc, rfl, rfl⟩
  · rw [if_neg he, if_neg he]
    obtain ⟨s, hrun, hs⟩ := (bc.asks_number common).run rfl
    rw [run_bind_ok hrun, (hh.linked.detailsOf hstored).2.1, hheight]
    refine ⟨_, rfl, ?_⟩
    show clearCachesDuringChainReversion (k + 1) s.settled = _
    rw [hs]
    rfl

/-- What the route tells: the blocks before the common ancestor are dead, those after it live. -/
theorem importRoute_eq {b : VerifiedBlock} {common : H256} {pre post : List H256}
    (hpre : ∀ h ∈ pre, h ≠ common) (hpost : ∀ h ∈ post, h ≠ common) :
    importRoute (pre ++ common :: post) common b = ⟨pre, post, b.transactions⟩ := by
  have htake : (pre ++ common :: post).takeWhile (· ≠ common) = pre := by
    rw [List.takeWhile_append_of_pos fun h hh => decide_eq_true (hpre h hh)]
    simp
  have hdrop : (pre ++ common :: post).dropWhile (· ≠ common) = common :: post := by
    rw [List.dropWhile_append_of_pos fun h hh => decide_eq_true (hpre h hh)]
    simp
  have hfilter : (common :: post).filter (· ≠ common) = post := by
    rw [List.filter_cons_of_neg (by simp), List.filter_eq_self.mpr]
    exact fun h hh => decide_eq_true (hpost h hh)
  rw [importRoute, htake, hdrop, hfilter]

/-- The blocks that a new head adds to the canonical chain do not contain the block where it leaves
the old one. -/
theorem ne_common (hh : bc.Headed) {b : VerifiedBlock} (hi : bc.Insertable b) {h : H256}
    (hmem : h ∈ b.info.hash :: bc.pathOf b.info.parentHash (bc.forkBelow b)) :
    h ≠ bc.ancestorOf bc.m_lastBlockHash (bc.forkBelow b) := by
  have hr := hh.linked.rooted
  have hp := hi.placed.parent
  have hfork : bc.ancestorOf bc.m_lastBlockHash (bc.forkBelow b) =
      bc.ancestorOf b.info.parentHash (bc.forkBelow b) := hr.ancestor_fork hh.head hp
  rw [hfork]
  intro he
  cases List.mem_cons.mp hmem with
  | inl hnew =>
    have hk : bc.forkBelow b ≤ bc.heightOf b.info.parentHash := fork_le_right _ _
    have hheight := hr.height_ancestor hp hk
    have hst := hr.mem_ancestor hp (bc.forkBelow b)
    rw [← ancestorOf, ← he, hnew] at hheight hst
    obtain ⟨t, ht, hhead⟩ := Stored.block hst hi.placed.ne_genesis
    rw [heightOf, hhead, hi.unique t ht] at hheight
    have hself : b.info.number = bc.forkBelow b := hheight
    have := hi.placed.number
    omega
  | inr hm =>
    rw [he] at hm
    exact hr.not_mem_path hp _ hm

/-- The block becomes the head: the blocks of the route are written, and reported. -/
theorem run_makeHead (hh : bc.Headed) {b : VerifiedBlock} (hi : bc.Insertable b)
    (batch : List ExtrasWrite) :
    ∃ s, (makeHead b batch).run bc =
      (.ok ⟨bc.pathOf bc.m_lastBlockHash (bc.forkBelow b),
          (b.info.hash :: bc.pathOf b.info.parentHash (bc.forkBelow b)).reverse, b.transactions⟩,
        setHead b (commit b
          (batch ++ (bc.routeBlocks b (bc.forkBelow b)).flatMap canonicalWrites) s)) ∧
      s.settled = (bc.reverted (bc.forkBelow b)).settled := by
  have hl := hh.linked
  have hr := hl.rooted
  have hp := hi.placed.parent
  obtain ⟨k, hkdef⟩ : ∃ k, k = bc.forkBelow b := ⟨_, rfl⟩
  have hk : k ≤ bc.m_lastBlockNumber := by
    rw [hkdef, hh.number]
    exact fork_le_left _ _
  have hk' : k ≤ bc.heightOf b.info.parentHash := by
    rw [hkdef]
    exact fork_le_right _ _
  rw [← hkdef]
  -- the route and the reversion
  obtain ⟨i, hroute⟩ := asks_wholeRoute hl hh.head hp
  rw [← forkBelow, ← hkdef] at hroute
  obtain ⟨s₁, hrun₁, hs₁⟩ := hroute.run rfl
  obtain ⟨hg₁, _, hb₁, _, _, _, hlast₁, hnum₁⟩ := settled_eq hs₁.symm
  obtain ⟨s₂, hrun₂, hs₂⟩ := run_revert (hh.of_settled hs₁.symm)
    (show k ≤ s₁.m_lastBlockNumber by rwa [hnum₁])
  rw [ancestorOf_congr hg₁ hb₁, hlast₁] at hrun₂
  rw [settled_reverted hs₁] at hs₂
  have hstate : ∀ {c : BlockChain}, c.settled = (bc.reverted k).settled → c.Linked ∧
      c.m_genesis = bc.m_genesis ∧ c.m_blocksDB = bc.m_blocksDB := by
    intro c hc
    have hrev : (bc.reverted k).Linked ∧ (bc.reverted k).m_genesis = bc.m_genesis ∧
        (bc.reverted k).m_blocksDB = bc.m_blocksDB := by
      rw [reverted]
      split
      case isTrue => exact ⟨hl, rfl, rfl⟩
      case isFalse =>
        exact ⟨hl.transfer rfl rfl hl.cached hl.describes fun _ h => h, rfl, rfl⟩
    obtain ⟨hg, _, hb, _⟩ := settled_eq hc.symm
    exact ⟨hrev.1.of_settled hc.symm, hg.trans hrev.2.1, hb.trans hrev.2.2⟩
  obtain ⟨hl₂, hg₂, hb₂⟩ := hstate hs₂
  -- the entries for the blocks of the route
  have hwrites : s₂.Asks (routeWrites b (bc.ancestorOf bc.m_lastBlockHash k)
      ((bc.pathOf bc.m_lastBlockHash k ++ bc.ancestorOf bc.m_lastBlockHash k ::
        (bc.pathOf b.info.parentHash k).reverse) ++ [b.info.hash]).reverse)
      (.ok ((bc.routeBlocks b k).flatMap canonicalWrites)) := by
    rw [show ((bc.pathOf bc.m_lastBlockHash k ++ bc.ancestorOf bc.m_lastBlockHash k ::
        (bc.pathOf b.info.parentHash k).reverse) ++ [b.info.hash]).reverse =
      (b.info.hash :: bc.pathOf b.info.parentHash k) ++ bc.ancestorOf bc.m_lastBlockHash k ::
        (bc.pathOf bc.m_lastBlockHash k).reverse by simp]
    apply asks_routeWrites hl₂ (bc.blockOnRoute b)
    · intro h hmem
      rw [hkdef] at hmem ⊢
      exact ne_common hh hi hmem
    · intro h hmem
      cases List.mem_cons.mp hmem with
      | inl hnew => exact Or.inl ⟨hnew, by rw [hnew, blockOnRoute_new]⟩
      | inr hm =>
        obtain ⟨j, hkj, hj, rfl⟩ := mem_path.mp hm
        obtain ⟨hne, hgen, hdb, _⟩ := blockOnRoute_ancestor hl hi (Nat.zero_lt_of_lt hkj) hj
        refine Or.inr ⟨hne, ?_, ?_⟩
        · rw [genesisHash, hg₂]
          exact hgen
        · rw [hb₂]
          exact hdb
  obtain ⟨s₃, hrun₃, hs₃⟩ := hwrites.run rfl
  refine ⟨s₃, ?_, hs₃.trans hs₂⟩
  have hreport : importRoute ((bc.pathOf bc.m_lastBlockHash k ++
      bc.ancestorOf bc.m_lastBlockHash k :: (bc.pathOf b.info.parentHash k).reverse) ++
      [b.info.hash]) (bc.ancestorOf bc.m_lastBlockHash k) b =
      ⟨bc.pathOf bc.m_lastBlockHash k, (b.info.hash :: bc.pathOf b.info.parentHash k).reverse,
        b.transactions⟩ := by
    rw [List.append_assoc, List.cons_append, ← List.reverse_cons]
    apply importRoute_eq
    · intro h hmem he
      rw [he] at hmem
      exact hr.not_mem_path hh.head k hmem
    · intro h hmem
      rw [hkdef] at hmem ⊢
      exact ne_common hh hi (List.mem_reverse.mp hmem)
  unfold makeHead
  rw [run_bind_ok (run_get bc), run_bind_ok hrun₁]
  dsimp only
  rw [run_bind_ok hrun₂, run_bind_ok hrun₃, hreport]
  rfl

/-! ### Imports -/

/-- The total difficulty of a new block. -/
def newDifficulty (bc : BlockChain) (b : VerifiedBlock) : ℕ :=
  ((bc.detailsOf b.info.parentHash).totalDifficulty + b.info.difficulty) % 2 ^ 256

/-- A new block is better than the head. -/
def improves (bc : BlockChain) (b : VerifiedBlock) : Prop :=
  (bc.detailsOf bc.m_lastBlockHash).totalDifficulty < bc.newDifficulty b ∨
    bc.tieBreakingGas = true ∧
      bc.newDifficulty b = (bc.detailsOf bc.m_lastBlockHash).totalDifficulty ∧
      ∀ info, bc.header bc.m_lastBlockHash = some info → info.gasUsed < b.info.gasUsed

/-- The details of the parent of a new block, with their new child. -/
def parentDetails (bc : BlockChain) (b : VerifiedBlock) : BlockDetails :=
  {bc.detailsOf b.info.parentHash with
    children := (bc.detailsOf b.info.parentHash).children ++ [b.info.hash]}

/-- The details of a new block. -/
def newDetails (bc : BlockChain) (b : VerifiedBlock) : BlockDetails :=
  ⟨b.info.number, bc.newDifficulty b, b.info.parentHash, []⟩

/-- The head stays, and nothing about the canonical chain changes. -/
structure Stays (bc : BlockChain) (b : VerifiedBlock) (r : ImportRoute) (s : BlockChain) :
    Prop where
  head : s.m_lastBlockHash = bc.m_lastBlockHash
  number : s.m_lastBlockNumber = bc.m_lastBlockNumber
  blockHash : s.m_extrasDB.blockHash = bc.m_extrasDB.blockHash
  transactionAddress : s.m_extrasDB.transactionAddress = bc.m_extrasDB.transactionAddress
  m_blockHashes : s.m_blockHashes = bc.m_blockHashes
  m_transactionAddresses : s.m_transactionAddresses = bc.m_transactionAddresses
  route : r = ⟨[], [], b.transactions⟩

/-- The block is the new head, and the route to it is canonical. -/
structure Advances (bc : BlockChain) (b : VerifiedBlock) (r : ImportRoute) (s : BlockChain) :
    Prop where
  head : s.m_lastBlockHash = b.info.hash
  number : s.m_lastBlockNumber = b.info.number
  blockHash : s.m_extrasDB.blockHash = (bc.m_extrasDB.commit
    ((bc.routeBlocks b (bc.forkBelow b)).flatMap canonicalWrites)).blockHash
  transactionAddress : s.m_extrasDB.transactionAddress = (bc.m_extrasDB.commit
    ((bc.routeBlocks b (bc.forkBelow b)).flatMap canonicalWrites)).transactionAddress
  m_blockHashes : s.m_blockHashes = (bc.reverted (bc.forkBelow b)).m_blockHashes
  m_transactionAddresses :
    s.m_transactionAddresses = (bc.reverted (bc.forkBelow b)).m_transactionAddresses
  route : r = ⟨bc.pathOf bc.m_lastBlockHash (bc.forkBelow b),
    (b.info.hash :: bc.pathOf b.info.parentHash (bc.forkBelow b)).reverse, b.transactions⟩

/-- The block is stored, its parent knows it, and it is the head if it is better than the old one. -/
structure Inserts (bc : BlockChain) (b : VerifiedBlock) (r : ImportRoute) (s : BlockChain) :
    Prop where
  insertable : bc.Insertable b
  linked : s.Linked
  adds : Adds bc s b
  tieBreakingGas : s.tieBreakingGas = bc.tieBreakingGas
  details : s.m_extrasDB.details =
    Function.update (Function.update bc.m_extrasDB.details b.info.parentHash
      (some (bc.parentDetails b))) b.info.hash (some (bc.newDetails b))
  cached : ∀ h d, s.m_details h = some d →
    Function.update (view bc.m_details bc.m_extrasDB.details) b.info.parentHash
      (some (bc.parentDetails b)) h = some d
  advances : bc.improves b → bc.Advances b r s
  stays : ¬ bc.improves b → bc.Stays b r s

theorem asks_isBetter (hh : bc.Headed) (b : VerifiedBlock) :
    ∃ r, bc.Asks (isBetter b (bc.newDifficulty b)) (.ok r) ∧ (r = true ↔ bc.improves b) := by
  obtain ⟨info, hinfo⟩ := Option.isSome_iff_exists.mp hh.head
  have hlast := asks_headerData hh.linked bc.m_lastBlockHash
  rw [hinfo] at hlast
  refine ⟨if (bc.detailsOf bc.m_lastBlockHash).totalDifficulty < bc.newDifficulty b then true
    else if bc.tieBreakingGas &&
        bc.newDifficulty b = (bc.detailsOf bc.m_lastBlockHash).totalDifficulty
      then info.gasUsed < b.info.gasUsed else false, ?_, ?_⟩
  · apply asks_get_bind
    intro s hs
    obtain ⟨_, htie, _, _, _, _, hhash, _⟩ := settled_eq hs.symm
    rw [hhash, htie]
    refine (bc.asks_details _).bind ?_
    split
    case isTrue => exact Sees.pure _
    case isFalse =>
      split
      case isTrue => exact hlast.bind (Sees.pure _)
      case isFalse => exact Sees.pure _
  · rw [improves, hinfo]
    split
    case isTrue h => exact iff_of_true rfl (Or.inl h)
    case isFalse h =>
      split
      case isTrue ht =>
        rw [Bool.and_eq_true, decide_eq_true_iff] at ht
        rw [decide_eq_true_iff]
        constructor
        · intro hgas
          refine Or.inr ⟨ht.1, ht.2, fun info' he => ?_⟩
          rwa [← Option.some.inj he]
        · intro himp
          cases himp with
          | inl hlt => exact absurd hlt h
          | inr heq => exact heq.2.2 info rfl
      case isFalse ht =>
        rw [Bool.and_eq_true, decide_eq_true_iff] at ht
        refine iff_of_false Bool.false_ne_true fun himp => ?_
        cases himp with
        | inl hlt => exact h hlt
        | inr heq => exact ht ⟨heq.1, heq.2.1⟩

/-- The route to a new block depends on the blocks stored and on the head. -/
theorem forkBelow_congr {bc' : BlockChain} (hg : bc'.m_genesis = bc.m_genesis)
    (hb : bc'.m_blocksDB = bc.m_blocksDB) (hlast : bc'.m_lastBlockHash = bc.m_lastBlockHash)
    (b : VerifiedBlock) : bc'.forkBelow b = bc.forkBelow b := by
  rw [forkBelow, forkBelow, forkOf, forkOf, parentOf_congr hg hb, heightOf_congr hg hb, hlast]

theorem pathOf_congr {bc' : BlockChain} (hg : bc'.m_genesis = bc.m_genesis)
    (hb : bc'.m_blocksDB = bc.m_blocksDB) : bc'.pathOf = bc.pathOf := by
  funext h n
  rw [pathOf, pathOf, parentOf_congr hg hb, heightOf_congr hg hb]

theorem routeBlocks_congr {bc' : BlockChain} (hg : bc'.m_genesis = bc.m_genesis)
    (hb : bc'.m_blocksDB = bc.m_blocksDB) : bc'.routeBlocks = bc.routeBlocks := by
  funext b k
  have hblock : bc'.blockOnRoute b = bc.blockOnRoute b := by
    funext h
    rw [blockOnRoute, blockOnRoute, hb]
  rw [routeBlocks, routeBlocks, pathOf_congr hg hb, hblock]

section AddChild
variable {b : VerifiedBlock}

theorem addChild_details (hc : bc.m_details b.info.parentHash =
    some (bc.detailsOf b.info.parentHash)) :
    (addChild b.info.parentHash b.info.hash bc).m_details =
      Function.update bc.m_details b.info.parentHash (some (bc.parentDetails b)) := by
  rw [parentDetails]
  show Function.update bc.m_details b.info.parentHash _ = _
  rw [hc]
  rfl

/-- With the parent's details in the cache, the new child changes what is seen of them. -/
theorem view_addChild (hc : bc.m_details b.info.parentHash =
    some (bc.detailsOf b.info.parentHash)) :
    view (addChild b.info.parentHash b.info.hash bc).m_details bc.m_extrasDB.details =
      Function.update (view bc.m_details bc.m_extrasDB.details) b.info.parentHash
        (some (bc.parentDetails b)) := by
  funext h
  rw [addChild_details hc, view, Function.update_apply, Function.update_apply]
  split
  case isTrue => rfl
  case isFalse => rfl

theorem detailsOf_addChild (hc : bc.m_details b.info.parentHash =
    some (bc.detailsOf b.info.parentHash)) (h : H256) :
    (addChild b.info.parentHash b.info.hash bc).detailsOf h =
      if h = b.info.parentHash then bc.parentDetails b else bc.detailsOf h := by
  have hv := congrFun (view_addChild hc) h
  rw [Function.update_apply] at hv
  show (view (addChild b.info.parentHash b.info.hash bc).m_details bc.m_extrasDB.details h).getD
    NullBlockDetails = _
  rw [hv]
  split
  case isTrue => rfl
  case isFalse => rfl

theorem totalDifficulty_addChild (hc : bc.m_details b.info.parentHash =
    some (bc.detailsOf b.info.parentHash)) (h : H256) :
    ((addChild b.info.parentHash b.info.hash bc).detailsOf h).totalDifficulty =
      (bc.detailsOf h).totalDifficulty := by
  rw [detailsOf_addChild hc]
  split
  case isTrue he => rw [he]; rfl
  case isFalse => rfl

theorem linked_addChild (hl : bc.Linked) (hp : bc.Stored b.info.parentHash)
    (hc : bc.m_details b.info.parentHash = some (bc.detailsOf b.info.parentHash)) :
    (addChild b.info.parentHash b.info.hash bc).Linked := by
  refine hl.transfer rfl rfl hl.cached (fun h d hd => ?_) fun _ h => h
  cases hd with
  | inr hd => exact hl.describes h d (Or.inr hd)
  | inl hd =>
    rw [addChild_details hc, Function.update_apply] at hd
    split at hd
    case isTrue he =>
      cases hd
      rw [he]
      exact hl.detailsOf hp
    case isFalse => exact hl.describes h d (Or.inl hd)

/-- Being better than the head does not depend on who knows the block. -/
theorem improves_addChild (hc : bc.m_details b.info.parentHash =
    some (bc.detailsOf b.info.parentHash)) :
    (addChild b.info.parentHash b.info.hash bc).newDifficulty b = bc.newDifficulty b ∧
      ((addChild b.info.parentHash b.info.hash bc).improves b ↔ bc.improves b) := by
  have hnew : (addChild b.info.parentHash b.info.hash bc).newDifficulty b = bc.newDifficulty b := by
    rw [newDifficulty, totalDifficulty_addChild hc, newDifficulty]
  refine ⟨hnew, ?_⟩
  rw [improves, improves, hnew, totalDifficulty_addChild hc]
  exact Iff.rfl

end AddChild

/-- What is stored of a new block besides its route. -/
theorem inserts_commit (hh : bc.Headed) {b : VerifiedBlock} (hi : bc.Insertable b)
    {s : BlockChain} (hl : s.Linked) (hg : s.m_genesis = bc.m_genesis)
    (hb : s.m_blocksDB = bc.m_blocksDB) (he : s.m_extrasDB = bc.m_extrasDB)
    (l : List VerifiedBlock) :
    let s' := commit b (batchOf b (bc.parentDetails b) (bc.newDetails b) l) s
    s'.Linked ∧ Adds bc s' b ∧ s'.m_extrasDB.details =
      Function.update (Function.update bc.m_extrasDB.details b.info.parentHash
        (some (bc.parentDetails b))) b.info.hash (some (bc.newDetails b)) ∧
    s'.m_extrasDB.blockHash = (bc.m_extrasDB.commit (l.flatMap canonicalWrites)).blockHash ∧
    s'.m_extrasDB.transactionAddress =
      (bc.m_extrasDB.commit (l.flatMap canonicalWrites)).transactionAddress := by
  have hd : s.Describes b.info.parentHash (bc.parentDetails b) := by
    rw [Describes, stored_congr hg hb, heightOf_congr hg hb, parentOf_congr hg hb, genesisHash, hg]
    exact hh.linked.detailsOf hi.placed.parent
  refine ⟨linked_commit hl (hi.congr hg hb) hd ⟨rfl, rfl⟩ l, ⟨hg, ?_⟩, ?_, ?_, ?_⟩
  · show Function.update s.m_blocksDB b.info.hash (some b) = _
    rw [hb]
  · show (s.m_extrasDB.commit _).details = _
    rw [he, batchOf_details]
  · show (s.m_extrasDB.commit _).blockHash = _
    rw [he, batchOf, Extras.commit_append]
    apply Extras.commit_blockHash_congr
    rfl
  · show (s.m_extrasDB.commit _).transactionAddress = _
    rw [he, batchOf, Extras.commit_append]
    apply Extras.commit_transactionAddress_congr
    rfl

theorem run_insertBlockAndExtras (hh : bc.Headed) {b : VerifiedBlock} (hi : bc.Insertable b) :
    ∃ r s, (insertBlockAndExtras b (bc.newDifficulty b)).run bc = (.ok r, s) ∧
      bc.Inserts b r s := by
  have hp := hi.placed.parent
  -- the parent's details are cached, then get their new child
  obtain ⟨s₁, hrun₁, hs₁, hc₁⟩ := run_details hh.linked hp
  obtain ⟨hg₁, htie₁, hb₁, he₁, hhash₁, htx₁, hlast₁, hnum₁⟩ := settled_eq hs₁.symm
  have hh₁ := hh.of_settled hs₁.symm
  have hd₁ : s₁.detailsOf = bc.detailsOf := by
    funext h
    rw [detailsOf, detailsOf]
    exact congrArg (fun c : BlockChain => (c.m_details h).getD NullBlockDetails) hs₁
  have hpd₁ : s₁.parentDetails b = bc.parentDetails b := by rw [parentDetails, hd₁, parentDetails]
  have hc₁' : s₁.m_details b.info.parentHash = some (s₁.detailsOf b.info.parentHash) := by
    rw [hc₁, hd₁]
  obtain ⟨s₂, hs₂⟩ : ∃ s₂, s₂ = addChild b.info.parentHash b.info.hash s₁ := ⟨_, rfl⟩
  have hh₂ : s₂.Headed := by
    have hp₁ : s₁.Stored b.info.parentHash := by
      rw [stored_congr hg₁ hb₁]
      exact hp
    rw [hs₂]
    exact ⟨linked_addChild hh₁.linked hp₁ hc₁', hh₁.head, hh₁.number⟩
  have hstate₂ : s₂.m_genesis = bc.m_genesis ∧ s₂.tieBreakingGas = bc.tieBreakingGas ∧
      s₂.m_blocksDB = bc.m_blocksDB ∧ s₂.m_extrasDB = bc.m_extrasDB ∧
      s₂.m_blockHashes = bc.m_blockHashes ∧
      s₂.m_transactionAddresses = bc.m_transactionAddresses ∧
      s₂.m_lastBlockHash = bc.m_lastBlockHash ∧ s₂.m_lastBlockNumber = bc.m_lastBlockNumber := by
    rw [hs₂]
    exact ⟨hg₁, htie₁, hb₁, he₁, hhash₁, htx₁, hlast₁, hnum₁⟩
  have hview₂ : view s₂.m_details s₂.m_extrasDB.details =
      Function.update (view bc.m_details bc.m_extrasDB.details) b.info.parentHash
        (some (bc.parentDetails b)) := by
    have hv₁ : view s₁.m_details s₁.m_extrasDB.details = view bc.m_details bc.m_extrasDB.details :=
      congrArg m_details hs₁
    rw [← hv₁, ← hpd₁, hs₂]
    exact view_addChild hc₁'
  have hcached₂ : s₂.m_details b.info.parentHash = some (bc.parentDetails b) := by
    rw [hs₂, addChild_details hc₁', Function.update_self, hpd₁]
  have himproves : s₂.newDifficulty b = bc.newDifficulty b ∧ (s₂.improves b ↔ bc.improves b) := by
    obtain ⟨hnew, himp⟩ := improves_addChild hc₁'
    rw [← hs₂] at hnew himp
    have hnew₁ : s₁.newDifficulty b = bc.newDifficulty b := by
      rw [newDifficulty, hd₁, newDifficulty]
    refine ⟨hnew.trans hnew₁, himp.trans ?_⟩
    rw [improves, improves, hd₁, hnew₁, htie₁, hlast₁, header_congr hg₁ hb₁]
  -- the comparison with the head
  obtain ⟨r, hr, hbetter⟩ := asks_isBetter hh₂ b
  rw [himproves.1] at hr
  rw [himproves.2] at hbetter
  obtain ⟨s₃, hrun₃, hs₃⟩ := hr.run rfl
  have hh₃ := hh₂.of_settled hs₃.symm
  have hstate₃ : s₃.m_genesis = bc.m_genesis ∧ s₃.tieBreakingGas = bc.tieBreakingGas ∧
      s₃.m_blocksDB = bc.m_blocksDB ∧ s₃.m_extrasDB = bc.m_extrasDB ∧
      s₃.m_blockHashes = bc.m_blockHashes ∧
      s₃.m_transactionAddresses = bc.m_transactionAddresses ∧
      s₃.m_lastBlockHash = bc.m_lastBlockHash ∧ s₃.m_lastBlockNumber = bc.m_lastBlockNumber := by
    obtain ⟨h₁, h₂, h₃, h₄, h₅, h₆, h₇, h₈⟩ := settled_eq hs₃.symm
    obtain ⟨k₁, k₂, k₃, k₄, k₅, k₆, k₇, k₈⟩ := hstate₂
    exact ⟨h₁.trans k₁, h₂.trans k₂, h₃.trans k₃, h₄.trans k₄, h₅.trans k₅, h₆.trans k₆,
      h₇.trans k₇, h₈.trans k₈⟩
  have hview₃ : view s₃.m_details s₃.m_extrasDB.details =
      Function.update (view bc.m_details bc.m_extrasDB.details) b.info.parentHash
        (some (bc.parentDetails b)) := (congrArg m_details hs₃).trans hview₂
  obtain ⟨hg, htie, hb, he, hhash, htx, hlast, hnum⟩ := hstate₃
  have hrun : ∀ x : BlockChain → Chain ImportRoute, x = (fun c => if r then
      makeHead b [.details b.info.parentHash (bc.parentDetails b),
        .details b.info.hash (bc.newDetails b)]
      else do
        Throwing.modify (commit b [.details b.info.parentHash (bc.parentDetails b),
          .details b.info.hash (bc.newDetails b)])
        return importRoute [] H256.zero b) →
      (insertBlockAndExtras b (bc.newDifficulty b)).run bc = (x s₃).run s₃ := by
    intro x hx
    unfold insertBlockAndExtras
    rw [run_bind_ok hrun₁, run_bind_ok (run_modify _ s₁), ← hs₂, run_bind_ok (run_get s₂)]
    dsimp only
    rw [run_bind_ok hrun₃, hcached₂, Option.getD_some, hx]
    rfl
  rw [hrun _ rfl]
  cases r with
  | true =>
    have himp := hbetter.mp rfl
    obtain ⟨s₄, hrun₄, hs₄⟩ := run_makeHead hh₃ (hi.congr hg hb)
      [.details b.info.parentHash (bc.parentDetails b), .details b.info.hash (bc.newDetails b)]
    rw [forkBelow_congr hg hb hlast, pathOf_congr hg hb, routeBlocks_congr hg hb, hlast] at hrun₄
    rw [forkBelow_congr hg hb hlast] at hs₄
    obtain ⟨k, hk⟩ : ∃ k, k = bc.forkBelow b := ⟨_, rfl⟩
    have hrev : (s₃.reverted k).Linked ∧ (s₃.reverted k).m_genesis = bc.m_genesis ∧
        (s₃.reverted k).tieBreakingGas = bc.tieBreakingGas ∧
        (s₃.reverted k).m_blocksDB = bc.m_blocksDB ∧ (s₃.reverted k).m_extrasDB = bc.m_extrasDB ∧
        (s₃.reverted k).m_details = s₃.m_details ∧
        (s₃.reverted k).m_blockHashes = (bc.reverted k).m_blockHashes ∧
        (s₃.reverted k).m_transactionAddresses = (bc.reverted k).m_transactionAddresses := by
      rw [reverted, reverted, ancestorOf_congr hg hb, hlast]
      split
      case isTrue => exact ⟨hh₃.linked, hg, htie, hb, he, rfl, hhash, htx⟩
      case isFalse =>
        refine ⟨hh₃.linked.transfer rfl rfl hh₃.linked.cached hh₃.linked.describes fun _ h => h,
          hg, htie, hb, he, rfl, ?_, rfl⟩
        funext i
        show (if _ ∧ i < s₃.m_lastBlockNumber + 1 then none else s₃.m_blockHashes i) =
          if _ ∧ i < bc.m_lastBlockNumber + 1 then none else bc.m_blockHashes i
        rw [hnum, hhash]
    rw [← hk] at hs₄
    obtain ⟨hlr, hgr, htier, hbr, her, hdr, hhashr, htxr⟩ := hrev
    obtain ⟨hg₄, htie₄, hb₄, he₄, hhash₄, htx₄, _, _⟩ := settled_eq hs₄.symm
    have hl₄ := hlr.of_settled hs₄.symm
    obtain ⟨hlc, hac, hdc, hbc, htc⟩ := inserts_commit hh hi hl₄ (hg₄.trans hgr) (hb₄.trans hbr)
      (he₄.trans her) (bc.routeBlocks b (bc.forkBelow b))
    refine ⟨_, _, hrun₄, hi, ?_, ⟨hac.genesis, hac.blocks⟩, htie₄.trans htier, hdc,
      fun h d hd => ?_, fun _ => ⟨rfl, rfl, hbc, htc, ?_, ?_, rfl⟩, fun hn => absurd himp hn⟩
    · exact hlc.transfer rfl rfl hlc.cached hlc.describes fun _ h => h
    · have hv : view s₄.m_details s₄.m_extrasDB.details h = some d := by
        have hd' : s₄.m_details h = some d := hd
        rw [view, hd']
        rfl
      have hv₄ : view s₄.m_details s₄.m_extrasDB.details =
          view (s₃.reverted k).m_details (s₃.reverted k).m_extrasDB.details :=
        congrArg m_details hs₄
      rw [hv₄, hdr, her, ← he, hview₃] at hv
      exact hv
    · rw [← hk]
      exact hhash₄.trans hhashr
    · rw [← hk]
      exact htx₄.trans htxr
  | false =>
    have himp : ¬ bc.improves b := fun h => Bool.false_ne_true (hbetter.mpr h)
    obtain ⟨hlc, hac, hdc, hbc, htc⟩ := inserts_commit hh hi hh₃.linked hg hb he []
    refine ⟨_, _, rfl, hi, hlc, hac, htie, hdc, fun h d hd => ?_, fun h => absurd h himp,
      fun _ => ⟨hlast, hnum, hbc, htc, hhash, htx, rfl⟩⟩
    have hv : view s₃.m_details s₃.m_extrasDB.details h = some d := by
      have hd' : s₃.m_details h = some d := hd
      rw [view, hd']
      rfl
    rw [hview₃] at hv
    exact hv

/-- What an import does depends on what can be seen only. -/
theorem Inserts.of_settled {bc' : BlockChain} {b : VerifiedBlock} {r : ImportRoute}
    {s : BlockChain} (hi : bc'.Inserts b r s) (h : bc'.settled = bc.settled) :
    bc.Inserts b r s := by
  obtain ⟨hg, htie, hb, he, hhash, htx, hlast, hnum⟩ := settled_eq h
  have hview : view bc'.m_details bc'.m_extrasDB.details = view bc.m_details bc.m_extrasDB.details :=
    congrArg m_details h
  have hd : bc'.detailsOf = bc.detailsOf := by
    funext x
    rw [detailsOf, hview, detailsOf]
  have hparent : bc'.parentDetails b = bc.parentDetails b := by
    rw [parentDetails, hd, parentDetails]
  have hdiff : bc'.newDifficulty b = bc.newDifficulty b := by rw [newDifficulty, hd, newDifficulty]
  have hnew : bc'.newDetails b = bc.newDetails b := by rw [newDetails, hdiff, newDetails]
  have himp : bc'.improves b ↔ bc.improves b := by
    rw [improves, improves, hd, hdiff, htie, hlast, header_congr hg hb]
  have hfork := forkBelow_congr hg hb hlast b
  have hrev : (bc.reverted (bc.forkBelow b)).m_blockHashes =
      (bc'.reverted (bc'.forkBelow b)).m_blockHashes ∧
      (bc.reverted (bc.forkBelow b)).m_transactionAddresses =
        (bc'.reverted (bc'.forkBelow b)).m_transactionAddresses := by
    obtain ⟨_, _, _, _, h₁, h₂, _⟩ := settled_eq (settled_reverted h (bc'.forkBelow b))
    rw [hfork]
    exact ⟨h₁, h₂⟩
  refine ⟨hi.insertable.congr hg hb, hi.linked, ⟨?_, ?_⟩, ?_, ?_, ?_, fun hbetter => ?_,
    fun hworse => ?_⟩
  · rw [hg, hi.adds.genesis]
  · rw [hb, hi.adds.blocks]
  · rw [htie, hi.tieBreakingGas]
  · rw [he, ← hparent, ← hnew, hi.details]
  · rw [← hview, ← hparent]
    exact hi.cached
  · have ha := hi.advances (himp.mpr hbetter)
    refine ⟨ha.head, ha.number, ?_, ?_, by rw [hrev.1, ha.m_blockHashes],
      by rw [hrev.2, ha.m_transactionAddresses], ?_⟩
    · rw [he, routeBlocks_congr hg hb, hfork, ha.blockHash]
    · rw [he, routeBlocks_congr hg hb, hfork, ha.transactionAddress]
    · rw [hlast, pathOf_congr hg hb, hfork, ha.route]
  · have ht := hi.stays fun hn => hworse (himp.mp hn)
    exact ⟨by rw [hlast, ht.head], by rw [hnum, ht.number], by rw [he, ht.blockHash],
      by rw [he, ht.transactionAddress], by rw [hhash, ht.m_blockHashes],
      by rw [htx, ht.m_transactionAddresses], ht.route⟩

/-- A block that fits, and passes for new, is inserted. -/
theorem run_importBlock_of_insertable (hh : bc.Headed) {b : VerifiedBlock} (hi : bc.Insertable b)
    {mustBeNew : Bool}
    (h₁ : bc.Asks (if mustBeNew then checkBlockIsNew b else return ()) (.ok ())) :
    ∃ r s, (importBlock b mustBeNew true).run bc = (.ok r, s) ∧ bc.Inserts b r s := by
  have hl := hh.linked
  have hp := hi.placed.parent
  obtain ⟨known, h₂, hknown⟩ := asks_isKnown hl b.info.parentHash false
  cases hknown.mpr ⟨hp, nofun⟩
  have hd := bc.asks_details b.info.parentHash
  have h₃ := asks_verifyBlock_ok hl hi.placed.number_lt hp hi.placed.number
  obtain ⟨s₁, hrun₁, hs₁⟩ := h₁.run rfl
  obtain ⟨s₂, hrun₂, hs₂⟩ := h₂.run hs₁
  obtain ⟨s₃, hrun₃, hs₃⟩ := hd.run hs₂
  obtain ⟨s₄, hrun₄, hs₄⟩ := h₃.run hs₃
  obtain ⟨hg, _, hdb, _⟩ := settled_eq hs₄.symm
  have hd₄ : s₄.detailsOf b.info.parentHash = bc.detailsOf b.info.parentHash :=
    congrArg (fun c : BlockChain => (c.m_details b.info.parentHash).getD NullBlockDetails) hs₄
  obtain ⟨r, s, hrun, hins⟩ :=
    run_insertBlockAndExtras (hh.of_settled hs₄.symm) (hi.congr hg hdb)
  rw [newDifficulty, hd₄] at hrun
  refine ⟨r, s, ?_, hins.of_settled hs₄⟩
  unfold importBlock
  rw [run_bind_ok hrun₁, run_bind_ok hrun₂]
  show (details b.info.parentHash >>= fun pd => _).run s₂ = _
  rw [run_bind_ok hrun₃, hl.isNull_detailsOf hp]
  show (verifyBlock b.info >>= fun _ => _).run s₃ = _
  rw [run_bind_ok hrun₄]
  exact hrun

/-- An import fails and changes nothing that can be seen, or it inserts the block. With
`mustBeNew`, a block can only be inserted again from above the head. -/
theorem run_importBlock (hh : bc.Headed) {b : VerifiedBlock} (hb : bc.Admissible b)
    (mustBeNew verdict : Bool) :
    (∃ e s, (importBlock b mustBeNew verdict).run bc = (.error e, s) ∧ s.settled = bc.settled) ∨
    ∃ r s, (importBlock b mustBeNew verdict).run bc = (.ok r, s) ∧ bc.Inserts b r s ∧
      verdict = true ∧ (mustBeNew = true → bc.Stored b.info.hash →
        bc.m_lastBlockNumber < bc.heightOf b.info.hash) := by
  have hl := hh.linked
  have failed : ∀ e : ImportException, bc.Asks (importBlock b mustBeNew verdict) (.error e) →
      ∃ e s, (importBlock b mustBeNew verdict).run bc = (.error e, s) ∧
        s.settled = bc.settled := by
    intro e h
    obtain ⟨s, hrun, hs⟩ := h.run rfl
    exact ⟨e, s, hrun, hs⟩
  obtain ⟨r₁, h₁, habove⟩ := asks_checkBlockIsNew hl b mustBeNew
  cases r₁ with
  | error e => exact Or.inl (failed e h₁.bind_error)
  | ok u =>
  obtain ⟨known, h₂, hknown⟩ := asks_isKnown hl b.info.parentHash false
  cases known with
  | false => exact Or.inl (failed .unknownParent (h₁.bind (h₂.bind (Sees.throw _))))
  | true =>
  have hp : bc.Stored b.info.parentHash := (hknown.mp rfl).1
  have hnull := hl.isNull_detailsOf hp
  obtain ⟨r₃, h₃, hnumber⟩ := asks_verifyBlock hl b.info
  have hd := bc.asks_details b.info.parentHash
  cases r₃ with
  | error e =>
    refine Or.inl (failed e (h₁.bind (h₂.bind (hd.bind ?_))))
    rw [hnull]
    exact h₃.bind_error
  | ok u₃ =>
  cases verdict with
  | false =>
    refine Or.inl (failed .rejected (h₁.bind (h₂.bind (hd.bind ?_))))
    rw [hnull]
    exact h₃.bind (Sees.throw _)
  | true =>
  have hne : b.info.hash ≠ bc.genesisHash := by
    intro he
    have := hnumber rfl
    rw [hb.genesis he, hl.genesis_number] at this
    omega
  have hi : bc.Insertable b :=
    ⟨⟨rfl, hb.ne_zero, hne, hb.number_lt, hp, hnumber rfl⟩, fun t ht => by
      cases hb.unique with
      | inl h =>
        rw [h] at ht
        cases ht
      | inr h =>
        rw [h] at ht
        exact (Option.some.inj ht).symm⟩
  obtain ⟨r, s, hrun, hins⟩ := run_importBlock_of_insertable hh hi h₁
  exact Or.inr ⟨r, s, hrun, hins, rfl, habove rfl⟩

end BlockChain
end Aleth.Ethereum
