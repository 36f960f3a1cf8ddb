import Aleth.Ethereum.Importing

/-! The canonical number index.

`numberHash` reads an index that an import rewrites along the route to the new
head. In front of it stands a cache that is cleared over the heights of the old
head only. The index itself is right after every import (`Indexed`); the cache
is right as long as no lookup above the head has remembered an entry that an
abandoned, longer branch left behind. -/
namespace Aleth.Ethereum.BlockChain
open Devcore ReadThrough Throwing Ancestry
variable {bc : BlockChain}

/-- The head is a stored block, and the index lists its ancestors. -/
structure Indexed (bc : BlockChain) : Prop where
  linked : bc.Linked
  head : bc.Stored bc.m_lastBlockHash
  number : bc.m_lastBlockNumber = bc.heightOf bc.m_lastBlockHash
  index : ∀ n, 1 ≤ n → n ≤ bc.m_lastBlockNumber →
    bc.m_extrasDB.blockHash n = some (bc.ancestorOf bc.m_lastBlockHash n)

/-- The cache of the index has nothing above the head, and below it what the index has. -/
def Unspoiled (bc : BlockChain) : Prop := ∀ n h, bc.m_blockHashes n = some h →
  n ≤ bc.m_lastBlockNumber ∧ bc.m_extrasDB.blockHash n = some h

theorem Indexed.transfer {bc' : BlockChain} (hx : bc.Indexed) (hl : bc'.Linked)
    (hg : bc'.m_genesis = bc.m_genesis) (hb : bc'.m_blocksDB = bc.m_blocksDB)
    (he : bc'.m_extrasDB.blockHash = bc.m_extrasDB.blockHash)
    (hlast : bc'.m_lastBlockHash = bc.m_lastBlockHash)
    (hnum : bc'.m_lastBlockNumber = bc.m_lastBlockNumber) : bc'.Indexed where
  linked := hl
  head := by
    rw [stored_congr hg hb, hlast]
    exact hx.head
  number := by
    rw [heightOf_congr hg hb, hlast, hnum]
    exact hx.number
  index := by
    rw [ancestorOf_congr hg hb, hlast, hnum, he]
    exact hx.index

theorem Indexed.of_settled {bc' : BlockChain} (hx : bc.Indexed) (h : bc.settled = bc'.settled) :
    bc'.Indexed := by
  obtain ⟨hg, _, hb, he, _, _, hlast, hnum⟩ := settled_eq h
  exact hx.transfer (hx.linked.of_settled h) hg hb (by rw [he]) hlast hnum

theorem Unspoiled.of_settled {bc' : BlockChain} (hu : bc.Unspoiled)
    (h : bc.settled = bc'.settled) : bc'.Unspoiled := by
  obtain ⟨_, _, _, he, hc, _, _, hnum⟩ := settled_eq h
  rw [Unspoiled, hc, he, hnum]
  exact hu

theorem Indexed.headed (hx : bc.Indexed) : bc.Headed := ⟨hx.linked, hx.head, hx.number⟩

/-- What is left of the cache after a reversion is not above the common ancestor, if it was not
above the head. -/
theorem blockHashes_reverted (hh : bc.Headed) {k n : ℕ} {h : H256}
    (hk : k ≤ bc.m_lastBlockNumber) (hn : (bc.reverted k).m_blockHashes n = some h) :
    bc.m_blockHashes n = some h ∧ (n ≤ bc.m_lastBlockNumber → n ≤ k) := by
  rw [reverted] at hn
  split at hn
  case isTrue he =>
    have hheight : bc.heightOf (bc.ancestorOf bc.m_lastBlockHash k) = k :=
      hh.linked.rooted.height_ancestor hh.head (by rwa [← hh.number])
    rw [he, ← hh.number] at hheight
    exact ⟨hn, fun hle => by omega⟩
  case isFalse =>
    have hn' : (if k + 1 ≤ n ∧ n < bc.m_lastBlockNumber + 1 then none else bc.m_blockHashes n) =
      some h := hn
    split at hn'
    case isTrue => cases hn'
    case isFalse hout => exact ⟨hn', fun hle => by omega⟩

section Inserts
variable {b : VerifiedBlock} {r : ImportRoute} {s : BlockChain}

/-- A block stored beside the head. -/
theorem indexed_stays (hx : bc.Indexed) (hi : bc.Inserts b r s) (ht : bc.Stays b r s) :
    s.Indexed := by
  refine ⟨hi.linked, ?_, ?_, fun n h1 hn => ?_⟩
  · rw [ht.head]
    exact hi.adds.stored hi.insertable hx.head
  · rw [ht.number, ht.head, hi.adds.heightOf_old hi.insertable hx.head, hx.number]
  · rw [ht.number] at hn
    rw [ht.blockHash, ht.head, hi.adds.ancestorOf_old hx.linked hi.insertable hx.head]
    exact hx.index n h1 hn

/-- With the route written, the block can be the head. -/
theorem indexed_advances (hx : bc.Indexed) (hi : bc.Inserts b r s) (ha : bc.Advances b r s) :
    s.Indexed := by
  have hadds := hi.adds
  have hins := hi.insertable
  have hp := hins.placed.parent
  have hnum := hins.placed.number
  refine ⟨hi.linked, ?_, ?_, fun n h1 hn => ?_⟩
  · rw [ha.head]
    exact hadds.stored_new hins
  · rw [ha.number, ha.head, hadds.heightOf_new hins]
  · have hkl : bc.forkBelow b ≤ bc.heightOf bc.m_lastBlockHash := fork_le_left _ _
    have hkp : bc.forkBelow b ≤ bc.heightOf b.info.parentHash := fork_le_right _ _
    rw [ha.number] at hn
    rw [ha.blockHash, ha.head, blockHash_commit hx.linked hins hkp]
    by_cases hnew : n = b.info.number
    · rw [if_pos ⟨by omega, hn⟩, if_pos hnew, hnew, ← hadds.heightOf_new hins, ancestorOf,
        ancestor_self]
    · rw [ancestorOf_new hadds hx.linked hi.linked hins (by omega)]
      by_cases hkn : bc.forkBelow b < n
      · rw [if_pos ⟨hkn, hn⟩, if_neg hnew]
      · rw [if_neg fun h => hkn h.1, hx.index n h1 (by rw [hx.number]; omega)]
        congr 1
        exact (hx.linked.rooted.agree_iff hx.head hp (by omega) (by omega)).mpr
          (Nat.le_of_not_lt hkn)

theorem indexed_inserts (hx : bc.Indexed) (hi : bc.Inserts b r s) : s.Indexed := by
  by_cases himp : bc.improves b
  · exact indexed_advances hx hi (hi.advances himp)
  · exact indexed_stays hx hi (hi.stays himp)

theorem unspoiled_inserts (hx : bc.Indexed) (hi : bc.Inserts b r s) (hu : bc.Unspoiled) :
    s.Unspoiled := by
  by_cases himp : bc.improves b
  · have ha := hi.advances himp
    have hkl : bc.forkBelow b ≤ bc.m_lastBlockNumber := by
      rw [hx.number]
      exact fork_le_left _ _
    have hkp : bc.forkBelow b ≤ bc.heightOf b.info.parentHash := fork_le_right _ _
    have hnum := hi.insertable.placed.number
    intro n h hn
    rw [ha.m_blockHashes] at hn
    obtain ⟨hcached, hle⟩ := blockHashes_reverted hx.headed hkl hn
    obtain ⟨hlast, hdb⟩ := hu n h hcached
    have hnk := hle hlast
    rw [ha.number, ha.blockHash, blockHash_commit hx.linked hi.insertable hkp,
      if_neg fun h => absurd h.1 (Nat.not_lt.mpr hnk), hdb]
    exact ⟨by omega, rfl⟩
  · have ht := hi.stays himp
    rw [Unspoiled, ht.m_blockHashes, ht.number, ht.blockHash]
    exact hu

end Inserts

/-- Whatever becomes of an import, the index is right afterwards. -/
theorem indexed_importBlock (hx : bc.Indexed) {b : VerifiedBlock} (hb : bc.Admissible b)
    (mustBeNew verdict : Bool) : ∃ s, ((importBlock b mustBeNew verdict).run bc).2 = s ∧
      s.Indexed ∧ (bc.Unspoiled → s.Unspoiled) := by
  cases run_importBlock hx.headed hb mustBeNew verdict with
  | inl h =>
    obtain ⟨e, s, hrun, hs⟩ := h
    exact ⟨s, by rw [hrun], hx.of_settled hs.symm, fun hu => hu.of_settled hs.symm⟩
  | inr h =>
    obtain ⟨r, s, hrun, hi, _⟩ := h
    exact ⟨s, by rw [hrun], indexed_inserts hx hi, unspoiled_inserts hx hi⟩

/-! ### Runs -/

/-- What can be asked of the chain. -/
inductive Request where
  | importBlock (b : VerifiedBlock) (mustBeNew verdict : Bool)
  | numberHash (i : ℕ)
  | details (h : H256)
  | block (h : H256)
  | garbageCollect (blocks details transactions : List H256)

def step (bc : BlockChain) : Request → BlockChain
  | .importBlock b mustBeNew verdict => ((BlockChain.importBlock b mustBeNew verdict).run bc).2
  | .numberHash i => ((BlockChain.numberHash i).run bc).2
  | .details h => ((BlockChain.details h).run bc).2
  | .block h => ((BlockChain.block h).run bc).2
  | .garbageCollect blocks details transactions =>
    BlockChain.garbageCollect blocks details transactions bc

/-- The state after a run from an empty database. -/
def runFromFresh (genesis : VerifiedBlock) (tieBreakingGas : Bool) (l : List Request) :
    BlockChain := l.foldl step (fresh genesis tieBreakingGas)

/-- What a run may be asked of: imports of blocks with hashes of their own. -/
def Proper (bc : BlockChain) : Request → Prop
  | .importBlock b _ _ => bc.Admissible b
  | _ => True

instance decidableProper : (bc : BlockChain) → (r : Request) → Decidable (bc.Proper r)
  | bc, .importBlock b _ _ => inferInstanceAs (Decidable (bc.Admissible b))
  | _, .numberHash _ => isTrue trivial
  | _, .details _ => isTrue trivial
  | _, .block _ => isTrue trivial
  | _, .garbageCollect _ _ _ => isTrue trivial

/-- A lookup above the head finds nothing, rather than what an abandoned branch left there. -/
def Careful (bc : BlockChain) : Request → Prop
  | .numberHash i => i ≤ bc.m_lastBlockNumber ∨ bc.m_extrasDB.blockHash i = none
  | _ => True

instance decidableCareful : (bc : BlockChain) → (r : Request) → Decidable (bc.Careful r)
  | _, .importBlock _ _ _ => isTrue trivial
  | bc, .numberHash i => inferInstanceAs
    (Decidable (i ≤ bc.m_lastBlockNumber ∨ bc.m_extrasDB.blockHash i = none))
  | _, .details _ => isTrue trivial
  | _, .block _ => isTrue trivial
  | _, .garbageCollect _ _ _ => isTrue trivial

theorem linked_fresh {genesis : VerifiedBlock} (tieBreakingGas : Bool)
    (h0 : genesis.info.number = 0) (hne : genesis.info.hash ≠ H256.zero) :
    (fresh genesis tieBreakingGas).Linked where
  genesis_ne_zero := hne
  genesis_number := h0
  placed _ _ h := nomatch h
  cached _ _ h := nomatch h
  describes h d hd := by
    have hd' : Function.update (fun _ => none) genesis.info.hash
      (some (⟨0, genesis.info.difficulty, H256.zero, []⟩ : BlockDetails)) h = some d :=
      or_self_iff.mp hd
    rw [Function.update_apply] at hd'
    split at hd'
    case isTrue he =>
      cases hd'
      rw [he]
      refine ⟨stored_genesis _, ?_, fun hn => absurd rfl hn⟩
      show 0 = heightOf _ (fresh genesis tieBreakingGas).genesisHash
      rw [heightOf, header_genesis]
      exact h0.symm
    case isFalse => cases hd'
  detailed h hs := by
    have he : h = genesis.info.hash := by
      by_contra hg
      rw [Stored, header_of_ne hg] at hs
      cases hs
    rw [he]
    have hupd : (fresh genesis tieBreakingGas).m_extrasDB.details genesis.info.hash =
        some ⟨0, genesis.info.difficulty, H256.zero, []⟩ := by
      dsimp only [fresh]
      rw [Function.update_self]
    rw [hupd]
    rfl

theorem indexed_fresh {genesis : VerifiedBlock} (tieBreakingGas : Bool)
    (h0 : genesis.info.number = 0) (hne : genesis.info.hash ≠ H256.zero) :
    (fresh genesis tieBreakingGas).Indexed where
  linked := linked_fresh tieBreakingGas h0 hne
  head := stored_genesis _
  number := (linked_fresh tieBreakingGas h0 hne).rooted.root_height.symm
  index n h1 hn := by
    have : n ≤ 0 := hn
    omega

theorem indexed_numberHash (hx : bc.Indexed) (i : ℕ) :
    (bc.step (.numberHash i)).Indexed ∧
      (bc.Careful (.numberHash i) → bc.Unspoiled → (bc.step (.numberHash i)).Unspoiled) := by
  by_cases hi : i = 0
  · have hs : bc.step (.numberHash i) = bc := by
      show (if i = 0 then (Except.ok bc.genesisHash, bc) else _).2 = bc
      rw [if_pos hi]
    rw [hs]
    exact ⟨hx, fun _ hu => hu⟩
  · have hs : bc.step (.numberHash i) =
        {bc with m_blockHashes := (query bc.m_blockHashes bc.m_extrasDB.blockHash i).2} := by
      show (if i = 0 then (Except.ok bc.genesisHash, bc) else _).2 = _
      rw [if_neg hi]
    rw [hs]
    refine ⟨hx.transfer (hx.linked.transfer rfl rfl hx.linked.cached hx.linked.describes
      fun _ h => h) rfl rfl rfl rfl rfl, fun hcareful hu n h hn => ?_⟩
    cases query_snd hn with
    | inl hold => exact hu n h hold
    | inr hnew =>
      obtain ⟨rfl, hstore⟩ := hnew
      refine ⟨?_, hstore⟩
      cases hcareful with
      | inl hle => exact hle
      | inr hnone =>
        rw [hnone] at hstore
        cases hstore

theorem indexed_step (hx : bc.Indexed) {r : Request} (hr : bc.Proper r) :
    (bc.step r).Indexed ∧ (bc.Careful r → bc.Unspoiled → (bc.step r).Unspoiled) := by
  cases r with
  | importBlock b mustBeNew verdict =>
    obtain ⟨s, hs, hx', hu'⟩ := indexed_importBlock hx hr mustBeNew verdict
    rw [step, hs]
    exact ⟨hx', fun _ => hu'⟩
  | numberHash i => exact indexed_numberHash hx i
  | details h =>
    have hs := (bc.asks_details h bc rfl).2
    exact ⟨hx.of_settled hs.symm, fun _ hu => hu.of_settled hs.symm⟩
  | block h =>
    have hs := (bc.asks_block h bc rfl).2
    exact ⟨hx.of_settled hs.symm, fun _ hu => hu.of_settled hs.symm⟩
  | garbageCollect blocks details transactions =>
    refine ⟨hx.transfer (hx.linked.transfer rfl rfl (hx.linked.cached.erase _) (fun h d hd => ?_)
      fun _ h => h) rfl rfl rfl rfl rfl, fun _ hu => hu⟩
    cases hd with
    | inr hd => exact hx.linked.describes h d (Or.inr hd)
    | inl hd =>
      have hd' : (if h ∈ details then none else bc.m_details h) = some d := hd
      split at hd'
      case isTrue => cases hd'
      case isFalse => exact hx.linked.describes h d (Or.inl hd')

/-- Every request of the run, where it is made, has the property. -/
def Along (p : BlockChain → Request → Prop) : BlockChain → List Request → Prop
  | _, [] => True
  | bc, r :: l => p bc r ∧ Along p (bc.step r) l

instance Along.decidable {p : BlockChain → Request → Prop} [∀ bc r, Decidable (p bc r)] :
    (bc : BlockChain) → (l : List Request) → Decidable (Along p bc l)
  | _, [] => isTrue trivial
  | bc, r :: l => @instDecidableAnd _ _ _ (Along.decidable (bc.step r) l)

theorem indexed_foldl (hx : bc.Indexed) {l : List Request} (hp : Along Proper bc l) :
    (l.foldl step bc).Indexed ∧
      (Along Careful bc l → bc.Unspoiled → (l.foldl step bc).Unspoiled) := by
  induction l generalizing bc with
  | nil => exact ⟨hx, fun _ hu => hu⟩
  | cons r l ih =>
    obtain ⟨hx', hu'⟩ := indexed_step hx hp.1
    obtain ⟨hx'', hu''⟩ := ih hx' hp.2
    exact ⟨hx'', fun hc hu => hu'' hc.2 (hu' hc.1 hu)⟩

theorem Along.initial {p : BlockChain → Request → Prop} {pre l : List Request} (hpre : pre <+: l)
    (h : Along p bc l) : Along p bc pre := by
  obtain ⟨suf, rfl⟩ := hpre
  induction pre generalizing bc with
  | nil => exact trivial
  | cons r pre ih => exact ⟨h.1, ih h.2⟩

/-- What `numberHash` answers below the head. -/
theorem run_numberHash (hx : bc.Indexed) (hu : bc.Unspoiled) {n : ℕ} (h1 : 1 ≤ n)
    (hn : n ≤ bc.m_lastBlockNumber) :
    ((numberHash n).run bc).1 = .ok (bc.ancestorOf bc.m_lastBlockHash n) := by
  have hcoherent : Coherent bc.m_blockHashes bc.m_extrasDB.blockHash := fun n h hh => (hu n h hh).2
  show (if n = 0 then (Except.ok bc.genesisHash, bc)
    else (Except.ok ((query bc.m_blockHashes bc.m_extrasDB.blockHash n).1.getD H256.zero), _)).1 = _
  rw [if_neg (by omega), query_fst, hcoherent.view, hx.index n h1 hn]
  rfl

/-- In a run without lookups above the head that meet a left-over entry, `numberHash` lists the
chain of the head after every request. -/
theorem numberHash_of_careful (genesis : VerifiedBlock) (tieBreakingGas : Bool)
    (h0 : genesis.info.number = 0) (hne : genesis.info.hash ≠ H256.zero) (l : List Request)
    (hproper : Along Proper (fresh genesis tieBreakingGas) l)
    (hcareful : Along Careful (fresh genesis tieBreakingGas) l) :
    ∀ pre, pre <+: l → let bc := runFromFresh genesis tieBreakingGas pre
      ∀ n, 1 ≤ n → n ≤ bc.m_lastBlockNumber →
        ((numberHash n).run bc).1 = .ok (bc.ancestorOf bc.m_lastBlockHash n) := by
  intro pre hpre bc n h1 hn
  have hx := indexed_fresh tieBreakingGas h0 hne
  have hu : (fresh genesis tieBreakingGas).Unspoiled := fun _ _ h => nomatch h
  obtain ⟨hx', hu'⟩ := indexed_foldl hx (hproper.initial hpre)
  exact run_numberHash hx' (hu' (hcareful.initial hpre) hu) h1 hn

/-! ### A lookup above a shorter head -/

/-- A block without transactions, with small numbers for hashes. -/
def sampleBlock (hash parentHash : UInt8) (number difficulty : ℕ) : VerifiedBlock where
  info :=
    { hash := H256.alignRight [hash]
      parentHash := H256.alignRight [parentHash]
      number := number
      difficulty := difficulty
      gasUsed := 0 }
  transactions := []

/-- A branch of two blocks, abandoned for one heavier block, which then grows. -/
def reorganisation (lookup : ℕ) : List Request :=
  [.importBlock (sampleBlock 0xa1 0x01 1 1) true true,
    .importBlock (sampleBlock 0xa2 0xa1 2 1) true true,
    .importBlock (sampleBlock 0xb1 0x01 1 9) true true,
    .numberHash lookup,
    .importBlock (sampleBlock 0xb2 0xb1 2 1) true true]

def sampleGenesis : VerifiedBlock := sampleBlock 0x01 0x00 0 1

theorem numberHash_of_careful_sample :
    ((numberHash 2).run (runFromFresh sampleGenesis false (reorganisation 1))).1 =
      .ok ((runFromFresh sampleGenesis false (reorganisation 1)).ancestorOf
        (runFromFresh sampleGenesis false (reorganisation 1)).m_lastBlockHash 2) :=
  numberHash_of_careful sampleGenesis false rfl (by decide) (reorganisation 1)
    (by decide +kernel) (by decide +kernel) _ (List.prefix_refl _) 2 (by decide) (by decide +kernel)

/-- With height 2 looked up while the head is at height 1, the abandoned block stays. -/
theorem numberHash_left_over :
    Along Proper (fresh sampleGenesis false) (reorganisation 2) ∧
    (runFromFresh sampleGenesis false (reorganisation 2)).m_lastBlockNumber = 2 ∧
    (runFromFresh sampleGenesis false (reorganisation 2)).ancestorOf
      (runFromFresh sampleGenesis false (reorganisation 2)).m_lastBlockHash 2 =
        H256.alignRight [0xb2] ∧
    ((numberHash 2).run (runFromFresh sampleGenesis false (reorganisation 2))).1 =
      .ok (H256.alignRight [0xa2]) := by
  decide +kernel

end Aleth.Ethereum.BlockChain
