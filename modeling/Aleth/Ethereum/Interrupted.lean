import Aleth.Ethereum.HeaviestHead
import Aleth.Ethereum.Reopening
import Aleth.Ethereum.TransactionIndex

/-! An import that is interrupted between its writes.

The index of the new branch is written before the head. If the process ends in
between, the databases have the old head, and an index that lists another chain
from the fork on; transactions are located in blocks that are not on its chain;
and if the new head is not above the old one, the block counts as known when it
is imported again (`interrupted_intact_iff`). -/
namespace Aleth.Ethereum.BlockChain
open Devcore ReadThrough Throwing Ancestry
variable {bc c s X : BlockChain} {b : VerifiedBlock} {h last : H256}

/-! ### A chain that was opened again -/

structure Reopened (X : BlockChain) (last : H256) (c : BlockChain) : Prop where
  weighed : c.Weighed
  genesis : c.m_genesis = X.m_genesis
  tieBreakingGas : c.tieBreakingGas = X.tieBreakingGas
  blocks : c.m_blocksDB = X.m_blocksDB
  extras : c.m_extrasDB = X.m_extrasDB
  head : c.m_lastBlockHash = last
  number : c.m_lastBlockNumber = X.heightOf last
  m_blockHashes : c.m_blockHashes = fun _ => none
  m_transactionAddresses : c.m_transactionAddresses = fun _ => none

theorem Weighed.reopen (hw : X.Weighed) (hs : X.Stored last) :
    Reopened X last (BlockChain.reopen X.m_genesis X.tieBreakingGas
      ⟨X.m_blocksDB, X.m_extrasDB, some last⟩) := by
  have hl := hw.headed.linked
  have hconnected : (connected X.m_genesis X.tieBreakingGas
      ⟨X.m_blocksDB, X.m_extrasDB, some last⟩).Linked :=
    hl.transfer rfl rfl (fun _ _ h => nomatch h)
      (fun h d hd => hl.describes h d (.inr (hd.resolve_left nofun))) fun _ h => h
  have hopened : (opened X.m_genesis X.tieBreakingGas
      ⟨X.m_blocksDB, X.m_extrasDB, some last⟩ last).Linked :=
    hl.transfer rfl rfl (fun _ _ h => nomatch h)
      (fun h d hd => hl.describes h d (.inr (hd.resolve_left nofun))) fun _ h => h
  have hset := @settled_reopen X.m_genesis X.tieBreakingGas
    ⟨X.m_blocksDB, X.m_extrasDB, some last⟩ last rfl
    (hconnected.isNull_detailsOf (stored_genesis _))
  generalize BlockChain.reopen _ _ _ = c at hset
  have hnumber : (opened X.m_genesis X.tieBreakingGas
      ⟨X.m_blocksDB, X.m_extrasDB, some last⟩ last).m_lastBlockNumber = X.heightOf last := by
    have hst : (connected X.m_genesis X.tieBreakingGas
        ⟨X.m_blocksDB, X.m_extrasDB, some last⟩).Stored last := hs
    exact (hconnected.detailsOf hst).2.1
  have hhead : (opened X.m_genesis X.tieBreakingGas
      ⟨X.m_blocksDB, X.m_extrasDB, some last⟩ last).Headed := ⟨hopened, hs, hnumber⟩
  have hweighed : (opened X.m_genesis X.tieBreakingGas
      ⟨X.m_blocksDB, X.m_extrasDB, some last⟩ last).Weighed :=
    ⟨hhead, fun h d hd => hw.weight h d (.inr (hd.resolve_left nofun))⟩
  obtain ⟨hg, htie, hb, he, hhashes, htx, hlast, hnum⟩ := settled_eq hset.symm
  exact ⟨hweighed.idle (Idle.of_settled hhead hset), hg, htie, hb, he, hlast, hnum.trans hnumber,
    hhashes, htx⟩

/-! ### What is asked of it -/

/-- The block is on the chain of the head. -/
def Canonical (bc : BlockChain) (h : H256) : Prop :=
  bc.Stored h ∧ bc.ancestorOf bc.m_lastBlockHash (bc.heightOf h) = h

/-- The head and everything that is said of the canonical chain are the same; of the details of
the blocks it is the numbers and total difficulties. -/
structure SameChain (s v : BlockChain) : Prop where
  head : v.m_lastBlockHash = s.m_lastBlockHash
  number : v.m_lastBlockNumber = s.m_lastBlockNumber
  blocks : v.m_blocksDB = s.m_blocksDB
  blockHash : v.m_extrasDB.blockHash = s.m_extrasDB.blockHash
  transactionAddress : v.m_extrasDB.transactionAddress = s.m_extrasDB.transactionAddress
  details : ∀ h, (v.m_extrasDB.details h).map (fun d => (d.number, d.totalDifficulty)) =
    (s.m_extrasDB.details h).map fun d => (d.number, d.totalDifficulty)

/-- The chain `c`, opened after the import of `b` was interrupted, is in order, and importing
the block again makes it the chain `s` of an import that is not interrupted. -/
structure Intact (b : VerifiedBlock) (s c : BlockChain) : Prop where
  head : c.Stored c.m_lastBlockHash
  detailed : (c.m_extrasDB.details c.m_lastBlockHash).isSome
  number : c.m_lastBlockNumber = c.heightOf c.m_lastBlockHash
  numbers : ∀ n ≤ c.m_lastBlockNumber,
    ((numberHash n).run c).1 = .ok (c.ancestorOf c.m_lastBlockHash n)
  transactions : ∀ t h i, ((transactionLocation t).run c).1 = .ok (h, i) →
    h = H256.zero ∨ c.Canonical h
  again : SameChain s ((importBlock b true true).run c).2

/-- The table of transactions names only blocks on the chain of the head. -/
def NamesCanonical (bc : BlockChain) (e : Extras) : Prop :=
  ∀ t a, e.transactionAddress t = some a → a.blockHash = H256.zero ∨ bc.Canonical a.blockHash

/-- Before the import the table of transactions is in order; and if the process ends when the
extras are written and the head is not, the new head is a descendant of the old one and there
are no transactions on the way to it. -/
structure Harmless (bc : BlockChain) (b : VerifiedBlock) (n : ℕ) : Prop where
  names : bc.NamesCanonical bc.m_extrasDB
  above : n = 2 → bc.improves b → bc.forkBelow b = bc.m_lastBlockNumber
  without : n = 2 → bc.improves b →
    ∀ t ∈ bc.routeBlocks b (bc.forkBelow b), t.transactions = []

/-! ### The chain that is found -/

/-- The chain `c` has the blocks of `bc` and `b`, the head of `bc`, and the extras `e`. -/
structure Resumed (bc c : BlockChain) (b : VerifiedBlock) (e : Extras) : Prop where
  adds : Adds bc c b
  head : c.m_lastBlockHash = bc.m_lastBlockHash
  number : c.m_lastBlockNumber = bc.m_lastBlockNumber
  extras : c.m_extrasDB = e
  m_blockHashes : c.m_blockHashes = fun _ => none
  m_transactionAddresses : c.m_transactionAddresses = fun _ => none

section Resumed
variable {e : Extras}

theorem Resumed.ancestorOf_head (hr : Resumed bc c b e) (hh : bc.Headed) (hi : bc.Insertable b)
    (n : ℕ) : c.ancestorOf c.m_lastBlockHash n = bc.ancestorOf bc.m_lastBlockHash n := by
  rw [hr.head]
  exact hr.adds.ancestorOf_old hh.linked hi hh.head n

theorem Resumed.canonical_iff (hr : Resumed bc c b e) (hh : bc.Headed) (hi : bc.Insertable b) :
    c.Canonical h ↔ bc.Canonical h := by
  rw [Canonical, Canonical, hr.ancestorOf_head hh hi]
  constructor
  · rintro ⟨-, hc⟩
    have hs : bc.Stored h := hc ▸ hh.linked.rooted.mem_ancestor hh.head _
    rw [hr.adds.heightOf_old hi hs] at hc
    exact ⟨hs, hc⟩
  · rintro ⟨hs, hc⟩
    rw [hr.adds.heightOf_old hi hs]
    exact ⟨hr.adds.stored hi hs, hc⟩

theorem Resumed.run_numberHash (hr : Resumed bc c b e) {n : ℕ} (hn : 1 ≤ n) :
    ((numberHash n).run c).1 = .ok ((e.blockHash n).getD H256.zero) := by
  show (if n = 0 then (Except.ok c.genesisHash, c)
    else (Except.ok ((query c.m_blockHashes c.m_extrasDB.blockHash n).1.getD H256.zero), _)).1 = _
  rw [if_neg (by omega), query_fst, view, hr.m_blockHashes, hr.extras, Option.none_or]

theorem Resumed.numbers_iff (hr : Resumed bc c b e) (hh : bc.Headed) (hi : bc.Insertable b) :
    (∀ n ≤ c.m_lastBlockNumber,
      ((numberHash n).run c).1 = .ok (c.ancestorOf c.m_lastBlockHash n)) ↔
    ∀ n, 1 ≤ n → n ≤ bc.m_lastBlockNumber →
      (e.blockHash n).getD H256.zero = bc.ancestorOf bc.m_lastBlockHash n := by
  rw [hr.number]
  constructor
  · intro hall n h1 hn
    have heq := hall n hn
    rw [hr.run_numberHash h1, hr.ancestorOf_head hh hi] at heq
    exact Except.ok.inj heq
  · intro hall n hn
    rw [hr.ancestorOf_head hh hi]
    by_cases h0 : n = 0
    · have hroot : bc.ancestorOf bc.m_lastBlockHash 0 = bc.genesisHash :=
        hh.linked.rooted.eq_root (hh.linked.rooted.mem_ancestor hh.head 0)
          (hh.linked.rooted.height_ancestor hh.head (Nat.zero_le _))
      rw [h0, hroot, ← hr.adds.genesisHash]
      rfl
    · rw [hr.run_numberHash (by omega), hall n (by omega) hn]

theorem Resumed.run_transactionLocation (hr : Resumed bc c b e) (t : H256) :
    ((transactionLocation t).run c).1 = .ok (match e.transactionAddress t with
      | none => (H256.zero, 0)
      | some a => if a.blockHash = H256.zero then (H256.zero, 0) else (a.blockHash, a.index)) := by
  have haddress : (transactionAddress t).run c = (.ok (e.transactionAddress t), {c with
      m_transactionAddresses :=
        (query c.m_transactionAddresses c.m_extrasDB.transactionAddress t).2}) := by
    show (Except.ok (query c.m_transactionAddresses c.m_extrasDB.transactionAddress t).1, _) = _
    rw [query_fst, view, hr.m_transactionAddresses, hr.extras, Option.none_or]
  unfold transactionLocation
  rw [run_bind_ok haddress]
  rcases e.transactionAddress t with _ | a
  · rfl
  · dsimp only
    split
    · rfl
    · rfl

theorem Resumed.transactions_iff (hr : Resumed bc c b e) (hh : bc.Headed)
    (hi : bc.Insertable b) :
    (∀ t h i, ((transactionLocation t).run c).1 = .ok (h, i) → h = H256.zero ∨ c.Canonical h) ↔
      bc.NamesCanonical e := by
  constructor
  · intro hall t a ha
    by_cases hz : a.blockHash = H256.zero
    · exact .inl hz
    · refine .inr ((hr.canonical_iff hh hi).mp ((hall t a.blockHash a.index ?_).resolve_left hz))
      rw [hr.run_transactionLocation, ha]
      dsimp only
      rw [if_neg hz]
  · intro hall t h i hloc
    rw [hr.run_transactionLocation] at hloc
    rcases ha : e.transactionAddress t with _ | a
    · rw [ha] at hloc
      cases hloc
      exact .inl rfl
    · rw [ha] at hloc
      dsimp only at hloc
      split at hloc
      · cases hloc
        exact .inl rfl
      · rename_i hz
        cases hloc
        exact .inr ((hr.canonical_iff hh hi).mpr ((hall t a ha).resolve_left hz))

end Resumed

/-! ### Importing the block again -/

/-- The chain `c` has the head of `bc`, and everything below it and below the parent of `b`. -/
structure Regrown (bc c : BlockChain) (b : VerifiedBlock) : Prop where
  genesis : c.m_genesis = bc.m_genesis
  tieBreakingGas : c.tieBreakingGas = bc.tieBreakingGas
  header : ∀ h, bc.Stored h → c.header h = bc.header h
  blocks : Function.update c.m_blocksDB b.info.hash (some b) =
    Function.update bc.m_blocksDB b.info.hash (some b)
  head : c.m_lastBlockHash = bc.m_lastBlockHash
  details : ∀ h, h ≠ b.info.parentHash → h ≠ b.info.hash →
    c.m_extrasDB.details h = bc.m_extrasDB.details h
  transactionAddress : c.m_extrasDB.transactionAddress = bc.m_extrasDB.transactionAddress

section Regrown
variable {r r' : ImportRoute} {v : BlockChain}

theorem Regrown.heightOf (hr : Regrown bc c b) (hs : bc.Stored h) :
    c.heightOf h = bc.heightOf h := by
  rw [BlockChain.heightOf, hr.header h hs, BlockChain.heightOf]

theorem Regrown.parentOf (hr : Regrown bc c b) (hs : bc.Stored h) :
    c.parentOf h = bc.parentOf h := by
  rw [BlockChain.parentOf, hr.header h hs, BlockChain.parentOf]

theorem Regrown.stored (hr : Regrown bc c b) (hs : bc.Stored h) : c.Stored h := by
  rw [Stored, hr.header h hs]
  exact hs

theorem Regrown.ancestorOf (hr : Regrown bc c b) (hl : bc.Linked) (hs : bc.Stored h) (n : ℕ) :
    c.ancestorOf h n = bc.ancestorOf h n :=
  hl.rooted.ancestor_congr (fun _ hx _ => hr.parentOf hx) (fun _ hx => hr.heightOf hx) hs n

theorem Regrown.pathOf (hr : Regrown bc c b) (hl : bc.Linked) (hs : bc.Stored h) (n : ℕ) :
    c.pathOf h n = bc.pathOf h n :=
  hl.rooted.path_congr (fun _ hx _ => hr.parentOf hx) (fun _ hx => hr.heightOf hx) hs n

theorem Regrown.weightOf (hr : Regrown bc c b) (hl : bc.Linked) (hs : bc.Stored h) :
    c.weightOf h = bc.weightOf h := by
  rw [BlockChain.weightOf, BlockChain.weightOf, hr.pathOf hl hs, hr.genesis]
  apply List.foldr_ext
  intro x hx w
  rw [difficultyOf, difficultyOf, hr.header x (hl.rooted.mem_of_mem_path hs hx).1]

theorem Regrown.forkBelow (hr : Regrown bc c b) (hh : bc.Headed) (hp : bc.Stored b.info.parentHash) :
    c.forkBelow b = bc.forkBelow b := by
  rw [BlockChain.forkBelow, BlockChain.forkBelow, hr.head]
  exact hh.linked.rooted.fork_congr (fun _ hx _ => hr.parentOf hx) (fun _ hx => hr.heightOf hx)
    hh.head hp

theorem Regrown.routeBlocks (hr : Regrown bc c b) (hl : bc.Linked)
    (hp : bc.Stored b.info.parentHash) (k : ℕ) : c.routeBlocks b k = bc.routeBlocks b k := by
  rw [BlockChain.routeBlocks, BlockChain.routeBlocks, hr.pathOf hl hp]
  refine List.map_congr_left fun h _ => ?_
  rw [blockOnRoute, blockOnRoute, hr.blocks]

section Weighed
variable (hr : Regrown bc c b) (hw : bc.Weighed) (hc : c.Weighed)
include hr hw hc

theorem Regrown.newDifficulty (hp : bc.Stored b.info.parentHash) :
    c.newDifficulty b = bc.newDifficulty b := by
  rw [BlockChain.newDifficulty, BlockChain.newDifficulty, hc.detailsOf (hr.stored hp),
    hw.detailsOf hp, hr.weightOf hw.headed.linked hp]

theorem Regrown.improves_iff (hp : bc.Stored b.info.parentHash) :
    c.improves b ↔ bc.improves b := by
  have hlast := hw.headed.head
  rw [improves, improves, hr.head, hr.newDifficulty hw hc hp, hr.header _ hlast, hr.tieBreakingGas,
    hc.detailsOf (hr.stored hlast), hw.detailsOf hlast, hr.weightOf hw.headed.linked hlast]

/-- Two imports of the block end in the same chain; the index that the second one meets may be
the one that the first one left. -/
theorem Regrown.sameChain (hi : bc.Inserts b r s) (hi' : c.Inserts b r' v)
    (hindex : c.m_extrasDB.blockHash = bc.m_extrasDB.blockHash ∨
      c.m_extrasDB.blockHash = s.m_extrasDB.blockHash) : SameChain s v := by
  have hins := hi.insertable
  have hp := hins.placed.parent
  have hl := hw.headed.linked
  have himp := hr.improves_iff hw hc hp
  have hfork := hr.forkBelow hw.headed hp
  have hroute := hr.routeBlocks hl hp (bc.forkBelow b)
  have hk : bc.forkBelow b ≤ bc.heightOf b.info.parentHash := fork_le_right _ _
  have hblocks : v.m_blocksDB = s.m_blocksDB := by
    rw [hi'.adds.blocks, hi.adds.blocks, hr.blocks]
  have hcore : ∀ h, (v.m_extrasDB.details h).map (fun d => (d.number, d.totalDifficulty)) =
      (s.m_extrasDB.details h).map fun d => (d.number, d.totalDifficulty) := by
    intro h
    have hpd : ∀ {x : BlockChain}, x.Weighed → x.Stored b.info.parentHash →
        (some (x.parentDetails b)).map (fun d => (d.number, d.totalDifficulty)) =
          some (x.heightOf b.info.parentHash, x.weightOf b.info.parentHash) := by
      intro x hx hxp
      rw [← (hx.headed.linked.detailsOf hxp).2.1, ← hx.detailsOf hxp]
      rfl
    rw [hi.details, hi'.details]
    by_cases hb : h = b.info.hash
    · rw [hb, Function.update_self, Function.update_self, newDetails, newDetails,
        hr.newDifficulty hw hc hp]
    · rw [Function.update_of_ne hb, Function.update_of_ne hb]
      by_cases hpar : h = b.info.parentHash
      · rw [hpar, Function.update_self, Function.update_self, hpd hw hp, hpd hc (hr.stored hp),
          hr.heightOf hp, hr.weightOf hl hp]
      · rw [Function.update_of_ne hpar, Function.update_of_ne hpar, hr.details h hpar hb]
  by_cases himproves : bc.improves b
  · have ha := hi.advances himproves
    have ha' := hi'.advances (himp.mpr himproves)
    refine ⟨ha'.head.trans ha.head.symm, ha'.number.trans ha.number.symm, hblocks, ?_, ?_, hcore⟩
    · funext n
      rw [ha'.blockHash, ha.blockHash, hfork]
      have hk' : bc.forkBelow b ≤ c.heightOf b.info.parentHash := by
        rwa [hr.heightOf hp]
      rw [blockHash_commit hc.headed.linked hi'.insertable hk', blockHash_commit hl hins hk,
        hr.ancestorOf hl hp]
      split
      · rfl
      · rename_i hout
        rcases hindex with hx | hx
        · rw [hx]
        · rw [hx, ha.blockHash, blockHash_commit hl hins hk, if_neg hout]
    · rw [ha'.transactionAddress, ha.transactionAddress, hfork, hroute]
      exact Extras.commit_transactionAddress_congr hr.transactionAddress _
  · have ht := hi.stays himproves
    have ht' := hi'.stays (mt himp.mp himproves)
    refine ⟨?_, ?_, hblocks, ?_, ?_, hcore⟩
    · rw [ht'.head, ht.head, hr.head]
    · rw [ht'.number, ht.number, hc.headed.number, hw.headed.number, hr.head,
        hr.heightOf hw.headed.head]
    · rcases hindex with hx | hx
      · rw [ht'.blockHash, ht.blockHash, hx]
      · rw [ht'.blockHash, hx]
    · rw [ht'.transactionAddress, ht.transactionAddress, hr.transactionAddress]

end Weighed
end Regrown

/-! ### Crashes -/

section Crash
variable {r : ImportRoute}

theorem asks_checkBlockIsNew_ok (hl : bc.Linked)
    (habove : bc.Stored b.info.hash → bc.m_lastBlockNumber < bc.heightOf b.info.hash) :
    bc.Asks (if true then checkBlockIsNew b else return ()) (.ok ()) := by
  obtain ⟨known, hr, hknown⟩ := asks_isKnown hl b.info.hash true
  cases known with
  | true =>
    obtain ⟨hst, hle⟩ := hknown.mp rfl
    exact absurd (hle rfl) (Nat.not_le.mpr (habove hst))
  | false => exact hr.bind (Sees.pure _)

/-- The blocks of the route are not on the chain of the old head. -/
theorem not_canonical_route (hh : bc.Headed) (hi : bc.Insertable b)
    (habove : bc.Stored b.info.hash → bc.m_lastBlockNumber < bc.heightOf b.info.hash)
    {t : VerifiedBlock} (ht : t ∈ bc.routeBlocks b (bc.forkBelow b)) :
    ¬bc.Canonical t.info.hash := by
  rintro ⟨-, hcanonical⟩
  rcases mem_routeBlocks hh.linked hi ht with rfl | ⟨hfork, hlt, hhash⟩
  · exact ancestorOf_ne_new hh (.inl rfl) (fun _ => habove) _ hcanonical
  · have hp := hi.placed.parent
    have hnum := hi.placed.number
    have hheight : bc.heightOf t.info.hash = t.info.number := by
      rw [hhash]
      exact hh.linked.rooted.height_ancestor hp (by omega)
    rw [hheight] at hcanonical
    by_cases hle : t.info.number ≤ bc.heightOf bc.m_lastBlockHash
    · have hagree := (hh.linked.rooted.agree_iff hh.head hp hle (by omega)).mp
        (hcanonical.trans hhash)
      exact absurd hfork (Nat.not_lt.mpr hagree)
    · rw [ancestorOf, ancestor, Nat.sub_eq_zero_of_le (by omega)] at hcanonical
      rw [← hcanonical] at hheight
      have hhead : bc.heightOf bc.m_lastBlockHash = t.info.number := hheight
      omega

/-- The index lists the chain of the old head if and only if the new one extends it. -/
theorem numbers_advances (hx : bc.Indexed) (hi : bc.Inserts b r s) (himp : bc.improves b)
    (habove : bc.Stored b.info.hash → bc.m_lastBlockNumber < bc.heightOf b.info.hash) :
    (∀ n, 1 ≤ n → n ≤ bc.m_lastBlockNumber →
      (s.m_extrasDB.blockHash n).getD H256.zero = bc.ancestorOf bc.m_lastBlockHash n) ↔
    bc.forkBelow b = bc.m_lastBlockNumber := by
  have hp := hi.insertable.placed.parent
  have hnum := hi.insertable.placed.number
  have hkl : bc.forkBelow b ≤ bc.heightOf bc.m_lastBlockHash := fork_le_left _ _
  have hkp : bc.forkBelow b ≤ bc.heightOf b.info.parentHash := fork_le_right _ _
  rw [(hi.advances himp).blockHash, hx.number]
  constructor
  · intro hall
    by_contra hne
    have hentry := hall (bc.forkBelow b + 1) (by omega) (by omega)
    rw [blockHash_commit hx.linked hi.insertable hkp, if_pos ⟨by omega, by omega⟩] at hentry
    by_cases hlast : bc.forkBelow b + 1 = b.info.number
    · rw [if_pos hlast] at hentry
      exact ancestorOf_ne_new hx.headed (.inl rfl) (fun _ => habove) _ hentry.symm
    · rw [if_neg hlast] at hentry
      have hagree := (hx.linked.rooted.agree_iff hx.head hp (by omega) (by omega)).mp hentry.symm
      exact absurd hagree (Nat.not_succ_le_self _)
  · intro hfork n h1 hn
    rw [blockHash_commit hx.linked hi.insertable hkp, if_neg (by omega),
      hx.index n h1 (by rwa [hx.number])]
    rfl

theorem transactionAddress_without (hi : bc.Inserts b r s) (himp : bc.improves b)
    (hwithout : ∀ t ∈ bc.routeBlocks b (bc.forkBelow b), t.transactions = []) :
    s.m_extrasDB.transactionAddress = bc.m_extrasDB.transactionAddress := by
  funext t
  rw [(hi.advances himp).transactionAddress]
  refine Extras.commit_route_transactionAddress_of_notMem _ fun hmem => ?_
  obtain ⟨c, hc, ht⟩ := List.mem_flatMap.mp hmem
  rw [hwithout c hc] at ht
  cases ht

/-- The new table of transactions names blocks of the old chain only, if and only if the old table
does and nothing is added to it. -/
theorem namesCanonical_advances (hh : bc.Headed) (hi : bc.Inserts b r s) (himp : bc.improves b)
    (habove : bc.Stored b.info.hash → bc.m_lastBlockNumber < bc.heightOf b.info.hash) :
    bc.NamesCanonical s.m_extrasDB ↔ bc.NamesCanonical bc.m_extrasDB ∧
      ∀ t ∈ bc.routeBlocks b (bc.forkBelow b), t.transactions = [] := by
  constructor
  · intro hnames
    have hwithout : ∀ t ∈ bc.routeBlocks b (bc.forkBelow b), t.transactions = [] := by
      intro t ht
      rw [List.eq_nil_iff_forall_not_mem]
      intro x hx
      obtain ⟨c, hc, i, haddress⟩ := Extras.commit_route_transactionAddress_of_mem
        bc.m_extrasDB (List.mem_flatMap.mpr ⟨t, ht, hx⟩)
      rw [← (hi.advances himp).transactionAddress] at haddress
      rcases hnames x _ haddress with hzero | hcanonical
      · have hc0 : c.info.hash ≠ H256.zero := by
          rcases mem_routeBlocks hh.linked hi.insertable hc with rfl | ⟨-, -, hhash⟩
          · exact hi.insertable.placed.ne_zero
          · rw [hhash]
            exact hh.linked.ne_zero
              (hh.linked.rooted.mem_ancestor hi.insertable.placed.parent _)
        exact hc0 hzero
      · exact not_canonical_route hh hi.insertable habove hc hcanonical
    refine ⟨?_, hwithout⟩
    rwa [NamesCanonical, transactionAddress_without hi himp hwithout] at hnames
  · rintro ⟨hnames, hwithout⟩
    rwa [NamesCanonical, transactionAddress_without hi himp hwithout]

/-- All but the last of what is asked of the chain that is found. -/
theorem Resumed.intact_iff {e : Extras} (hr : Resumed bc c b e) (hh : bc.Headed)
    (hi : bc.Insertable b) (hdetailed : (e.details bc.m_lastBlockHash).isSome) :
    Intact b s c ↔ (∀ n, 1 ≤ n → n ≤ bc.m_lastBlockNumber →
        (e.blockHash n).getD H256.zero = bc.ancestorOf bc.m_lastBlockHash n) ∧
      bc.NamesCanonical e ∧ SameChain s ((importBlock b true true).run c).2 := by
  constructor
  · intro h
    exact ⟨(hr.numbers_iff hh hi).mp h.numbers, (hr.transactions_iff hh hi).mp h.transactions,
      h.again⟩
  · rintro ⟨hnumbers, htransactions, hagain⟩
    refine ⟨?_, ?_, ?_, (hr.numbers_iff hh hi).mpr hnumbers,
      (hr.transactions_iff hh hi).mpr htransactions, hagain⟩
    · rw [hr.head]
      exact hr.adds.stored hi hh.head
    · rw [hr.head, hr.extras]
      exact hdetailed
    · rw [hr.head, hr.number, hr.adds.heightOf_old hi hh.head, hh.number]

theorem SameChain.of_settled {v w : BlockChain} (h : SameChain s v) (hw : w.settled = v.settled) :
    SameChain s w := by
  obtain ⟨-, -, hb, he, -, -, hlast, hnum⟩ := settled_eq hw.symm
  exact ⟨hlast.trans h.head, hnum.trans h.number, hb.trans h.blocks, by rw [he, h.blockHash],
    by rw [he, h.transactionAddress], by rw [he]; exact h.details⟩

/-- A chain with the head and the extras of `bc` imports the block. -/
theorem Reopened.run_importBlock (hr : Reopened bc bc.m_lastBlockHash c) (hi : bc.Inserts b r s)
    (hw : bc.Weighed)
    (habove : bc.Stored b.info.hash → bc.m_lastBlockNumber < bc.heightOf b.info.hash) :
    ∃ r' v, (importBlock b true true).run c = (.ok r', v) ∧ c.Inserts b r' v ∧ SameChain s v := by
  have hins : c.Insertable b := hi.insertable.congr hr.genesis hr.blocks
  have hnew := asks_checkBlockIsNew_ok (b := b) hr.weighed.headed.linked fun hst => by
    rw [stored_congr hr.genesis hr.blocks] at hst
    rw [hr.number, heightOf_congr hr.genesis hr.blocks, ← hw.headed.number]
    exact habove hst
  obtain ⟨r', v, hrun, hi'⟩ := run_importBlock_of_insertable hr.weighed.headed hins hnew
  have hregrown : Regrown bc c b :=
    ⟨hr.genesis, hr.tieBreakingGas, fun h _ => by rw [header_congr hr.genesis hr.blocks],
      by rw [hr.blocks], hr.head, fun h _ _ => by rw [hr.extras], by rw [hr.extras]⟩
  exact ⟨r', v, hrun, hi', hregrown.sameChain hw hr.weighed hi hi' (.inl (by rw [hr.extras]))⟩

theorem withBlock_of_stored (hb : bc.m_blocksDB b.info.hash = some b) : bc.withBlock b = bc := by
  rw [withBlock, Function.update_eq_self_iff.mpr hb.symm]

theorem Insertable.parentHash_ne (hi : bc.Insertable b) : b.info.parentHash ≠ b.info.hash := by
  intro he
  obtain ⟨t, ht, hheader⟩ := (he ▸ hi.placed.parent : bc.Stored b.info.hash).block
    hi.placed.ne_genesis
  have hheight : bc.heightOf b.info.hash = b.info.number := by
    rw [heightOf, hheader, hi.unique t ht]
    rfl
  have hnum := hi.placed.number
  rw [he] at hnum
  omega

/-- When only the blocks are written, the block counts as not stored. -/
theorem reopen_blocks (hw : bc.Weighed) (hi : bc.Insertable b) :
    let c := reopen bc.m_genesis bc.tieBreakingGas
      ⟨bc.m_blocksDB, bc.m_extrasDB, some bc.m_lastBlockHash⟩
    let c' := reopen bc.m_genesis bc.tieBreakingGas
      ⟨Function.update bc.m_blocksDB b.info.hash (some b), bc.m_extrasDB, some bc.m_lastBlockHash⟩
    c' = c.withBlock b ∧ ∀ (r : ImportRoute) (v : BlockChain),
      v.m_blocksDB b.info.hash = some b → (importBlock b true true).run c = (.ok r, v) →
      (importBlock b true true).run c' = (.ok r, v) := by
  intro c c'
  have hr : Reopened bc bc.m_lastBlockHash c := hw.reopen hw.headed.head
  rcases hb : bc.m_blocksDB b.info.hash with _ | t
  · have hstored : ¬bc.Stored b.info.hash := by
      rw [Stored, header_of_ne hi.placed.ne_genesis, hb]
      exact Bool.false_ne_true
    have hdetails : bc.m_extrasDB.details b.info.hash = none := by
      rcases hd : bc.m_extrasDB.details b.info.hash with _ | d
      · rfl
      · exact absurd (hw.headed.linked.describes _ d (.inr hd)).1 hstored
    have hbest : some bc.m_lastBlockHash ≠ some b.info.hash := by
      intro he
      exact hstored (Option.some.inj he ▸ hw.headed.head)
    obtain ⟨hc, hdetached⟩ := @reopen_withBlock b bc.m_genesis bc.tieBreakingGas
      ⟨bc.m_blocksDB, bc.m_extrasDB, some bc.m_lastBlockHash⟩ hi.placed.ne_genesis.symm hbest
      hdetails
    refine ⟨hc, fun r v hv hrun => ?_⟩
    have hrun' := ignores_importBlock hi.parentHash_ne true true _ hdetached
    rw [show reopen _ _ _ = c from rfl, hrun] at hrun'
    rw [show c' = c.withBlock b from hc, hrun', withBlock_of_stored hv]
  · -- the block is above the head and is stored again
    have ht : bc.m_blocksDB b.info.hash = some b := by rw [hb, hi.unique t hb]
    have hc : c' = c := by
      show reopen _ _ ⟨Function.update bc.m_blocksDB b.info.hash (some b), _, _⟩ = _
      rw [Function.update_eq_self_iff.mpr ht.symm]
    rw [hc]
    refine ⟨(withBlock_of_stored ?_).symm, fun _ _ _ hrun => hrun⟩
    rw [hr.blocks, ht]

/-- The process ends when the blocks are written. -/
theorem intact_blocks (hw : bc.Weighed) (hx : bc.Indexed) (hi : bc.Inserts b r s)
    (habove : bc.Stored b.info.hash → bc.m_lastBlockNumber < bc.heightOf b.info.hash) :
    Intact b s (reopen bc.m_genesis bc.tieBreakingGas (diskAfter bc s 1)) ↔
      bc.NamesCanonical bc.m_extrasDB := by
  have hins := hi.insertable
  have hr : Reopened bc bc.m_lastBlockHash (reopen bc.m_genesis bc.tieBreakingGas
      ⟨bc.m_blocksDB, bc.m_extrasDB, some bc.m_lastBlockHash⟩) := hw.reopen hw.headed.head
  obtain ⟨hc, hagain⟩ := reopen_blocks hw hins
  have hdisk : diskAfter bc s 1 =
      ⟨Function.update bc.m_blocksDB b.info.hash (some b), bc.m_extrasDB,
        some bc.m_lastBlockHash⟩ := by
    rw [← hi.adds.blocks]
    rfl
  rw [← hdisk] at hc hagain
  have hresumed : Resumed bc (reopen bc.m_genesis bc.tieBreakingGas (diskAfter bc s 1)) b
      bc.m_extrasDB := by
    rw [hc]
    refine ⟨⟨hr.genesis, ?_⟩, hr.head, hr.number.trans hw.headed.number.symm, hr.extras,
      hr.m_blockHashes, hr.m_transactionAddresses⟩
    show Function.update (reopen _ _ _).m_blocksDB _ _ = _
    rw [hr.blocks]
  obtain ⟨r', v, hrun, hi', hsame⟩ := hr.run_importBlock hi hw habove
  have hv : v.m_blocksDB b.info.hash = some b := by
    rw [hi'.adds.blocks, Function.update_self]
  rw [hresumed.intact_iff hw.headed hins (hw.headed.linked.detailed _ hw.headed.head),
    hagain r' v hv hrun]
  refine ⟨fun h => h.2.1, fun hnames => ⟨fun n h1 hn => ?_, hnames, hsame⟩⟩
  rw [hx.index n h1 hn]
  rfl

/-- The block can be inserted once more where it is stored already. -/
theorem Adds.insertable (ha : Adds bc c b) (hi : bc.Insertable b) : c.Insertable b := by
  refine ⟨ha.placed hi hi.placed, fun t ht => ?_⟩
  rw [ha.blocks, Function.update_self] at ht
  exact (Option.some.inj ht).symm

theorem Insertable.admissible (hi : bc.Insertable b) : bc.Admissible b := by
  refine ⟨hi.placed.ne_zero, hi.placed.number_lt, fun he => absurd he hi.placed.ne_genesis, ?_⟩
  rcases hb : bc.m_blocksDB b.info.hash with _ | t
  · exact .inl rfl
  · exact .inr (congrArg some (hi.unique t hb))

section Extras
variable (hw : bc.Weighed) (hi : bc.Inserts b r s)
include hw hi

theorem reopen_extras : Reopened s bc.m_lastBlockHash
    (reopen bc.m_genesis bc.tieBreakingGas (diskAfter bc s 2)) := by
  have hr := (hw.inserts hi).reopen (hi.adds.stored hi.insertable hw.headed.head)
  rwa [hi.adds.genesis, hi.tieBreakingGas] at hr

theorem resumed_extras (hr : Reopened s bc.m_lastBlockHash c) :
    Resumed bc c b s.m_extrasDB := by
  refine ⟨⟨hr.genesis.trans hi.adds.genesis, hr.blocks.trans hi.adds.blocks⟩, hr.head, ?_,
    hr.extras, hr.m_blockHashes, hr.m_transactionAddresses⟩
  rw [hr.number, hi.adds.heightOf_old hi.insertable hw.headed.head, hw.headed.number]

theorem regrown_extras (hr : Reopened s bc.m_lastBlockHash c)
    (htransactions : s.m_extrasDB.transactionAddress = bc.m_extrasDB.transactionAddress) :
    Regrown bc c b := by
  have ha := (resumed_extras hw hi hr).adds
  refine ⟨ha.genesis, hr.tieBreakingGas.trans hi.tieBreakingGas,
    fun h hs => ha.header_old hi.insertable hs, ?_, hr.head, fun h hp hb => ?_, ?_⟩
  · rw [ha.blocks, Function.update_idem]
  · rw [hr.extras, hi.details, Function.update_of_ne hb, Function.update_of_ne hp]
  · rw [hr.extras, htransactions]

/-- The block is not the best one, and is known or is inserted again. -/
theorem again_stays (hr : Reopened s bc.m_lastBlockHash c) (himp : ¬bc.improves b) :
    SameChain s ((importBlock b true true).run c).2 := by
  have ht := hi.stays himp
  have hins := (resumed_extras hw hi hr).adds.insertable hi.insertable
  rcases run_importBlock hr.weighed.headed hins.admissible true true with
    ⟨e, v, hrun, hset⟩ | ⟨r', v, hrun, hi', -⟩
  · rw [hrun]
    refine SameChain.of_settled ⟨hr.head.trans ht.head.symm, ?_, hr.blocks, ?_, ?_, ?_⟩ hset
    · rw [(resumed_extras hw hi hr).number, ht.number]
    · rw [hr.extras]
    · rw [hr.extras]
    · rw [hr.extras]
      exact fun _ => rfl
  · rw [hrun]
    exact (regrown_extras hw hi hr ht.transactionAddress).sameChain hw hr.weighed hi hi'
      (.inr (by rw [hr.extras]))

/-- The block is above the old head, and is inserted again. -/
theorem again_advances (hr : Reopened s bc.m_lastBlockHash c) (himp : bc.improves b)
    (habove : bc.forkBelow b = bc.m_lastBlockNumber)
    (hwithout : ∀ t ∈ bc.routeBlocks b (bc.forkBelow b), t.transactions = []) :
    SameChain s ((importBlock b true true).run c).2 := by
  have hresumed := resumed_extras hw hi hr
  have hkp : bc.forkBelow b ≤ bc.heightOf b.info.parentHash := fork_le_right _ _
  have hnum := hi.insertable.placed.number
  have hnew := asks_checkBlockIsNew_ok (b := b) hr.weighed.headed.linked fun _ => by
    rw [hresumed.number, hresumed.adds.heightOf_new hi.insertable]
    omega
  obtain ⟨r', v, hrun, hi'⟩ := run_importBlock_of_insertable hr.weighed.headed
    (hresumed.adds.insertable hi.insertable) hnew
  rw [hrun]
  exact (regrown_extras hw hi hr (transactionAddress_without hi himp hwithout)).sameChain hw
    hr.weighed hi hi' (.inr (by rw [hr.extras]))

/-- The process ends when the extras are written. -/
theorem intact_extras (hx : bc.Indexed)
    (habove : bc.Stored b.info.hash → bc.m_lastBlockNumber < bc.heightOf b.info.hash) :
    Intact b s (reopen bc.m_genesis bc.tieBreakingGas (diskAfter bc s 2)) ↔
      Harmless bc b 2 := by
  have hr := reopen_extras hw hi
  have hh := hw.headed
  rw [(resumed_extras hw hi hr).intact_iff hh hi.insertable
    (hi.linked.detailed _ (hi.adds.stored hi.insertable hh.head))]
  by_cases himp : bc.improves b
  · rw [numbers_advances hx hi himp habove, namesCanonical_advances hh hi himp habove]
    constructor
    · rintro ⟨hfork, ⟨hnames, hwithout⟩, -⟩
      exact ⟨hnames, fun _ _ => hfork, fun _ _ => hwithout⟩
    · intro h
      have hfork := h.above rfl himp
      have hwithout := h.without rfl himp
      exact ⟨hfork, ⟨h.names, hwithout⟩, again_advances hw hi hr himp hfork hwithout⟩
  · have ht := hi.stays himp
    rw [ht.blockHash, NamesCanonical, ht.transactionAddress]
    constructor
    · rintro ⟨-, hnames, -⟩
      exact ⟨hnames, fun _ hn => absurd hn himp, fun _ hn => absurd hn himp⟩
    · intro h
      refine ⟨fun n h1 hn => ?_, h.names, again_stays hw hi hr himp⟩
      rw [hx.index n h1 hn]
      rfl

end Extras
end Crash

/-! ### Runs -/

theorem weighed_run {genesis : VerifiedBlock} {tieBreakingGas : Bool}
    (h0 : genesis.info.number = 0) (hne : genesis.info.hash ≠ H256.zero) {l : List Request}
    (hproper : Along Proper (fresh genesis tieBreakingGas) l) :
    (runFromFresh genesis tieBreakingGas l).Weighed ∧
      (runFromFresh genesis tieBreakingGas l).m_genesis = genesis ∧
      (runFromFresh genesis tieBreakingGas l).tieBreakingGas = tieBreakingGas := by
  refine @foldl_induction _ (fun c _ => c.Weighed ∧ c.m_genesis = genesis ∧
    c.tieBreakingGas = tieBreakingGas) Proper (fun {c acc r} hc hr => ?_) l hproper []
    ⟨weighed_fresh tieBreakingGas h0 hne, rfl, rfl⟩
  obtain ⟨hw, hg, htie⟩ := hc
  rcases step_cases hw.headed hr with ⟨hidle, -⟩ | ⟨b, mustBeNew, route, -, -, -, hi, -⟩
  · exact ⟨hw.idle hidle, hidle.genesis.trans hg, hidle.tieBreakingGas.trans htie⟩
  · exact ⟨hw.inserts hi, hi.adds.genesis.trans hg, hi.tieBreakingGas.trans htie⟩

/-- **After any run, an import that is interrupted when the blocks are written, or when the extras
are, leaves a chain that is in order and can be completed, if and only if it is harmless.** -/
theorem interrupted_intact_iff (genesis : VerifiedBlock) (tieBreakingGas : Bool)
    (h0 : genesis.info.number = 0) (hne : genesis.info.hash ≠ H256.zero) (l : List Request)
    (hproper : Along Proper (fresh genesis tieBreakingGas) l) (b : VerifiedBlock)
    (hb : (runFromFresh genesis tieBreakingGas l).Admissible b) (r : ImportRoute) (s : BlockChain)
    (hrun : (importBlock b true true).run (runFromFresh genesis tieBreakingGas l) = (.ok r, s))
    (n : ℕ) (hn : n = 1 ∨ n = 2) :
    Intact b s (reopen genesis tieBreakingGas
        (diskAfter (runFromFresh genesis tieBreakingGas l) s n)) ↔
      Harmless (runFromFresh genesis tieBreakingGas l) b n := by
  obtain ⟨hw, hg, htie⟩ := weighed_run h0 hne hproper
  have hx : (runFromFresh genesis tieBreakingGas l).Indexed :=
    (indexed_foldl (indexed_fresh tieBreakingGas h0 hne) hproper).1
  generalize runFromFresh genesis tieBreakingGas l = bc at *
  rw [← hg, ← htie]
  rcases run_importBlock hw.headed hb true true with
    ⟨e, v, hfailed, -⟩ | ⟨r', v, hdone, hi, -, habove⟩
  · rw [hrun] at hfailed
    cases hfailed
  · rw [hrun] at hdone
    cases hdone
    rcases hn with rfl | rfl
    · rw [intact_blocks hw hx hi (habove rfl)]
      exact ⟨fun h => ⟨h, nofun, nofun⟩, Harmless.names⟩
    · exact intact_extras hw hi hx (habove rfl)

/-! ### A branch that is left halfway -/

/-- The longer branch, before a heavier block beside it. -/
def beforeCrash : List Request :=
  [.importBlock (sampleBlock 0xa1 0x01 1 1) true true,
    .importBlock (sampleBlock 0xa2 0xa1 2 1) true true]

def importAtCrash (b : VerifiedBlock) : BlockChain :=
  ((importBlock b true true).run (runFromFresh sampleGenesis false beforeCrash)).2

theorem run_importAtCrash : (importBlock (sampleBlock 0xa3 0xa2 3 1) true true).run
    (runFromFresh sampleGenesis false beforeCrash) =
    (.ok ⟨[], [H256.alignRight [0xa3]], []⟩, importAtCrash (sampleBlock 0xa3 0xa2 3 1)) := by
  apply Prod.ext
  · decide +kernel
  · rw [importAtCrash]

theorem interrupted_intact_iff_sample :
    Intact (sampleBlock 0xa3 0xa2 3 1) (importAtCrash (sampleBlock 0xa3 0xa2 3 1))
        (reopen sampleGenesis false (diskAfter (runFromFresh sampleGenesis false beforeCrash)
          (importAtCrash (sampleBlock 0xa3 0xa2 3 1)) 2)) ↔
      Harmless (runFromFresh sampleGenesis false beforeCrash) (sampleBlock 0xa3 0xa2 3 1) 2 :=
  interrupted_intact_iff sampleGenesis false rfl (by decide) beforeCrash (by decide +kernel)
    (sampleBlock 0xa3 0xa2 3 1) (by decide +kernel) ⟨[], [H256.alignRight [0xa3]], []⟩ _
    run_importAtCrash 2 (.inr rfl)

/-- The index lists the new branch below the old head, and the block counts as known when it is
imported again. -/
theorem interrupted_halfway :
    let b := sampleBlock 0xb1 0x01 1 9
    let bc := runFromFresh sampleGenesis false beforeCrash
    let c := reopen sampleGenesis false (diskAfter bc (importAtCrash b) 2)
    bc.Admissible b ∧
      ((importBlock b true true).run bc).1 = .ok
        ⟨[H256.alignRight [0xa2], H256.alignRight [0xa1]], [b.info.hash], []⟩ ∧
      c.m_lastBlockHash = H256.alignRight [0xa2] ∧ c.m_lastBlockNumber = 2 ∧
      ((numberHash 1).run c).1 = .ok b.info.hash ∧
      c.ancestorOf c.m_lastBlockHash 1 = H256.alignRight [0xa1] ∧
      ((importBlock b true true).run c).1 = .error .alreadyHaveBlock ∧
      ¬Intact b (importAtCrash b) c := by
  intro b bc c
  have hnumber : c.m_lastBlockNumber = 2 := by decide +kernel
  have hhash : ((numberHash 1).run c).1 = .ok b.info.hash := by decide +kernel
  have hancestor : c.ancestorOf c.m_lastBlockHash 1 = H256.alignRight [0xa1] := by decide +kernel
  refine ⟨by decide +kernel, by decide +kernel, by decide +kernel, hnumber, hhash, hancestor,
    by decide +kernel, fun h => ?_⟩
  have hentry := h.numbers 1 (by omega)
  rw [hhash, hancestor] at hentry
  exact absurd (Except.ok.inj hentry) (by decide +kernel)

end Aleth.Ethereum.BlockChain
