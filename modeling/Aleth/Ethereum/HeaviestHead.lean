import Aleth.Ethereum.ImportRuns

/-! The head is the first of the heaviest blocks.

An import moves the head only to a block of greater total difficulty, so among
blocks that weigh the same the first one imported stays. The route it returns is
the way from the old head to the new one. -/
namespace Aleth.Ethereum.BlockChain
open Devcore ReadThrough Throwing Ancestry
variable {bc : BlockChain}

/-- Of the blocks `l`, in the order of their import, `head` is the first with the greatest total
difficulty. -/
def FirstHeaviest (bc : BlockChain) (l : List H256) (head : H256) : Prop :=
  ∃ before after, l = before ++ head :: after ∧
    (∀ h ∈ before, (bc.detailsOf h).totalDifficulty < (bc.detailsOf head).totalDifficulty) ∧
    ∀ h ∈ after, (bc.detailsOf h).totalDifficulty ≤ (bc.detailsOf head).totalDifficulty

/-- The blocks imported are stored, and the head is the first of the heaviest. -/
structure Heaviest (bc : BlockChain) (l : List VerifiedBlock) : Prop where
  weighed : bc.Weighed
  tieBreakingGas : bc.tieBreakingGas = false
  stored : ∀ h ∈ bc.genesisHash :: l.map (·.info.hash), bc.Stored h
  head : bc.FirstHeaviest (bc.genesisHash :: l.map (·.info.hash)) bc.m_lastBlockHash

section Heaviest
variable {l : List VerifiedBlock}

theorem FirstHeaviest.le {bc : BlockChain} {l : List H256} {head h : H256}
    (hf : bc.FirstHeaviest l head) (hmem : h ∈ l) :
    (bc.detailsOf h).totalDifficulty ≤ (bc.detailsOf head).totalDifficulty := by
  obtain ⟨before, after, rfl, hbefore, hafter⟩ := hf
  cases List.mem_append.mp hmem with
  | inl hb => exact (hbefore h hb).le
  | inr hr =>
    cases List.mem_cons.mp hr with
    | inl he => rw [he]
    | inr ha => exact hafter h ha

/-- Only the total difficulties of the blocks matter. -/
theorem FirstHeaviest.congr {bc' : BlockChain} {l : List H256} {head : H256}
    (hf : bc.FirstHeaviest l head)
    (heq : ∀ h ∈ l, (bc'.detailsOf h).totalDifficulty = (bc.detailsOf h).totalDifficulty) :
    bc'.FirstHeaviest l head := by
  obtain ⟨before, after, rfl, hbefore, hafter⟩ := hf
  have hhead := heq head (List.mem_append_right _ List.mem_cons_self)
  refine ⟨before, after, rfl, fun h hh => ?_, fun h hh => ?_⟩
  · rw [heq h (List.mem_append_left _ hh), hhead]
    exact hbefore h hh
  · rw [heq h (List.mem_append_right _ (List.mem_cons_of_mem _ hh)), hhead]
    exact hafter h hh

theorem Heaviest.idle (hv : bc.Heaviest l) {s : BlockChain} (hs : bc.Idle s) : s.Heaviest l := by
  have hg : s.genesisHash = bc.genesisHash := by rw [genesisHash, hs.genesis, genesisHash]
  have hw := hv.weighed.idle hs
  refine ⟨hw, by rw [hs.tieBreakingGas, hv.tieBreakingGas], ?_, ?_⟩
  · rw [hg, stored_congr hs.genesis hs.blocks]
    exact hv.stored
  · rw [hg, hs.head]
    refine hv.head.congr fun h hmem => ?_
    have hst := hv.stored h hmem
    rw [hv.weighed.detailsOf hst, hw.detailsOf (by
      rw [stored_congr hs.genesis hs.blocks]
      exact hst), weightOf_congr hs.genesis hs.blocks]

/-- The new block takes over where it is heavier than the head, and comes last otherwise. -/
theorem Heaviest.inserts (hv : bc.Heaviest l) {b : VerifiedBlock} {r : ImportRoute}
    {s : BlockChain} (hi : bc.Inserts b r s) : s.Heaviest (l ++ [b]) := by
  have hl := hv.weighed.headed.linked
  have hins := hi.insertable
  have hw := hv.weighed.inserts hi
  obtain ⟨known, hknown⟩ : ∃ k, k = bc.genesisHash :: l.map (·.info.hash) := ⟨_, rfl⟩
  have hlist : s.genesisHash :: (l ++ [b]).map (·.info.hash) = known ++ [b.info.hash] := by
    rw [hi.adds.genesisHash, List.map_append, hknown]
    rfl
  have hstored : ∀ h ∈ known, bc.Stored h := by
    rw [hknown]
    exact hv.stored
  have hhead : bc.FirstHeaviest known bc.m_lastBlockHash := by
    rw [hknown]
    exact hv.head
  have hkept : ∀ h ∈ known,
      (s.detailsOf h).totalDifficulty = (bc.detailsOf h).totalDifficulty := by
    intro h hmem
    rw [hw.detailsOf (hi.adds.stored hins (hstored h hmem)), hv.weighed.detailsOf (hstored h hmem),
      hi.adds.weightOf_old hl hins (hstored h hmem)]
  have hnew : (s.detailsOf b.info.hash).totalDifficulty = bc.newDifficulty b := by
    rw [hw.detailsOf (hi.adds.stored_new hins), hi.adds.weightOf_new hl hi.linked hins,
      hv.weighed.newDifficulty hins]
  have himproves : bc.improves b ↔
      (bc.detailsOf bc.m_lastBlockHash).totalDifficulty < bc.newDifficulty b := by
    rw [improves, hv.tieBreakingGas]
    simp
  refine ⟨hw, by rw [hi.tieBreakingGas, hv.tieBreakingGas], ?_, ?_⟩
  · rw [hlist]
    intro h hmem
    cases List.mem_append.mp hmem with
    | inl hk => exact hi.adds.stored hins (hstored h hk)
    | inr hb =>
      rw [List.mem_singleton.mp hb]
      exact hi.adds.stored_new hins
  · rw [hlist]
    by_cases himp : bc.improves b
    · rw [(hi.advances himp).head]
      refine ⟨known, [], rfl, fun h hmem => ?_, fun h hmem => by cases hmem⟩
      rw [hkept h hmem, hnew]
      exact (hhead.le hmem).trans_lt (himproves.mp himp)
    · rw [(hi.stays himp).head]
      obtain ⟨before, after, heq, hbefore, hafter⟩ := hhead.congr hkept
      refine ⟨before, after ++ [b.info.hash], ?_, hbefore, fun h hmem => ?_⟩
      · rw [heq, List.append_assoc]
        rfl
      · cases List.mem_append.mp hmem with
        | inl ha => exact hafter h ha
        | inr hb =>
          have hlast : bc.m_lastBlockHash ∈ known := by
            rw [heq]
            exact List.mem_append_right _ List.mem_cons_self
          rw [List.mem_singleton.mp hb, hnew, hkept _ hlast]
          exact Nat.le_of_not_lt fun hlt => himp (himproves.mpr hlt)

theorem heaviest_step (hv : bc.Heaviest l) {r : Request} (hr : bc.Proper r) :
    (bc.step r).Heaviest (l ++ (bc.importedBy r).toList) := by
  cases step_cases hv.weighed.headed hr with
  | inl h =>
    rw [h.2, Option.toList_none, List.append_nil]
    exact hv.idle h.1
  | inr h =>
    obtain ⟨b, mustBeNew, route, rfl, _, hby, hi, _⟩ := h
    rw [hby, Option.toList_some]
    exact hv.inserts hi

theorem heaviest_step_genesis (hv : bc.Heaviest l) {g : H256} (hg : bc.genesisHash = g)
    {r : Request} (hr : bc.Proper r) :
    (bc.step r).Heaviest (l ++ (bc.importedBy r).toList) ∧ (bc.step r).genesisHash = g := by
  refine ⟨heaviest_step hv hr, ?_⟩
  cases step_cases hv.weighed.headed hr with
  | inl h => rw [genesisHash, h.1.genesis, ← hg, genesisHash]
  | inr h =>
    obtain ⟨b, _, _, _, _, _, hi, _⟩ := h
    rw [hi.adds.genesisHash, hg]

theorem heaviest_fresh {genesis : VerifiedBlock} (h0 : genesis.info.number = 0)
    (hne : genesis.info.hash ≠ H256.zero) : (fresh genesis false).Heaviest [] := by
  refine ⟨weighed_fresh false h0 hne, rfl, fun h hmem => ?_, [], [], rfl, fun h hmem => ?_,
    fun h hmem => ?_⟩
  · rw [List.mem_singleton.mp hmem]
    exact stored_genesis _
  · cases hmem
  · cases hmem

end Heaviest

/-! ### The route reported -/

section Route
variable {b : VerifiedBlock} {r : ImportRoute} {s : BlockChain}

/-- The path to a new block is the block after the path to its parent. -/
theorem pathOf_new (hl : bc.Linked) (hi : bc.Inserts b r s) {k : ℕ} (hk : k < b.info.number) :
    s.pathOf b.info.hash k = b.info.hash :: bc.pathOf b.info.parentHash k := by
  have hins := hi.insertable
  have hne : b.info.hash ≠ s.genesisHash := by
    rw [hi.adds.genesisHash]
    exact hins.placed.ne_genesis
  have hcons : s.pathOf b.info.hash k = b.info.hash :: s.pathOf (s.parentOf b.info.hash) k :=
    hi.linked.rooted.path_cons (hi.adds.stored_new hins) hne (by
      rw [hi.adds.heightOf_new hins]
      exact hk)
  rw [hcons, hi.adds.parentOf_new hins]
  congr 1
  exact hl.rooted.path_congr (fun _ hx _ => hi.adds.parentOf_old hins hx)
    (fun _ hx => hi.adds.heightOf_old hins hx) hins.placed.parent k

/-- A new block that is not on the chain of the old head leaves that chain where its parent does. -/
theorem forkOf_new (hh : bc.Headed) (hi : bc.Inserts b r s)
    (hoff : ∀ n, bc.ancestorOf bc.m_lastBlockHash n ≠ b.info.hash) :
    s.forkOf bc.m_lastBlockHash b.info.hash = bc.forkBelow b := by
  have hins := hi.insertable
  have hl := hh.linked
  have hnum := hins.placed.number
  have hp := hins.placed.parent
  have hheight : s.heightOf bc.m_lastBlockHash = bc.heightOf bc.m_lastBlockHash :=
    hi.adds.heightOf_old hins hh.head
  have hheight' : s.heightOf b.info.hash = b.info.number := hi.adds.heightOf_new hins
  have hlast : s.Stored bc.m_lastBlockHash := hi.adds.stored hins hh.head
  have hold : ∀ n, s.ancestorOf bc.m_lastBlockHash n = bc.ancestorOf bc.m_lastBlockHash n :=
    hi.adds.ancestorOf_old hl hins hh.head
  have hnew : ∀ n, n < b.info.number →
      s.ancestorOf b.info.hash n = bc.ancestorOf b.info.parentHash n :=
    fun n hn => ancestorOf_new hi.adds hl hi.linked hins hn
  have hfl : s.forkOf bc.m_lastBlockHash b.info.hash ≤ bc.heightOf bc.m_lastBlockHash := by
    rw [← hheight]
    exact fork_le_left _ _
  have hfb : s.forkOf bc.m_lastBlockHash b.info.hash ≤ b.info.number := by
    rw [← hheight']
    exact fork_le_right _ _
  have hagree : s.ancestorOf bc.m_lastBlockHash (s.forkOf bc.m_lastBlockHash b.info.hash) =
      s.ancestorOf b.info.hash (s.forkOf bc.m_lastBlockHash b.info.hash) :=
    hi.linked.rooted.ancestor_fork hlast (hi.adds.stored_new hins)
  have hne : s.forkOf bc.m_lastBlockHash b.info.hash ≠ b.info.number := by
    intro he
    rw [he, hold, ← hheight', ancestorOf, ancestorOf, ancestor_self] at hagree
    exact hoff _ hagree
  have hkl : bc.forkBelow b ≤ bc.heightOf bc.m_lastBlockHash := fork_le_left _ _
  have hkp : bc.forkBelow b ≤ bc.heightOf b.info.parentHash := fork_le_right _ _
  apply le_antisymm
  · rw [hold, hnew _ (by omega)] at hagree
    exact (hl.rooted.agree_iff hh.head hp hfl (by omega)).mp hagree
  · have hbelow : bc.ancestorOf bc.m_lastBlockHash (bc.forkBelow b) =
        bc.ancestorOf b.info.parentHash (bc.forkBelow b) := hl.rooted.ancestor_fork hh.head hp
    rw [← hold, ← hnew _ (by omega)] at hbelow
    exact (hi.linked.rooted.agree_iff hlast (hi.adds.stored_new hins) (by rw [hheight]; exact hkl)
      (by rw [hheight']; omega)).mp hbelow

/-- A block above the head, or not stored before, is not on the chain of the head. -/
theorem ancestorOf_ne_new (hh : bc.Headed) {mustBeNew : Bool}
    (hnew : mustBeNew = true ∨ ¬ bc.Stored b.info.hash)
    (habove : mustBeNew = true → bc.Stored b.info.hash →
      bc.m_lastBlockNumber < bc.heightOf b.info.hash) (n : ℕ) :
    bc.ancestorOf bc.m_lastBlockHash n ≠ b.info.hash := by
  intro he
  have hst : bc.Stored b.info.hash := by
    rw [← he]
    exact hh.linked.rooted.mem_ancestor hh.head n
  have hle : bc.heightOf b.info.hash ≤ bc.m_lastBlockNumber := by
    rw [← he, hh.number]
    by_cases hn : n ≤ bc.heightOf bc.m_lastBlockHash
    · rw [ancestorOf, hh.linked.rooted.height_ancestor hh.head hn]
      exact hn
    · rw [ancestorOf, ancestor, Nat.sub_eq_zero_of_le (by omega)]
      exact le_rfl
  cases hnew with
  | inl hmust =>
    have := habove hmust hst
    omega
  | inr hnot => exact hnot hst

end Route

/-- With ties not broken by gas, after every request of a run the head is the first imported of the
heaviest blocks; and an import that moves the head reports the blocks between the common ancestor
and the old head as dead, from the head on, and those up to the new head as live, in order. -/
theorem head_of_run (genesis : VerifiedBlock) (h0 : genesis.info.number = 0)
    (hne : genesis.info.hash ≠ H256.zero) (l : List Request)
    (hproper : Along Proper (fresh genesis false) l) :
    ∀ pre, pre <+: l → let bc := runFromFresh genesis false pre
      bc.FirstHeaviest (genesis.info.hash :: (imported (fresh genesis false) pre).map (·.info.hash))
        bc.m_lastBlockHash ∧
      ∀ b mustBeNew verdict route s, bc.Proper (.importBlock b mustBeNew verdict) →
        mustBeNew = true ∨ ¬ bc.Stored b.info.hash →
        (importBlock b mustBeNew verdict).run bc = (.ok route, s) →
        s.m_lastBlockHash ≠ bc.m_lastBlockHash →
        s.m_lastBlockHash = b.info.hash ∧
        let k := s.forkOf bc.m_lastBlockHash s.m_lastBlockHash
        route.deadBlocks = s.pathOf bc.m_lastBlockHash k ∧
          route.liveBlocks = (s.pathOf s.m_lastBlockHash k).reverse := by
  intro pre hpre bc
  obtain ⟨hv, hgenesis⟩ : bc.Heaviest (imported (fresh genesis false) pre) ∧
      bc.genesisHash = genesis.info.hash :=
    foldl_induction (P := fun c acc => c.Heaviest acc ∧ c.genesisHash = genesis.info.hash)
      (p := Proper) (fun hc hr => heaviest_step_genesis hc.1 hc.2 hr) (hproper.initial hpre)
      ⟨heaviest_fresh h0 hne, rfl⟩
  have hh := hv.weighed.headed
  refine ⟨?_, fun b mustBeNew verdict route s hr hnew hrun hmoved => ?_⟩
  · rw [← hgenesis]
    exact hv.head
  · cases step_cases hh hr with
    | inl h =>
      have hby := h.2
      rw [importedBy, hrun] at hby
      cases hby
    | inr h =>
      obtain ⟨b', mustBeNew', route', heq, hok, _, hi, habove⟩ := h
      cases heq
      rw [step, hrun] at hi
      rw [hrun] at hok
      cases hok
      have himp : bc.improves b := by
        by_contra hn
        exact hmoved (hi.stays hn).head
      have ha := hi.advances himp
      have hfork := forkOf_new hh hi (ancestorOf_ne_new hh hnew habove)
      have hkp : bc.forkBelow b ≤ bc.heightOf b.info.parentHash := fork_le_right _ _
      have hnum := hi.insertable.placed.number
      refine ⟨ha.head, ?_⟩
      dsimp only
      rw [ha.head, hfork, ha.route, pathOf_new hh.linked hi (by omega)]
      refine ⟨?_, rfl⟩
      exact (hh.linked.rooted.path_congr (fun _ hx _ => hi.adds.parentOf_old hi.insertable hx)
        (fun _ hx => hi.adds.heightOf_old hi.insertable hx) hh.head _).symm

/-- Two branches of the same start, the longer one first. -/
def twoBranches : List Request :=
  [.importBlock (sampleBlock 0xa1 0x01 1 1) true true,
    .importBlock (sampleBlock 0xa2 0xa1 2 1) true true,
    .importBlock (sampleBlock 0xb1 0x01 1 1) true true]

/-- What is left of them once the shorter branch grows heavier. -/
def afterTwoBranches : BlockChain :=
  ((importBlock (sampleBlock 0xb2 0xb1 2 9) true true).run
    (runFromFresh sampleGenesis false twoBranches)).2

theorem run_afterTwoBranches : (importBlock (sampleBlock 0xb2 0xb1 2 9) true true).run
    (runFromFresh sampleGenesis false twoBranches) =
    (.ok ⟨[H256.alignRight [0xa2], H256.alignRight [0xa1]],
      [H256.alignRight [0xb1], H256.alignRight [0xb2]], []⟩, afterTwoBranches) := by
  apply Prod.ext
  · decide +kernel
  · rw [afterTwoBranches]

theorem head_of_run_sample :
    (runFromFresh sampleGenesis false twoBranches).FirstHeaviest
      (sampleGenesis.info.hash ::
        (imported (fresh sampleGenesis false) twoBranches).map (·.info.hash))
      (runFromFresh sampleGenesis false twoBranches).m_lastBlockHash ∧
    afterTwoBranches.m_lastBlockHash = (sampleBlock 0xb2 0xb1 2 9).info.hash ∧
    [H256.alignRight [0xa2], H256.alignRight [0xa1]] = afterTwoBranches.pathOf
      (runFromFresh sampleGenesis false twoBranches).m_lastBlockHash
      (afterTwoBranches.forkOf (runFromFresh sampleGenesis false twoBranches).m_lastBlockHash
        afterTwoBranches.m_lastBlockHash) ∧
    [H256.alignRight [0xb1], H256.alignRight [0xb2]] = (afterTwoBranches.pathOf
      afterTwoBranches.m_lastBlockHash
      (afterTwoBranches.forkOf (runFromFresh sampleGenesis false twoBranches).m_lastBlockHash
        afterTwoBranches.m_lastBlockHash)).reverse :=
  have hrun := head_of_run sampleGenesis rfl (by decide) twoBranches (by decide +kernel)
    twoBranches (List.prefix_refl _)
  ⟨hrun.1, hrun.2 _ _ _ _ _ (by decide +kernel) (Or.inl rfl) run_afterTwoBranches
    (by decide +kernel)⟩

end Aleth.Ethereum.BlockChain
