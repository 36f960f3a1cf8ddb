import Aleth.Ethereum.BlockQueue
import Aleth.Ethereum.ImportRuns

/-! Blocks from the queue into the chain (`BlockChain::sync`).

The blocks that the queue hands out are imported one after another, and the bad
ones are reported back. The attempt at a block stands in a loop whose condition
is false, and `continue` goes to the condition: a block that fails for the time
being is not tried again, it is gone, and its children are bad for want of a
parent.

`sync_sound_iff`: a batch in which parents come first is treated as it should
be exactly when no block of it that matters fails for the time being. -/
namespace Aleth.Ethereum.BlockChain
open Devcore ReadThrough Throwing Ancestry
variable {bc : BlockChain}

/-- What the checks outside the database come to when a block is imported. -/
inductive Check where
  | passes
  /-- The timestamp is ahead of the clock. -/
  | futureTime
  /-- The enactment ends in another state root. -/
  | badRoot
  /-- Another check fails. -/
  | rejected
deriving DecidableEq

inductive SyncException where
  | futureTime
  | transientError
  | chain (e : ImportException)
deriving DecidableEq

abbrev Syncing := Throwing BlockChain SyncException

/-- `import` with `_mustBeNew`. -/
def importVerified (b : VerifiedBlock) (check : Check) : Syncing ImportRoute := do
  mapError .chain (checkBlockIsNew b)
  if !(← mapError .chain (isKnown b.info.parentHash false)) then
    Throwing.throw (.chain .unknownParent)
  else
    let pd ← mapError .chain (details b.info.parentHash)
    if pd.isNull then Throwing.throw (.chain .exit)
    else if check = .futureTime then Throwing.throw .futureTime
    else
      mapError .chain (verifyBlock b.info)
      match check with
      | .badRoot => Throwing.throw .transientError
      | .futureTime => Throwing.throw .futureTime
      | .rejected => Throwing.throw (.chain .rejected)
      | .passes =>
        let td := (pd.totalDifficulty + b.info.difficulty) % 2 ^ 256
        mapError .chain (insertBlockAndExtras b td)

/-- What the loop of `sync` has collected. -/
structure Progress where
  fresh : List H256 := []
  dead : List H256 := []
  goodTransactions : List H256 := []
  badBlocks : List H256 := []
  count : ℕ := 0

/-- A block of the batch, and what the checks come to when it is its turn. -/
abbrev Drained := VerifiedBlock × Check

def Drained.hash (e : Drained) : H256 := e.1.info.hash

def Drained.parent (e : Drained) : H256 := e.1.info.parentHash

/-- A turn of the loop: the handlers of the exceptions. -/
def Progress.note (p : Progress) (e : Drained) : Except SyncException ImportRoute → Progress
  | .ok r => {p with
      fresh := p.fresh ++ r.liveBlocks
      dead := p.dead ++ r.deadBlocks
      goodTransactions := p.goodTransactions ++ r.goodTransactions
      count := p.count + 1}
  | .error (.chain .alreadyHaveBlock) => p
  | .error .futureTime => p
  | .error .transientError => p
  | .error (.chain _) => {p with badBlocks := p.badBlocks ++ [e.hash]}

def syncBlock (s : BlockChain × Progress) (e : Drained) : BlockChain × Progress :=
  let r := (importVerified e.1 e.2).run s.1
  (r.2, s.2.note e r.1)

def syncBlocks (bc : BlockChain) (blocks : List Drained) : BlockChain × Progress :=
  blocks.foldl syncBlock (bc, {})

section Queue
variable (transactions : Bytes → List H256)

/-- A block of the queue as the chain reads it. -/
def ofQueue (b : BlockQueue.VerifiedBlock) : VerifiedBlock where
  info :=
    { hash := b.infoHash
      parentHash := b.info.m_parentHash
      number := b.info.m_number.toInt.toNat
      difficulty := b.info.m_difficulty.toNat
      gasUsed := b.info.m_gasUsed.toNat }
  transactions := transactions b.blockData

/-- The batch that `sync` drains; `check` tells of each block what its checks come to. -/
def drained (check : BlockQueue.VerifiedBlock → Check) (max : ℕ) (bq : BlockQueue) :
    List Drained :=
  (bq.drain max).1.map fun b => (ofQueue transactions b, check b)

/-- The chain, the queue and the blocks reported bad after `sync`. -/
def sync (check : BlockQueue.VerifiedBlock → Check) (max : ℕ) (bc : BlockChain) (bq : BlockQueue) :
    BlockChain × BlockQueue × List H256 :=
  let r := bc.syncBlocks (drained transactions check max bq)
  (r.1, ((bq.drain max).2.doneDrain r.2.badBlocks).1, r.2.badBlocks)

end Queue

/-! ### One import -/

/-- What becomes of an attempt to import a block. -/
inductive Attempt (bc : BlockChain) (e : Drained) : Except SyncException ImportRoute →
    BlockChain → Prop
  | known {s : BlockChain} (hs : s.settled = bc.settled) (h : bc.Stored e.hash) :
    Attempt bc e (.error (.chain .alreadyHaveBlock)) s
  | orphan {s : BlockChain} (hs : s.settled = bc.settled) (hp : ¬bc.Stored e.parent) :
    Attempt bc e (.error (.chain .unknownParent)) s
  | invalid {s : BlockChain} {x : ImportException} (hs : s.settled = bc.settled)
    (hx : x ≠ .alreadyHaveBlock)
    (hi : e.2 = .rejected ∨ e.1.info.number ≠ bc.heightOf e.parent + 1) (hp : bc.Stored e.parent) :
    Attempt bc e (.error (.chain x)) s
  | transient {s : BlockChain} {x : SyncException} (hs : s.settled = bc.settled)
    (hx : x = .futureTime ∨ x = .transientError) (hc : e.2 = .futureTime ∨ e.2 = .badRoot) :
    Attempt bc e (.error x) s
  | inserted {s : BlockChain} {r : ImportRoute} (hi : bc.Inserts e.1 r s) (hc : e.2 = .passes) :
    Attempt bc e (.ok r) s

theorem importVerified_passes (b : VerifiedBlock) :
    importVerified b .passes = mapError .chain (importBlock b true true) := by
  unfold importVerified importBlock
  simp only [mapError_bind, mapError_throw, apply_ite (mapError SyncException.chain), if_true,
    reduceCtorEq, if_false]
  rfl

theorem run_importVerified (hh : bc.Headed) {e : Drained} (hb : bc.Admissible e.1) :
    ∃ r s, (importVerified e.1 e.2).run bc = (r, s) ∧ bc.Attempt e r s := by
  obtain ⟨b, check⟩ := e
  replace hb : bc.Admissible b := hb
  have hl := hh.linked
  have sees : ∀ {r : Except SyncException ImportRoute},
      Sees settled bc.settled (importVerified b check) r →
      (∀ s : BlockChain, s.settled = bc.settled → bc.Attempt (b, check) r s) →
      ∃ r s, (importVerified b check).run bc = (r, s) ∧ bc.Attempt (b, check) r s := by
    intro r h hr
    obtain ⟨s, hrun, hs⟩ := h.run rfl
    exact ⟨r, s, hrun, hr s hs⟩
  obtain ⟨known, h₁, hknown⟩ := asks_isKnown hl b.info.hash true
  cases known with
  | true =>
    have hcheck : bc.Asks (checkBlockIsNew b) (.error .alreadyHaveBlock) := h₁.bind (Sees.throw _)
    exact sees hcheck.mapError.bind_error fun s hs => .known hs (hknown.mp rfl).1
  | false =>
  have hcheck : bc.Asks (checkBlockIsNew b) (.ok ()) := h₁.bind (Sees.pure _)
  obtain ⟨parentKnown, h₂, hparent⟩ := asks_isKnown hl b.info.parentHash false
  cases parentKnown with
  | false =>
    refine sees (hcheck.mapError.bind (h₂.mapError.bind (Sees.throw _))) fun s hs => .orphan hs ?_
    exact fun hp => Bool.false_ne_true (hparent.mpr ⟨hp, nofun⟩)
  | true =>
  have hp : bc.Stored b.info.parentHash := (hparent.mp rfl).1
  have hnull := hl.isNull_detailsOf hp
  have hd := bc.asks_details b.info.parentHash
  -- the part behind the timestamp, on a state seen as `bc` is
  have upto : ∀ {r : Except SyncException ImportRoute}, check ≠ .futureTime →
      Sees settled bc.settled (mapError .chain (verifyBlock b.info) >>= fun _ => match check with
        | .badRoot => Throwing.throw .transientError
        | .futureTime => Throwing.throw .futureTime
        | .rejected => Throwing.throw (.chain .rejected)
        | .passes =>
          let td := ((bc.detailsOf b.info.parentHash).totalDifficulty + b.info.difficulty) % 2 ^ 256
          mapError .chain (insertBlockAndExtras b td)) r →
      Sees settled bc.settled (importVerified b check) r := by
    intro r hfuture h
    refine hcheck.mapError.bind (h₂.mapError.bind (hd.mapError.bind ?_))
    rw [hnull, if_neg Bool.false_ne_true, if_neg hfuture]
    exact h
  by_cases hfuture : check = .futureTime
  · refine sees (hcheck.mapError.bind (h₂.mapError.bind (hd.mapError.bind
      (r := .error .futureTime) ?_))) fun s hs => .transient hs (.inl rfl) (.inl hfuture)
    rw [hnull, if_neg Bool.false_ne_true, if_pos hfuture]
    exact Sees.throw _
  by_cases hn : b.info.number = bc.heightOf b.info.parentHash + 1
  swap
  · have h₃ := asks_verifyBlock_error hl hb.number_lt hp hn
    exact sees (upto hfuture h₃.mapError.bind_error) fun s hs =>
      .invalid hs nofun (.inr hn) hp
  have h₃ := asks_verifyBlock_ok hl hb.number_lt hp hn
  cases check with
  | futureTime => exact absurd rfl hfuture
  | badRoot =>
    exact sees (upto hfuture (h₃.mapError.bind (Sees.throw _))) fun s hs =>
      .transient hs (.inr rfl) (.inr rfl)
  | rejected =>
    exact sees (upto hfuture (h₃.mapError.bind (Sees.throw _))) fun s hs =>
      .invalid hs nofun (.inl rfl) hp
  | passes =>
    have hne : b.info.hash ≠ bc.genesisHash := by
      intro he
      rw [hb.genesis he, hl.genesis_number] at hn
      exact absurd hn (Nat.succ_ne_zero _).symm
    have hi : bc.Insertable b := by
      refine ⟨⟨rfl, hb.ne_zero, hne, hb.number_lt, hp, hn⟩, fun t ht => ?_⟩
      rcases hb.unique with h | h
      · exact nomatch h.symm.trans ht
      · exact (Option.some.inj (h.symm.trans ht)).symm
    obtain ⟨r, s, hrun, hins⟩ := @run_importBlock_of_insertable _ hh _ hi true hcheck
    refine ⟨.ok r, s, ?_, .inserted hins rfl⟩
    rw [importVerified_passes]
    exact congrArg (fun x => (Except.mapError _ x.1, x.2)) hrun

/-! ### What a batch should come to -/

section Batches
variable {batch pre post : List Drained} {e : Drained} {h : H256}

/-- A batch as the queue gives it out: each block once, and behind its parent. -/
structure Ordered (bc : BlockChain) (batch : List Drained) : Prop where
  admissible : ∀ e ∈ batch, bc.Admissible e.1
  nodup : (batch.map Drained.hash).Nodup
  parents : ∀ pre e post, batch = pre ++ e :: post →
    bc.Stored e.parent ∨ ∃ p ∈ pre, Drained.hash p = e.parent

/-- The number of a block of the chain or of the batch. -/
def numberOf (bc : BlockChain) (batch : List Drained) (h : H256) : ℕ :=
  if (bc.header h).isSome then bc.heightOf h
  else ((batch.find? fun e => e.hash = h).map fun e => e.1.info.number).getD 0

/-- The blocks of the batch that are invalid or descend from an invalid one. -/
inductive Doomed (bc : BlockChain) (batch : List Drained) : H256 → Prop
  | invalid {e : Drained} (he : e ∈ batch)
    (hi : e.2 = .rejected ∨ e.1.info.number ≠ bc.numberOf batch e.parent + 1) :
    Doomed bc batch e.hash
  | child {e : Drained} (he : e ∈ batch) (hp : Doomed bc batch e.parent) : Doomed bc batch e.hash

/-- The block's checks fail for the time being. -/
def Transient (e : Drained) : Prop := e.2 = .futureTime ∨ e.2 = .badRoot

instance Transient.decidable (e : Drained) : Decidable (Transient e) :=
  inferInstanceAs (Decidable (_ ∨ _))

/-- The blocks of the batch for which a transient condition holds, or for an ancestor. -/
inductive Delayed (batch : List Drained) : H256 → Prop
  | here {e : Drained} (he : e ∈ batch) (ht : Transient e) : Delayed batch e.hash
  | child {e : Drained} (he : e ∈ batch) (hp : Delayed batch e.parent) : Delayed batch e.hash

def Queued (bq : BlockQueue) (h : H256) : Prop :=
  h ∈ bq.m_verified.map BlockQueue.VerifiedBlock.infoHash ∨
    h ∈ bq.m_verifying.map BlockQueue.VerifiedBlock.entryHash ∨
    h ∈ bq.m_unverified.map BlockQueue.UnverifiedBlock.hash ∨
    h ∈ bq.m_unknown.hashes ∨ h ∈ bq.m_future.hashes

/-- Nothing valid is condemned or lost by a run of `sync` on the batch. -/
structure SyncSound (bc : BlockChain) (batch : List Drained)
    (r : BlockChain × BlockQueue × List H256) : Prop where
  condemned : ∀ h ∈ r.2.2, Doomed bc batch h
  delivered : ∀ e ∈ batch, ¬Doomed bc batch e.hash →
    r.1.Stored e.hash ∨ Delayed batch e.hash ∧ Queued r.2.1 e.hash

/-- No valid block of the batch that is not in the chain yet fails for the time being. -/
def Undisturbed (bc : BlockChain) (batch : List Drained) : Prop :=
  ∀ e ∈ batch, ¬Doomed bc batch e.hash → ¬bc.Stored e.hash → ¬Transient e

theorem Ordered.inj (ho : bc.Ordered batch) {e' : Drained} (he : e ∈ batch) (he' : e' ∈ batch)
    (hh : e.hash = e'.hash) : e = e' :=
  List.inj_on_of_nodup_map ho.nodup he he' hh

theorem find_hash (ho : bc.Ordered batch) (he : e ∈ batch) :
    batch.find? (fun e' => e'.hash = e.hash) = some e := by
  cases hf : batch.find? (fun e' => e'.hash = e.hash) with
  | none => exact absurd (decide_eq_true rfl) (List.find?_eq_none.mp hf e he)
  | some e' =>
    have hh := List.find?_some (p := fun e' : Drained => decide (e'.hash = e.hash)) hf
    rw [ho.inj (List.mem_of_find?_eq_some hf) he (of_decide_eq_true hh)]

/-! ### The loop -/

/-- The loop of `sync` after the blocks `pre` of the batch. -/
structure Midway (bc : BlockChain) (batch pre : List Drained) (s : BlockChain × Progress) :
    Prop where
  headed : s.1.Headed
  genesis : s.1.m_genesis = bc.m_genesis
  kept : ∀ h, bc.Stored h → s.1.Stored h
  blocks : ∀ h t, s.1.m_blocksDB h = some t → bc.m_blocksDB h = some t ∨
    ∃ e ∈ pre, e.hash = h ∧ e.1 = t ∧ e.2 = .passes
  delivered : bc.Undisturbed batch → ∀ e ∈ pre, ¬Doomed bc batch e.hash → s.1.Stored e.hash
  condemned : bc.Undisturbed batch → ∀ h ∈ s.2.badBlocks, Doomed bc batch h

section Midway
variable {s : BlockChain × Progress}

/-- Blocks that were not there were imported, and passed. -/
theorem Midway.passed (hm : Midway bc batch pre s) (hs : s.1.Stored h) :
    bc.Stored h ∨ ∃ e ∈ pre, e.hash = h ∧ e.2 = .passes := by
  by_cases hg : h = s.1.genesisHash
  · rw [genesisHash, hm.genesis] at hg
    exact .inl (hg ▸ bc.stored_genesis)
  · obtain ⟨t, ht, -⟩ := hs.block hg
    rcases hm.blocks h t ht with hb | ⟨e, he, hh, -, hc⟩
    · refine .inl ?_
      rw [Stored, header_of_ne (by rwa [genesisHash, hm.genesis] at hg), hb]
      rfl
    · exact .inr ⟨e, he, hh, hc⟩

theorem Midway.number (hm : Midway bc batch pre s) (ho : bc.Ordered batch)
    (hsub : ∀ e ∈ pre, e ∈ batch) (hs : s.1.Stored h) : s.1.heightOf h = bc.numberOf batch h := by
  by_cases hg : h = s.1.genesisHash
  · have hg' : h = bc.genesisHash := by rwa [genesisHash, hm.genesis] at hg
    have hst : (bc.header h).isSome := hg' ▸ bc.stored_genesis
    rw [numberOf, if_pos hst, heightOf, heightOf, hg, header_genesis, ← hg, hg', header_genesis,
      hm.genesis]
  · have hg' : h ≠ bc.genesisHash := by rwa [genesisHash, hm.genesis] at hg
    obtain ⟨t, ht, hht⟩ := hs.block hg
    have hst : s.1.heightOf h = t.info.number := by
      rw [heightOf, hht]
      rfl
    rw [hst]
    rcases hm.blocks h t ht with hb | ⟨e, he, rfl, rfl, -⟩
    · have hh : bc.header h = some t.info := by rw [header_of_ne hg', hb]; rfl
      rw [numberOf, heightOf, hh]
      rfl
    · rw [numberOf]
      split
      · rename_i hst'
        obtain ⟨t', ht', hh'⟩ := Stored.block hst' hg'
        have hu := (ho.admissible e (hsub e he)).unique
        rw [show e.1.info.hash = e.hash from rfl, ht'] at hu
        rw [heightOf, hh', Option.some.inj (hu.resolve_left (Option.some_ne_none t'))]
        rfl
      · rw [find_hash ho (hsub e he)]
        rfl

/-- The block is still one that may be imported. -/
theorem Midway.admissible (hm : Midway bc batch pre s) (ho : bc.Ordered batch)
    (hb : batch = pre ++ e :: post) : s.1.Admissible e.1 := by
  have he : e ∈ batch := by
    rw [hb]
    exact List.mem_append_right _ List.mem_cons_self
  have ha := ho.admissible e he
  refine ⟨ha.ne_zero, ha.number_lt, fun hg => ?_, ?_⟩
  · rw [hm.genesis]
    exact ha.genesis (by rwa [genesisHash, hm.genesis] at hg)
  · cases hdb : s.1.m_blocksDB e.1.info.hash with
    | none => exact .inl rfl
    | some t =>
      refine .inr ?_
      rcases hm.blocks _ t hdb with hb' | ⟨e', he', hh, -, -⟩
      · rcases ha.unique with h | h
        · exact absurd (h.symm.trans hb') (Option.some_ne_none t).symm
        · exact h.symm.trans hb' ▸ rfl
      · have hnodup := ho.nodup
        rw [hb, List.map_append, List.map_cons, List.nodup_append] at hnodup
        exact absurd hh (hnodup.2.2 _ (List.mem_map_of_mem he') _ List.mem_cons_self)

/-- A turn that changes nothing to be seen, and after which a block is in the chain if it should. -/
theorem Midway.idle (hm : Midway bc batch pre s) {c : BlockChain} {p : Progress}
    (hs : c.settled = s.1.settled)
    (hd : bc.Undisturbed batch → ¬Doomed bc batch e.hash → s.1.Stored e.hash)
    (hbad : bc.Undisturbed batch → ∀ h ∈ p.badBlocks, h ∈ s.2.badBlocks ∨ Doomed bc batch h) :
    Midway bc batch (pre ++ [e]) (c, p) := by
  obtain ⟨hg, -, hdb, -⟩ := settled_eq hs.symm
  have hst : c.Stored = s.1.Stored := stored_congr hg hdb
  refine ⟨hm.headed.of_settled hs.symm, hg.trans hm.genesis, ?_, ?_, ?_, ?_⟩
  · rw [hst]
    exact hm.kept
  · rw [hdb]
    intro h t ht
    refine (hm.blocks h t ht).imp_right fun ⟨e', he', h'⟩ => ⟨e', List.mem_append_left _ he', h'⟩
  · rw [hst]
    intro hu e' he' hnot
    rcases List.mem_append.mp he' with he' | he'
    · exact hm.delivered hu e' he' hnot
    · cases List.mem_singleton.mp he'
      exact hd hu hnot
  · intro hu h hh
    exact (hbad hu h hh).elim (hm.condemned hu h) id

theorem Midway.step (hm : Midway bc batch pre s) (ho : bc.Ordered batch)
    (hb : batch = pre ++ e :: post) : Midway bc batch (pre ++ [e]) (syncBlock s e) := by
  have he : e ∈ batch := by
    rw [hb]
    exact List.mem_append_right _ List.mem_cons_self
  have hsub : ∀ x ∈ pre, x ∈ batch := fun x hx => hb ▸ List.mem_append_left _ hx
  obtain ⟨r, c, hrun, hat⟩ := run_importVerified hm.headed (hm.admissible ho hb)
  rw [syncBlock, hrun]
  cases hat with
  | known hs hst => exact hm.idle hs (fun _ _ => hst) fun _ h hh => .inl hh
  | orphan hs hp =>
    -- the parent came before, and is not in the chain because it is doomed itself
    have hdoomed : bc.Undisturbed batch → Doomed bc batch e.hash := by
      intro hu
      rcases ho.parents pre e post hb with hpar | ⟨p, hpre, hpar⟩
      · exact absurd (hm.kept _ hpar) hp
      · refine .child he (by_contra fun hnot => hp ?_)
        rw [← hpar] at hnot ⊢
        exact hm.delivered hu p hpre hnot
    refine hm.idle hs (fun hu hnot => absurd (hdoomed hu) hnot) fun hu h hh => ?_
    rcases List.mem_append.mp hh with hh | hh
    · exact .inl hh
    · exact .inr (List.mem_singleton.mp hh ▸ hdoomed hu)
  | @invalid _ x hs hx hi hp =>
    have hdoomed : Doomed bc batch e.hash := by
      refine .invalid he (hi.imp_right fun hn => ?_)
      rwa [← hm.number ho hsub hp]
    refine hm.idle hs (fun _ hnot => absurd hdoomed hnot) fun _ h hh => ?_
    have hnote : s.2.note e (.error (.chain x)) =
        {s.2 with badBlocks := s.2.badBlocks ++ [e.hash]} := by
      cases x <;> first | rfl | exact absurd rfl hx
    replace hh : h ∈ (s.2.note e (.error (.chain x))).badBlocks := hh
    rw [hnote] at hh
    rcases List.mem_append.mp hh with hh | hh
    · exact .inl hh
    · exact .inr (List.mem_singleton.mp hh ▸ hdoomed)
  | @transient _ x hs hx hc =>
    refine hm.idle hs (fun hu hnot => ?_) fun _ h hh => ?_
    · by_contra hst
      exact hu e he hnot (fun h => hst (hm.kept _ h)) hc
    · rcases hx with rfl | rfl
      · exact .inl hh
      · exact .inl hh
  | @inserted _ r hi hc =>
    have hstored : ∀ h, s.1.Stored h → c.Stored h := fun h hh => hi.adds.stored hi.insertable hh
    refine ⟨hi.headed hm.headed, hi.adds.genesis.trans hm.genesis, fun h hh =>
      hstored h (hm.kept h hh), fun h t ht => ?_, fun hu e' he' hnot => ?_,
      fun hu h hh => hm.condemned hu h hh⟩
    · rw [hi.adds.blocks, Function.update_apply] at ht
      split at ht
      · rename_i hh
        cases ht
        exact .inr ⟨e, List.mem_append_right _ (List.mem_singleton_self e), hh.symm, rfl, hc⟩
      · exact (hm.blocks h t ht).imp_right fun ⟨e', he', h'⟩ =>
          ⟨e', List.mem_append_left _ he', h'⟩
    · rcases List.mem_append.mp he' with he' | he'
      · exact hstored _ (hm.delivered hu e' he' hnot)
      · cases List.mem_singleton.mp he'
        exact hi.adds.stored_new hi.insertable

theorem Midway.foldl (ho : bc.Ordered batch) :
    ∀ (rest : List Drained) {pre : List Drained} {s : BlockChain × Progress},
      batch = pre ++ rest → Midway bc batch pre s → Midway bc batch batch (rest.foldl syncBlock s)
  | [], pre, s, hb, hm => by rwa [hb, List.append_nil, ← List.append_nil pre, ← hb] at *
  | e :: rest, pre, s, hb, hm =>
    Midway.foldl ho rest (by rw [hb, List.append_assoc]; rfl) (hm.step ho hb)

theorem midway_syncBlocks (hh : bc.Headed) (ho : bc.Ordered batch) :
    Midway bc batch batch (bc.syncBlocks batch) := by
  refine Midway.foldl ho batch (List.nil_append batch).symm ⟨hh, rfl, fun _ h => h,
    fun _ _ h => .inl h, fun _ e he => (nomatch he), fun _ h hh => nomatch hh⟩

/-- A block that failed for the time being and was not in the chain is not in the chain. -/
theorem not_stored_of_transient (hh : bc.Headed) (ho : bc.Ordered batch) (he : e ∈ batch)
    (ht : Transient e) (hs : ¬bc.Stored e.hash) : ¬(bc.syncBlocks batch).1.Stored e.hash := by
  intro hst
  rcases (midway_syncBlocks hh ho).passed hst with h | ⟨e', he', heq, hc⟩
  · exact hs h
  · rw [ho.inj he' he heq] at hc
    rcases ht with h | h
    · exact nomatch hc.symm.trans h
    · exact nomatch hc.symm.trans h

end Midway
end Batches

/-! ### The whole of it -/

/-- **`sync` condemns and loses nothing valid exactly when no valid block of the batch, new to
the chain, fails for the time being.** The chain is any that imports lead to, and what is left
in the queue has none of the blocks that were handed out. -/
theorem sync_sound_iff (genesis : VerifiedBlock) (tieBreakingGas : Bool)
    (h0 : genesis.info.number = 0) (hne : genesis.info.hash ≠ H256.zero) (l : List Request)
    (hproper : Along Proper (fresh genesis tieBreakingGas) l) (transactions : Bytes → List H256)
    (check : BlockQueue.VerifiedBlock → Check) (max : ℕ) (bq : BlockQueue)
    (hordered : (runFromFresh genesis tieBreakingGas l).Ordered
      (drained transactions check max bq))
    (honce : ∀ e ∈ drained transactions check max bq, ¬Queued (bq.drain max).2 e.hash) :
    SyncSound (runFromFresh genesis tieBreakingGas l) (drained transactions check max bq)
      (sync transactions check max (runFromFresh genesis tieBreakingGas l) bq) ↔
    Undisturbed (runFromFresh genesis tieBreakingGas l) (drained transactions check max bq) := by
  have hh : (runFromFresh genesis tieBreakingGas l).Headed :=
    (indexed_foldl (indexed_fresh tieBreakingGas h0 hne) hproper).1.headed
  generalize runFromFresh genesis tieBreakingGas l = bc at *
  have hm := midway_syncBlocks hh hordered
  constructor
  · intro hsound e he hnot hs ht
    rcases hsound.delivered e he hnot with hst | ⟨-, hq⟩
    · exact not_stored_of_transient hh hordered he ht hs hst
    · exact honce e he hq
  · intro hu
    exact ⟨hm.condemned hu, fun e he hnot => .inl (hm.delivered hu e he hnot)⟩

/-! ### A block and its child -/

/-- Where every block fits and none is rejected, none is doomed. -/
theorem not_doomed {batch : List Drained} {h : H256}
    (hfit : ∀ e ∈ batch, e.2 ≠ .rejected ∧ e.1.info.number = bc.numberOf batch e.parent + 1) :
    ¬Doomed bc batch h := by
  intro hd
  induction hd with
  | invalid he hi =>
    obtain ⟨hc, hn⟩ := hfit _ he
    exact hi.elim hc fun h => h hn
  | child _ _ ih => exact ih

def queuedBlock (hash parentHash : UInt8) (number : ℕ) : BlockQueue.VerifiedBlock where
  info := {Ethcore.BlockHeader.empty with
    m_hash := H256.alignRight [hash]
    m_parentHash := H256.alignRight [parentHash]
    m_number := BitVec.ofNat 64 number
    m_difficulty := 1}
  blockData := [hash]

/-- A block and its child, ready to be drained. -/
def sampleQueue : BlockQueue :=
  {m_verified := [queuedBlock 0xa1 0x01 1, queuedBlock 0xa2 0xa1 2]}

def sampleChain : BlockChain := runFromFresh sampleGenesis false []

/-- The checks of the first block come to `first`, those of the other pass. -/
def sampleCheck (first : Check) (b : BlockQueue.VerifiedBlock) : Check :=
  if b.blockData = [0xa1] then first else .passes

def sampleBatch (first : Check) : List Drained :=
  drained (fun _ => []) (sampleCheck first) 2 sampleQueue

theorem ordered_sample (first : Check) : Ordered sampleChain (sampleBatch first) := by
  refine ⟨by cases first <;> decide +kernel, by cases first <;> decide +kernel, ?_⟩
  intro pre e post hb
  match pre, hb with
  | [], hb =>
    cases hb
    exact .inl (stored_genesis sampleChain)
  | [p], hb =>
    cases hb
    exact .inr ⟨_, List.mem_singleton_self _, rfl⟩
  | _ :: _ :: pre, hb => cases pre <;> exact nomatch hb

theorem sync_sound_iff_sample :
    SyncSound sampleChain (sampleBatch .passes)
      (sync (fun _ => []) (sampleCheck .passes) 2 sampleChain sampleQueue) := by
  refine (sync_sound_iff sampleGenesis false rfl (by decide) [] trivial (fun _ => [])
    (sampleCheck .passes) 2 sampleQueue (ordered_sample .passes) ?_).mpr ?_
  · unfold Queued
    decide +kernel
  · have hpass : ∀ e ∈ sampleBatch .passes, ¬Transient e := by decide +kernel
    exact fun e he _ _ => hpass e he

/-- The first block is ahead of the clock: it is gone, and its valid child is reported bad. -/
theorem sync_condemns_child :
    Ordered sampleChain (sampleBatch .futureTime) ∧
      (∀ h, ¬Doomed sampleChain (sampleBatch .futureTime) h) ∧
      ¬SyncSound sampleChain (sampleBatch .futureTime)
        (sync (fun _ => []) (sampleCheck .futureTime) 2 sampleChain sampleQueue) := by
  have hfit : ∀ h, ¬Doomed sampleChain (sampleBatch .futureTime) h :=
    fun h => not_doomed (by decide +kernel)
  refine ⟨ordered_sample _, hfit, fun hsound => hfit (H256.alignRight [0xa2]) ?_⟩
  exact hsound.condemned _ (by decide +kernel)

end Aleth.Ethereum.BlockChain
