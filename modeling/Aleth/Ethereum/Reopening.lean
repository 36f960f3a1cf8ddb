import Aleth.Ethereum.ImportRuns

/-! Opening the databases again (`BlockChain::open`).

Nothing is cached when the databases are opened; the head is the entry "best".
An import writes three times: the blocks, the extras, and the head if it has
moved. Between two of these the process may end (`diskAfter`).

`run_withBlock`: a block that is stored without details is as good as not
stored when it is imported. -/
namespace Aleth.Ethereum.BlockChain
open Devcore ReadThrough Throwing Ancestry
variable {bc c : BlockChain} {b : VerifiedBlock}

structure Disk where
  blocks : H256 → Option VerifiedBlock
  extras : Extras
  /-- The entry "best" of the extras. -/
  best : Option H256

/-- The details of the genesis block, where there are none. -/
def insertGenesis (bc : BlockChain) : BlockChain :=
  let d : BlockDetails := ⟨0, bc.m_genesis.info.difficulty, H256.zero, []⟩
  {bc with
    m_details := Function.update bc.m_details bc.genesisHash (some d)
    m_extrasDB := bc.m_extrasDB.insert (.details bc.genesisHash d)}

/-- `open`, on databases that have been connected. -/
def openWith (best : Option H256) : Chain Unit := do
  let bc ← Throwing.get
  let g ← details bc.genesisHash
  Throwing.modify fun bc => if g.isNull then bc.insertGenesis else bc
  let last := best.getD bc.genesisHash
  Throwing.modify fun bc => {bc with m_lastBlockHash := last}
  let n ← number last
  Throwing.modify fun bc => {bc with m_lastBlockNumber := n}

/-- The chain on databases that have been connected, with nothing read from them. -/
def connected (genesis : VerifiedBlock) (tieBreakingGas : Bool) (disk : Disk) : BlockChain where
  m_genesis := genesis
  tieBreakingGas := tieBreakingGas
  m_blocksDB := disk.blocks
  m_extrasDB := disk.extras
  m_blocks := fun _ => none
  m_details := fun _ => none
  m_blockHashes := fun _ => none
  m_transactionAddresses := fun _ => none
  m_lastBlockHash := genesis.info.hash
  m_lastBlockNumber := 0

def reopen (genesis : VerifiedBlock) (tieBreakingGas : Bool) (disk : Disk) : BlockChain :=
  ((openWith disk.best).run (connected genesis tieBreakingGas disk)).2

/-- Databases that are new. -/
theorem reopen_new (genesis : VerifiedBlock) (tieBreakingGas : Bool) :
    reopen genesis tieBreakingGas ⟨fun _ => none, ⟨fun _ => none, fun _ => none, fun _ => none⟩,
      none⟩ = fresh genesis tieBreakingGas := by
  have hcached : ∀ d : BlockDetails,
      query (Function.update (fun _ => none) genesis.info.hash (some d))
        (Function.update (fun _ => none) genesis.info.hash (some d)) genesis.info.hash =
        (some d, Function.update (fun _ => none) genesis.info.hash (some d)) := by
    intro d
    rw [query, Function.update_self]
  have hrun : reopen genesis tieBreakingGas
      ⟨fun _ => none, ⟨fun _ => none, fun _ => none, fun _ => none⟩, none⟩ =
      {fresh genesis tieBreakingGas with
        m_details := (query (fresh genesis tieBreakingGas).m_details
          (fresh genesis tieBreakingGas).m_extrasDB.details genesis.info.hash).2
        m_lastBlockNumber := ((query (fresh genesis tieBreakingGas).m_details
          (fresh genesis tieBreakingGas).m_extrasDB.details genesis.info.hash).1.getD
          NullBlockDetails).number} := rfl
  rw [hrun, fresh, hcached]
  rfl

/-- What is on disk after the first `n` of the writes of an import that leads from `bc` to `s`. -/
def diskAfter (bc s : BlockChain) (n : ℕ) : Disk where
  blocks := if 1 ≤ n then s.m_blocksDB else bc.m_blocksDB
  extras := if 2 ≤ n then s.m_extrasDB else bc.m_extrasDB
  best := some (if 3 ≤ n then s.m_lastBlockHash else bc.m_lastBlockHash)

/-! ### What is seen after opening -/

/-- The chain with the head that `open` finds. -/
def opened (genesis : VerifiedBlock) (tieBreakingGas : Bool) (disk : Disk) (last : H256) :
    BlockChain :=
  let c := connected genesis tieBreakingGas disk
  {c with m_lastBlockHash := last, m_lastBlockNumber := (c.detailsOf last).number}

theorem settled_reopen {genesis : VerifiedBlock} {tieBreakingGas : Bool} {disk : Disk} {last : H256}
    (hlast : disk.best = some last)
    (hg : ((connected genesis tieBreakingGas disk).detailsOf genesis.info.hash).isNull = false) :
    (reopen genesis tieBreakingGas disk).settled =
      (opened genesis tieBreakingGas disk last).settled := by
  have hdetails := (connected genesis tieBreakingGas disk).asks_details genesis.info.hash
  obtain ⟨s₁, hrun₁, hs₁⟩ := hdetails.run rfl
  have hset : ({s₁ with m_lastBlockHash := last} : BlockChain).settled =
      ({connected genesis tieBreakingGas disk with m_lastBlockHash := last} : BlockChain).settled :=
    congrArg (fun c : BlockChain => {c with m_lastBlockHash := last}) hs₁
  obtain ⟨s₂, hrun₂, hs₂⟩ := (asks_number _ last).run hset
  have hrun : (openWith (some last)).run (connected genesis tieBreakingGas disk) =
      (.ok (), {s₂ with m_lastBlockNumber :=
        ((connected genesis tieBreakingGas disk).detailsOf last).number}) := by
    unfold openWith
    rw [run_bind_ok (run_get _)]
    show (details genesis.info.hash >>= fun g => _).run _ = _
    rw [run_bind_ok hrun₁, hg, run_bind_ok (run_modify _ s₁), if_neg Bool.false_ne_true]
    dsimp only
    rw [run_bind_ok (run_modify _ s₁)]
    dsimp only [Option.getD_some]
    rw [run_bind_ok hrun₂]
    rfl
  rw [reopen, hlast, hrun]
  exact congrArg (fun c : BlockChain => {c with m_lastBlockNumber :=
    ((connected genesis tieBreakingGas disk).detailsOf last).number}) hs₂

/-! ### A block without details -/

/-- The block is in the database of blocks. -/
def withBlock (b : VerifiedBlock) (bc : BlockChain) : BlockChain :=
  {bc with m_blocksDB := Function.update bc.m_blocksDB b.info.hash (some b)}

/-- The block has no details, and is not the head. -/
structure Detached (b : VerifiedBlock) (bc : BlockChain) : Prop where
  genesis : bc.genesisHash ≠ b.info.hash
  head : bc.m_lastBlockHash ≠ b.info.hash
  cached : bc.m_details b.info.hash = none
  stored : bc.m_extrasDB.details b.info.hash = none

/-- A computation that keeps the block without details, and does not notice it in the database. -/
structure Blind (b : VerifiedBlock) {α : Type} (x : Chain α) : Prop where
  ignores : Ignores (withBlock b) (Detached b) x
  keeps : Grows (fun s s' => Detached b s → Detached b s') x

namespace Blind
variable {α β : Type}

theorem pure (a : α) : Blind b (pure a : Chain α) := ⟨Ignores.pure a, fun _ h => h⟩

theorem throw (e : ImportException) : Blind b (Throwing.throw e : Chain α) :=
  ⟨Ignores.throw e, fun _ h => h⟩

theorem bind {x : Chain α} {f : α → Chain β} (hx : Blind b x) (hf : ∀ a, Blind b (f a)) :
    Blind b (x >>= f) :=
  ⟨hx.ignores.bind hx.keeps fun a => (hf a).ignores,
    Grows.bind (fun h h' hs => h' (h hs)) hx.keeps fun a => (hf a).keeps⟩

theorem get_bind {f : BlockChain → Chain α}
    (hsame : ∀ s, Detached b s → f (s.withBlock b) = f s)
    (hf : ∀ s, Detached b s → Blind b (f s)) : Blind b (Throwing.get >>= f) :=
  ⟨Ignores.get_bind hsame fun s hs => (hf s hs).ignores,
    fun s hs => (hf s hs).keeps s hs⟩

theorem details (h : H256) : Blind b (BlockChain.details h) := by
  refine ⟨fun _ _ => rfl, fun s hs => ⟨hs.genesis, hs.head, ?_, hs.stored⟩⟩
  rcases hd : (query s.m_details s.m_extrasDB.details h).2 b.info.hash with _ | d
  · exact hd
  · rcases query_snd hd with hc | ⟨rfl, hst⟩
    · exact nomatch hs.cached.symm.trans hc
    · exact nomatch hs.stored.symm.trans hst

theorem number (h : H256) : Blind b (BlockChain.number h) := (details h).bind fun _ => pure _

theorem block {h : H256} (hne : h ≠ b.info.hash) : Blind b (BlockChain.block h) := by
  have hgenesis : ∀ s : BlockChain, h = s.genesisHash →
      (BlockChain.block h).run s = (.ok (some s.m_genesis), s) := fun s hg => if_pos hg
  have hread : ∀ s : BlockChain, h ≠ s.genesisHash → (BlockChain.block h).run s =
      (.ok (query s.m_blocks s.m_blocksDB h).1,
        {s with m_blocks := (query s.m_blocks s.m_blocksDB h).2}) := fun s hg => if_neg hg
  refine ⟨fun s _ => ?_, fun s hs => ?_⟩
  · by_cases hg : h = s.genesisHash
    · rw [hgenesis s hg, hgenesis (s.withBlock b) hg]
      rfl
    · have hq : query s.m_blocks (s.withBlock b).m_blocksDB h = query s.m_blocks s.m_blocksDB h := by
        have hu : (s.withBlock b).m_blocksDB h = s.m_blocksDB h := Function.update_of_ne hne _ _
        rw [query, query, hu]
      rw [hread s hg, hread (s.withBlock b) hg]
      show (Except.ok (query s.m_blocks (s.withBlock b).m_blocksDB h).1, _) = _
      rw [hq]
      show _ = (_, withBlock b {s with m_blocks := (query s.m_blocks s.m_blocksDB h).2})
      rw [← hq]
      rfl
  · by_cases hg : h = s.genesisHash
    · rw [hgenesis s hg]
      exact hs
    · rw [hread s hg]
      exact ⟨hs.genesis, hs.head, hs.cached, hs.stored⟩

theorem headerData {h : H256} (hne : h ≠ b.info.hash) : Blind b (BlockChain.headerData h) :=
  (block hne).bind fun _ => pure _

theorem isKnown (h : H256) (isCurrent : Bool) : Blind b (BlockChain.isKnown h isCurrent) := by
  refine get_bind (fun s hs => ?_) fun s _ => ?_
  · by_cases hne : h = b.info.hash
    · -- with the block in the database it is the details that are missing
      have hd : ((s.m_details h).isNone && (s.m_extrasDB.details h).isNone) = true := by
        rw [hne, hs.cached, hs.stored]
        rfl
      show (if h = s.genesisHash then _ else if _ then _ else if (s.m_details h).isNone &&
        (s.m_extrasDB.details h).isNone then _ else _) = _
      rw [hd]
      simp only [if_true, ite_self]
    · have hu : (s.withBlock b).m_blocksDB h = s.m_blocksDB h := Function.update_of_ne hne _ _
      rw [hu]
      rfl
  · split
    · exact pure _
    · split
      · exact pure _
      · split
        · exact pure _
        · split
          · exact pure _
          · exact (number h).bind fun _ => pure _

theorem climb (visit : Bool) (n : ℕ) : ∀ (h : H256) (ret : List H256),
    Blind b (BlockChain.climb visit n h ret) := by
  induction n with
  | zero => exact fun h ret => pure _
  | succ n ih => exact fun h ret => (details h).bind fun d => ih _ _

theorem meet (common pre post : Bool) (fuel : ℕ) : ∀ (h to_ : H256) (ret back : List H256),
    Blind b (BlockChain.meet common pre post fuel h to_ ret back) := by
  induction fuel with
  | zero => exact fun h to_ ret back => throw _
  | succ fuel ih =>
    intro h to_ ret back
    rw [BlockChain.meet]
    show Blind b (if h = to_ then _ else _)
    split
    · exact pure _
    · exact (details h).bind fun d => (details to_).bind fun e => ih _ _ _ _

theorem treeRoute (h to_ : H256) (common pre post : Bool) :
    Blind b (BlockChain.treeRoute h to_ common pre post) := by
  rw [BlockChain.treeRoute]
  split
  · exact pure _
  · refine (details h).bind fun d => (details to_).bind fun e => ?_
    split
    · exact pure _
    · exact (climb _ _ _ _).bind fun x => (climb _ _ _ _).bind fun y =>
        (meet _ _ _ _ _ _ _ _).bind fun z => pure _

theorem routeWrites (common : H256) : ∀ route : List H256,
    Blind b (BlockChain.routeWrites b common route)
  | [] => pure _
  | i :: route => by
    rw [BlockChain.routeWrites]
    split
    · exact pure _
    · refine bind (f := fun t => match t with
        | none => Throwing.throw .invalidBlock
        | some t => do
          let rest ← BlockChain.routeWrites b common route
          return canonicalWrites t ++ rest) ?_ fun t => ?_
      · rw [routeBlock]
        split
        · exact pure _
        · exact block ‹_›
      · cases t with
        | none => exact throw _
        | some t => exact (routeWrites common route).bind fun _ => pure _

theorem revert (common last : H256) : Blind b (BlockChain.revert common last) := by
  rw [BlockChain.revert]
  split
  · exact pure _
  · exact (number common).bind fun n => ⟨Ignores.modify fun _ _ => rfl,
    fun _ hs => ⟨hs.genesis, hs.head, hs.cached, hs.stored⟩⟩

theorem isBetter (totalDifficulty : ℕ) : Blind b (BlockChain.isBetter b totalDifficulty) := by
  refine get_bind (fun _ _ => rfl) fun s hs => (details _).bind fun last => ?_
  split
  · exact pure _
  · split
    · refine (headerData hs.head).bind fun info => ?_
      cases info with
      | none => exact throw _
      | some info => exact pure _
    · exact pure _

theorem addChild {parent h : H256} (hne : parent ≠ b.info.hash) :
    Blind b (Throwing.modify (BlockChain.addChild parent h) : Chain Unit) :=
  ⟨Ignores.modify fun _ _ => rfl, fun _ hs =>
    ⟨hs.genesis, hs.head, (Function.update_of_ne hne.symm _ _).trans hs.cached, hs.stored⟩⟩

theorem verifyBlock {h : BlockHeader} (hne : h.parentHash ≠ b.info.hash) :
    Blind b (BlockChain.verifyBlock h) := by
  refine (headerData hne).bind fun parent => ?_
  cases parent with
  | none => exact throw _
  | some parent =>
    dsimp only
    split
    · exact throw _
    · split
      · exact throw _
      · exact pure _

end Blind

/-- Storing the block is what an import of it comes to anyway. -/
theorem ignores_commit (l : List ExtrasWrite) :
    Ignores (withBlock b) (Detached b) (Throwing.modify (commit b l) : Chain Unit) :=
  Ignores.modify fun _ _ => rfl

theorem ignores_makeHead (l : List ExtrasWrite) :
    Ignores (withBlock b) (Detached b) (makeHead b l) := by
  refine Ignores.get_bind (fun _ _ => rfl) fun s _ => ?_
  refine (Blind.treeRoute _ _ _ _ _).ignores.bind (Blind.treeRoute _ _ _ _ _).keeps fun x => ?_
  refine (Blind.revert _ _).ignores.bind (Blind.revert _ _).keeps fun _ => ?_
  refine (Blind.routeWrites _ _).ignores.bind (Blind.routeWrites _ _).keeps fun writes => ?_
  exact fun _ _ => rfl

theorem ignores_insertBlockAndExtras (hne : b.info.parentHash ≠ b.info.hash) (td : ℕ) :
    Ignores (withBlock b) (Detached b) (insertBlockAndExtras b td) := by
  refine (Blind.details _).ignores.bind (Blind.details _).keeps fun _ => ?_
  refine (Blind.addChild hne).ignores.bind (Blind.addChild hne).keeps fun _ => ?_
  refine Ignores.get_bind (fun _ _ => rfl) fun s _ => ?_
  refine (Blind.isBetter td).ignores.bind (Blind.isBetter td).keeps fun better => ?_
  cases better with
  | true => exact ignores_makeHead _
  | false => exact fun _ _ => rfl

theorem ignores_importBlock (hne : b.info.parentHash ≠ b.info.hash) (mustBeNew verdict : Bool) :
    Ignores (withBlock b) (Detached b) (importBlock b mustBeNew verdict) := by
  have hnew : Blind b (if mustBeNew then checkBlockIsNew b else return ()) := by
    split
    · refine (Blind.isKnown _ _).bind fun known => ?_
      split
      · exact Blind.throw _
      · exact Blind.pure _
    · exact Blind.pure _
  refine hnew.ignores.bind hnew.keeps fun _ => ?_
  refine (Blind.isKnown _ _).ignores.bind (Blind.isKnown _ _).keeps fun known => ?_
  split
  · exact Ignores.throw _
  · refine (Blind.details _).ignores.bind (Blind.details _).keeps fun pd => ?_
    split
    · exact Ignores.throw _
    · refine (Blind.verifyBlock hne).ignores.bind (Blind.verifyBlock hne).keeps fun _ => ?_
      split
      · exact Ignores.throw _
      · exact ignores_insertBlockAndExtras hne _

theorem blind_openWith {best : Option H256} (hbest : best ≠ some b.info.hash) :
    Blind b (openWith best) := by
  refine Blind.get_bind (fun _ _ => rfl) fun s hs => (Blind.details _).bind fun g => ?_
  refine Blind.bind ⟨Ignores.modify fun s _ => ?_, fun s hs => ?_⟩ fun _ => ?_
  · split
    · rfl
    · rfl
  · show Detached b (if g.isNull = true then s.insertGenesis else s)
    split
    · exact ⟨hs.genesis, hs.head, (Function.update_of_ne hs.genesis.symm _ _).trans hs.cached,
        (Function.update_of_ne hs.genesis.symm _ _).trans hs.stored⟩
    · exact hs
  · refine Blind.bind ⟨Ignores.modify fun _ _ => rfl, fun t ht => ?_⟩ fun _ => ?_
    · refine ⟨ht.genesis, ?_, ht.cached, ht.stored⟩
      cases best with
      | none => exact hs.genesis
      | some last => exact fun he => hbest (congrArg some he)
    · exact (Blind.number _).bind fun n => ⟨Ignores.modify fun _ _ => rfl,
        fun _ hs => ⟨hs.genesis, hs.head, hs.cached, hs.stored⟩⟩

/-- Opening does not look at the blocks. -/
theorem reopen_withBlock {genesis : VerifiedBlock} {tieBreakingGas : Bool} {disk : Disk}
    (hgenesis : genesis.info.hash ≠ b.info.hash) (hbest : disk.best ≠ some b.info.hash)
    (hdetails : disk.extras.details b.info.hash = none) :
    reopen genesis tieBreakingGas
        {disk with blocks := Function.update disk.blocks b.info.hash (some b)} =
      (reopen genesis tieBreakingGas disk).withBlock b ∧
    Detached b (reopen genesis tieBreakingGas disk) := by
  have hd : Detached b (connected genesis tieBreakingGas disk) :=
    ⟨hgenesis, hgenesis, rfl, hdetails⟩
  exact ⟨congrArg Prod.snd ((blind_openWith hbest).ignores _ hd),
    (blind_openWith hbest).keeps _ hd⟩

end Aleth.Ethereum.BlockChain
