import Aleth.Ethereum.BlockSync
import Aleth.Ethereum.Watches

/-! Watches on pending transactions (`Client::syncTransactionQueue`).

The receipts of the transactions that a call has executed are gone through by
number, and the hash that goes with one is that of the pending transaction of the
same number: of all that are pending, not of those that are new. So it is right
where nothing was pending before. What `resyncStateFromChain` makes of the blocks
and the queue is told to a call. -/
namespace Aleth.Ethereum
open Devcore Throwing Runs

/-! ### The queue does not fail -/

namespace TransactionQueue

/-- No entry by nonce is without its transaction. -/
def Handled (q : TransactionQueue) : Prop := ∀ k, q.m_currentByAddressAndNonce.find k ≠ some none

variable {q : TransactionQueue}

theorem Handled.erase (hq : q.Handled) (k : Address ×ₗ U256) :
    ∀ k', (q.m_currentByAddressAndNonce.erase k).find k' ≠ some none := by
  intro k' h
  rw [SortedMap.find_erase] at h
  split at h
  · cases h
  · exact hq k' h

theorem succeeds_removeWithLock (h : H256) : Succeeds Handled (removeWithLock h) := by
  unfold removeWithLock
  refine .get_bind fun q _ => ?_
  cases q.m_currentByHash h with
  | none => exact .pure _
  | some t => exact Succeeds.bind (.modify fun q hq => hq.erase _) fun _ => .pure _

theorem succeeds_drop (h : H256) : Succeeds Handled (drop h) := by
  unfold drop
  refine .get_bind fun q _ => ?_
  split
  · exact .pure _
  · refine Succeeds.bind (.modify fun q hq => hq) fun _ => ?_
    exact (succeeds_removeWithLock h).bind fun _ => .pure _

theorem Handled.eraseByNonce (hq : q.Handled) (l : List (Address ×ₗ U256)) :
    (q.eraseByNonce l).Handled := by
  induction l generalizing q with
  | nil => exact hq
  | cons k l ih =>
    exact ih (q := {q with m_currentByAddressAndNonce := q.m_currentByAddressAndNonce.erase k})
      (hq.erase k)

theorem succeeds_setFuture (h : H256) : Succeeds Handled (setFuture h) := by
  unfold setFuture
  refine .get_bind fun q hq => ?_
  cases q.m_currentByHash h with
  | none => exact .pure _
  | some st =>
    refine (Succeeds.forM fun e he => ?_).bind fun _ =>
      .modify fun q hq => hq.eraseByNonce _
    have hmem : e ∈ q.m_currentByAddressAndNonce.entries := (List.mem_filter.mp he).1
    have hhandle := hq e.1
    rw [SortedMap.find_eq_some_iff.mpr hmem] at hhandle
    obtain ⟨k, _ | t⟩ := e
    · exact absurd rfl hhandle
    · exact .modify fun q hq => hq

end TransactionQueue

namespace Sync
variable {σ : Type}
  {execute : Block σ → Transaction → Except ExecutionException (σ × TransactionReceipt)}
  {ask : U256} {transactions : List Transaction} {s s' : Sync σ} {b : Block σ} {t : Transaction}

/-- The queue of the loop has a transaction in each entry. -/
def Handled (s : Sync σ) : Prop := s.tq.Handled

theorem succeeds_onQueue {α : Type} {x : Queue α} (hx : Succeeds TransactionQueue.Handled x) :
    Succeeds Handled (onQueue x : Syncing σ α) := by
  intro s hs
  obtain ⟨a, q, hrun, hq⟩ := hx s.tq hs
  exact ⟨a, {s with tq := q}, by simp [onQueue, run, show x s.tq = _ from hrun], hq⟩

theorem succeeds_onException (gasLimit : ℕ) (t : Transaction) (e : ExecutionException) :
    Succeeds TransactionQueue.Handled (onException gasLimit t e) := by
  cases e with
  | invalidNonce req got =>
    refine .get_bind fun q _ => ?_
    split
    · exact TransactionQueue.succeeds_drop _
    · split
      · exact TransactionQueue.succeeds_drop _
      · exact TransactionQueue.succeeds_setFuture _
  | blockGasLimitReached got =>
    show Succeeds _ (if gasLimit < got then TransactionQueue.drop t.sha3 else return ())
    split
    · exact TransactionQueue.succeeds_drop _
    · exact .pure _
  | other => exact TransactionQueue.succeeds_drop _

variable (execute ask) in
theorem succeeds_syncTransaction (t : Transaction) :
    Succeeds Handled (syncTransaction execute ask t) := by
  unfold syncTransaction
  refine .get_bind fun s _ => ?_
  split
  · exact .pure _
  · split
    · split
      · exact .modify fun s hs => hs
      · exact Succeeds.bind (.modify fun s hs => hs) fun _ =>
          succeeds_onQueue (succeeds_onException _ _ _)
    · split
      · exact succeeds_onQueue (TransactionQueue.succeeds_drop _)
      · exact .pure _

variable (execute ask transactions) in
theorem succeeds_pass : Succeeds Handled (pass execute ask transactions) :=
  Succeeds.bind (.modify fun _ hs => hs) fun _ =>
    .forM fun t _ => succeeds_syncTransaction execute ask t

variable (execute ask transactions) in
theorem succeeds_fill (left : ℕ) : Succeeds Handled (fill execute ask transactions left) := by
  induction left with
  | zero =>
    refine .get_bind fun s _ => ?_
    split
    · exact (succeeds_pass execute ask transactions).bind fun _ => .pure _
    · exact .pure _
  | succ left ih =>
    refine .get_bind fun s _ => ?_
    split
    · exact (succeeds_pass execute ask transactions).bind fun _ => ih
    · exact .pure _

/-! ### Where nothing is executed -/

theorem takes_congr {b b' : Block σ} (h : b'.uncommitToSeal = b.uncommitToSeal) :
    Takes execute ask b' t ↔ Takes execute ask b t := by
  have hset : b'.m_transactionSet = b.m_transactionSet := by
    rw [← uncommitToSeal_set b', h, uncommitToSeal_set]
  unfold Takes
  rw [hset, h]

theorem forM_idle {l : List Transaction} (h : ∀ t ∈ l, ¬Takes execute ask s.block t) :
    Counted s ((l.forM (syncTransaction execute ask)).run s).2 [] := by
  induction l generalizing s with
  | nil => exact ⟨.refl s, rfl⟩
  | cons t l ih =>
    have hleft := syncTransaction_leaves (h t List.mem_cons_self)
    rw [run_forM_cons, run_bind]
    rcases hrun : (syncTransaction execute ask t).run s with ⟨e | u, s₁⟩
    · rwa [hrun] at hleft
    · rw [hrun] at hleft
      refine hleft.trans (ih fun u hu => ?_)
      rw [takes_congr (hleft.idle rfl)]
      exact h u (List.mem_cons_of_mem _ hu)

theorem fill_idle (left : ℕ) (h : ∀ t ∈ transactions, ¬Takes execute ask s.block t) :
    Executed s ((fill execute ask transactions left).run s).2 [] := by
  have hpass : ∀ s : Sync σ, (∀ t ∈ transactions, ¬Takes execute ask s.block t) →
      Executed s ((pass execute ask transactions).run s).2 [] := fun s hs => by
    have hcounted := forM_idle (s := {s with goodTxs := 0}) hs
    exact ⟨hcounted.transactions, hcounted.receipts, hcounted.returned, hcounted.nodup,
      hcounted.fresh, hcounted.idle⟩
  induction left generalizing s with
  | zero =>
    by_cases hlt : s.goodTxs < transactions.length
    · have hnone := hpass s h
      rw [run_fill_zero hlt, run_bind]
      rcases hrun : (pass execute ask transactions).run s with ⟨e | u, s₁⟩
      · rwa [hrun] at hnone
      · rwa [hrun] at hnone
    · rw [run_fill_done _ hlt]
      exact .refl s
  | succ left ih =>
    by_cases hlt : s.goodTxs < transactions.length
    · have hnone := hpass s h
      rw [run_fill_succ _ hlt, run_bind]
      rcases hrun : (pass execute ask transactions).run s with ⟨e | u, s₁⟩
      · rwa [hrun] at hnone
      · rw [hrun] at hnone
        refine hnone.trans (ih fun t ht => ?_)
        rw [takes_congr (hnone.idle rfl)]
        exact h t ht
    · rw [run_fill_done _ hlt]
      exact .refl s

/-- A transaction that can be executed keeps the pass from executing none. -/
theorem forM_takes {l : List Transaction} (hs : s.Handled)
    (h : ∃ t ∈ l, Takes execute ask s.block t) :
    ∃ news, news ≠ [] ∧ Executed s ((l.forM (syncTransaction execute ask)).run s).2 news := by
  induction l generalizing s with
  | nil =>
    obtain ⟨t, ht, -⟩ := h
    cases ht
  | cons t l ih =>
    rw [run_forM_cons]
    by_cases ht : Takes execute ask s.block t
    · obtain ⟨r, hr, hrun⟩ := syncTransaction_takes ht
      obtain ⟨news, hnews, -, -⟩ := forM_counted execute ask l {s with
        block := s.block.uncommitToSeal.push t r
        receipts := s.receipts ++ [r.2]
        goodTxs := s.goodTxs + 1}
      rw [run_bind_ok hrun]
      exact ⟨(t, r.2) :: news, List.cons_ne_nil _ _,
        (counted_push ht.1).toExecuted.trans hnews.toExecuted⟩
    · obtain ⟨u, hu, htakes⟩ := h
      have hul : u ∈ l := (List.mem_cons.mp hu).resolve_left fun heq => ht (heq ▸ htakes)
      have hleft := syncTransaction_leaves ht
      obtain ⟨a, s₁, hrun, hs₁⟩ := succeeds_syncTransaction execute ask t s hs
      rw [hrun] at hleft
      obtain ⟨news, hne, hnews⟩ := ih hs₁ ⟨u, hul, (takes_congr (hleft.idle rfl)).mpr htakes⟩
      rw [run_bind_ok hrun]
      exact ⟨news, hne, hleft.toExecuted.trans hnews⟩

theorem fill_takes (left : ℕ) (hs : s.Handled) (hlt : s.goodTxs < transactions.length)
    (h : ∃ t ∈ transactions, Takes execute ask s.block t) : ∃ news, news ≠ [] ∧
      Executed s ((fill execute ask transactions left).run s).2 news := by
  obtain ⟨news, hne, hnews⟩ := forM_takes (s := {s with goodTxs := 0}) hs h
  obtain ⟨u, s₁, hrun, -⟩ := succeeds_pass execute ask transactions s hs
  have hfirst : Executed s s₁ news := by
    rw [← run_pass, hrun] at hnews
    exact ⟨hnews.transactions, hnews.receipts, hnews.returned, hnews.nodup, hnews.fresh, hnews.idle⟩
  cases left with
  | zero =>
    rw [run_fill_zero hlt, run_bind_ok hrun]
    exact ⟨news, hne, hfirst⟩
  | succ left =>
    rw [run_fill_succ _ hlt, run_bind_ok hrun]
    obtain ⟨news', hnews', -⟩ := fill_executed execute ask transactions left s₁
    exact ⟨news ++ news', by simp [hne], hfirst.trans hnews'⟩

end Sync

/-! ### The client -/

/-- The parts of a client that the transactions go through. -/
structure Blocks (σ : Type) where
  m_working : Block σ
  m_postSeal : Block σ
  m_tq : TransactionQueue
  handled : m_tq.Handled

structure Client (σ : Type) where
  base : ClientBase
  blocks : Blocks σ

/-- What one call meets: `resyncStateFromChain`, the execution of transactions, the price and the
passes that end in time. -/
structure SyncCall (σ : Type) where
  resync : Blocks σ → Blocks σ
  execute : Block σ → Transaction → Except ExecutionException (σ × TransactionReceipt)
  ask : U256
  left : ℕ

/-- `Block::operator=`. -/
def Block.copied {σ : Type} (b : Block σ) : Block σ :=
  {b with m_precommit := b.m_state, m_committedToSeal := false}

namespace Client

/-- The entries that a filter catches; one that is read past its end is not caught. -/
def caught [Sha3] (f : RangedFilter) (r : TransactionReceipt) : List LogEntry :=
  match f.toLogFilter.matchesReceipt r with
  | .ok m => m
  | .error _ => []

/-- `appendFromNewPending`, for the filters that have changed and the client. -/
def appendFromNewPending [Sha3] (io : (H256 → Bool) × ClientBase) (e : TransactionReceipt × H256) :
    (H256 → Bool) × ClientBase :=
  (fun h => io.1 h || h = PendingChangedFilter ||
      ((io.2.m_filters h).map fun i => !(caught i.filter e.1).isEmpty).getD false,
    {io.2 with
      m_specialFilters := fun h => if h = PendingChangedFilter then
        (io.2.m_specialFilters h).map fun l => l ++ [e.2] else io.2.m_specialFilters h
      m_filters := fun h => (io.2.m_filters h).map fun i =>
        {i with changes := i.changes ++ (caught i.filter e.1).map fun l => {toLogEntry := l}}})

/-- The receipts of a call with the hashes of the pending transactions of their numbers. -/
def announced (newPendingReceipts : List TransactionReceipt) (pending : List Transaction) :
    List (TransactionReceipt × H256) :=
  newPendingReceipts.zipIdx.map fun e =>
    (e.1, ((pending[e.2]?).map Transaction.sha3).getD H256.zero)

variable {σ : Type}

/-- What the block becomes, and what `sync` returns. -/
def synced (k : SyncCall σ) (b : Blocks σ) : Except QueueException Bool × Sync σ :=
  Sync.sync k.execute k.ask k.left b.m_working b.m_tq

theorem synced_ok (k : SyncCall σ) (b : Blocks σ) :
    ∃ more, (synced k b).1 = .ok more ∧ (synced k b).2.tq.Handled := by
  obtain ⟨late, s, hrun, hs⟩ := Sync.succeeds_fill k.execute k.ask
    (b.m_tq.topTransactions c_maxSyncTransactions b.m_working.m_transactionSet) k.left
    (Sync.start (b.m_tq.topTransactions c_maxSyncTransactions b.m_working.m_transactionSet)
      b.m_working b.m_tq) b.handled
  unfold synced Sync.sync
  dsimp only
  rw [hrun]
  exact ⟨_, rfl, hs⟩

theorem handled_synced (k : SyncCall σ) (b : Blocks σ) : (synced k b).2.tq.Handled := by
  obtain ⟨_, -, h⟩ := synced_ok k b
  exact h

/-- `Client::syncTransactionQueue`; `sync` does not throw. -/
def syncTransactionQueue [Sha3] (c : Client σ) (k : SyncCall σ) : Client σ :=
  let blocks := k.resync c.blocks
  if blocks.m_working.isSealed then {c with blocks := blocks}
  else
    let r := (synced k blocks).2
    if r.receipts.isEmpty then
      {c with blocks := ⟨r.block, blocks.m_postSeal, r.tq, handled_synced k blocks⟩}
    else
      let io := (announced r.receipts r.block.copied.m_transactions).foldl appendFromNewPending
        (fun _ => false, c.base)
      ⟨io.2.noteChanged io.1, ⟨r.block, r.block.copied, r.tq, handled_synced k blocks⟩⟩

/-! ### What watches are told -/

/-- What a call says of the transactions. -/
def announcedBy (c : Client σ) (k : SyncCall σ) : List (TransactionReceipt × H256) :=
  let blocks := k.resync c.blocks
  if blocks.m_working.isSealed then []
  else announced (synced k blocks).2.receipts (synced k blocks).2.block.m_transactions

/-- The transactions that it adds to the block, with their receipts. -/
def executedBy [Sha3] (c : Client σ) (k : SyncCall σ) : List (Transaction × TransactionReceipt) :=
  let b := (k.resync c.blocks).m_working
  let b' := (syncTransactionQueue c k).blocks.m_working
  (b'.m_transactions.drop b.m_transactions.length).zip
    (b'.m_receipts.drop b.m_receipts.length)

/-- The hashes of the executed transactions, as a watch gets them. -/
def toldOf (news : List (Transaction × TransactionReceipt)) : List LocalisedLogEntry :=
  news.map fun e => ClientBase.specialEntry e.1.sha3

/-- Nothing waits in the filter for pending transactions, which is not the name of another one. -/
structure Quiet (c : ClientBase) : Prop where
  unnamed : c.m_filters PendingChangedFilter = none
  empty : c.m_specialFilters PendingChangedFilter = some []

/-- The hash of each new transaction comes with its receipt, and once. -/
structure Told [Sha3] (c : Client σ) (k : SyncCall σ) : Prop where
  added : (syncTransactionQueue c k).blocks.m_working.m_transactions =
    (k.resync c.blocks).m_working.m_transactions ++ (executedBy c k).map Prod.fst
  once : ((executedBy c k).map fun e => e.1.sha3).Nodup
  named : announcedBy c k = (executedBy c k).map fun e => (e.2, e.1.sha3)

/-- Nothing is pending before the call, or nothing can be executed in it. -/
def Careful (c : Client σ) (k : SyncCall σ) : Prop :=
  let b := k.resync c.blocks
  b.m_working.isSealed ∨ b.m_working.m_transactions = [] ∨
    ∀ t ∈ b.m_tq.topTransactions c_maxSyncTransactions b.m_working.m_transactionSet,
      ¬Sync.Takes k.execute k.ask b.m_working t

/-! ### One call -/

variable {c : Client σ} {k : SyncCall σ}

/-- What the loop has executed in a call that does not find the block sealed. -/
theorem synced_executed (k : SyncCall σ) (b : Blocks σ) : ∃ news,
    Sync.Executed (Sync.start (b.m_tq.topTransactions c_maxSyncTransactions
      b.m_working.m_transactionSet) b.m_working b.m_tq) (synced k b).2 news := by
  obtain ⟨news, hnews, -⟩ := Sync.fill_executed k.execute k.ask
    (b.m_tq.topTransactions c_maxSyncTransactions b.m_working.m_transactionSet) k.left
    (Sync.start _ b.m_working b.m_tq)
  exact ⟨news, hnews⟩

theorem synced_takes (k : SyncCall σ) (b : Blocks σ)
    (h : ∃ t ∈ b.m_tq.topTransactions c_maxSyncTransactions b.m_working.m_transactionSet,
      Sync.Takes k.execute k.ask b.m_working t) : ∃ news, news ≠ [] ∧
    Sync.Executed (Sync.start (b.m_tq.topTransactions c_maxSyncTransactions
      b.m_working.m_transactionSet) b.m_working b.m_tq) (synced k b).2 news := by
  obtain ⟨t, ht, htakes⟩ := h
  exact Sync.fill_takes k.left b.handled (Sync.start_lt (List.ne_nil_of_mem ht) _ _)
    ⟨t, ht, htakes⟩

theorem announcedBy_sealed (h : (k.resync c.blocks).m_working.isSealed) : announcedBy c k = [] :=
  if_pos h

/-- What is announced goes through all that is pending. -/
theorem announcedBy_eq {news : List (Transaction × TransactionReceipt)} {l : List Transaction}
    (h : ¬(k.resync c.blocks).m_working.isSealed)
    (hnews : Sync.Executed (Sync.start l (k.resync c.blocks).m_working (k.resync c.blocks).m_tq)
      (synced k (k.resync c.blocks)).2 news) :
    announcedBy c k = announced (news.map Prod.snd)
      ((k.resync c.blocks).m_working.m_transactions ++ news.map Prod.fst) := by
  unfold announcedBy
  dsimp only
  rw [if_neg h, hnews.transactions, hnews.returned]
  rfl

section
variable [Sha3]

theorem syncTransactionQueue_sealed (h : (k.resync c.blocks).m_working.isSealed) :
    syncTransactionQueue c k = {c with blocks := k.resync c.blocks} := if_pos h

theorem working_of_unsealed (h : ¬(k.resync c.blocks).m_working.isSealed) :
    (syncTransactionQueue c k).blocks.m_working = (synced k (k.resync c.blocks)).2.block := by
  unfold syncTransactionQueue
  dsimp only
  rw [if_neg h]
  split <;> rfl

theorem executedBy_sealed (h : (k.resync c.blocks).m_working.isSealed) : executedBy c k = [] := by
  unfold executedBy
  rw [syncTransactionQueue_sealed h]
  simp

theorem executedBy_eq {news : List (Transaction × TransactionReceipt)} {l : List Transaction}
    (h : ¬(k.resync c.blocks).m_working.isSealed)
    (hnews : Sync.Executed (Sync.start l (k.resync c.blocks).m_working (k.resync c.blocks).m_tq)
      (synced k (k.resync c.blocks)).2 news) : executedBy c k = news := by
  unfold executedBy
  dsimp only
  rw [working_of_unsealed h, hnews.transactions, hnews.receipts]
  simp only [Sync.start, List.drop_left]
  exact (List.zip_of_prod rfl rfl).symm

end

/-- Where nothing was pending, the numbers are those of the new transactions. -/
theorem announced_new (news : List (Transaction × TransactionReceipt)) :
    announced (news.map Prod.snd) (news.map Prod.fst) = news.map fun e => (e.2, e.1.sha3) := by
  refine List.ext_getElem (by simp [announced]) fun i hi hi' => ?_
  simp only [announced, List.length_map, List.length_zipIdx] at hi
  simp [announced, hi]

/-- Where something was, the first number is that of another transaction. -/
theorem announced_old {t : Transaction} {old : List Transaction}
    {news : List (Transaction × TransactionReceipt)} (hne : news ≠ [])
    (hfresh : ∀ e ∈ news, e.1.sha3 ≠ t.sha3) :
    announced (news.map Prod.snd) (t :: old ++ news.map Prod.fst) ≠
      news.map fun e => (e.2, e.1.sha3) := by
  cases news with
  | nil => exact absurd rfl hne
  | cons e l =>
    intro heq
    have hhead := congrArg List.head? heq
    simp only [announced, List.map_cons, List.zipIdx_cons, List.head?_cons, Option.some.injEq,
      Prod.mk.injEq] at hhead
    exact hfresh e List.mem_cons_self hhead.2.symm

section
variable [Sha3]

/-- New transactions are told exactly if the list that is announced is right. -/
theorem told_iff_named (c : Client σ) (k : SyncCall σ) : Told c k ↔
    announcedBy c k = (executedBy c k).map fun e => (e.2, e.1.sha3) := by
  refine ⟨Told.named, fun hnamed => ?_⟩
  by_cases hsealed : (k.resync c.blocks).m_working.isSealed
  · refine ⟨?_, ?_, hnamed⟩
    · rw [executedBy_sealed hsealed, syncTransactionQueue_sealed hsealed]
      simp
    · rw [executedBy_sealed hsealed]
      exact List.nodup_nil
  · obtain ⟨news, hnews⟩ := synced_executed k (k.resync c.blocks)
    refine ⟨?_, ?_, hnamed⟩
    · rw [executedBy_eq hsealed hnews, working_of_unsealed hsealed, hnews.transactions]
      rfl
    · rw [executedBy_eq hsealed hnews]
      exact hnews.nodup

/-- A call names the right transactions if nothing was pending or nothing can be executed, and only
then. -/
theorem told_iff (c : Client σ) (k : SyncCall σ) : Told c k ↔ Careful c k := by
  rw [told_iff_named]
  unfold Careful
  by_cases hsealed : (k.resync c.blocks).m_working.isSealed
  · refine iff_of_true ?_ (.inl hsealed)
    rw [executedBy_sealed hsealed, announcedBy_sealed hsealed, List.map_nil]
  rw [or_iff_right hsealed]
  by_cases hidle : ∀ t ∈ (k.resync c.blocks).m_tq.topTransactions c_maxSyncTransactions
      (k.resync c.blocks).m_working.m_transactionSet,
      ¬Sync.Takes k.execute k.ask (k.resync c.blocks).m_working t
  · have hnone := Sync.fill_idle (s := Sync.start ((k.resync c.blocks).m_tq.topTransactions
      c_maxSyncTransactions (k.resync c.blocks).m_working.m_transactionSet)
      (k.resync c.blocks).m_working (k.resync c.blocks).m_tq) k.left hidle
    rw [announcedBy_eq hsealed hnone, executedBy_eq hsealed hnone]
    exact iff_of_true rfl (.inr hidle)
  · rw [or_iff_left hidle]
    push Not at hidle
    obtain ⟨news, hne, hnews⟩ := synced_takes k (k.resync c.blocks) hidle
    rw [announcedBy_eq hsealed hnews, executedBy_eq hsealed hnews]
    cases hold : (k.resync c.blocks).m_working.m_transactions with
    | nil => exact iff_of_true (announced_new news) rfl
    | cons t old =>
      refine iff_of_false (announced_old hne fun e he heq => ?_) (List.cons_ne_nil t old)
      refine hnews.fresh e he (((k.resync c.blocks).m_working.known _).mpr ⟨t, ?_, heq.symm⟩)
      rw [hold]
      exact List.mem_cons_self

end

/-! ### Watches -/

theorem Quiet.noteChanged {b : ClientBase} {hs : List H256} (f : H256 → Bool)
    (hfilter : b.m_filters PendingChangedFilter = none)
    (hspecial : b.m_specialFilters PendingChangedFilter = some hs) : Quiet (b.noteChanged f) := by
  constructor
  · show (b.m_filters PendingChangedFilter).map _ = none
    rw [hfilter, Option.map_none]
  · show (b.m_specialFilters PendingChangedFilter).map _ = some []
    rw [hspecial, Option.map_some]

theorem noteChanged_pending {b : ClientBase} {hs : List H256} {f : H256 → Bool} {i : ℕ}
    {w : ClientWatch} (hf : f PendingChangedFilter = true)
    (hfilter : b.m_filters PendingChangedFilter = none)
    (hspecial : b.m_specialFilters PendingChangedFilter = some hs)
    (hw : b.m_watches.find i = some w) (hid : w.id = PendingChangedFilter) :
    (b.noteChanged f).m_watches.find i =
      some {w with changes := w.changes ++ hs.map ClientBase.specialEntry} := by
  show (b.m_watches.mapVals _).find i = _
  rw [SortedMap.find_mapVals, hw, Option.map_some, hid, if_pos hf, ClientBase.news, hfilter]
  dsimp only
  rw [hspecial, Option.getD_some]

section
variable [Sha3]

/-- What has been announced waits in the filter for pending transactions. -/
theorem foldl_appendFromNewPending {l : List (TransactionReceipt × H256)} {f : H256 → Bool}
    {b : ClientBase} {k : List H256} (hfilter : b.m_filters PendingChangedFilter = none)
    (hspecial : b.m_specialFilters PendingChangedFilter = some k) :
    (l.foldl appendFromNewPending (f, b)).1 PendingChangedFilter =
        (f PendingChangedFilter || !l.isEmpty) ∧
      (l.foldl appendFromNewPending (f, b)).2.m_filters PendingChangedFilter = none ∧
      (l.foldl appendFromNewPending (f, b)).2.m_specialFilters PendingChangedFilter =
        some (k ++ l.map Prod.snd) ∧
      (l.foldl appendFromNewPending (f, b)).2.m_watches = b.m_watches := by
  induction l generalizing f b k with
  | nil => simp [hfilter, hspecial]
  | cons e l ih =>
    obtain ⟨hf, hfilters, hspecials, hwatches⟩ := ih (f := (appendFromNewPending (f, b) e).1)
      (b := (appendFromNewPending (f, b) e).2) (k := k ++ [e.2])
      (by simp [appendFromNewPending, hfilter]) (by simp [appendFromNewPending, hspecial])
    rw [List.foldl_cons]
    refine ⟨?_, hfilters, ?_, hwatches⟩
    · rw [hf]
      simp [appendFromNewPending]
    · rw [hspecials, List.map_cons, List.append_assoc, List.singleton_append]

/-- A call leaves nothing in the filter. -/
theorem Quiet.syncTransactionQueue (hc : Quiet c.base) (k : SyncCall σ) :
    Quiet (syncTransactionQueue c k).base := by
  unfold Client.syncTransactionQueue
  dsimp only
  split
  · exact hc
  · split
    · exact hc
    · obtain ⟨-, hfilter, hspecial, -⟩ := foldl_appendFromNewPending
        (l := announced (synced k (k.resync c.blocks)).2.receipts
          (synced k (k.resync c.blocks)).2.block.copied.m_transactions)
        (f := fun _ => false) hc.unnamed hc.empty
      exact .noteChanged _ hfilter hspecial

/-- A watch for pending transactions gets what the call announces. -/
theorem syncTransactionQueue_watch (hc : Quiet c.base) {i : ℕ} {w : ClientWatch}
    (hw : c.base.m_watches.find i = some w) (hid : w.id = PendingChangedFilter) :
    (syncTransactionQueue c k).base.m_watches.find i = some {w with
      changes := w.changes ++ (announcedBy c k).map fun e => ClientBase.specialEntry e.2} := by
  by_cases hsealed : (k.resync c.blocks).m_working.isSealed
  · rw [syncTransactionQueue_sealed hsealed, announcedBy_sealed hsealed]
    simpa using hw
  unfold Client.syncTransactionQueue announcedBy
  dsimp only
  rw [if_neg hsealed, if_neg hsealed]
  split
  case isTrue hempty =>
    rw [List.isEmpty_iff.mp hempty]
    simpa [announced] using hw
  case isFalse hempty =>
    obtain ⟨hf, hfilter, hspecial, hwatches⟩ := foldl_appendFromNewPending
      (l := announced (synced k (k.resync c.blocks)).2.receipts
        (synced k (k.resync c.blocks)).2.block.m_transactions)
      (f := fun _ => false) hc.unnamed hc.empty
    have hsome : (announced (synced k (k.resync c.blocks)).2.receipts
        (synced k (k.resync c.blocks)).2.block.m_transactions).isEmpty = false := by
      simpa [announced] using hempty
    rw [hsome] at hf
    rw [← hwatches] at hw
    have htold := noteChanged_pending hf hfilter hspecial hw hid
    rw [List.nil_append, List.map_map] at htold
    exact htold

/-! ### Runs -/

/-- What the calls of a run execute. -/
def executedAlong : Client σ → List (SyncCall σ) → List (Transaction × TransactionReceipt)
  | _, [] => []
  | c, k :: l => executedBy c k ++ executedAlong (syncTransactionQueue c k) l

/-- Each call names the right transactions, and a watch for pending ones gets them all in their
order. -/
structure ToldAlong (c : Client σ) (l : List (SyncCall σ)) : Prop where
  calls : Runs.Along syncTransactionQueue Told c l
  watches : Quiet c.base → ∀ i w, c.base.m_watches.find i = some w →
    w.id = PendingChangedFilter → (l.foldl syncTransactionQueue c).base.m_watches.find i =
      some {w with changes := w.changes ++ toldOf (executedAlong c l)}

theorem watches_of_told {l : List (SyncCall σ)}
    (h : Runs.Along syncTransactionQueue Told c l) (hc : Quiet c.base) {i : ℕ} {w : ClientWatch}
    (hw : c.base.m_watches.find i = some w) (hid : w.id = PendingChangedFilter) :
    (l.foldl syncTransactionQueue c).base.m_watches.find i =
      some {w with changes := w.changes ++ toldOf (executedAlong c l)} := by
  induction l generalizing c w with
  | nil =>
    rw [List.foldl_nil, hw]
    simp [toldOf, executedAlong]
  | cons k l ih =>
    have hcall := syncTransactionQueue_watch (k := k) hc hw hid
    rw [h.1.named, List.map_map] at hcall
    rw [List.foldl_cons, ih h.2 (hc.syncTransactionQueue k) hcall hid]
    simp [toldOf, executedAlong, Function.comp_def]

/-- **Along a run the right transactions are named when and only when in each call nothing was
pending before or nothing can be executed.** -/
theorem toldAlong_iff (c : Client σ) (l : List (SyncCall σ)) :
    ToldAlong c l ↔ Runs.Along syncTransactionQueue Careful c l := by
  have hiff : Runs.Along syncTransactionQueue Told c l ↔
      Runs.Along syncTransactionQueue Careful c l := Runs.Along.congr fun c k => told_iff c k
  rw [← hiff]
  exact ⟨ToldAlong.calls, fun h => ⟨h, fun hc i w hw hid => watches_of_told h hc hw hid⟩⟩

end

/-! ### A transaction beside a pending one -/

/-- A transaction that follows the pending one. -/
def nextTransaction : Transaction where
  sha3 := H256.alignRight [2]
  nonce := 1
  gasPrice := 100
  hasZeroSignature := false
  recovered := some 1

def nextQueue : TransactionQueue :=
  {TransactionQueue.fresh 1024 1024 with
    m_known := {nextTransaction.sha3}
    m_current := [nextTransaction]
    m_currentByHash := fun h => if h = nextTransaction.sha3 then some nextTransaction else none
    m_currentByAddressAndNonce :=
      SortedMap.empty.insert nextTransaction.slot (some nextTransaction)}

def besidePending : Client Unit where
  base := (ClientBase.fresh.installWatchOn PendingChangedFilter).2
  blocks := {
    m_working := Sync.emptyBlock.push Sync.cheapTransaction ((), ⟨0, []⟩)
    m_postSeal := Sync.emptyBlock
    m_tq := nextQueue
    handled := fun k h => by
      rw [nextQueue, SortedMap.find_insert] at h
      split at h
      · cases h
      · cases h}

attribute [local instance] Watched.watchSha3

/-- The new transaction is announced under the hash of the one before it. -/
theorem besidePending_misnamed :
    ¬ToldAlong besidePending [⟨id, fun _ _ => .ok ((), ⟨0, []⟩), 100, 1⟩] := fun h => by
  have hnamed := h.calls.1.named
  revert hnamed
  decide +kernel

end Client
end Aleth.Ethereum
