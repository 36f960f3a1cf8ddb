import Aleth.Ethereum.LogFilter
import Aleth.Ethereum.TransactionQueue

/-! A block is filled from the transaction queue (`Block::sync`).

The loop goes over the best transactions of the queue and executes those that are
not in the block yet. It ends when one pass has executed as many as there are, so
after a pass that leaves one out it goes round until the time is over: `left`
counts the passes that still end in time. How a transaction is executed is outside;
what it throws leaves the state as it was. -/
namespace Aleth.Ethereum
open Devcore Throwing

/-- What `execute` throws, as far as `sync` tells the exceptions apart. -/
inductive ExecutionException where
  | invalidNonce (required got : ℕ)
  | blockGasLimitReached (got : ℕ)
  | other
deriving DecidableEq

structure Block (σ : Type) where
  m_state : σ
  m_precommit : σ
  m_committedToSeal : Bool
  m_currentBytes : Bytes
  /-- The gas limit of `m_currentBlock`. -/
  gasLimit : ℕ
  m_transactions : List Transaction
  m_receipts : List TransactionReceipt
  m_transactionSet : Finset H256
  known : ∀ h, h ∈ m_transactionSet ↔ ∃ t ∈ m_transactions, t.sha3 = h
  receipted : m_receipts.length = m_transactions.length

namespace Block
variable {σ : Type}

def isSealed (b : Block σ) : Bool := !b.m_currentBytes.isEmpty

def uncommitToSeal (b : Block σ) : Block σ :=
  if b.m_committedToSeal then {b with m_state := b.m_precommit, m_committedToSeal := false} else b

/-- A transaction has been executed. -/
def push (b : Block σ) (t : Transaction) (r : σ × TransactionReceipt) : Block σ :=
  {b with
    m_state := r.1
    m_transactions := b.m_transactions ++ [t]
    m_receipts := b.m_receipts ++ [r.2]
    m_transactionSet := insert t.sha3 b.m_transactionSet
    known := fun h => by
      rw [Finset.mem_insert, b.known]
      constructor
      · rintro (rfl | ⟨u, hu, rfl⟩)
        · exact ⟨t, List.mem_append_right _ List.mem_cons_self, rfl⟩
        · exact ⟨u, List.mem_append_left _ hu, rfl⟩
      · rintro ⟨u, hu, rfl⟩
        rcases List.mem_append.mp hu with hu | hu
        · exact .inr ⟨u, hu, rfl⟩
        · exact .inl (by rw [List.mem_singleton.mp hu])
    receipted := by rw [List.length_append, List.length_append, b.receipted]; rfl}

end Block

namespace TransactionQueue

/-- `topTransactions(limit, avoid)`. -/
def topTransactions (q : TransactionQueue) (limit : ℕ) (avoid : Finset H256) : List Transaction :=
  (q.m_current.filter fun t => !decide (t.sha3 ∈ avoid)).take limit

/-- How many transactions of an account are in the queue. -/
def waiting (q : TransactionQueue) (a : Address) : ℕ :=
  ((q.m_currentByAddressAndNonce.entries.filter fun e => (ofLex e.1).1 = a).length +
    (q.m_future.entries.filter fun e => (ofLex e.1).1 = a).length) % 2 ^ 32

end TransactionQueue

def c_maxSyncTransactions : ℕ := 1024

/-- The variables of the loop: `receipts` is what `sync` returns. -/
structure Sync (σ : Type) where
  block : Block σ
  tq : TransactionQueue
  receipts : List TransactionReceipt
  goodTxs : ℕ

abbrev Syncing (σ : Type) := Throwing (Sync σ) QueueException

namespace Sync
variable {σ : Type}

/-- A call on the queue. -/
def onQueue {α : Type} (x : Queue α) : Syncing σ α := fun s =>
  ((x.run s.tq).1, {s with tq := (x.run s.tq).2})

/-- The handlers. The sender is known where the nonce has been found wrong. -/
def onException (gasLimit : ℕ) (t : Transaction) : ExecutionException → Queue Unit
  | .invalidNonce req got => do
    let q ← get
    if got < req then TransactionQueue.drop t.sha3
    else if req + q.waiting t.from_ < got then TransactionQueue.drop t.sha3
    else TransactionQueue.setFuture t.sha3
  | .blockGasLimitReached got =>
    if gasLimit < got then TransactionQueue.drop t.sha3 else return ()
  | .other => TransactionQueue.drop t.sha3

section
variable (execute : Block σ → Transaction → Except ExecutionException (σ × TransactionReceipt))
  (ask : U256) (transactions : List Transaction)

/-- The body of the inner loop. -/
def syncTransaction (t : Transaction) : Syncing σ Unit := do
  let s ← get
  if t.sha3 ∈ s.block.m_transactionSet then return ()
  else if ask ≤ t.gasPrice then
    match execute s.block.uncommitToSeal t with
    | .ok r => modify fun s =>
      {s with
        block := s.block.uncommitToSeal.push t r
        receipts := s.receipts ++ [r.2]
        goodTxs := s.goodTxs + 1}
    | .error e => do
      modify fun s => {s with block := s.block.uncommitToSeal}
      onQueue (onException s.block.gasLimit t e)
  else if t.gasPrice < ask * 9 / 10 then onQueue (TransactionQueue.drop t.sha3)
  else return ()

/-- One pass over the transactions. -/
def pass : Syncing σ Unit := do
  modify fun s => {s with goodTxs := 0}
  transactions.forM (syncTransaction execute ask)

/-- The loop, when `left` passes end in time before one that does not: `true` when the deadline
ended it. -/
def fill : (left : ℕ) → Syncing σ Bool
  | 0 => do
    let s ← get
    if s.goodTxs < transactions.length then
      pass execute ask transactions
      return true
    else return false
  | left + 1 => do
    let s ← get
    if s.goodTxs < transactions.length then
      pass execute ask transactions
      fill left
    else return false

/-- Where the loop begins. -/
def start (b : Block σ) (tq : TransactionQueue) : Sync σ :=
  ⟨b, tq, [], transactions.length - 1⟩

/-- `Block::sync`, for a block that is not sealed: whether there is more, and what has become of the
block and the queue. -/
def sync (left : ℕ) (b : Block σ) (tq : TransactionQueue) :
    Except QueueException Bool × Sync σ :=
  let transactions := tq.topTransactions c_maxSyncTransactions b.m_transactionSet
  let r := (fill execute ask transactions left).run (start transactions b tq)
  (r.1.map fun late => late || transactions.length == c_maxSyncTransactions, r.2)

/-! ### What a pass takes -/

/-- The transaction is executed. -/
def Takes (b : Block σ) (t : Transaction) : Prop :=
  t.sha3 ∉ b.m_transactionSet ∧ ask ≤ t.gasPrice ∧ (execute b.uncommitToSeal t).isOk = true

instance (b : Block σ) (t : Transaction) : Decidable (Takes execute ask b t) :=
  inferInstanceAs (Decidable (_ ∧ _))

/-- The block after the execution of a transaction. -/
def taken (b : Block σ) (t : Transaction) : Block σ :=
  match execute b.uncommitToSeal t with
  | .ok r => b.uncommitToSeal.push t r
  | .error _ => b.uncommitToSeal

/-- Every transaction is executed, one after the other. -/
def TakesAll : Block σ → List Transaction → Prop
  | _, [] => True
  | b, t :: l => Takes execute ask b t ∧ TakesAll (taken execute b t) l

variable {execute ask transactions} {s s' s'' : Sync σ} {b : Block σ} {t : Transaction}

@[simp] theorem uncommitToSeal_set (b : Block σ) :
    b.uncommitToSeal.m_transactionSet = b.m_transactionSet := by
  unfold Block.uncommitToSeal
  split <;> rfl

@[simp] theorem uncommitToSeal_transactions (b : Block σ) :
    b.uncommitToSeal.m_transactions = b.m_transactions := by
  unfold Block.uncommitToSeal
  split <;> rfl

@[simp] theorem uncommitToSeal_receipts (b : Block σ) :
    b.uncommitToSeal.m_receipts = b.m_receipts := by
  unfold Block.uncommitToSeal
  split <;> rfl

@[simp] theorem uncommitToSeal_uncommitToSeal (b : Block σ) :
    b.uncommitToSeal.uncommitToSeal = b.uncommitToSeal := by
  by_cases h : b.m_committedToSeal
  · simp [Block.uncommitToSeal, h]
  · simp [Block.uncommitToSeal, h]

/-- `s'` is `s` after the transactions of `news` have been executed, with these receipts. -/
structure Executed (s s' : Sync σ) (news : List (Transaction × TransactionReceipt)) : Prop where
  transactions : s'.block.m_transactions = s.block.m_transactions ++ news.map Prod.fst
  receipts : s'.block.m_receipts = s.block.m_receipts ++ news.map Prod.snd
  returned : s'.receipts = s.receipts ++ news.map Prod.snd
  nodup : (news.map fun e => e.1.sha3).Nodup
  fresh : ∀ e ∈ news, e.1.sha3 ∉ s.block.m_transactionSet
  idle : news = [] → s'.block.uncommitToSeal = s.block.uncommitToSeal

/-- They have been counted. -/
structure Counted (s s' : Sync σ) (news : List (Transaction × TransactionReceipt)) : Prop extends
    Executed s s' news where
  goodTxs : s'.goodTxs = s.goodTxs + news.length

theorem Executed.of_eq (hblock : s'.block.m_transactions = s.block.m_transactions)
    (hreceipts : s'.block.m_receipts = s.block.m_receipts) (hreturned : s'.receipts = s.receipts)
    (hidle : s'.block.uncommitToSeal = s.block.uncommitToSeal) : Executed s s' [] :=
  ⟨by simp [hblock], by simp [hreceipts], by simp [hreturned], List.nodup_nil, by simp,
    fun _ => hidle⟩

theorem Executed.refl (s : Sync σ) : Executed s s [] := .of_eq rfl rfl rfl rfl

/-- The hashes of what has been executed are known afterwards. -/
theorem Executed.mem_set {news : List (Transaction × TransactionReceipt)} (h : Executed s s' news)
    (k : H256) : k ∈ s'.block.m_transactionSet ↔
      k ∈ s.block.m_transactionSet ∨ k ∈ news.map fun e => e.1.sha3 := by
  rw [s'.block.known, s.block.known, h.transactions]
  simp only [List.mem_append, List.mem_map]
  constructor
  · rintro ⟨t, ht | ⟨e, he, rfl⟩, rfl⟩
    · exact .inl ⟨t, ht, rfl⟩
    · exact .inr ⟨e, he, rfl⟩
  · rintro (⟨t, ht, rfl⟩ | ⟨e, he, rfl⟩)
    · exact ⟨t, .inl ht, rfl⟩
    · exact ⟨e.1, .inr ⟨e, he, rfl⟩, rfl⟩

theorem Executed.trans {news news' : List (Transaction × TransactionReceipt)}
    (h : Executed s s' news) (h' : Executed s' s'' news') : Executed s s'' (news ++ news') where
  transactions := by rw [h'.transactions, h.transactions, List.map_append, List.append_assoc]
  receipts := by rw [h'.receipts, h.receipts, List.map_append, List.append_assoc]
  returned := by rw [h'.returned, h.returned, List.map_append, List.append_assoc]
  nodup := by
    rw [List.map_append, List.nodup_append]
    refine ⟨h.nodup, h'.nodup, ?_⟩
    rintro k hk k' hk' rfl
    obtain ⟨e, he, rfl⟩ := List.mem_map.mp hk'
    exact h'.fresh e he ((h.mem_set _).mpr (.inr hk))
  fresh e he := by
    rcases List.mem_append.mp he with he | he
    · exact h.fresh e he
    · exact fun hk => h'.fresh e he ((h.mem_set _).mpr (.inl hk))
  idle hnil := by
    obtain ⟨hn, hn'⟩ := List.append_eq_nil_iff.mp hnil
    exact (h'.idle hn').trans (h.idle hn)

theorem Counted.trans {news news' : List (Transaction × TransactionReceipt)}
    (h : Counted s s' news) (h' : Counted s' s'' news') : Counted s s'' (news ++ news') :=
  ⟨h.toExecuted.trans h'.toExecuted, by
    rw [h'.goodTxs, h.goodTxs, List.length_append, Nat.add_assoc]⟩

/-- A call on the queue executes nothing. -/
theorem counted_onQueue {α : Type} (x : Queue α) (s : Sync σ) :
    Counted s ((onQueue x).run s).2 [] := ⟨.of_eq rfl rfl rfl rfl, rfl⟩

theorem run_syncTransaction (t : Transaction) (s : Sync σ) :
    (syncTransaction execute ask t).run s =
      (if t.sha3 ∈ s.block.m_transactionSet then return ()
      else if ask ≤ t.gasPrice then
        match execute s.block.uncommitToSeal t with
        | .ok r => modify fun s =>
          {s with
            block := s.block.uncommitToSeal.push t r
            receipts := s.receipts ++ [r.2]
            goodTxs := s.goodTxs + 1}
        | .error e => do
          modify fun s => {s with block := s.block.uncommitToSeal}
          onQueue (onException s.block.gasLimit t e)
      else if t.gasPrice < ask * 9 / 10 then onQueue (TransactionQueue.drop t.sha3)
      else return () : Syncing σ Unit).run s := rfl

/-- A transaction that is taken is executed and goes into the block. -/
theorem syncTransaction_takes (h : Takes execute ask s.block t) :
    ∃ r, execute s.block.uncommitToSeal t = .ok r ∧ (syncTransaction execute ask t).run s =
      (.ok (), {s with
        block := s.block.uncommitToSeal.push t r
        receipts := s.receipts ++ [r.2]
        goodTxs := s.goodTxs + 1}) := by
  obtain ⟨hfresh, hprice, hok⟩ := h
  rw [run_syncTransaction, if_neg hfresh, if_pos hprice]
  cases hx : execute s.block.uncommitToSeal t with
  | error e =>
    rw [hx] at hok
    cases hok
  | ok r => exact ⟨r, rfl, rfl⟩

theorem counted_push {r : σ × TransactionReceipt} (hfresh : t.sha3 ∉ s.block.m_transactionSet) :
    Counted s {s with
      block := s.block.uncommitToSeal.push t r
      receipts := s.receipts ++ [r.2]
      goodTxs := s.goodTxs + 1} [(t, r.2)] where
  transactions := by simp [Block.push]
  receipts := by simp [Block.push]
  returned := rfl
  goodTxs := rfl
  nodup := List.nodup_singleton _
  fresh e he := by rwa [List.mem_singleton.mp he]
  idle h := by cases h

/-- One that is not taken is not executed. -/
theorem syncTransaction_leaves (h : ¬Takes execute ask s.block t) :
    Counted s ((syncTransaction execute ask t).run s).2 [] := by
  rw [run_syncTransaction]
  split
  case isTrue => exact ⟨.refl s, rfl⟩
  case isFalse hfresh =>
    split
    case isTrue hprice =>
      cases hx : execute s.block.uncommitToSeal t with
      | ok r => exact absurd ⟨hfresh, hprice, by rw [hx]; rfl⟩ h
      | error e =>
        dsimp only
        rw [run_bind_ok (run_modify _ _)]
        have huncommit : Counted s {s with block := s.block.uncommitToSeal} [] :=
          ⟨.of_eq (by simp) (by simp) rfl (by simp), rfl⟩
        exact huncommit.trans (counted_onQueue _ _)
    case isFalse =>
      split
      · exact counted_onQueue _ s
      · exact ⟨.refl s, rfl⟩

/-! ### Passes -/

theorem run_forM_cons (t : Transaction) (l : List Transaction) (s : Sync σ) :
    ((t :: l).forM (syncTransaction execute ask)).run s =
      (syncTransaction execute ask t >>= fun _ => l.forM (syncTransaction execute ask)).run s := rfl

theorem taken_eq {r : σ × TransactionReceipt} (h : execute b.uncommitToSeal t = .ok r) :
    taken execute b t = b.uncommitToSeal.push t r := by rw [taken, h]

variable (execute ask) in
/-- A pass executes some of the transactions in their order, and all of them only if each can be
executed in its turn. -/
theorem forM_counted (l : List Transaction) (s : Sync σ) :
    ∃ news, Counted s ((l.forM (syncTransaction execute ask)).run s).2 news ∧
      (news.map Prod.fst).Sublist l ∧
      (news.length = l.length → TakesAll execute ask s.block l) := by
  induction l generalizing s with
  | nil => exact ⟨[], ⟨.refl s, rfl⟩, .slnil, fun _ => trivial⟩
  | cons t l ih =>
    rw [run_forM_cons]
    by_cases ht : Takes execute ask s.block t
    · obtain ⟨r, hr, hrun⟩ := syncTransaction_takes ht
      obtain ⟨news, hnews, hsub, hall⟩ := ih {s with
        block := s.block.uncommitToSeal.push t r
        receipts := s.receipts ++ [r.2]
        goodTxs := s.goodTxs + 1}
      rw [run_bind_ok hrun]
      refine ⟨(t, r.2) :: news, (counted_push ht.1).trans hnews, hsub.cons_cons t,
        fun hlen => ⟨ht, ?_⟩⟩
      rw [taken_eq hr]
      exact hall (Nat.succ.inj hlen)
    · have hleft := syncTransaction_leaves ht
      rcases hrun : (syncTransaction execute ask t).run s with ⟨e | u, s₁⟩
      · rw [hrun] at hleft
        rw [run_bind_error hrun]
        exact ⟨[], hleft, List.nil_sublist _, fun hlen => by cases hlen⟩
      · rw [hrun] at hleft
        rw [run_bind_ok hrun]
        obtain ⟨news, hnews, hsub, -⟩ := ih s₁
        refine ⟨news, hleft.trans hnews, hsub.cons t, fun hlen => ?_⟩
        have hle := hsub.length_le
        rw [List.length_map, hlen, List.length_cons] at hle
        omega

theorem forM_takesAll {l : List Transaction} {s : Sync σ} (h : TakesAll execute ask s.block l) :
    ∃ s', (l.forM (syncTransaction execute ask)).run s = (.ok (), s') ∧
      s'.goodTxs = s.goodTxs + l.length := by
  induction l generalizing s with
  | nil => exact ⟨s, rfl, rfl⟩
  | cons t l ih =>
    obtain ⟨r, hr, hrun⟩ := syncTransaction_takes h.1
    have hrest := h.2
    rw [taken_eq hr] at hrest
    obtain ⟨s', hs', hgood⟩ := ih (s := {s with
      block := s.block.uncommitToSeal.push t r
      receipts := s.receipts ++ [r.2]
      goodTxs := s.goodTxs + 1}) hrest
    refine ⟨s', by rw [run_forM_cons, run_bind_ok hrun, hs'], ?_⟩
    rw [hgood, List.length_cons]
    show s.goodTxs + 1 + l.length = _
    omega

/-- What can be executed depends on the block without its commitment. -/
theorem takesAll_congr {b b' : Block σ} (h : b'.uncommitToSeal = b.uncommitToSeal)
    (l : List Transaction) : TakesAll execute ask b' l ↔ TakesAll execute ask b l := by
  cases l with
  | nil => exact Iff.rfl
  | cons t l =>
    have hset : b'.m_transactionSet = b.m_transactionSet := by
      rw [← uncommitToSeal_set b', h, uncommitToSeal_set]
    have htakes : Takes execute ask b' t ↔ Takes execute ask b t := by
      unfold Takes
      rw [hset, h]
    have htaken : taken execute b' t = taken execute b t := by
      unfold taken
      rw [h]
    rw [TakesAll, TakesAll, htakes, htaken]

/-- None of them is in the block. -/
theorem TakesAll.fresh {l : List Transaction} (h : TakesAll execute ask b l) (ht : t ∈ l) :
    t.sha3 ∉ b.m_transactionSet := by
  induction l generalizing b with
  | nil => cases ht
  | cons u l ih =>
    obtain ⟨hu, hl⟩ := h
    rcases List.mem_cons.mp ht with rfl | ht
    · exact hu.1
    · intro hmem
      refine ih hl ht ?_
      obtain ⟨r, hr⟩ : ∃ r, execute b.uncommitToSeal u = .ok r := by
        cases hx : execute b.uncommitToSeal u with
        | ok r => exact ⟨r, rfl⟩
        | error e =>
          have hok := hu.2.2
          rw [hx] at hok
          cases hok
      rw [taken_eq hr]
      exact Finset.mem_insert_of_mem (by rwa [uncommitToSeal_set])

theorem run_pass (s : Sync σ) : (pass execute ask transactions).run s =
    (transactions.forM (syncTransaction execute ask)).run {s with goodTxs := 0} := rfl

variable (execute ask transactions) in
theorem pass_executed (s : Sync σ) : ∃ news,
    Executed s ((pass execute ask transactions).run s).2 news ∧
    ((pass execute ask transactions).run s).2.goodTxs = news.length ∧
    (news.map Prod.fst).Sublist transactions ∧
    (news.length = transactions.length → TakesAll execute ask s.block transactions) := by
  obtain ⟨news, hnews, hsub, hall⟩ :=
    forM_counted execute ask transactions {s with goodTxs := 0}
  have hgood := hnews.goodTxs
  rw [Nat.zero_add] at hgood
  exact ⟨news, ⟨hnews.transactions, hnews.receipts, hnews.returned, hnews.nodup, hnews.fresh,
    hnews.idle⟩, hgood, hsub, hall⟩

/-! ### The loop -/

theorem run_fill_done (left : ℕ) (h : ¬s.goodTxs < transactions.length) :
    (fill execute ask transactions left).run s = (.ok false, s) := by
  cases left with
  | zero =>
    show (if s.goodTxs < transactions.length then _ else _ : Syncing σ Bool).run s = _
    rw [if_neg h, run_pure]
  | succ left =>
    show (if s.goodTxs < transactions.length then _ else _ : Syncing σ Bool).run s = _
    rw [if_neg h, run_pure]

theorem run_fill_zero (h : s.goodTxs < transactions.length) :
    (fill execute ask transactions 0).run s =
      (pass execute ask transactions >>= fun _ => return true).run s := by
  show (if s.goodTxs < transactions.length then _ else _ : Syncing σ Bool).run s = _
  rw [if_pos h]

theorem run_fill_succ (left : ℕ) (h : s.goodTxs < transactions.length) :
    (fill execute ask transactions (left + 1)).run s =
      (pass execute ask transactions >>= fun _ => fill execute ask transactions left).run s := by
  show (if s.goodTxs < transactions.length then _ else _ : Syncing σ Bool).run s = _
  rw [if_pos h]

variable (execute ask transactions) in
/-- Whatever ends the loop, each transaction has been executed once at most. -/
theorem fill_executed (left : ℕ) (s : Sync σ) : ∃ news,
    Executed s ((fill execute ask transactions left).run s).2 news ∧
      ∀ e ∈ news, e.1 ∈ transactions := by
  induction left generalizing s with
  | zero =>
    by_cases hlt : s.goodTxs < transactions.length
    · obtain ⟨news, hnews, -, hsub, -⟩ :=
        pass_executed execute ask transactions s
      refine ⟨news, ?_, fun e he => hsub.subset (List.mem_map_of_mem he)⟩
      rw [run_fill_zero hlt, run_bind]
      rcases hrun : (pass execute ask transactions).run s with ⟨e | u, s₁⟩
      · rwa [hrun] at hnews
      · rwa [hrun] at hnews
    · rw [run_fill_done _ hlt]
      exact ⟨[], .refl s, by simp⟩
  | succ left ih =>
    by_cases hlt : s.goodTxs < transactions.length
    · obtain ⟨news, hnews, -, hsub, -⟩ :=
        pass_executed execute ask transactions s
      have hmem : ∀ e ∈ news, e.1 ∈ transactions :=
        fun e he => hsub.subset (List.mem_map_of_mem he)
      rw [run_fill_succ _ hlt, run_bind]
      rcases hrun : (pass execute ask transactions).run s with ⟨e | u, s₁⟩
      · rw [hrun] at hnews
        exact ⟨news, hnews, hmem⟩
      · rw [hrun] at hnews
        obtain ⟨news', hnews', hmem'⟩ := ih s₁
        refine ⟨news ++ news', hnews.trans hnews', fun e he => ?_⟩
        exact (List.mem_append.mp he).elim (hmem e) (hmem' e)
    · rw [run_fill_done _ hlt]
      exact ⟨[], .refl s, by simp⟩

/-- A loop that ends by itself has executed everything in its first pass: later passes find less
that is not in the block, or the block as it was. -/
theorem takesAll_of_ends {left : ℕ}
    (h : (fill execute ask transactions left).run s = (.ok false, s')) :
    transactions.length ≤ s.goodTxs ∨ TakesAll execute ask s.block transactions := by
  induction left generalizing s with
  | zero =>
    refine (Nat.lt_or_ge s.goodTxs transactions.length).symm.imp_right fun hlt => ?_
    rw [run_fill_zero hlt, run_bind] at h
    rcases hrun : (pass execute ask transactions).run s with ⟨e | u, s₁⟩
    · rw [hrun] at h
      cases h
    · rw [hrun] at h
      cases h
  | succ left ih =>
    refine (Nat.lt_or_ge s.goodTxs transactions.length).symm.imp_right fun hlt => ?_
    obtain ⟨news, hnews, hgood, hsub, hall⟩ :=
      pass_executed execute ask transactions s
    rw [run_fill_succ _ hlt, run_bind] at h
    rcases hrun : (pass execute ask transactions).run s with ⟨e | u, s₁⟩
    · rw [hrun] at h
      cases h
    · rw [hrun] at h hnews hgood
      have hle := hsub.length_le
      rw [List.length_map] at hle
      rcases ih h with hge | hrest
      · exact hall (by dsimp only at hgood; omega)
      · cases hnil : news with
        | nil => exact (takesAll_congr (hnews.idle hnil) _).mp hrest
        | cons e l =>
          have he : e ∈ news := by
            rw [hnil]
            exact List.mem_cons_self
          exact absurd ((hnews.mem_set _).mpr (.inr (List.mem_map_of_mem he)))
            (hrest.fresh (hsub.subset (List.mem_map_of_mem he)))

theorem run_pass_takesAll (h : TakesAll execute ask s.block transactions) :
    ∃ s', (pass execute ask transactions).run s = (.ok (), s') ∧
      s'.goodTxs = transactions.length := by
  obtain ⟨s', hrun, hgood⟩ := forM_takesAll (s := {s with goodTxs := 0}) h
  exact ⟨s', hrun, by rw [hgood]; exact Nat.zero_add _⟩

/-- Where everything can be executed, the first pass is the last. -/
theorem run_fill_takesAll (h : TakesAll execute ask s.block transactions)
    (hlt : s.goodTxs < transactions.length) : ∃ s', s'.goodTxs = transactions.length ∧
      ∀ left, ∃ late, (fill execute ask transactions left).run s = (.ok late, s') ∧
        (0 < left → late = false) := by
  obtain ⟨s', hrun, hgood⟩ := run_pass_takesAll h
  refine ⟨s', hgood, fun left => ?_⟩
  cases left with
  | zero => exact ⟨true, by rw [run_fill_zero hlt, run_bind_ok hrun, run_pure], fun h => by cases h⟩
  | succ left =>
    refine ⟨false, ?_, fun _ => rfl⟩
    rw [run_fill_succ _ hlt, run_bind_ok hrun, run_fill_done _ (by omega)]

variable (execute ask transactions) in
/-- The loop ends by itself, a pass that executes none is the last, and no transaction is executed
twice. -/
structure StopsWhenIdle (b : Block σ) (tq : TransactionQueue) : Prop where
  ends : ∃ left s', (fill execute ask transactions left).run (start transactions b tq) =
    (.ok false, s')
  idle : ∀ left late s', (fill execute ask transactions left).run (start transactions b tq) =
    (.ok late, s') → s'.goodTxs = 0 → transactions = []
  once : ∀ left, ∃ news, Executed (start transactions b tq)
    ((fill execute ask transactions left).run (start transactions b tq)).2 news ∧
      ∀ e ∈ news, e.1 ∈ transactions

theorem start_lt (h : transactions ≠ []) (b : Block σ) (tq : TransactionQueue) :
    (start transactions b tq).goodTxs < transactions.length := by
  have hpos := List.length_pos_of_ne_nil h
  show transactions.length - 1 < _
  omega

variable (execute ask transactions) in
/-- **The loop ends when nothing more fits when and only when everything fits.** -/
theorem stopsWhenIdle_iff (b : Block σ) (tq : TransactionQueue) :
    StopsWhenIdle execute ask transactions b tq ↔ TakesAll execute ask b transactions := by
  constructor
  · rintro ⟨⟨left, s', hrun⟩, -, -⟩
    rcases takesAll_of_ends hrun with hle | h
    · cases transactions with
      | nil => trivial
      | cons t l => exact absurd hle (Nat.not_le.mpr (start_lt (List.cons_ne_nil _ _) b tq))
    · exact h
  · intro h
    refine ⟨?_, fun left late s' hrun hzero => ?_, fun left => fill_executed _ _ _ left _⟩
    · by_cases hnil : transactions = []
      · exact ⟨0, _, run_fill_done 0 (by rw [hnil]; exact Nat.not_lt_zero _)⟩
      · obtain ⟨s', -, hall⟩ := run_fill_takesAll (s := start transactions b tq) h
          (start_lt hnil b tq)
        obtain ⟨late, hrun, hlate⟩ := hall 1
        exact ⟨1, s', by rw [hrun, hlate Nat.one_pos]⟩
    · by_contra hnil
      obtain ⟨s'', hgood, hall⟩ := run_fill_takesAll (s := start transactions b tq) h
        (start_lt hnil b tq)
      obtain ⟨late', hrun', -⟩ := hall left
      obtain rfl := (Prod.mk.inj (hrun.symm.trans hrun')).2
      rw [hgood] at hzero
      exact hnil (List.length_eq_zero_iff.mp hzero)

end

/-! ### A transaction that is too cheap -/

def emptyBlock : Block Unit where
  m_state := ()
  m_precommit := ()
  m_committedToSeal := false
  m_currentBytes := []
  gasLimit := 8000000
  m_transactions := []
  m_receipts := []
  m_transactionSet := ∅
  known h := by simp
  receipted := rfl

/-- A bid a little below the price. -/
def cheapTransaction : Transaction where
  sha3 := H256.alignRight [1]
  nonce := 0
  gasPrice := 95
  hasZeroSignature := false
  recovered := some 1

/-- Every transaction can be executed, but one is not worth it. -/
theorem cheap_loops : ¬StopsWhenIdle (fun _ _ => .ok ((), ⟨0, []⟩)) 100 [cheapTransaction]
    emptyBlock (.fresh 1024 1024) := fun h => by
  have hnil := h.idle 0 true _ rfl (by decide +kernel)
  cases hnil

end Sync
end Aleth.Ethereum
