import Aleth.Ethereum.QueueCalls
import Aleth.Structure.Runs

/-! Runs of calls on the transaction queue.

The tables stay consistent while no comparator throws (`Orderly`): one that does
leaves an entry without a transaction behind. `m_known` loses nothing when a
future transaction is replaced by a higher bid or dropped for being above the
limit, although the queue does, so it is exact only where neither happens
(`Lossless`). -/
namespace Aleth.Ethereum.TransactionQueue
open Devcore Throwing Runs
variable {q : TransactionQueue} {t : Transaction}

/-- The representation invariant. -/
structure Represented (q : TransactionQueue) : Prop where
  nodup : q.m_current.Nodup
  byHash : ∀ h t, q.m_currentByHash h = some t ↔ t ∈ q.m_current ∧ t.sha3 = h
  byNonce : ∀ k x, q.m_currentByAddressAndNonce.find k = some x ↔
    ∃ t ∈ q.m_current, t.slot = k ∧ x = some t
  /-- One transaction for a sender and a nonce, in the two parts together. -/
  slots : (q.held.map Transaction.slot).Nodup
  known : ∀ h, h ∈ q.m_known ↔ ∃ t ∈ q.held, t.sha3 = h
  /-- What is not held passes the check of an import. -/
  importable : ∀ h, (∀ t ∈ q.held, t.sha3 ≠ h) → q.checkWithLock h .retry = .success
  size : q.m_futureSize.toNat = q.m_future.entries.length

theorem Valid.represented (hq : q.Valid) (hx : q.Exact) : q.Represented where
  nodup := hq.nodup_current
  byHash := hq.byHash
  byNonce := hq.byNonce
  slots := hq.slots
  known h := by
    refine ⟨hx h, fun hu => ?_⟩
    obtain ⟨u, hu, rfl⟩ := hu
    exact hq.known u hu
  importable h hh := by
    have hk : h ∉ q.m_known := fun hk => by
      obtain ⟨u, hu, he⟩ := hx h hk
      exact hh u hu he
    simp [checkWithLock, hk]
  size := hq.size

/-! ### The conditions on a call -/

/-- The transaction is put into `m_current`. -/
def Takes (q : TransactionQueue) (t : Transaction) (ik : IfDropped) : Prop :=
  t.hasZeroSignature = false ∧ q.checkWithLock t.sha3 ik = .success ∧ ¬q.Outbid t

instance Takes.decidable (q : TransactionQueue) (t : Transaction) (ik : IfDropped) :
    Decidable (q.Takes t ik) := inferInstanceAs (Decidable (_ ∧ _))

/-- No comparator throws, and no counter overflows. -/
def Orderly (q : TransactionQueue) : Call → Prop
  | .importTransaction t ik => q.Takes t ik →
    Comparable (t :: (((q.vacate t).following t).map Prod.snd ++ (q.vacate t).m_current))
  | .setFuture h => q.Countable h
  | .drop _ => True
  | .dropGood t =>
    q.following t = [] ∨ Comparable ((q.following t).map Prod.snd ++ q.m_current)
  | .clear => True

/-- No future transaction is replaced, and none dropped for being above the limit. -/
def Lossless (q : TransactionQueue) : Call → Prop
  | .importTransaction t ik => q.Takes t ik → q.m_future.find t.slot = none ∧ q.Roomy t
  | .setFuture _ => True
  | .drop _ => True
  | .dropGood t => q.Roomy t
  | .clear => True

def Careful (q : TransactionQueue) (r : Request) : Prop := q.Orderly r.call ∧ q.Lossless r.call

instance Orderly.decidable (q : TransactionQueue) : (c : Call) → Decidable (q.Orderly c)
  | .importTransaction _ _ => inferInstanceAs (Decidable (_ → _))
  | .setFuture h => Countable.decidable q h
  | .drop _ => isTrue trivial
  | .dropGood _ => inferInstanceAs (Decidable (_ ∨ _))
  | .clear => isTrue trivial

instance Lossless.decidable (q : TransactionQueue) : (c : Call) → Decidable (q.Lossless c)
  | .importTransaction _ _ => inferInstanceAs (Decidable (_ → _ ∧ _))
  | .setFuture _ => isTrue trivial
  | .drop _ => isTrue trivial
  | .dropGood t => Roomy.decidable q t
  | .clear => isTrue trivial

instance Careful.decidable (q : TransactionQueue) (r : Request) : Decidable (q.Careful r) :=
  inferInstanceAs (Decidable (_ ∧ _))

/-! ### Calls keep the invariants -/

/-- What a call keeps: the tables always, the exactness of `m_known` if nothing is lost. -/
structure Survives (q s : TransactionQueue) (c : Call) : Prop where
  valid : s.Valid
  exact : q.Lossless c → q.Exact → s.Exact

theorem Keeps.survives {s : TransactionQueue} (h : q.Keeps s) (c : Call) : q.Survives s c :=
  ⟨h.valid, fun _ => h.exact⟩

theorem catchException_ok {x : Queue ImportResult} {r : ImportResult} {s : TransactionQueue}
    (h : x.run q = (.ok r, s)) : (catchException x).run q = (.ok r, s) := by
  have hx : x q = (.ok r, s) := h
  show catchException x q = _
  rw [catchException, run, hx]

theorem manageImport_overbid (hq : q.Valid) (ho : q.Outbid t) (o : Order) :
    (manageImportWithLock o t).run q = (.ok .overbidGasPrice, q) := by
  refine catchException_ok ?_
  cases replace_cases hq t with
  | inr h => exact absurd ho h.1
  | inl h =>
    obtain ⟨-, h⟩ := h
    cases h with
    | inl h =>
      rw [run_bind_ok h]
      rfl
    | inr h =>
      rw [run_bind_ok h.1]
      show (replaceFuture t >>= fun _ => _ : Queue ImportResult).run q = _
      rw [run_bind_ok h.2]
      rfl

theorem manageImport_takes (hq : q.Valid) (ho : ¬q.Outbid t) (hh : t.sha3 ∉ q.m_known)
    (hc : Comparable (t :: (((q.vacate t).following t).map Prod.snd ++ (q.vacate t).m_current)))
    (o : Order) :
    ∃ s, (manageImportWithLock o t).run q = (.ok .success, s) ∧ s.Valid ∧
      (q.m_future.find t.slot = none → q.Roomy t → q.Exact → s.Exact) := by
  cases replace_cases hq t with
  | inl h => exact absurd h.1 ho
  | inr h =>
    obtain ⟨-, q₁, q₂, h₁, h₂, hv⟩ := h
    have hfol : q₂.following t = (q.vacate t).following t := by
      unfold following
      rw [hv.future]
    rw [← hfol, ← hv.current] at hc
    obtain ⟨q₃, h₃, hvalid, hexact⟩ :=
      insertCurrent_valid hv.valid (fun hk => hh (hv.known hk)) hv.free hc o
    obtain ⟨s, h₄, hkeep⟩ := trim_keeps hvalid (Nat.lt_succ_self _)
    refine ⟨s, ?_, hkeep.valid, fun hnone hr hx => hkeep.exact (hexact ?_ (hv.exact hnone hx))⟩
    · refine catchException_ok ?_
      rw [run_bind_ok h₁]
      show (replaceFuture t >>= fun _ => _ : Queue ImportResult).run q₁ = _
      rw [run_bind_ok h₂]
      show (insertCurrentWithLock o t >>= fun _ => _ : Queue ImportResult).run q₂ = _
      rw [run_bind_ok h₃, run_bind_ok (run_get _), run_bind_ok h₄]
      rfl
    · have hf : q₂.m_future = q.m_future := hv.future.trans (SortedMap.erase_of_find_none hnone)
      unfold Roomy following
      rw [hf, hv.limit]
      exact hr

theorem import_survives (hq : q.Valid) {ik : IfDropped}
    (hc : q.Orderly (.importTransaction t ik)) (o : Order) :
    q.Survives ((importTransaction o t ik).run q).2 (.importTransaction t ik) := by
  unfold importTransaction
  by_cases hz : t.hasZeroSignature
  · rw [if_pos hz]
    exact (Keeps.refl hq).survives _
  · rw [if_neg hz, run_bind_ok (run_get q)]
    by_cases hk : q.checkWithLock t.sha3 ik = .success
    · rw [if_neg (not_not.mpr hk)]
      by_cases ho : q.Outbid t
      · rw [manageImport_overbid hq ho]
        exact (Keeps.refl hq).survives _
      · have ht : q.Takes t ik := ⟨eq_false_of_ne_true hz, hk, ho⟩
        have hh : t.sha3 ∉ q.m_known := fun hm => by
          rw [checkWithLock, if_pos hm] at hk
          cases hk
        obtain ⟨s, hs, hvalid, hexact⟩ := manageImport_takes hq ho hh (hc ht) o
        rw [hs]
        exact ⟨hvalid, fun hl => hexact (hl ht).1 (hl ht).2⟩
    · rw [if_pos hk]
      exact (Keeps.refl hq).survives _

theorem Valid.with_dropped (hq : q.Valid) (d : Finset H256) :
    q.Keeps {q with m_dropped := d} :=
  ⟨⟨⟨⟨hq.byHash, hq.byNonce⟩, hq.keyed, hq.hashes, hq.slots, hq.size⟩, hq.known⟩, id⟩

theorem drop_survives (hq : q.Valid) (h : H256) :
    q.Survives ((drop h).run q).2 (.drop h) := by
  unfold drop
  rw [run_bind_ok (run_get q)]
  by_cases hk : h ∈ q.m_known
  · have hd := hq.with_dropped (insert h q.m_dropped)
    obtain ⟨b, s, hs, hkeep⟩ := removeWithLock_keeps hd.valid h
    rw [if_neg (not_not.mpr hk), run_bind_ok (run_modify _ q), run_bind_ok hs]
    exact (hd.trans hkeep).survives _
  · rw [if_pos hk]
    exact (Keeps.refl hq).survives _

theorem dropGood_survives (hq : q.Valid) (hc : q.Orderly (.dropGood t)) (o : Order) :
    q.Survives ((dropGood o t).run q).2 (.dropGood t) := by
  obtain ⟨s, gone, hrun, hlose, hgone⟩ := run_makeCurrentWithLock hq.toConsistent hc o
  have hs : q.Survives s (.dropGood t) := by
    refine ⟨hlose.valid hq.known, fun hr hx => ?_⟩
    rw [hgone hr] at hlose
    exact (hlose.keeps hq.known).exact hx
  unfold dropGood
  rw [run_bind_ok hrun, run_bind_ok (run_get s)]
  by_cases hk : t.sha3 ∈ s.m_known
  · obtain ⟨b, s', hs', hkeep⟩ := removeWithLock_keeps hs.valid t.sha3
    rw [if_neg (not_not.mpr hk), run_bind_ok hs']
    exact ⟨hkeep.valid, fun hr hx => hkeep.exact (hs.exact hr hx)⟩
  · rw [if_pos hk]
    exact hs

theorem fresh_valid (limit futureLimit : UInt32) : (fresh limit futureLimit).Valid :=
  ⟨fresh_consistent limit futureLimit, fun u hu => by cases hu⟩

theorem fresh_exact (limit futureLimit : UInt32) : (fresh limit futureLimit).Exact :=
  fun h hh => absurd hh (Finset.notMem_empty h)

theorem clear_eq (q : TransactionQueue) : q.clear = fresh q.m_limit q.m_futureLimit := rfl

theorem step_survives (hq : q.Valid) {r : Request} (hc : q.Orderly r.call) :
    q.Survives (q.step r) r.call := by
  obtain ⟨c, o⟩ := r
  cases c with
  | importTransaction t ik => exact import_survives hq hc o
  | setFuture h =>
    obtain ⟨s, hs, hkeep⟩ := setFuture_keeps hq hc
    show q.Survives ((setFuture h).run q).2 _
    rw [hs]
    exact hkeep.survives _
  | drop h => exact drop_survives hq h
  | dropGood t => exact dropGood_survives hq hc o
  | clear =>
    show q.Survives q.clear _
    rw [clear_eq]
    exact ⟨fresh_valid _ _, fun _ _ => fresh_exact _ _⟩

/-! ### Runs -/

/-- The tables stay consistent while no comparator throws, whatever is lost. -/
theorem valid_of_orderly {limit futureLimit : UInt32} {l : List Request}
    (hl : Along step (fun q r => q.Orderly r.call) (fresh limit futureLimit) l) :
    (l.foldl step (fresh limit futureLimit)).Valid :=
  hl.foldl (fun hq hc => (step_survives hq hc).valid) (fresh_valid limit futureLimit)

theorem represented_of_careful {limit futureLimit : UInt32} {l pre : List Request}
    (hl : Along step Careful (fresh limit futureLimit) l) (hpre : pre <+: l) :
    (pre.foldl step (fresh limit futureLimit)).Represented := by
  have h : (pre.foldl step (fresh limit futureLimit)).Valid ∧
      (pre.foldl step (fresh limit futureLimit)).Exact :=
    (hl.initial hpre).foldl (P := fun q => q.Valid ∧ q.Exact)
      (fun hq hc => ⟨(step_survives hq.1 hc.1).valid, (step_survives hq.1 hc.1).exact hc.2 hq.2⟩)
      ⟨fresh_valid limit futureLimit, fresh_exact limit futureLimit⟩
  exact h.1.represented h.2

/-! ### Two bids for one slot -/

/-- New transactions go to the end. -/
def appending : Order where
  place l _ := l.length
  search _ _ _ := true
  begin _ := 0

def bid (n : ℕ) (nonce gasPrice : U256) : Transaction where
  sha3 := H256.alignRight (toCompactBigEndian n)
  nonce := nonce
  gasPrice := gasPrice
  hasZeroSignature := false
  recovered := some 7

/-- The lower bid waits for its turn and comes out of it again. -/
def turn : List Request :=
  [⟨.importTransaction (bid 1 1 5) .ignore, appending⟩,
    ⟨.setFuture (bid 1 1 5).sha3, appending⟩,
    ⟨.importTransaction (bid 2 0 5) .ignore, appending⟩]

theorem represented_of_careful_sample : (turn.foldl step (fresh 1024 1024)).Represented :=
  represented_of_careful (l := turn) (by decide +kernel) (List.prefix_refl _)

/-- A higher bid replaces the one that waits. -/
def replacement : List Request :=
  [⟨.importTransaction (bid 1 1 5) .ignore, appending⟩,
    ⟨.setFuture (bid 1 1 5).sha3, appending⟩,
    ⟨.importTransaction (bid 2 1 6) .ignore, appending⟩]

/-- The replaced bid is not held any more and cannot be imported again. -/
theorem replaced_stays_known :
    ¬(replacement.foldl step (fresh 1024 1024)).Represented ∧
      (replacement.foldl step (fresh 1024 1024)).held = [bid 2 1 6] ∧
      ((importTransaction appending (bid 1 1 5) .retry).run
        (replacement.foldl step (fresh 1024 1024))).1 = .ok .alreadyKnown := by
  have hheld : (replacement.foldl step (fresh 1024 1024)).held = [bid 2 1 6] := by decide +kernel
  refine ⟨fun h => ?_, hheld, by decide +kernel⟩
  obtain ⟨u, hu, he⟩ := (h.known (bid 1 1 5).sha3).mp (by decide +kernel)
  rw [hheld, List.mem_singleton] at hu
  rw [hu] at he
  exact absurd he (by decide +kernel)

end Aleth.Ethereum.TransactionQueue
