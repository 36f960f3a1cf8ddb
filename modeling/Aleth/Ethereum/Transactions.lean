import Aleth.Ethereum.Supply

/-! Transactions from end to end.

A transaction is refused, and nothing has changed, or it comes to an end. The
gas that is paid for is paid to the author or given back, so that the ether of
all accounts is what it was, less what was destroyed. -/
namespace Aleth.Ethereum
open Devcore Throwing Evm
variable [Sha3]

/-! ### What is seen of accounts -/

/-- What is seen of an account besides its storage. -/
@[ext] structure Seen where
  balance : U256
  nonce : U256
  codeHash : H256

def seen (startNonce : U256) (o : Option AccountView) : Seen :=
  ⟨balanceOf o, nonceOf startNonce o, codeHashOf o⟩

def Seen.pay (x : Seen) (amount : U256) : Seen := {x with balance := x.balance + amount}

/-- The nonce is counted, or not. -/
def Seen.count (x : Seen) (c : Prop) [Decidable c] : Seen :=
  {x with nonce := x.nonce + if c then 1 else 0}

section Seen
variable {D : Address → U256 → Prop} {K : U256 → Prop} {o o' : Option AccountView}
  {w : Address → Option AccountView} {s t : State} {startNonce amount : U256}

omit [Sha3] in
theorem Seen.pay_pay (x : Seen) (v u : U256) : (x.pay v).pay u = x.pay (v + u) :=
  Seen.ext (add_assoc ..) rfl rfl

omit [Sha3] in
theorem Seen.pay_zero (x : Seen) : x.pay 0 = x := Seen.ext (add_zero _) rfl rfl

omit [Sha3] in
theorem Seen.pay_count (x : Seen) (v : U256) (c : Prop) [Decidable c] :
    (x.pay v).count c = (x.count c).pay v := rfl

omit [Sha3] in
theorem Seen.count_neg (x : Seen) {c : Prop} [Decidable c] (h : ¬c) : x.count c = x := by
  refine Seen.ext rfl ?_ rfl
  show x.nonce + _ = x.nonce
  rw [if_neg h]
  exact add_zero _

theorem seen_similar (h : Similar K o o') : seen startNonce o' = seen startNonce o :=
  Seen.ext (balanceOf_similar h) (nonceOf_similar startNonce h) (codeHashOf_similar h)

theorem seen_credited (o : Option AccountView) :
    seen startNonce (State.credited startNonce amount o) = (seen startNonce o).pay amount := by
  cases o with
  | none => exact Seen.ext (zero_add amount).symm rfl rfl
  | some v => rfl

theorem seen_debited (h : amount ≤ balanceOf o) :
    seen startNonce (State.debited amount o) = (seen startNonce o).pay (-amount) := by
  cases o with
  | none =>
    have hzero : amount = 0 := le_antisymm h (not_lt.mp BitVec.not_lt_zero)
    rw [hzero, neg_zero, Seen.pay_zero]
    rfl
  | some v => exact Seen.ext (sub_eq_add_neg ..) rfl rfl

theorem seen_counted (a b : Address) : seen startNonce (counted startNonce w a b) =
    (seen startNonce (w b)).count (b = a) := by
  unfold counted
  by_cases hb : b = a
  · rw [hb, Function.update_self]
    unfold Seen.count
    rw [if_pos rfl]
    cases w a with
    | none => rfl
    | some v => rfl
  · rw [Function.update_of_ne hb, Seen.count_neg _ hb]

/-- One account is paid, the others are not. -/
theorem seen_paid {a : Address} (h : seen startNonce o = (seen startNonce (w a)).pay amount)
    (b : Address) : seen startNonce (Function.update w a o b) =
      (seen startNonce (w b)).pay (if b = a then amount else 0) := by
  by_cases hb : b = a
  · rw [hb, Function.update_self, if_pos rfl, h]
  · rw [Function.update_of_ne hb, if_neg hb, Seen.pay_zero]

theorem State.Inert.seen (h : State.Inert D s t) (a : Address) :
    seen s.m_accountStartNonce (t.view a) = seen s.m_accountStartNonce (s.view a) := by
  rcases h a with hsame | ⟨hnone, hfresh⟩
  · exact seen_similar hsame
  · rw [seen_similar hfresh, hnone]
    rfl

end Seen

namespace Executive
variable {D : Address → U256 → Prop} {env : Env} {s s₀ t : State} {e : Executive}
  {tx : SignedTransaction} {sender : Address}

/-! ### Refused, or paid for -/

/-- What is known of a transaction that is not refused. -/
structure Accepted (env : Env) (tx : SignedTransaction) (sender : Address) (s : State)
    (e : Executive) : Prop where
  fresh : Fresh e
  transaction : e.m_t = some tx
  depth : e.m_depth = 0
  base : e.m_baseGasRequired = env.m_sealEngine.baseGasRequired tx
  enough : env.m_sealEngine.baseGasRequired tx ≤ tx.gas.toNat
  block : tx.gas.toNat ≤ env.m_envInfo.gasLimit.toNat
  signed : senderOf tx = (pure sender : Execution Address)
  cost : e.m_gasCost.toNat = tx.gas.toNat * tx.gasPrice.toNat
  funded : tx.value.toNat + tx.gas.toNat * tx.gasPrice.toNat ≤ (balanceOf (s.view sender)).toNat

theorem Accepted.of_quiet (h : Accepted env tx sender s e) (hq : State.Quiet D s t) :
    Accepted env tx sender t e := by
  refine ⟨h.fresh, h.transaction, h.depth, h.base, h.enough, h.block, h.signed, h.cost, ?_⟩
  rw [balanceOf_similar (hq.views sender)]
  exact h.funded

/-- What a verified transaction fulfils. -/
structure Verified (env : Env) (tx : SignedTransaction) : Prop where
  enough : env.m_sealEngine.baseGasRequired tx ≤ tx.gas.toNat
  block : tx.gas.toNat ≤ env.m_envInfo.gasLimit.toNat
  zero : tx.hasZeroSignature = true → tx.value = 0 ∧ tx.gasPrice = 0

omit [Sha3] in
theorem verified_of_ok
    (h : env.m_sealEngine.verifyTransaction tx env.m_envInfo = .ok ()) : Verified env tx := by
  unfold SealEngineFace.verifyTransaction at h
  simp only [ite_eq_iff, reduceCtorEq, and_false, false_or, and_true] at h
  obtain ⟨-, hfork, hzero, -, hbase, hblock⟩ := h
  refine ⟨not_lt.mp hbase, by omega, fun hsignature => ?_⟩
  have hnumber : env.m_sealEngine.experimentalForkBlock ≤ env.m_envInfo.number := by
    by_contra hlt
    exact hfork ⟨not_le.mp hlt, hsignature⟩
  have hnone : ¬(tx.value ≠ 0 ∨ tx.gasPrice ≠ 0 ∨ tx.nonce ≠ 0) :=
    fun h => hzero ⟨hnumber, hsignature, h⟩
  simp only [not_or, not_not] at hnone
  exact ⟨hnone.1, hnone.2.1⟩

/-- Nothing is changed before all is verified. -/
theorem outcome_initialise (hs : s.WellFormed D) (tx : SignedTransaction) :
    Outcome (fun e t => State.Quiet D s t ∧ t.WellFormed D ∧ ∃ sender, Accepted env tx sender s e)
      (fun x t => (∃ e, x = .rejected e) ∧ State.Quiet D s t ∧ t.WellFormed D)
      (initialise env {} tx) s := by
  have hquiet := State.Quiet.refl (D := D) s
  refine .bind ?_
  cases hverify : env.m_sealEngine.verifyTransaction tx env.m_envInfo with
  | error x => exact .of_error rfl ⟨⟨x, rfl⟩, hquiet, hs⟩
  | ok u =>
    obtain ⟨henough, hblock, hzero⟩ := verified_of_ok hverify
    refine .of_ok rfl (.ite (fun hsignature => ?_) fun hsignature => ?_)
    · obtain ⟨hvalue, hprice⟩ := hzero hsignature
      refine .pure ⟨hquiet, hs, MaxAddress, ⟨rfl, rfl, rfl, rfl, rfl⟩, rfl, rfl, rfl, henough,
        hblock, if_pos hsignature, ?_, ?_⟩
      · rw [hprice]
        exact (Nat.mul_zero _).symm
      · rw [hvalue, hprice]
        exact Nat.zero_le _
    · cases hsender : tx.sender with
      | none =>
        have hthrow : senderOf tx = (throw (.rejected .InvalidSignature) : Execution Address) := by
          unfold senderOf
          rw [if_neg hsignature, hsender]
        rw [hthrow]
        exact .bind (.throw ⟨⟨_, rfl⟩, hquiet, hs⟩)
      | some sender =>
        have hsigned : senderOf tx = (pure sender : Execution Address) := by
          unfold senderOf
          rw [if_neg hsignature, hsender]
        rw [hsigned]
        refine .bind (.pure (.bind ((State.reads_getNonce hs sender).outcome.mono
          (fun nonce t ht => ?_) fun _ _ h => h)))
        obtain ⟨-, hq, ht⟩ := ht
        refine .ite (fun _ => .throw ⟨⟨_, rfl⟩, hq, ht⟩) fun _ => ?_
        refine .bind ((State.reads_balance ht sender).outcome.mono (fun held u hu => ?_)
          fun _ _ h => h)
        obtain ⟨rfl, hq', hu⟩ := hu
        refine .ite (fun _ => .throw ⟨⟨_, rfl⟩, hq.trans hq', hu⟩) fun hfunds => ?_
        rw [balanceOf_similar (hq.views sender)] at hfunds
        refine .pure ⟨hq.trans hq', hu, sender, ⟨rfl, rfl, rfl, rfl, rfl⟩, rfl, rfl, rfl, henough,
          hblock, hsigned, ?_, not_lt.mp hfunds⟩
        have hlt := (balanceOf (s.view sender)).isLt
        refine (BitVec.toNat_ofNat ..).trans (Nat.mod_eq_of_lt ?_)
        omega

/-- The gas is paid for, and the transaction set up. -/
theorem outcome_execute {R : Frame → Frame → Prop} (hc : Course env D false R) (hs : s.Ready D)
    (h : Accepted env tx sender s e) :
    Outcome (fun r t => ∃ s₁, State.Forth D s s₁ ∧ State.Shows D s₁ (Function.update s.view sender
        (State.debited e.m_gasCost (s.view sender))) ∧ SetUpFrom D false R (countsNonce env sender)
        sender 0 (tx.gas.toNat - env.m_sealEngine.baseGasRequired tx) s₁ r t)
      (fun _ _ => False) (execute env e tx) s := by
  have hcost : e.m_gasCost ≤ balanceOf (s.view sender) := by
    have hfunded := h.funded
    have hcost := h.cost
    show e.m_gasCost.toNat ≤ (balanceOf (s.view sender)).toNat
    omega
  refine .bind ?_
  rw [h.signed]
  refine .pure (.bind ((State.acts_subBalance hs.wellFormed hcost).outcome.mono
    (fun _ s₁ hpaid => ?_) fun _ _ h => h))
  obtain ⟨hmoves, hshows⟩ := hpaid
  have hforth : State.Forth D s s₁ := by
    refine ⟨hmoves, fun a ha hnone => ?_⟩
    have hview := (hshows a).eq_none_iff.mp hnone
    rw [Function.update_apply] at hview
    split at hview
    case isTrue hsender =>
      rw [State.debited, Option.map_eq_none_iff, ← hsender] at hview
      exact ha hview
    case isFalse => exact ha hview
  have hs₁ := hforth.ready hs
  have hvalue : tx.value ≤ balanceOf (s₁.view sender) := by
    have hleft := balanceOf_debited hcost
    have hfunded := h.funded
    have hcost := h.cost
    rw [hshows.balance sender, Function.update_self]
    show tx.value.toNat ≤ (balanceOf (State.debited e.m_gasCost (s.view sender))).toNat
    omega
  have hgas : (tx.gas - BitVec.ofNat 256 e.m_baseGasRequired).toNat =
      tx.gas.toNat - env.m_sealEngine.baseGasRequired tx := by
    have hlt := tx.gas.isLt
    have henough := h.enough
    rw [h.base, BitVec.toNat_sub_of_le, BitVec.toNat_ofNat, Nat.mod_eq_of_lt (by omega)]
    rw [BitVec.le_def, BitVec.toNat_ofNat, Nat.mod_eq_of_lt (by omega)]
    exact henough
  refine .ite (fun _ => ?_) fun _ => ?_
  · refine (outcome_createOpcode hc rfl hs₁ h.fresh hvalue tx.gasPrice _ tx.data sender).mono
      (fun r t ht => ?_) fun _ _ h => h
    rw [hgas, h.depth] at ht
    exact ⟨s₁, hforth, hshows, ht⟩
  · refine (outcome_call hc hs₁ h.fresh (fun _ => rfl) hvalue (fun h => by cases h)
      (fun h => by cases h) tx.gasPrice sender).mono (fun r t ht => ?_) fun _ _ h => h
    simp only [h.depth, h.transaction, Option.isSome_some, true_and] at ht
    exact ⟨s₁, hforth, hshows, hgas ▸ ht⟩

/-! ### Refunds -/

omit [Sha3] in
theorem toInt64_of_lt {x : U256} (h : x.toNat < 2 ^ 63) : toInt64 x = x.toNat := by
  have hlt : (x.setWidth 64).toNat = x.toNat := by
    rw [BitVec.toNat_setWidth]
    exact Nat.mod_eq_of_lt (by omega)
  unfold toInt64
  rw [BitVec.toInt_eq_toNat_of_lt (by omega), hlt]

omit [Sha3] in
/-- What is given back is at most half of what was used. -/
theorem refund_le (gas left : U256) {refunds : ℤ} (hgas : gas.toNat < 2 ^ 63)
    (hle : left.toNat ≤ gas.toNat) (hrefunds : 0 ≤ refunds) :
    left.toNat ≤ (left + BitVec.ofInt 256
        (min ((toInt64 gas - toInt64 left).tdiv 2) refunds)).toNat ∧
      (left + BitVec.ofInt 256 (min ((toInt64 gas - toInt64 left).tdiv 2) refunds)).toNat ≤
        left.toNat + (gas.toNat - left.toNat) / 2 := by
  rw [toInt64_of_lt hgas, toInt64_of_lt (by omega)]
  have hhalf : ((gas.toNat : ℤ) - left.toNat).tdiv 2 = ((gas.toNat - left.toNat) / 2 : ℕ) := by
    rw [Int.tdiv_eq_ediv_of_nonneg (by omega)]
    omega
  rw [hhalf]
  obtain ⟨k, hk⟩ := Int.eq_ofNat_of_zero_le (le_min (Int.natCast_nonneg _) hrefunds :
    0 ≤ min (((gas.toNat - left.toNat) / 2 : ℕ) : ℤ) refunds)
  have hmin := min_le_left (((gas.toNat - left.toNat) / 2 : ℕ) : ℤ) refunds
  rw [hk] at hmin ⊢
  have hsum : (left + BitVec.ofInt 256 (k : ℤ)).toNat = left.toNat + k := by
    rw [BitVec.ofInt_natCast, BitVec.toNat_add, BitVec.toNat_ofNat]
    omega
  rw [hsum]
  omega

/-! ### What is destroyed -/

theorem coherent_kill (db : StateDB) (account : Account) : account.kill.Coherent db where
  original k v hk := by cases hk
  code := by
    show sha3 (if EmptySHA3 = EmptySHA3 then [] else _) = EmptySHA3
    rw [if_pos rfl]
    rfl

theorem outcome_kill {E : ExecutionError → State → Prop} (hs : s.WellFormed D) (a : Address) :
    Outcome (fun _ t => t.WellFormed D ∧ total t.view ≤ total s.view) E
      (onState (State.kill a)) s := by
  obtain ⟨ht, hquiet, hfind⟩ := State.load_spec hs a
  have hsame := total_congr fun b => balanceOf_similar (hquiet.views b)
  refine .mapError (.of_run (run_bind_ok (State.run_account s a) _) ?_)
  cases hpeek : s.peek a with
  | none => exact .pure ⟨ht, hsame.le⟩
  | some account =>
    have hkilled := ht.modifyAccount (a := a) (f := Account.kill) (coherent_kill _ _) (.inl rfl)
    refine .modify ⟨hkilled, ?_⟩
    have hview : ((s.load a).modifyAccount a Account.kill).view = Function.update (s.load a).view a
        (some (((s.load a).entry a).kill.view (s.load a).m_db)) := by
      funext b
      rw [State.view_modifyAccount, Function.update_apply]
    have htotal := total_update (s.load a).view a
      (some (((s.load a).entry a).kill.view (s.load a).m_db))
    have hnothing : (balanceOf (some (((s.load a).entry a).kill.view (s.load a).m_db))).toNat = 0 :=
      rfl
    rw [hview]
    omega

theorem outcome_killAll {E : ExecutionError → State → Prop} (hs : s.WellFormed D)
    (l : List Address) :
    Outcome (fun _ t => t.WellFormed D ∧ total t.view ≤ total s.view ∧ (l = [] → t = s)) E
      (onState (killAll l)) s := by
  induction l generalizing s with
  | nil => exact .mapError (.pure ⟨hs, le_rfl, fun _ => rfl⟩)
  | cons a l ih =>
    refine outcome_onState_bind ((outcome_kill hs a).mono (fun _ t ht => ?_) fun _ _ h => h)
    refine (ih ht.1).mono (fun _ u hu => ?_) fun _ _ h => h
    exact ⟨hu.1, hu.2.1.trans ht.2, fun h => by cases h⟩

/-- What the refunds make of the executive. -/
structure Refunded (env : Env) (tx : SignedTransaction) (e e' : Executive) : Prop where
  suicides : e'.m_sub.suicides = e.m_sub.suicides
  excepted : e'.m_excepted = e.m_excepted
  gas : e'.m_gas.toNat ≤ tx.gas.toNat
  base : env.m_sealEngine.baseGasRequired tx ≤ 2 * (tx.gas.toNat - e'.m_gas.toNat)

theorem outcome_refunded (hsound : env.Sound) {e₀ : Executive} (ha : Accepted env tx sender s e₀)
    (hgas : e.m_gas.toNat ≤ tx.gas.toNat - env.m_sealEngine.baseGasRequired tx)
    (hrefunds : env.m_sealEngine.evmSchedule.eip1283Mode = false → 0 ≤ e.m_sub.refunds) :
    Outcome (fun e' t' => t' = t ∧ Refunded env tx e e')
      (fun x _ => x = .assertion ∧ env.m_sealEngine.evmSchedule.eip1283Mode = true)
      (refunded env e tx) t := by
  have henough := ha.enough
  have hblock := ha.block
  have hlimit := hsound.gasLimit
  unfold refunded
  cases e.m_ext with
  | none => exact .pure ⟨rfl, rfl, rfl, by omega, by omega⟩
  | some ext =>
    refine .ite (fun hnegative => .throw ⟨rfl, ?_⟩) fun hpositive => .pure ?_
    · by_contra hmode
      have hsub := hrefunds (by simpa using hmode)
      have hdestroyed : 0 ≤ ((env.m_sealEngine.evmSchedule.suicideRefundGas : ℤ) *
          e.m_sub.suicides.card) := by positivity
      dsimp only at hnegative
      omega
    · have hrefund := refund_le tx.gas e.m_gas (by omega) (by omega)
        (not_lt.mp hpositive)
      dsimp only at hrefund
      refine ⟨rfl, rfl, rfl, ?_, ?_⟩
      · dsimp only
        omega
      · dsimp only
        omega

/-- A balance that is added to does not wrap. -/
theorem outcome_addBalance {E : ExecutionError → State → Prop} (hs : s.Ready D) (a : Address)
    {amount : U256} (hfits : total s.view + amount.toNat < 2 ^ 256) :
    Outcome (fun _ t => State.Moves D s t ∧ total t.view = total s.view + amount.toNat ∧
        ∀ b, seen s.m_accountStartNonce (t.view b) =
          (seen s.m_accountStartNonce (s.view b)).pay (if b = a then amount else 0)) E
      (onState (State.addBalance a amount)) s := by
  refine (State.acts_addBalance hs.wellFormed (hs.known a) amount).outcome.mono (fun _ t h => ?_)
    fun _ _ h => h
  refine ⟨h.1, ?_, fun b => ?_⟩
  · rw [total_congr h.2.balance]
    exact total_credited hfits
  · rw [seen_similar (h.2 b)]
    exact seen_paid (seen_credited _) b

/-- What is left of the gas. -/
def back (e : Executive) (tx : SignedTransaction) : U256 := e.m_gas * tx.gasPrice

/-- What the author is paid. -/
def fees (e : Executive) (tx : SignedTransaction) : U256 := (tx.gas - e.m_gas) * tx.gasPrice

/-- What is left of the gas is given back, and what was used is paid to the author. -/
structure Settled (env : Env) (tx : SignedTransaction) (sender : Address) (s : State)
    (e : Executive) (t : State) : Prop where
  wellFormed : t.WellFormed everywhere
  gas : e.m_gas.toNat ≤ tx.gas.toNat
  base : env.m_sealEngine.baseGasRequired tx ≤ 2 * (tx.gas.toNat - e.m_gas.toNat)
  le : total t.view ≤ total s.view + tx.gas.toNat * tx.gasPrice.toNat
  keeps : e.m_sub.suicides = ∅ → total t.view = total s.view + tx.gas.toNat * tx.gasPrice.toNat ∧
    ∀ a, seen s.m_accountStartNonce (t.view a) = ((seen s.m_accountStartNonce (s.view a)).pay
      (if a = sender then e.back tx else 0)).pay (if a = env.m_envInfo.author then e.fees tx else 0)

theorem outcome_finalize (hsound : env.Sound) {e₀ : Executive} (ha : Accepted env tx sender s e₀)
    (ht : t.Ready everywhere)
    (hgas : e.m_gas.toNat ≤ tx.gas.toNat - env.m_sealEngine.baseGasRequired tx)
    (hrefunds : env.m_sealEngine.evmSchedule.eip1283Mode = false → 0 ≤ e.m_sub.refunds)
    (hfits : total t.view + tx.gas.toNat * tx.gasPrice.toNat < 2 ^ 256) :
    Outcome (fun r t' => Settled env tx sender t r.2 t' ∧
        r.2.m_sub.suicides = e.m_sub.suicides ∧ (r.1 = true ↔ e.m_excepted = .None))
      (fun x _ => x = .assertion ∧ env.m_sealEngine.evmSchedule.eip1283Mode = true)
      (finalize env e tx) t := by
  refine .bind ((outcome_refunded hsound ha hgas hrefunds).mono (fun e' t' h => ?_)
    fun _ _ h => h)
  obtain ⟨rfl, hrefunded⟩ := h
  have hle := hrefunded.gas
  have hsum : e'.m_gas.toNat * tx.gasPrice.toNat +
      (tx.gas.toNat - e'.m_gas.toNat) * tx.gasPrice.toNat =
      tx.gas.toNat * tx.gasPrice.toNat := by
    rw [← add_mul, Nat.add_sub_cancel' hle]
  have hback : (e'.m_gas * tx.gasPrice).toNat = e'.m_gas.toNat * tx.gasPrice.toNat := by
    rw [BitVec.toNat_mul]
    exact Nat.mod_eq_of_lt (by omega)
  have hfees : ((tx.gas - e'.m_gas) * tx.gasPrice).toNat =
      (tx.gas.toNat - e'.m_gas.toNat) * tx.gasPrice.toNat := by
    rw [BitVec.toNat_mul, BitVec.toNat_sub_of_le hle]
    exact Nat.mod_eq_of_lt (by omega)
  refine .bind ?_
  rw [ha.signed]
  refine .pure (.bind ((outcome_addBalance ht sender (by omega)).mono (fun _ t₁ h₁ => ?_)
    fun _ _ h => h))
  refine .bind ((outcome_addBalance (h₁.1.ready ht) env.m_envInfo.author (by omega)).mono
    (fun _ t₂ h₂ => ?_) fun _ _ h => h)
  have htotal : total t₂.view = total t'.view + tx.gas.toNat * tx.gasPrice.toNat := by omega
  have hseen : ∀ a, seen t'.m_accountStartNonce (t₂.view a) =
      ((seen t'.m_accountStartNonce (t'.view a)).pay (if a = sender then e'.back tx else 0)).pay
        (if a = env.m_envInfo.author then e'.fees tx else 0) := by
    intro a
    have hpaid := h₂.2.2 a
    rw [h₁.1.startNonce, h₁.2.2 a] at hpaid
    exact hpaid
  have hexcepted : decide (e'.m_excepted = .None) = true ↔ e.m_excepted = .None := by
    rw [decide_eq_true_eq, hrefunded.excepted]
  refine .ite (fun _ => ?_) fun _ => .pure ?_
  · refine .bind ((outcome_killAll h₂.1.wellFormed _).mono (fun _ t₃ h₃ => .pure ?_)
      fun _ _ h => h)
    refine ⟨⟨h₃.1, hle, hrefunded.base, h₃.2.1.trans htotal.le, fun hnone => ?_⟩,
      hrefunded.suicides, hexcepted⟩
    have hempty : e'.m_sub.suicides = ∅ := hnone
    obtain rfl := h₃.2.2 (hempty ▸ Finset.sort_empty _)
    exact ⟨htotal, hseen⟩
  · exact ⟨⟨h₂.1.wellFormed, hle, hrefunded.base, htotal.le, fun _ => ⟨htotal, hseen⟩⟩,
      hrefunded.suicides, hexcepted⟩

/-! ### From end to end -/

/-- Only gas was paid for: what was used of it is paid by the sender to the author, and the
transaction is counted. -/
def Charged (env : Env) (s : State) (sender : Address) (paid : U256) (t : State) : Prop :=
  ∀ a, seen s.m_accountStartNonce (t.view a) =
    (((seen s.m_accountStartNonce (s.view a)).count (a = sender ∧ countsNonce env sender)).pay
      (if a = sender then -paid else 0)).pay (if a = env.m_envInfo.author then paid else 0)

/-- What a transaction that was carried out comes to. -/
structure Carried (env : Env) (tx : SignedTransaction) (s : State) (r : Bool × Executive)
    (t : State) : Prop where
  wellFormed : t.WellFormed everywhere
  gas : r.2.m_gas.toNat ≤ tx.gas.toNat
  base : env.m_sealEngine.baseGasRequired tx ≤ 2 * (tx.gas.toNat - r.2.m_gas.toNat)
  le : total t.view ≤ total s.view
  keeps : r.2.m_sub.suicides = ∅ → total t.view = total s.view
  failed : r.1 = false → ∃ sender, senderOf tx = (pure sender : Execution Address) ∧
    Charged env s sender (r.2.fees tx) t

/-- What there is when the code was run. -/
structure Ran (env : Env) (tx : SignedTransaction) (sender : Address) (s : State) (e : Executive)
    (t : State) : Prop where
  ready : t.Ready everywhere
  gas : e.m_gas.toNat ≤ tx.gas.toNat - env.m_sealEngine.baseGasRequired tx
  refunds : env.m_sealEngine.evmSchedule.eip1283Mode = false → 0 ≤ e.m_sub.refunds
  forth : State.Forth everywhere s t
  le : total t.view + tx.gas.toNat * tx.gasPrice.toNat ≤ total s.view
  keeps : e.m_sub.suicides = ∅ → total t.view + tx.gas.toNat * tx.gasPrice.toNat = total s.view
  failed : e.m_excepted ≠ .None → e.m_sub = {} ∧ ∀ a, seen s.m_accountStartNonce (t.view a) =
    ((seen s.m_accountStartNonce (s.view a)).count (a = sender ∧ countsNonce env sender)).pay
      (if a = sender then -(tx.gas * tx.gasPrice) else 0)

theorem Ran.of_over (hs : s.Ready everywhere) (hfits : total s.view < 2 ^ 256) {e₀ : Executive}
    (ha : Accepted env tx sender s e₀) {s₁ : State} (hpaid : State.Forth everywhere s s₁)
    (hshows : State.Shows everywhere s₁ (Function.update s.view sender
      (State.debited e₀.m_gasCost (s.view sender))))
    (hcounted : Counted everywhere (Spends env) (countsNonce env sender) sender s₁ s₀)
    (h : Over everywhere (Spends env) s₀
      (tx.gas.toNat - env.m_sealEngine.baseGasRequired tx) e t) : Ran env tx sender s e t := by
  have hcost := ha.cost
  have hfunded := ha.funded
  have hle : e₀.m_gasCost ≤ balanceOf (s.view sender) := by
    show e₀.m_gasCost.toNat ≤ (balanceOf (s.view sender)).toNat
    omega
  have htotal : total s₀.view + tx.gas.toNat * tx.gasPrice.toNat = total s.view := by
    rw [total_congr hcounted.balance, total_congr hshows.balance, ← hcost]
    exact total_debited hle
  have hspends := h.goes.along
  have hsmall : total s₀.view < 2 ^ 256 := by omega
  have hnonce : s₁.m_accountStartNonce = s.m_accountStartNonce := hpaid.moves.startNonce
  have hnonce₀ : s₀.m_accountStartNonce = s.m_accountStartNonce :=
    hcounted.walks.forth.moves.startNonce.trans hnonce
  have hforth := (hpaid.trans hcounted.walks.forth).trans h.goes.forth
  refine ⟨hforth.ready hs, h.gas, hspends.refunds, hforth, ?_, fun hnone => ?_, fun he => ?_⟩
  · rw [← htotal]
    exact Nat.add_le_add_right (hspends.le hsmall) _
  · have hkeeps : total t.view = total s₀.view := hspends.keeps hsmall hnone
    rw [← htotal, hkeeps]
  · obtain ⟨hsub, hinert⟩ := h.failed he
    refine ⟨hsub, fun a => ?_⟩
    have hcost : e₀.m_gasCost = tx.gas * tx.gasPrice := by
      refine BitVec.eq_of_toNat_eq ?_
      rw [hcost, BitVec.toNat_mul, Nat.mod_eq_of_lt]
      omega
    have hsame := hinert.seen a
    have hone : seen s.m_accountStartNonce (s₀.view a) =
        (seen s.m_accountStartNonce (s₁.view a)).count (a = sender ∧ countsNonce env sender) := by
      by_cases hcount : countsNonce env sender = true
      · have hcounts := hcounted.shows_ hcount
        rw [hnonce] at hcounts
        rw [seen_similar (hcounts a), seen_counted]
        simp [Seen.count, hcount]
      · rw [seen_similar ((hcounted.quiet hcount).views a), Seen.count_neg _ fun h => hcount h.2]
    rw [hnonce₀] at hsame
    rw [hsame, hone, seen_similar (hshows a), seen_paid (seen_debited hle), hcost, Seen.pay_count]

theorem Ran.charged (h : Ran env tx sender s e t) {e' : Executive} {t' : State}
    (hsettled : Settled env tx sender t e' t') (hsuicides : e'.m_sub.suicides = e.m_sub.suicides)
    (he : e.m_excepted ≠ .None) : Charged env s sender (e'.fees tx) t' := by
  obtain ⟨hsub, hseen⟩ := h.failed he
  intro a
  have hpaid := (hsettled.keeps (hsuicides.trans (congrArg SubState.suicides hsub))).2 a
  have hsum : (if a = sender then -(tx.gas * tx.gasPrice) else 0) +
      (if a = sender then e'.back tx else 0) = if a = sender then -e'.fees tx else 0 := by
    by_cases hsender : a = sender
    · rw [if_pos hsender, if_pos hsender, if_pos hsender, back, fees]
      ring
    · rw [if_neg hsender, if_neg hsender, if_neg hsender, add_zero]
  rw [h.forth.moves.startNonce, hseen a] at hpaid
  rw [hpaid, Seen.pay_pay (Seen.count ..), hsum]

theorem Ran.carried (hsound : env.Sound) (hfits : total s.view < 2 ^ 256) {e₀ : Executive}
    {s₁ : State} (ha : Accepted env tx sender s₁ e₀) (h : Ran env tx sender s e t) :
    Outcome (Carried env tx s)
      (fun x _ => x = .assertion ∧ env.m_sealEngine.evmSchedule.eip1283Mode = true)
      (finalize env e tx) t := by
  have hle := h.le
  refine (outcome_finalize hsound ha h.ready h.gas h.refunds (by omega)).mono (fun r t' hr => ?_)
    fun _ _ h => h
  obtain ⟨hsettled, hsuicides, hexcepted⟩ := hr
  refine ⟨hsettled.wellFormed, hsettled.gas, hsettled.base, hsettled.le.trans hle,
    fun hnone => ?_, fun hfailed => ⟨sender, ha.signed, h.charged hsettled hsuicides ?_⟩⟩
  · rw [(hsettled.keeps hnone).1]
    exact h.keeps (hsuicides ▸ hnone)
  · rw [← hexcepted.ne]
    simp [hfailed]

theorem Carried.of_quiet {r : Bool × Executive} {s₁ : State} (hq : State.Quiet everywhere s s₁)
    (h : Carried env tx s₁ r t) : Carried env tx s r t := by
  have hsame : total s₁.view = total s.view := total_congr fun a => balanceOf_similar (hq.views a)
  refine ⟨h.wellFormed, h.gas, h.base, h.le.trans_eq hsame,
    fun hnone => (h.keeps hnone).trans hsame, fun hfailed => ?_⟩
  obtain ⟨sender, hsigned, hcharged⟩ := h.failed hfailed
  refine ⟨sender, hsigned, fun a => ?_⟩
  rw [← seen_similar (hq.views a), ← hq.startNonce]
  exact hcharged a

theorem outcome_transact (hsound : env.Sound) (hs : s.Ready everywhere)
    (hn : s.WellFormed State.nowhere) (hfits : total s.view < 2 ^ 256) (tx : SignedTransaction) :
    Outcome (Carried env tx s)
      (fun x t => ((∃ e, x = .rejected e) ∧ State.Quiet State.nowhere s t ∧
          t.WellFormed State.nowhere) ∨
        x = .assertion ∧ env.m_sealEngine.evmSchedule.eip1283Mode = true) (transact env tx) s := by
  refine .bind (((outcome_initialise hs.wellFormed tx).and (outcome_initialise hn tx)).mono
    (fun e s₁ h => ?_) fun x t h => .inl h.2)
  obtain ⟨⟨hq, hs₁, sender, ha⟩, -⟩ := h
  have ha := ha.of_quiet hq
  have hforth := hq.forth hs₁
  have hsame : total s₁.view = total s.view := total_congr fun a => balanceOf_similar (hq.views a)
  refine .bind ((outcome_execute (course_spends env) (hforth.ready hs) ha).mono
    (fun r t h => ?_) fun _ _ h => h.elim)
  obtain ⟨s₂, hpaid, hshows, s₃, hcounted, hsetUp⟩ := h
  have hready := (hpaid.trans hcounted.walks.forth).ready (hforth.ready hs)
  have hthen {e' : Executive} {t' : State} (hover : Over everywhere (Spends env) s₃
      (tx.gas.toNat - env.m_sealEngine.baseGasRequired tx) e' t') :
      Outcome (Carried env tx s)
        (fun x t => ((∃ e, x = .rejected e) ∧ State.Quiet State.nowhere s t ∧
            t.WellFormed State.nowhere) ∨
          x = .assertion ∧ env.m_sealEngine.evmSchedule.eip1283Mode = true)
        (finalize env e' tx) t' := by
    have hran := Ran.of_over (hforth.ready hs) (hsame.trans_lt hfits) ha hpaid hshows hcounted hover
    exact (hran.carried hsound (hsame.trans_lt hfits) ha).mono (fun _ _ h => h.of_quiet hq)
      fun _ _ h => .inr h
  refine .ite (fun _ => .bind (.pure (hthen hsetUp.over))) fun hgoesOn => ?_
  obtain ⟨ext, hwaits, hdepth⟩ := hsetUp.waits (by simpa using hgoesOn)
  have hbelow : ext.depth < 1024 →
      (nested env depthLimit).Sound env everywhere false (Spends env) ext :=
    fun hlt => sound_nested hsound (course_spends env) (Nat.le_add_left ..) hlt
  refine .bind ((outcome_go hsound (course_spends env) hbelow hready hsetUp.walks hwaits).mono
    (fun e' t' h => hthen ⟨h.2.goes, h.2.gas.trans hsetUp.gas, h.2.failed⟩) fun _ _ h => h.elim)

end Executive

section Transaction
variable {env : Env} {s t : State} {tx : SignedTransaction} {r : Bool × Executive}

theorem State.WellFormed.everywhere (hs : s.WellFormed State.nowhere) : s.WellFormed everywhere :=
  ⟨hs.nonExisting, hs.coherent, fun a account hfind hclean =>
    (hs.clean a account hfind hclean).mono fun _ _ => trivial⟩

/-- What a transaction that throws has done is undone. -/
theorem outcome_executeTransaction (hsound : env.Sound) (hs : s.WellFormed State.nowhere)
    (hstart : s.m_accountStartNonce ≠ State.Invalid256) (hfits : total s.view < 2 ^ 256)
    (tx : SignedTransaction) :
    Outcome (Executive.Carried env tx s)
      (fun x t => (∃ e, x = .rejected e) ∧ State.Agree State.nowhere [] s t ∨
        x = .assertion ∧ env.m_sealEngine.evmSchedule.eip1283Mode = true)
      (executeTransaction env tx) s := by
  have hready : s.Ready everywhere := ⟨hs.everywhere, hstart⟩
  have h := Executive.outcome_transact hsound hready hs hfits tx
  unfold executeTransaction
  rcases hrun : (Executive.transact env tx).run s with ⟨x | r, t⟩
  · refine .of_error (e := x) (t := t.rollback s.savepoint) ?_ ?_
    · unfold Throwing.run at hrun ⊢
      dsimp only
      rw [hrun]
    · rcases h.error x t hrun with ⟨hrejected, hquiet, ht⟩ | hassertion
      · exact .inl ⟨hrejected, ((hquiet.forth ht).rollback hs).2⟩
      · exact .inr hassertion
  · refine .of_ok (a := r) (t := t) ?_ (h.ok r t hrun)
    unfold Throwing.run at hrun ⊢
    dsimp only
    rw [hrun]

end Transaction
end Aleth.Ethereum

/-! ### Samples -/
namespace Aleth.Ethereum
open Devcore Throwing Evm

attribute [local instance] State.stateSha3

/-- A block after the last fork, with one precompiled contract that costs much. -/
def sampleEnv : Env where
  m_sealEngine :=
    { evmSchedule := ByzantiumSchedule
      isPrecompiled := fun a => a = 4
      costOfPrecompiled := fun _ b => 1000 * b.length
      executePrecompiled := fun _ b => (true, b)
      homesteadForkBlock := 0
      EIP158ForkBlock := 0
      experimentalForkBlock := 1000 }
  m_envInfo :=
    { number := 300, author := 3, timestamp := 0, difficulty := 0, gasLimit := 100000
      gasUsed := 0, precedingHashes := List.replicate 256 H256.zero }

theorem sampleEnv_sound : sampleEnv.Sound where
  schedule := List.mem_of_getElem? (i := 5) rfl
  number := by decide
  fork := by decide
  hashes := (List.length_replicate ..).ge
  gasLimit := by decide

theorem view_sampleState :
    State.sampleState.view = Function.update (fun _ => none) 1 (State.sampleState.view 1) := by
  funext a
  by_cases ha : a = 1
  · rw [ha, Function.update_self]
  · have hnone : State.sampleDB.account a = none := if_neg ha
    rw [Function.update_of_ne ha, State.view, Option.map_eq_none_iff]
    show (State.sampleDB.account a).map Account.ofStored = none
    rw [hnone]
    rfl

theorem total_sampleState_lt : total State.sampleState.view < 2 ^ 256 := by
  rw [view_sampleState]
  exact total_single ..

/-- Some ether is sent. -/
def samplePayment : SignedTransaction :=
  { sender := some 1, nonce := 0, value := 3, gasPrice := 0, gas := 22000, isCreation := false
    receiveAddress := 2, data := [], hasZeroSignature := false, isReplayProtected := false
    isLowS := true }

/-- There is no gas left for the precompiled contract. -/
def sampleFailure : SignedTransaction :=
  {samplePayment with receiveAddress := 4, data := [0, 0, 0]}

end Aleth.Ethereum
