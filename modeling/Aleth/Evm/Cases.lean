import Aleth.Evm.Steps

/-! The cases that use memory, the code or storage come to what `Effects` says. -/
namespace Aleth.Evm
open Devcore Machine Instruction

section Charging
variable {schedule : EVMSchedule} {ext : ExtVM} {answer : (q : Query) → q.Reply} {code : Code}
  {op : Instruction} {m : VMState} {α : Type} {P : α → VMState → Prop}

/-- The price of an instruction whose case reckons none of its own. -/
theorem Fetched.tier (hm : Fetched schedule op m) :
    m.m_runGas.toNat + schedule.copyGas * words m.m_copyMemSize.toNat =
      schedule.tierStepGas (instructionInfo op).gasPriceTier := by
  rw [hm.price, hm.copy]
  rfl

theorem Fetched.reckoned (hm : Fetched schedule op m) (g : ℕ) :
    g + schedule.copyGas * words m.m_copyMemSize.toNat = g := by
  rw [hm.copy]
  rfl

theorem Fetched.copy_le (hm : Fetched schedule op m) : m.m_copyMemSize.toNat ≤ int63max := by
  rw [hm.copy]
  exact Nat.zero_le _

/-- The charge of an instruction that touches so many bytes at its first operand. -/
theorem touch_meets {rest : Unit → VM α} {k : U64} (size : ℕ) (hs : schedule.Moderate)
    (hm : Fetched schedule op m) (hargs : 0 < (instructionInfo op).args) (hk : k.toNat = size)
    (hsize : size ≤ 32) (hneed : op.need m = (m.operand 0).toNat + size)
    (hprice : op.price schedule ext answer m =
      schedule.tierStepGas (instructionInfo op).gasPriceTier)
    (hok : ∀ m₁, Charged schedule m (op.need m) (op.price schedule ext answer m) m₁ →
      Meets answer P (Thrown schedule ext answer code op m) (rest ()) m₁) :
    Meets answer P (Thrown schedule ext answer code op m)
      (sp 0 >>= fun a => toInt63 a.toNat >>= fun need =>
        updateMem schedule (need + k) >>= fun _ => updateIOGas >>= rest) m := by
  refine .bind (sp_meets hm.ready hargs ?_)
  refine .bind (toInt63_meets (thrown_outOfGas rfl rfl) fun need hval hle => ?_)
  unfold int63max at hle
  have hsum : (need + k).toNat = op.need m := by
    rw [BitVec.toNat_add, hval, hk, hneed]
    exact Nat.mod_eq_of_lt (by omega)
  have htier := hs.tier (instructionInfo op).gasPriceTier
  exact charge_pays hsum (by omega) hm.copy_le (hm.tier.trans hprice.symm)
    (by rw [hprice]; omega) hok

/-- The charge of an instruction that needs the range of memory its operands give. -/
theorem range_meets {rest : Unit → VM α} {i j : ℕ} {g n c : U64}
    (hm : Ready m (instructionInfo op).args (instructionInfo op).ret)
    (hi : i < (instructionInfo op).args) (hj : j < (instructionInfo op).args)
    (hneed : op.need m = rangeEnd (m.operand i) (m.operand j)) (hcopy : c.toNat ≤ int63max)
    (hprice : g.toNat + schedule.copyGas * words c.toNat = op.price schedule ext answer m)
    (hfits : op.price schedule ext answer m ≤ 2 ^ 63)
    (hok : rangeEnd (m.operand i) (m.operand j) ≤ int63max →
      ∀ m₁, Charged schedule m (op.need m) (op.price schedule ext answer m) m₁ →
      Meets answer P (Thrown schedule ext answer code op m) (rest ()) m₁) :
    Meets answer P (Thrown schedule ext answer code op m)
      (sp i >>= fun a => sp j >>= fun b => memNeed a b >>= fun need =>
        updateMem schedule need >>= fun _ => updateIOGas >>= rest)
      {m with m_runGas := g, m_newMemSize := n, m_copyMemSize := c} := by
  refine .bind (sp_meets hm.retune hi (.bind (sp_meets hm.retune hj ?_)))
  refine .bind (memNeed_meets (thrown_outOfGas rfl rfl) fun need hval hle => ?_)
  refine charge_pays (hval.trans hneed.symm) ?_ hcopy hprice hfits (hok hle)
  rw [hneed]
  have hbound : rangeEnd (m.operand i) (m.operand j) ≤ int63max := hle
  unfold int63max at hbound
  omega

/-- What `RETURN` and `REVERT` begin with. -/
theorem output_meets {P : Bytes → VMState → Prop} (hs : schedule.Moderate)
    (hm : Fetched schedule op m) (hargs : (instructionInfo op).args = 2)
    (hneed : op.need m = rangeEnd (m.operand 0) (m.operand 1))
    (hprice : op.price schedule ext answer m =
      schedule.tierStepGas (instructionInfo op).gasPriceTier)
    (hok : ∀ output m₁, Charged schedule m (op.need m) (op.price schedule ext answer m) m₁ →
      P output m₁) :
    Meets answer P (Thrown schedule ext answer code op m) (output schedule) m := by
  have h0 : 0 < (instructionInfo op).args := hargs ▸ Nat.two_pos
  have h1 : 1 < (instructionInfo op).args := hargs ▸ Nat.one_lt_two
  refine .bind (setCopyMemSize_meets (thrown_outOfGas rfl rfl) fun c hc hle => ?_)
  have htier := hs.tier (instructionInfo op).gasPriceTier
  have hreckoned : m.m_runGas.toNat + schedule.copyGas * words c.toNat =
      op.price schedule ext answer m := by
    rw [hm.price, hc, hprice]
    rfl
  refine range_meets hm.ready h0 h1 hneed (hc ▸ hle) hreckoned (by rw [hprice]; omega)
    fun hend m₁ hm₁ => ?_
  refine .bind (sp_meets (hm₁.ready hm.ready) h0 (.bind (sp_meets (hm₁.ready hm.ready) h1 ?_)))
  rw [hm₁.operand, hm₁.operand]
  refine readRange_meets hend ?_ (hok _ m₁ hm₁)
  rw [hm₁.mem, hneed]
  exact le_length_grown ..

end Charging

theorem toUnsigned_le (x : U256) : toUnsigned x ≤ x.toNat := Nat.mod_le ..

theorem take_three {l : Bytes} {pc : ℕ} (h : pc + 3 ≤ l.length) :
    (l.drop pc).take 3 = [l.getD pc 0, l.getD (pc + 1) 0, l.getD (pc + 2) 0] := by
  rw [List.drop_eq_getElem_cons (by omega), List.drop_eq_getElem_cons (by omega),
    List.drop_eq_getElem_cons (by omega), List.getD_eq_getElem _ _ (by omega),
    List.getD_eq_getElem _ _ (by omega), List.getD_eq_getElem _ _ (by omega)]
  rfl

/-- `operandsFrom` finds its operands. -/
theorem operandsFrom_meets {answer : (q : Query) → q.Reply} {E : VMException → VMState → Prop}
    {P : List U256 → VMState → Prop} {m : VMState} {args ret : ℕ} (hm : Ready m args ret)
    {i n : ℕ} (hn : i + n ≤ args) (hok : ∀ l, P l m) : Meets answer P E (operandsFrom i n) m := by
  induction n generalizing i P with
  | zero => exact .pure (hok [])
  | succ n ih =>
    exact .bind (sp_meets hm (by omega) (.bind (ih (by omega) fun l => .pure (hok _))))

/-! ### Charges that depend on the world -/

section Charges
variable {schedule : EVMSchedule} {ext : ExtVM} {answer : (q : Query) → q.Reply} {m : VMState}
  {E : VMException → VMState → Prop} {P : Unit → VMState → Prop}

theorem toNat_ofNat_of_le {p : ℕ} (h : p ≤ 2 ^ 20) : (BitVec.ofNat 64 p).toNat = p := by
  rw [BitVec.toNat_ofNat]
  exact Nat.mod_eq_of_lt (by omega)

theorem meets_refund {amount : ℤ} : Meets answer P E (refund amount) m ↔ P () m :=
  meets_ask (Query.refund amount)

theorem refundChanged_meets {original current new : U256} (hok : P () m) :
    Meets answer P E (refundChanged schedule original current new) m := by
  unfold refundChanged
  simp only [meets_bind, meets_ite, meets_pure, meets_refund]
  split_ifs
  all_goals exact hok

theorem updateSSGasEIP1283_meets {key current new : U256} (hs : schedule.Moderate)
    (hmode : schedule.eip1283Mode = true)
    (hok : ∀ g : U64,
      g.toNat = storePrice schedule current new (answer (.originalStorageValue key)) →
      P () {m with m_runGas := g}) :
    Meets answer P E (updateSSGasEIP1283 schedule key current new) m := by
  have hset := hs.price schedule.sstoreSetGas (by simp [EVMSchedule.prices])
  have hreset := hs.price schedule.sstoreResetGas (by simp [EVMSchedule.prices])
  have hsame := hs.price schedule.sstoreUnchangedGas (by simp [EVMSchedule.prices])
  unfold storePrice at hok
  rw [if_pos hmode] at hok
  unfold updateSSGasEIP1283
  rw [meets_ite]
  split
  case isTrue h =>
    refine .modify (hok _ ?_)
    rw [if_neg (fun hne => hne.1 h), toNat_ofNat_of_le hsame]
  case isFalse h =>
    refine .bind (.ask ?_)
    rw [meets_ite]
    split
    case isTrue horiginal =>
      rw [if_pos ⟨h, horiginal⟩] at hok
      rw [meets_ite]
      split
      case isTrue h0 =>
        rw [if_pos h0] at hok
        exact .modify (hok _ (toNat_ofNat_of_le hset))
      case isFalse h0 =>
        rw [if_neg h0] at hok
        refine .bind (.modify ?_)
        rw [meets_ite]
        split
        · exact meets_refund.mpr (hok _ (toNat_ofNat_of_le hreset))
        · exact .pure (hok _ (toNat_ofNat_of_le hreset))
    case isFalse horiginal =>
      rw [if_neg (fun hne => horiginal hne.2)] at hok
      exact .bind (.modify (refundChanged_meets (hok _ (toNat_ofNat_of_le hsame))))

theorem updateSSGasPreEIP1283_meets {current new original : U256}
    (hmode : schedule.eip1283Mode = false) (hout : E .outOfGas m)
    (hok : ∀ g : U64, g.toNat = storePrice schedule current new original →
      P () {m with m_runGas := g}) :
    Meets answer P E (updateSSGasPreEIP1283 schedule current new) m := by
  unfold storePrice at hok
  rw [if_neg (by rw [hmode]; decide)] at hok
  unfold updateSSGasPreEIP1283
  rw [meets_ite]
  split
  case isTrue h =>
    rw [if_pos h] at hok
    exact setRunGas_meets hout fun g hg _ => hok g hg
  case isFalse h =>
    rw [if_neg h] at hok
    rw [meets_ite]
    split
    · exact .bind (setRunGas_meets hout fun g hg _ => meets_refund.mpr (hok g hg))
    · exact setRunGas_meets hout fun g hg _ => hok g hg

/-- The charge of `SSTORE` is that of its change. -/
theorem updateSSGas_meets (ext : ExtVM) (hs : schedule.Moderate)
    (hm : Ready m (instructionInfo .sstore).args (instructionInfo .sstore).ret)
    (hout : E .outOfGas m)
    (hok : ∀ g : U64, g.toNat = sstore.price schedule ext answer m → P () {m with m_runGas := g}) :
    Meets answer P E (updateSSGas schedule) m := by
  refine .bind (sp_meets hm (by decide) (.bind (.ask ?_)))
  refine .bind (sp_meets hm (by decide) ?_)
  rw [meets_ite]
  split
  case isTrue hmode =>
    exact .bind (sp_meets hm (by decide) (updateSSGasEIP1283_meets hs hmode hok))
  case isFalse hmode =>
    exact updateSSGasPreEIP1283_meets (Bool.eq_false_iff.mpr hmode) hout hok

/-- The charge of `SUICIDE`. -/
theorem updateSuicideGas_meets (hs : schedule.Moderate) {g : U64}
    (hg : g.toNat = schedule.suicideGas)
    (hok : ∀ g : U64, g.toNat = suicide.price schedule ext answer m → P () {m with m_runGas := g}) :
    Meets answer P E (updateSuicideGas schedule ext (asAddress (m.operand 0)))
      {m with m_runGas := g} := by
  have hown := hs.price schedule.suicideGas (by simp [EVMSchedule.prices])
  have hnew := hs.price schedule.callNewAccountGas (by simp [EVMSchedule.prices])
  have hsum : (g + BitVec.ofNat 64 schedule.callNewAccountGas).toNat =
      schedule.suicideGas + schedule.callNewAccountGas := by
    rw [BitVec.toNat_add, hg, toNat_ofNat_of_le hnew]
    exact Nat.mod_eq_of_lt (by omega)
  unfold price at hok
  refine .bind (.ask ?_)
  rw [meets_ite]
  split
  case isTrue h =>
    rw [meets_ite]
    split
    case isTrue hcharges =>
      refine .bind (.ask ?_)
      rw [meets_ite]
      split
      case isTrue hexists =>
        rw [if_pos ⟨h, hcharges, by simpa using hexists⟩] at hok
        exact .modify (hok _ hsum)
      case isFalse hexists =>
        rw [if_neg fun hall => hexists (by rw [hall.2.2]; rfl)] at hok
        exact .pure (hok _ hg)
    case isFalse hcharges =>
      rw [if_neg fun hall => hcharges hall.2.1] at hok
      exact .pure (hok _ hg)
  case isFalse h =>
    rw [if_neg fun hall => h hall.1] at hok
    exact .pure (hok _ hg)

end Charges

section Cases
variable [Sha3] {evmOptimize : Bool} {schedule : EVMSchedule} {ext : ExtVM}
  {answer : (q : Query) → q.Reply} {code : Code} {op : Instruction} {m : VMState}

/-- The case does what the instruction is said to do. -/
def Carries (schedule : EVMSchedule) (ext : ExtVM) (answer : (q : Query) → q.Reply) (code : Code)
    (op : Instruction) (x : VM Flow) (m : VMState) : Prop :=
  Meets answer (Executed schedule ext answer code op m) (Thrown schedule ext answer code op m) x m

/-! ### Memory -/

theorem caseMload_carries (hs : schedule.Moderate) (hm : Fetched schedule .mload m) :
    Carries schedule ext answer code .mload (caseMload schedule) m := by
  refine touch_meets 32 hs hm Nat.one_pos rfl le_rfl rfl rfl fun m₁ hm₁ => ?_
  refine .bind (sp_meets (hm₁.ready hm.ready) Nat.one_pos (.bind (readMem_meets (fun _ => ?_) ?_)))
  · rw [hm₁.operand, hm₁.mem]
    exact (Nat.add_le_add_right (toUnsigned_le _) 32).trans (le_length_grown ..)
  refine .bind (setSPP_meets (hm₁.ready hm.ready) Nat.one_pos (next_meets ?_))
  refine hm₁.done ⟨rfl, rfl⟩ rfl rfl rfl ?_ (fun _ => congrArg (· + 1) hm₁.pc) rfl
  show Function.update _ _ _ _ = _
  rw [Function.update_self, hm₁.operand, hm₁.mem]

theorem caseMstore_carries (hs : schedule.Moderate) (hm : Fetched schedule .mstore m) :
    Carries schedule ext answer code .mstore (caseMstore schedule) m := by
  refine touch_meets 32 hs hm Nat.two_pos rfl le_rfl rfl rfl fun m₁ hm₁ => ?_
  refine .bind (sp_meets (hm₁.ready hm.ready) Nat.two_pos ?_)
  refine .bind (sp_meets (hm₁.ready hm.ready) Nat.one_lt_two ?_)
  refine .bind (writeMem_meets (fun _ => ?_) (next_meets ?_))
  · rw [hm₁.operand, hm₁.mem, toBigEndian_length]
    exact (Nat.add_le_add_right (toUnsigned_le _) 32).trans (le_length_grown ..)
  rw [hm₁.operand, hm₁.operand]
  exact hm₁.executed ⟨rfl, rfl⟩ ⟨rfl, rfl⟩ rfl rfl trivial (fun _ => congrArg (· + 1) hm₁.pc) rfl

theorem caseMstore8_carries (hs : schedule.Moderate) (hm : Fetched schedule .mstore8 m) :
    Carries schedule ext answer code .mstore8 (caseMstore8 schedule) m := by
  have hneed : need m .mstore8 = (m.operand 0).toNat + 1 := rfl
  have hk : (1 : U64).toNat = 1 := rfl
  refine touch_meets 1 hs hm Nat.two_pos hk (by decide) hneed rfl fun m₁ hm₁ => ?_
  refine .bind (sp_meets (hm₁.ready hm.ready) Nat.two_pos ?_)
  refine .bind (sp_meets (hm₁.ready hm.ready) Nat.one_lt_two ?_)
  refine .bind (writeMem_meets (fun _ => ?_) (next_meets ?_))
  · rw [hm₁.operand, hm₁.mem]
    exact (Nat.add_le_add_right (toUnsigned_le _) 1).trans (le_length_grown ..)
  rw [hm₁.operand, hm₁.operand]
  exact hm₁.executed ⟨rfl, rfl⟩ ⟨rfl, rfl⟩ rfl rfl trivial (fun _ => congrArg (· + 1) hm₁.pc) rfl

theorem caseSha3_carries (hm : Fetched schedule .sha3 m) :
    Carries schedule ext answer code .sha3 (caseSha3 schedule) m := by
  refine .bind (sp_meets hm.ready Nat.one_lt_two ?_)
  refine .bind (setRunGas_meets (thrown_outOfGas rfl rfl) fun g hg hle => ?_)
  unfold int63max at hle
  refine range_meets hm.ready Nat.two_pos Nat.one_lt_two rfl hm.copy_le
    ((congrArg (· + _) hg).trans (hm.reckoned _)) (hle.trans (by norm_num)) fun hend m₁ hm₁ => ?_
  refine .bind (sp_meets (hm₁.ready hm.ready) Nat.two_pos ?_)
  refine .bind (sp_meets (hm₁.ready hm.ready) Nat.one_lt_two ?_)
  rw [hm₁.operand, hm₁.operand]
  refine .bind (readRange_meets hend ?_ ?_)
  · rw [hm₁.mem]
    exact le_length_grown ..
  refine .bind (setSPP_meets (hm₁.ready hm.ready) Nat.one_pos (next_meets ?_))
  refine hm₁.done ⟨rfl, rfl⟩ rfl rfl rfl ?_ (fun _ => congrArg (· + 1) hm₁.pc) rfl
  show Function.update _ _ _ _ = _
  rw [Function.update_self, hm₁.mem]

theorem caseLog_carries {n : ℕ} (hm : Fetched schedule (.log n) m) (hs : schedule.Moderate)
    (hn : n ≤ 4) : Carries schedule ext answer code (.log n) (caseLog schedule ext n) m := by
  have h0 : 0 < (instructionInfo (.log n)).args := Nat.succ_pos _
  have h1 : 1 < (instructionInfo (.log n)).args := Nat.lt_add_left n Nat.one_lt_two
  refine .bind (refuse_meets thrown_disallowedStateChange (.bind ?_))
  refine .bind (sp_meets hm.ready h1 ?_)
  refine .bind (setRunGas_meets (thrown_outOfGas rfl rfl) fun g hg hle => ?_)
  unfold int63max at hle
  refine .bind (sp_meets hm.ready.retune h0 (.bind (sp_meets hm.ready.retune h1 ?_)))
  refine .bind (memNeed_meets (thrown_outOfGas rfl rfl) fun need hval hend => ?_)
  have hsmall : (schedule.logGas + schedule.logTopicGas * n) % 2 ^ 32 =
      schedule.logGas + schedule.logTopicGas * n := by
    have hlog := hs.price schedule.logGas (by simp [EVMSchedule.prices])
    have htopic := hs.price schedule.logTopicGas (by simp [EVMSchedule.prices])
    have := Nat.mul_le_mul htopic hn
    exact Nat.mod_eq_of_lt (by omega)
  rw [hsmall] at hg hle
  refine (meets_bind _ _).mp (charge_pays hval (hend.trans (by decide)) hm.copy_le
    ((congrArg (· + _) hg).trans (hm.reckoned _)) (hle.trans (by norm_num)) fun m₁ hm₁ => ?_)
  refine .bind (operandsFrom_meets (hm₁.ready hm.ready) (Nat.add_comm ..).le fun topics => ?_)
  refine .bind (sp_meets (hm₁.ready hm.ready) h0 (.bind (sp_meets (hm₁.ready hm.ready) h1 ?_)))
  rw [hm₁.operand, hm₁.operand]
  refine .bind (readRange_meets hend ?_ ?_)
  · rw [hm₁.mem]
    exact le_length_grown ..
  refine .bind (.ask (q := Query.log ..) ?_)
  refine next_meets ?_
  exact hm₁.done ⟨rfl, rfl⟩ rfl rfl rfl trivial (fun _ => congrArg (· + 1) hm₁.pc) rfl

/-- The copies to memory have their operands at the same places. -/
theorem caseCopy_carries {data : Buffer} (hs : schedule.Moderate) (hm : Fetched schedule op m)
    (hargs : (instructionInfo op).args = 3) (htier : (instructionInfo op).gasPriceTier = .veryLow)
    (hneed : op.need m = rangeEnd (m.operand 0) (m.operand 2))
    (hprice : op.price schedule ext answer m =
      schedule.tierStepGas .veryLow + schedule.copyGas * words (m.operand 2).toNat)
    (hsends : op.Sends schedule ext answer m 0 0)
    (hwrites : op.Writes ext answer m (m.operand 0).toNat
      (padded data.bytes (m.operand 1).toNat (m.operand 2).toNat))
    (hleaves : ∀ mem v, op.Leaves code m mem v) (hgoes : op.Goes code m (m.m_PC + 1)) :
    Carries schedule ext answer code op (caseCopy schedule data) m := by
  have h0 : 0 < (instructionInfo op).args := hargs ▸ Nat.succ_pos 2
  have h2 : 2 < (instructionInfo op).args := hargs ▸ Nat.lt_succ_self 2
  refine .bind (sp_meets hm.ready h2 ?_)
  refine .bind (setCopyMemSize_meets (thrown_outOfGas rfl rfl) fun c hc hle => ?_)
  have hprice' : m.m_runGas.toNat + schedule.copyGas * words c.toNat =
      op.price schedule ext answer m := by
    rw [hm.price, hc, hprice, htier]
  have hfits : op.price schedule ext answer m ≤ 2 ^ 63 := by
    have htier := hs.tier .veryLow
    have hwords : words (m.operand 2).toNat ≤ 2 ^ 58 := by
      unfold words int63max at *
      omega
    have := Nat.mul_le_mul hs.copy hwords
    rw [hprice]
    omega
  refine range_meets hm.ready h0 h2 hneed (hc ▸ hle) hprice' hfits fun hend m₁ hm₁ => ?_
  have hroom : rangeEnd (m.operand 0) (m.operand 2) ≤ m₁.m_mem.length := by
    rw [hm₁.mem, hneed]
    exact le_length_grown ..
  refine .bind (copyDataToMemory_meets (hm₁.ready hm.ready) h2 ?_ ?_ (next_meets ?_))
  · rw [hm₁.operand, hm₁.operand]
    exact hend
  · rw [hm₁.operand, hm₁.operand]
    exact hroom
  rw [hm₁.operand, hm₁.operand, hm₁.operand]
  refine hm₁.executed hsends hwrites rfl rfl (hleaves ..) (fun _ => ?_) rfl
  show op.Goes code m (m₁.m_PC + 1)
  rw [hm₁.pc]
  exact hgoes

theorem calldatacopy_carries (hs : schedule.Moderate) (hm : Fetched schedule .calldatacopy m) :
    Carries schedule ext answer code .calldatacopy (caseCopy schedule ext.data) m :=
  caseCopy_carries hs hm rfl rfl rfl rfl ⟨rfl, rfl⟩ ⟨rfl, rfl⟩ (fun _ _ => trivial) rfl

theorem codecopy_carries (hs : schedule.Moderate) (hm : Fetched schedule .codecopy m) :
    Carries schedule ext answer code .codecopy (caseCopy schedule ext.code) m :=
  caseCopy_carries hs hm rfl rfl rfl rfl ⟨rfl, rfl⟩ ⟨rfl, rfl⟩ (fun _ _ => trivial) rfl

theorem caseReturndatacopy_carries (hs : schedule.Moderate)
    (hm : Fetched schedule .returndatacopy m) :
    Carries schedule ext answer code .returndatacopy (caseReturndatacopy schedule) m := by
  refine .bind (require_meets thrown_badInstruction fun _ => ?_)
  refine .bind (sp_meets hm.ready (by decide) (.bind (sp_meets hm.ready (by decide) ?_)))
  refine .bind (.get ?_)
  dsimp only
  rw [meets_ite]
  split
  case isTrue =>
    exact .bind (.throw (thrown_early rfl rfl (.inr (.inr rfl))))
  case isFalse =>
    exact caseCopy_carries hs hm rfl rfl rfl rfl ⟨rfl, rfl⟩ ⟨rfl, rfl⟩ (fun _ _ => trivial) rfl

theorem caseExtcodecopy_carries (hs : schedule.Moderate) (hm : Fetched schedule .extcodecopy m) :
    Carries schedule ext answer code .extcodecopy (caseExtcodecopy schedule) m := by
  have h1 : 1 < (instructionInfo .extcodecopy).args := by decide
  have h3 : 3 < (instructionInfo .extcodecopy).args := by decide
  refine .bind (setRunGas_meets (thrown_outOfGas rfl rfl) fun g hg _ => ?_)
  refine .bind (sp_meets hm.ready.retune h3 ?_)
  refine .bind (setCopyMemSize_meets (thrown_outOfGas rfl rfl) fun c hc hle => ?_)
  have hprice : g.toNat + schedule.copyGas * words c.toNat =
      extcodecopy.price schedule ext answer m := by
    rw [hg, hc]
    rfl
  have hfits : extcodecopy.price schedule ext answer m ≤ 2 ^ 63 := by
    have hown := hs.price schedule.extcodecopyGas (by simp [EVMSchedule.prices])
    have hwords : words c.toNat ≤ 2 ^ 58 := by
      rw [hc]
      unfold words int63max at *
      omega
    have := Nat.mul_le_mul hs.copy hwords
    rw [← hprice, hg]
    omega
  refine range_meets hm.ready h1 h3 rfl (hc ▸ hle) hprice hfits fun hend m₁ hm₁ => ?_
  refine .bind (sp_meets (hm₁.ready hm.ready) (by decide) (.bind (.ask ?_)))
  have hroom : rangeEnd (m.operand 1) (m.operand 3) ≤ m₁.m_mem.length := by
    rw [hm₁.mem]
    exact le_length_grown ..
  refine .bind (copyDataToMemory_meets (hm₁.ready hm.ready) h3 ?_ ?_ (next_meets ?_))
  · rw [hm₁.operand, hm₁.operand]
    exact hend
  · rw [hm₁.operand, hm₁.operand]
    exact hroom
  rw [hm₁.operand, hm₁.operand, hm₁.operand, hm₁.operand]
  exact hm₁.executed ⟨rfl, rfl⟩ ⟨rfl, rfl⟩ rfl rfl trivial (fun _ => congrArg (· + 1) hm₁.pc) rfl

theorem caseReturn_carries (hs : schedule.Moderate) (hm : Fetched schedule .return_ m) :
    Carries schedule ext answer code .return_ (caseReturn schedule) m := by
  refine .bind (output_meets hs hm rfl rfl rfl fun output m₁ hm₁ => ?_)
  refine .bind (.modify (.pure ?_))
  exact hm₁.done ⟨rfl, rfl⟩ rfl rfl rfl trivial (fun h => absurd h (by decide)) rfl

theorem caseRevert_carries (hs : schedule.Moderate) (hm : Fetched schedule .revert m) :
    Carries schedule ext answer code .revert (caseRevert schedule) m := by
  refine .bind (require_meets thrown_badInstruction fun _ => ?_)
  refine .bind (output_meets hs hm rfl rfl rfl fun output m₁ hm₁ => ?_)
  exact .throw (hm₁.thrown (.inr ⟨output, rfl⟩))

/-! ### Control -/

theorem casePush_carries {n : ℕ} (hm : Fetched schedule (.push n) m) :
    Carries schedule ext answer code (.push n) (casePush code n) m := by
  refine pay_meets hm.price fun m₁ hm₁ => ?_
  refine .bind (.get (.bind ?_))
  rw [hm₁.pc]
  unfold codeBytes
  rw [meets_ite]
  split
  case isTrue h =>
    refine .pure (.bind (setSPP_meets (hm₁.ready hm.ready) Nat.one_pos (continueAt_meets ?_)))
    refine Charged.done hm₁ ⟨rfl, rfl⟩ rfl rfl rfl ?_ (fun _ => rfl) rfl
    exact Function.update_self ..
  case isFalse h => exact .throw (Charged.thrown_fault hm₁ h)

theorem casePushc_carries (hm : Fetched schedule .pushc m) :
    Carries schedule ext answer code .pushc (casePushc evmOptimize code) m := by
  refine .bind (require_meets thrown_badInstruction fun _ => ?_)
  refine pay_meets hm.price fun m₁ hm₁ => ?_
  refine .bind (.get (.bind ?_))
  rw [hm₁.pc]
  unfold codeBytes
  rw [meets_ite]
  split
  case isTrue h =>
    rw [take_three h]
    refine .pure ?_
    dsimp only
    cases hv : code.m_pool[(code.m_code.getD (m.m_PC + 1) 0).toNat * 256 +
        (code.m_code.getD (m.m_PC + 2) 0).toNat]? with
    | none =>
      refine .throw (Charged.thrown_fault hm₁ fun hread => ?_)
      have hlen := List.getElem?_eq_none_iff.mp hv
      exact absurd hread.2 (not_lt.mpr hlen)
    | some v =>
      refine .bind (setSPP_meets (hm₁.ready hm.ready) Nat.one_pos (continueAt_meets ?_))
      refine Charged.done hm₁ ⟨rfl, rfl⟩ rfl rfl rfl ?_ (fun _ => rfl) rfl
      have htop : Function.update m₁.m_stack m₁.m_SPP v m₁.m_SPP = v := Function.update_self ..
      exact hv.trans (congrArg some htop.symm)
  case isFalse h =>
    exact .throw (Charged.thrown_fault hm₁ fun hread => h hread.1)

/-- A jump to a place that is looked up. -/
theorem jumpTo_meets {m₁ : VMState} {dest : U256}
    (hm₁ : Charged schedule m (op.need m) (op.price schedule ext answer m) m₁)
    (hsends : op.Sends schedule ext answer m 0 0) (hwrites : op.Writes ext answer m 0 [])
    (hleaves : ∀ mem v, op.Leaves code m mem v)
    (hgoes : ∀ pc, verifyJumpDest code dest = some pc → op.Goes code m pc) :
    Meets answer (Executed schedule ext answer code op m) (Thrown schedule ext answer code op m)
      (jumpTo code dest) m₁ := by
  unfold jumpTo
  cases hv : verifyJumpDest code dest with
  | none => exact .throw (hm₁.thrown (.inl rfl))
  | some pc =>
    refine continueAt_meets (hm₁.executed hsends hwrites rfl rfl
      (hleaves ..) (fun _ => hgoes pc hv) rfl)

theorem caseJump_carries (hm : Fetched schedule .jump m) :
    Carries schedule ext answer code .jump (caseJump code) m := by
  refine pay_meets hm.price fun m₁ hm₁ => ?_
  refine .bind (sp_meets (hm₁.ready hm.ready) Nat.one_pos ?_)
  rw [hm₁.operand]
  exact jumpTo_meets hm₁ ⟨rfl, rfl⟩ rfl (fun _ _ => trivial) fun pc hpc => hpc

theorem caseJumpi_carries (hm : Fetched schedule .jumpi m) :
    Carries schedule ext answer code .jumpi (caseJumpi code) m := by
  refine pay_meets hm.price fun m₁ hm₁ => ?_
  refine .bind (sp_meets (hm₁.ready hm.ready) Nat.one_lt_two ?_)
  rw [hm₁.operand, meets_ite]
  split
  case isTrue h =>
    refine .bind (sp_meets (hm₁.ready hm.ready) Nat.two_pos ?_)
    rw [hm₁.operand]
    exact jumpTo_meets hm₁ ⟨rfl, rfl⟩ rfl (fun _ _ => trivial) fun pc hpc => by
      rwa [Goes, if_pos h]
  case isFalse h =>
    refine next_meets (Charged.done hm₁ ⟨rfl, rfl⟩ rfl rfl rfl trivial (fun _ => ?_) rfl)
    rw [Goes, if_neg h]
    exact congrArg (· + 1) hm₁.pc

theorem caseJumpc_carries (hm : Fetched schedule .jumpc m) :
    Carries schedule ext answer code .jumpc (caseJumpc evmOptimize) m := by
  refine .bind (require_meets thrown_badInstruction fun _ => ?_)
  refine pay_meets hm.price fun m₁ hm₁ => ?_
  refine .bind (sp_meets (hm₁.ready hm.ready) Nat.one_pos (continueAt_meets ?_))
  rw [hm₁.operand]
  exact Charged.done hm₁ ⟨rfl, rfl⟩ rfl rfl rfl trivial (fun _ => rfl) rfl

theorem caseJumpci_carries (hm : Fetched schedule .jumpci m) :
    Carries schedule ext answer code .jumpci (caseJumpci evmOptimize) m := by
  refine .bind (require_meets thrown_badInstruction fun _ => ?_)
  refine pay_meets hm.price fun m₁ hm₁ => ?_
  refine .bind (sp_meets (hm₁.ready hm.ready) Nat.one_lt_two ?_)
  rw [hm₁.operand, meets_ite]
  split
  case isTrue h =>
    refine .bind (sp_meets (hm₁.ready hm.ready) Nat.two_pos (continueAt_meets ?_))
    rw [hm₁.operand]
    refine Charged.done hm₁ ⟨rfl, rfl⟩ rfl rfl rfl trivial (fun _ => ?_) rfl
    rw [Goes, if_pos h]
  case isFalse h =>
    refine next_meets (Charged.done hm₁ ⟨rfl, rfl⟩ rfl rfl rfl trivial (fun _ => ?_) rfl)
    rw [Goes, if_neg h]
    exact congrArg (· + 1) hm₁.pc

theorem caseSwap_carries {n : ℕ} (hm : Fetched schedule (.swap n) m) :
    Carries schedule ext answer code (.swap n) (caseSwap n) m := by
  have h0 : 0 < (instructionInfo (.swap n)).args := Nat.succ_pos n
  have hn : n < (instructionInfo (.swap n)).args := Nat.lt_succ_self n
  refine pay_meets hm.price fun m₁ hm₁ => ?_
  have hready := hm₁.ready hm.ready
  refine .bind (sp_meets hready h0 (.bind (sp_meets hready hn ?_)))
  refine .bind (setSP_meets hready h0 (.bind (setSP_meets hready.restack hn (next_meets ?_))))
  exact Charged.done hm₁ ⟨rfl, rfl⟩ rfl rfl rfl trivial (fun _ => congrArg (· + 1) hm₁.pc) rfl

/-! ### Storage and the account -/

theorem caseSstore_carries (hs : schedule.Moderate) (hm : Fetched schedule .sstore m) :
    Carries schedule ext answer code .sstore (caseSstore schedule ext) m := by
  refine .bind (refuse_meets thrown_disallowedStateChange (.bind ?_))
  refine updateSSGas_meets ext hs hm.ready (thrown_outOfGas rfl rfl) fun g hg => ?_
  refine pay_meets hg fun m₁ hm₁ => ?_
  refine .bind (sp_meets (hm₁.ready hm.ready) (by decide) ?_)
  refine .bind (sp_meets (hm₁.ready hm.ready) (by decide) ?_)
  refine .bind (.ask (q := Query.setStore ..) ?_)
  refine next_meets ?_
  exact Charged.done hm₁ ⟨rfl, rfl⟩ rfl rfl rfl trivial (fun _ => congrArg (· + 1) hm₁.pc) rfl

theorem caseSuicide_carries (hs : schedule.Moderate) (hm : Fetched schedule .suicide m) :
    Carries schedule ext answer code .suicide (caseSuicide schedule ext) m := by
  refine .bind (refuse_meets thrown_disallowedStateChange (.bind ?_))
  refine setRunGas_meets (thrown_outOfGas rfl rfl) fun g hg _ => ?_
  refine .bind (sp_meets hm.ready.retune (by decide) (.bind ?_))
  refine updateSuicideGas_meets hs hg fun g hg => ?_
  refine pay_meets hg fun m₁ hm₁ => ?_
  refine .bind (.ask (q := Query.suicide ..) (.pure ?_))
  exact Charged.done hm₁ ⟨rfl, rfl⟩ rfl rfl rfl trivial (fun h => absurd h (by decide)) rfl

end Cases
end Aleth.Evm
