import Aleth.Evm.Cases

/-! Creations and calls come to what `Effects` says, and with them every case.

The gas that is sent along leaves the machine before the world is asked, and what
comes back is added afterwards; the stipend is never more than the charge for the
transfer it belongs to. -/
namespace Aleth.Evm
open Devcore Machine Instruction

section Gas

/-- All but one 64th, as the machine reckons it. -/
theorem toNat_allButOne64th (g : U64) :
    ((g.setWidth 256 : U256) - g.setWidth 256 / 64).toNat = g.toNat - g.toNat / 64 := by
  have hg : (g.setWidth 256 : U256).toNat = g.toNat := by
    rw [BitVec.toNat_setWidth]
    exact Nat.mod_eq_of_lt (g.isLt.trans (by norm_num))
  have hdiv : ((g.setWidth 256 : U256) / 64).toNat = g.toNat / 64 := by
    rw [BitVec.toNat_udiv, hg]
    rfl
  rw [BitVec.toNat_sub_of_le (by rw [BitVec.le_def, hdiv, hg]; exact Nat.div_le_self ..), hg, hdiv]

/-- What a creation leaves of the gas. -/
theorem toNat_afterCreate {g : U64} {sent returned : U256} (hsent : sent.toNat ≤ g.toNat)
    (hreturned : returned.toNat ≤ sent.toNat) :
    ((g.setWidth 256 - (sent - returned)).setWidth 64 : U64).toNat + sent.toNat =
      g.toNat + returned.toNat := by
  have hg : (g.setWidth 256 : U256).toNat = g.toNat := by
    rw [BitVec.toNat_setWidth]
    exact Nat.mod_eq_of_lt (g.isLt.trans (by norm_num))
  have hspent : (sent - returned).toNat = sent.toNat - returned.toNat :=
    BitVec.toNat_sub_of_le hreturned
  have hrest : (g.setWidth 256 - (sent - returned) : U256).toNat =
      g.toNat - (sent.toNat - returned.toNat) := by
    rw [BitVec.toNat_sub_of_le (by rw [BitVec.le_def, hspent, hg]; omega), hg, hspent]
  have hlt := g.isLt
  rw [BitVec.toNat_setWidth, hrest, Nat.mod_eq_of_lt (by omega)]
  omega

end Gas

section Creations
variable {schedule : EVMSchedule} {ext : ExtVM} {answer : (q : Query) → q.Reply}
  {code : Code} {op : Instruction} {m : VMState}

theorem createSalt_meets (ext : ExtVM) {E : VMException → VMState → Prop}
    {P : U256 → VMState → Prop} {g : U64}
    (hop : op = .create ∨ op = .create2) (hs : schedule.Moderate)
    (hm : Ready m (instructionInfo op).args (instructionInfo op).ret)
    (hg : g.toNat = schedule.createGas) (hout : E .outOfGas {m with m_runGas := g})
    (hok : ∀ salt (g : U64), g.toNat = op.price schedule ext answer m →
      P salt {m with m_runGas := g}) :
    Meets answer P E (createSalt schedule op (m.operand 2)) {m with m_runGas := g} := by
  unfold createSalt
  rcases hop with rfl | rfl
  · rw [if_neg (by decide)]
    exact .pure (hok 0 g hg)
  · rw [if_pos rfl]
    have hown := hs.price schedule.createGas (by simp [EVMSchedule.prices])
    refine .bind (sp_meets hm.retune (by decide) (.bind ?_))
    refine addRunGas_meets (by show g.toNat ≤ _; omega) hout fun w hw _ => .pure (hok _ w ?_)
    rw [hw]
    show g.toNat + _ = _
    rw [hg]
    rfl

/-- The creation itself, when its memory and its price are charged. -/
theorem create_meets [Sha3] {m₁ : VMState} {salt : U256} (hop : op = .create ∨ op = .create2)
    (hm₁ : Charged schedule m (op.need m) (op.price schedule ext answer m) m₁)
    (hready : Ready m₁ (instructionInfo op).args (instructionInfo op).ret)
    (hend : rangeEnd (m.operand 1) (m.operand 2) ≤ int63max) :
    Meets answer (Executed schedule ext answer code op m) (Thrown schedule ext answer code op m)
      (create schedule ext op (m.operand 0) (m.operand 1) (m.operand 2) salt) m₁ := by
  have hret : 0 < (instructionInfo op).ret := by rcases hop with rfl | rfl <;> decide
  have hneed : op.need m = rangeEnd (m.operand 1) (m.operand 2) := by
    rcases hop with rfl | rfl <;> rfl
  have hwrites : op.Writes ext answer m 0 [] := by rcases hop with rfl | rfl <;> rfl
  have hleaves : ∀ mem v, op.Leaves code m mem v := by
    rcases hop with rfl | rfl <;> exact fun _ _ => trivial
  have hgoes : op.Goes code m (m₁.m_PC + 1) := by
    rw [hm₁.pc]
    rcases hop with rfl | rfl <;> rfl
  have hstipend : op.stipend schedule m = 0 := by rcases hop with rfl | rfl <;> rfl
  have hleft : op.left schedule ext answer m = m₁.m_io_gas.toNat := by
    have hgas := hm₁.gas
    unfold left cost
    omega
  refine .bind (.modify (.bind (.ask ?_)))
  rw [meets_ite]
  split
  case isTrue hadmitted =>
    refine .bind (.get (.bind (readRange_meets hend ?_ ?_)))
    · show _ ≤ m₁.m_mem.length
      rw [hm₁.mem, hneed]
      exact le_length_grown ..
    dsimp only
    refine .bind (.ask (q := Query.create ..) ?_)
    refine .bind (setSPP_meets hready.refunded hret (.bind (.modify (next_meets ?_))))
    dsimp only
    generalize hsent : (if schedule.staticCallDepthLimit = true then
      (m₁.m_io_gas.setWidth 256 : U256) else _) = sent
    have hcreateGas : sent.toNat = op.createGas schedule ext answer m := by
      unfold createGas allowed
      rw [hleft, ← hsent]
      split
      · rw [BitVec.toNat_setWidth]
        exact Nat.mod_eq_of_lt (m₁.m_io_gas.isLt.trans (by norm_num))
      · exact toNat_allButOne64th _
    have hle : sent.toNat ≤ m₁.m_io_gas.toNat := by
      rw [hcreateGas]
      unfold createGas allowed
      rw [hleft]
      split
      · exact le_rfl
      · exact Nat.sub_le ..
    generalize (m₁.m_mem.drop (m.operand 1).toNat).take (m.operand 2).toNat = initCode
    have hsends : op.Sends schedule ext answer m sent.toNat
        (answer (.create (m.operand 0) sent initCode op salt)).gas.toNat := by
      rw [Sends, if_pos hop]
      exact .inl ⟨hadmitted, hcreateGas, sent, initCode, salt, rfl, rfl⟩
    refine hm₁.sent hsends (fun hreturned => ?_) hwrites (overwrite_nil ..).symm (hleaves ..)
      (fun _ => hgoes) rfl
    rw [hstipend] at hreturned
    exact toNat_afterCreate hle hreturned
  case isFalse hadmitted =>
    refine .bind (setSPP_meets hready.refunded hret (next_meets ?_))
    have hsends : op.Sends schedule ext answer m 0 0 := by
      rw [Sends, if_pos hop]
      exact .inr ⟨hadmitted, rfl, rfl⟩
    exact hm₁.done hsends hwrites rfl rfl (hleaves ..) (fun _ => hgoes) rfl

theorem caseCreate_carries [Sha3] (hop : op = .create ∨ op = .create2) (hs : schedule.Moderate)
    (hm : Fetched schedule op m) :
    Carries schedule ext answer code op (caseCreate schedule ext op) m := by
  have hargs : 2 < (instructionInfo op).args := by rcases hop with rfl | rfl <;> decide
  have hneed : op.need m = rangeEnd (m.operand 1) (m.operand 2) := by
    rcases hop with rfl | rfl <;> rfl
  refine .bind (setRunGas_meets (thrown_outOfGas rfl rfl) fun g hg _ => ?_)
  refine .bind (sp_meets hm.ready.retune (by omega) ?_)
  refine .bind (sp_meets hm.ready.retune (by omega) ?_)
  refine .bind (sp_meets hm.ready.retune hargs ?_)
  refine .bind (createSalt_meets (m := m) ext hop hs hm.ready hg (thrown_outOfGas rfl rfl)
    fun salt g hg => ?_)
  refine .bind (memNeed_meets (thrown_outOfGas rfl rfl) fun need hval hend => ?_)
  have hend' : rangeEnd (m.operand 1) (m.operand 2) ≤ int63max := hend
  have hfits : op.price schedule ext answer m ≤ 2 ^ 63 := by
    have hown := hs.price schedule.createGas (by simp [EVMSchedule.prices])
    have hsize := (size_le_rangeEnd (m.operand 1) (m.operand 2)).trans hend'
    have hwords : words (m.operand 2).toNat ≤ 2 ^ 58 := by
      unfold words int63max at *
      omega
    have hcode := Nat.mul_le_mul hwords hs.word
    rcases hop with rfl | rfl
    · show schedule.createGas ≤ _
      omega
    · show schedule.createGas + words (m.operand 2).toNat * schedule.sha3WordGas ≤ _
      omega
  refine charge_pays (m := m) (hval.trans hneed.symm) (hneed ▸ hend'.trans (by decide)) hm.copy_le
    ((congrArg (· + _) hg).trans (hm.reckoned _)) hfits fun m₁ hm₁ => ?_
  exact create_meets hop hm₁ (hm₁.ready hm.ready) hend'

end Creations

/-! ### Calls -/

/-- The instructions that call. -/
def Instruction.IsCall (op : Instruction) : Prop :=
  op = .call ∨ op = .callcode ∨ op = .delegatecall ∨ op = .staticcall

/-- Where a calling instruction has what. -/
structure CallRow [Sha3] (op : Instruction) : Prop where
  args : (instructionInfo op).args = sizesOffset op + 4
  ret : (instructionInfo op).ret = 1
  two_le : 2 ≤ sizesOffset op
  isCall : op.IsCall
  not_create : ¬(op = .create ∨ op = .create2)
  need (m : VMState) : op.need m =
    max (rangeEnd (m.operand (sizesOffset op)) (m.operand (sizesOffset op + 1)))
      (rangeEnd (m.operand (sizesOffset op + 2)) (m.operand (sizesOffset op + 3)))
  value (m : VMState) : op.value m = if haveValueArg op then m.operand 2 else 0
  value_args : haveValueArg op = true → 2 < (instructionInfo op).args
  price (schedule : EVMSchedule) (ext : ExtVM) (answer : (q : Query) → q.Reply) (m : VMState) :
    op.price schedule ext answer m = schedule.callGas + newAccountPrice schedule answer m op +
      if 0 < op.value m then schedule.callValueTransferGas else 0
  writes (ext : ExtVM) (answer : (q : Query) → q.Reply) (m : VMState) (data : Bytes)
    (h : data.length ≤ (m.operand (sizesOffset op + 3)).toNat) :
    op.Writes ext answer m (m.operand (sizesOffset op + 2)).toNat data
  leaves (code : Code) (m : VMState) (mem : Bytes) (v : U256) : op.Leaves code m mem v
  goes (code : Code) (m : VMState) : op.Goes code m (m.m_PC + 1)

theorem callRow [Sha3] {op : Instruction} (h : op.IsCall) : CallRow op := by
  rcases h with rfl | rfl | rfl | rfl
  · exact ⟨rfl, rfl, by decide, .inl rfl, by decide, fun _ => rfl, fun _ => rfl, fun _ => by decide,
      fun _ _ _ _ => rfl, fun _ _ _ _ h => ⟨rfl, h⟩, fun _ _ _ _ => trivial, fun _ _ => rfl⟩
  · exact ⟨rfl, rfl, by decide, .inr (.inl rfl), by decide, fun _ => rfl, fun _ => rfl,
      fun _ => by decide, fun _ _ _ _ => rfl, fun _ _ _ _ h => ⟨rfl, h⟩, fun _ _ _ _ => trivial,
      fun _ _ => rfl⟩
  · exact ⟨rfl, rfl, by decide, .inr (.inr (.inl rfl)), by decide, fun _ => rfl, fun _ => rfl,
      fun _ => by decide, fun _ _ _ _ => rfl, fun _ _ _ _ h => ⟨rfl, h⟩, fun _ _ _ _ => trivial,
      fun _ _ => rfl⟩
  · exact ⟨rfl, rfl, by decide, .inr (.inr (.inr rfl)), by decide, fun _ => rfl, fun _ => rfl,
      fun _ => by decide, fun _ _ _ _ => rfl, fun _ _ _ _ h => ⟨rfl, h⟩, fun _ _ _ _ => trivial,
      fun _ _ => rfl⟩

section Calls
variable {schedule : EVMSchedule} {ext : ExtVM} {answer : (q : Query) → q.Reply} {code : Code}
  {op : Instruction} {m : VMState} {E : VMException → VMState → Prop}

/-- The charge for a new account is made for a call to nobody. -/
theorem newAccountPrice_le (schedule : EVMSchedule) (answer : (q : Query) → q.Reply) (m : VMState)
    (op : Instruction) : newAccountPrice schedule answer m op ≤ schedule.callNewAccountGas := by
  unfold newAccountPrice
  split
  · exact le_rfl
  · exact Nat.zero_le _

theorem updateCallGas_meets [Sha3] {P : Unit → VMState → Prop} {g : U64} (ext : ExtVM)
    (hrow : CallRow op) (hs : schedule.Moderate)
    (hm : Ready m (instructionInfo op).args (instructionInfo op).ret)
    (hg : g.toNat = schedule.callGas) (hout : ∀ g, E .outOfGas {m with m_runGas := g})
    (hok : ∀ g : U64, g.toNat = op.price schedule ext answer m → P () {m with m_runGas := g}) :
    Meets answer P E (updateCallGas schedule op (op.value m)) {m with m_runGas := g} := by
  have hargs := hrow.args
  have hown := hs.price schedule.callGas (by simp [EVMSchedule.prices])
  have hnew := hs.price schedule.callNewAccountGas (by simp [EVMSchedule.prices])
  have hlast : ∀ g : U64, g.toNat = schedule.callGas + newAccountPrice schedule answer m op →
      Meets answer P E
        (if 0 < op.value m then addRunGas schedule.callValueTransferGas else pure ())
        {m with m_runGas := g} := by
    intro g hg
    have hle := newAccountPrice_le schedule answer m op
    rw [meets_ite]
    split
    case isTrue hvalue =>
      refine addRunGas_meets (by show g.toNat ≤ _; omega) (hout _) fun w hw _ => hok w ?_
      rw [hw, hrow.price, if_pos hvalue]
      exact congrArg (· + _) hg
    case isFalse hvalue =>
      refine .pure (hok g ?_)
      rw [hg, hrow.price, if_neg hvalue]
      rfl
  unfold updateCallGas
  dsimp only
  rw [meets_ite]
  split
  case isTrue hcall =>
    refine .bind (sp_meets hm.retune (by omega) (.bind (.ask ?_)))
    have hoperand : ({m with m_runGas := g} : VMState).operand 1 = m.operand 1 := rfl
    rw [hoperand, meets_ite]
    split
    case isTrue hexists =>
      have hexists' : answer (.exists (asAddress (m.operand 1))) = false := by simpa using hexists
      rw [meets_ite]
      split
      case isTrue hcharges =>
        refine .bind (addRunGas_meets (by show g.toNat ≤ _; omega) (hout _) fun w hw _ => ?_)
        refine hlast w ?_
        rw [hw, newAccountPrice, if_pos ⟨hcall, hexists', hcharges⟩]
        exact congrArg (· + _) hg
      case isFalse hcharges =>
        refine hlast g ?_
        rw [hg, newAccountPrice, if_neg fun hall => hcharges hall.2.2]
        rfl
    case isFalse hexists =>
      refine hlast g ?_
      rw [hg, newAccountPrice, if_neg fun hall => hexists (by rw [hall.2.1]; rfl)]
      rfl
  case isFalse hcall =>
    refine hlast g ?_
    rw [hg, newAccountPrice, if_neg fun hall => hcall hall.1]
    rfl

theorem toNat_max (a b : U64) : (max a b).toNat = max a.toNat b.toNat := by
  by_cases h : a ≤ b
  · rw [max_eq_right h, max_eq_right (BitVec.le_def.mp h)]
  · have hle := le_of_not_ge h
    rw [max_eq_left hle, max_eq_left (BitVec.le_def.mp hle)]

/-- The memory for the input and the output, and the charge for it and the price. -/
theorem updateCallMem_meets [Sha3] {P : Unit → VMState → Prop} {g : U64} (hrow : CallRow op)
    (hs : schedule.Moderate) (hm : Fetched schedule op m)
    (hg : g.toNat = op.price schedule ext answer m)
    (hok : ∀ m₁, rangeEnd (m.operand (sizesOffset op)) (m.operand (sizesOffset op + 1)) ≤ int63max →
      rangeEnd (m.operand (sizesOffset op + 2)) (m.operand (sizesOffset op + 3)) ≤ int63max →
      Charged schedule m (op.need m) (op.price schedule ext answer m) m₁ → P () m₁) :
    Meets answer P (Thrown schedule ext answer code op m) (updateCallMem schedule op)
      {m with m_runGas := g} := by
  have hargs := hrow.args
  refine .bind (sp_meets hm.ready.retune (by omega) ?_)
  refine .bind (sp_meets hm.ready.retune (by omega) ?_)
  refine .bind (memNeed_meets (thrown_outOfGas rfl rfl) fun input hinput hinputEnd => ?_)
  refine .bind (sp_meets hm.ready.retune (by omega) ?_)
  refine .bind (sp_meets hm.ready.retune (by omega) ?_)
  refine .bind (memNeed_meets (thrown_outOfGas rfl rfl) fun output houtput houtputEnd => ?_)
  have hneed : (max input output).toNat = op.need m := by
    rw [toNat_max, hinput, houtput, hrow.need]
    rfl
  have hprice : op.price schedule ext answer m ≤ 2 ^ 63 := by
    have hown := hs.price schedule.callGas (by simp [EVMSchedule.prices])
    have hnew := hs.price schedule.callNewAccountGas (by simp [EVMSchedule.prices])
    have htransfer := hs.price schedule.callValueTransferGas (by simp [EVMSchedule.prices])
    have hle := newAccountPrice_le schedule answer m op
    rw [hrow.price]
    split_ifs
    all_goals omega
  have hbound : op.need m ≤ int63max := by
    rw [hrow.need]
    exact max_le hinputEnd houtputEnd
  have hcharge : Meets answer P (Thrown schedule ext answer code op m)
      (updateMem schedule (max input output) >>= fun _ => updateIOGas >>= fun _ => pure ())
      {m with m_runGas := g} :=
    charge_pays hneed (hbound.trans (by decide)) hm.copy_le
      ((congrArg (· + _) hg).trans (hm.reckoned _)) hprice
      fun m₁ hm₁ => .pure (hok m₁ hinputEnd houtputEnd hm₁)
  rw [meets_bind] at hcharge ⊢
  refine hcharge.mono (fun _ _ h => ?_) fun _ _ h => h
  exact ((meets_bind _ _).mp h).mono (fun _ _ h => h.comes) fun _ _ h => h

theorem toNat_min (a b : U256) : (min a b).toNat = min a.toNat b.toNat := by
  by_cases h : a ≤ b
  · rw [min_eq_left h, min_eq_left (BitVec.le_def.mp h)]
  · have hle := le_of_not_ge h
    rw [min_eq_right hle, min_eq_right (BitVec.le_def.mp hle)]

/-- The gas for the call leaves the machine. -/
theorem callGas_meets [Sha3] {P : U256 → VMState → Prop} {m₁ : VMState} (hrow : CallRow op)
    (hm : Ready m (instructionInfo op).args (instructionInfo op).ret)
    (hm₁ : Charged schedule m (op.need m) (op.price schedule ext answer m) m₁)
    (hok : ∀ gas m₂, gas.toNat = op.callGas schedule ext answer m → gas.toNat ≤ int63max →
      Charged schedule m₁ 0 gas.toNat m₂ → P gas m₂) :
    Meets answer P (Thrown schedule ext answer code op m) (callGas schedule) m₁ := by
  have hargs := hrow.args
  have hleft : op.left schedule ext answer m = m₁.m_io_gas.toNat := by
    have hgas := hm₁.gas
    unfold left cost
    omega
  have hpaid : ∀ g, Thrown schedule ext answer code op m .outOfGas {m₁ with m_runGas := g} :=
    fun g => ⟨⟨_, hm₁.mem, by have := hm₁.gas; show m₁.m_io_gas.toNat + _ ≤ _; omega⟩, trivial⟩
  refine .bind (.get (.bind (sp_meets (hm₁.ready hm) (by omega) ?_)))
  dsimp only
  rw [hm₁.operand]
  generalize hgas : (if schedule.staticCallDepthLimit = true then m.operand 0 else
    min (m.operand 0) _) = gas
  have hvalue : gas.toNat = op.callGas schedule ext answer m := by
    unfold Instruction.callGas allowed
    rw [hleft, ← hgas]
    split
    · rfl
    · have hbig : ((m₁.m_io_gas - m₁.m_io_gas / 64).setWidth 256 : U256).toNat =
          m₁.m_io_gas.toNat - m₁.m_io_gas.toNat / 64 := by
        have hdiv : (m₁.m_io_gas / 64).toNat = m₁.m_io_gas.toNat / 64 := BitVec.toNat_udiv ..
        rw [BitVec.toNat_setWidth, BitVec.toNat_sub_of_le (by
          rw [BitVec.le_def, hdiv]
          exact Nat.div_le_self ..), hdiv]
        exact Nat.mod_eq_of_lt ((Nat.sub_le ..).trans_lt (m₁.m_io_gas.isLt.trans (by norm_num)))
      rw [toNat_min, hbig]
  refine .bind (setRunGas_meets (hpaid _) fun g hg hle => ?_)
  refine .bind (updateIOGas_meets schedule hg (hpaid g) fun m₂ hm₂ => .pure ?_)
  exact hok gas m₂ hvalue hle hm₂.retune
/-- The parameters of the call, when its memory is paid for. -/
theorem callParameters_meets [Sha3] {P : Option CallParameters → VMState → Prop} {value gas : U256}
    (hrow : CallRow op) (hm : Ready m (instructionInfo op).args (instructionInfo op).ret)
    (hend : rangeEnd (m.operand (sizesOffset op)) (m.operand (sizesOffset op + 1)) ≤ int63max)
    (hroom : rangeEnd (m.operand (sizesOffset op)) (m.operand (sizesOffset op + 1)) ≤
      m.m_mem.length)
    (hsome : Admitted ext answer value → ∀ params : CallParameters, params.gas = gas →
      P (some params) m)
    (hnone : ¬Admitted ext answer value → P none m) :
    Meets answer P E (callParameters ext op value gas) m := by
  have hargs := hrow.args
  refine .bind (sp_meets hm (by omega) (.bind (.ask ?_)))
  rw [meets_ite]
  split
  case isTrue hadmitted =>
    refine .bind (sp_meets hm (by omega) (.bind (sp_meets hm (by omega) ?_)))
    exact .bind (readRange_meets hend hroom (.pure (hsome hadmitted _ rfl)))
  case isFalse hadmitted => exact .pure (hnone hadmitted)

/-- The output of a call lies in the memory that was paid for. -/
theorem writeOutput_meets {P : Unit → VMState → Prop} {offset size : U256} {output : Bytes}
    (hend : rangeEnd offset size ≤ int63max) (hroom : rangeEnd offset size ≤ m.m_mem.length)
    (hok : P () {m with
      m_mem := overwrite m.m_mem offset.toNat (output.take size.toNat)}) :
    Meets answer P E (writeMem (toUint64 offset) (output.take (toUint64 size))) m := by
  rw [toUint64_of_le ((size_le_rangeEnd ..).trans hend)]
  by_cases h : size = 0
  · subst h
    have hnil : output.take (0 : U256).toNat = [] := List.take_zero
    rw [hnil, overwrite_nil] at hok
    rw [hnil]
    refine writeMem_meets (fun h => absurd rfl h) ?_
    rw [overwrite_nil]
    exact hok
  · rw [rangeEnd_of_ne h] at hend hroom
    rw [toUint64_of_le (Nat.le_of_add_right_le hend)]
    refine writeMem_meets (fun _ => ?_) hok
    rw [List.length_take]
    omega

/-- What comes back of a call is added to the gas that is left. -/
theorem toNat_refunded {g left : U64} {returned : U256} {sent stipend : ℕ}
    (hsent : left.toNat + sent = g.toNat) (hfits : g.toNat + stipend < 2 ^ 64)
    (hle : returned.toNat ≤ sent + stipend) :
    (left + returned.setWidth 64).toNat + sent = g.toNat + returned.toNat := by
  have hreturned : (returned.setWidth 64 : U64).toNat = returned.toNat := by
    rw [BitVec.toNat_setWidth]
    exact Nat.mod_eq_of_lt (by omega)
  rw [BitVec.toNat_add, hreturned, Nat.mod_eq_of_lt (by omega)]
  omega

/-- The stipend of a call has been charged. -/
theorem stipend_le_price [Sha3] (hrow : CallRow op) (hs : schedule.Moderate) (ext : ExtVM)
    (answer : (q : Query) → q.Reply) (m : VMState) :
    op.stipend schedule m ≤ op.price schedule ext answer m := by
  have hstipend := hs.stipend
  rw [hrow.price]
  unfold stipend
  split
  · omega
  · exact Nat.zero_le _

section Finishing
variable [Sha3] {m₁ m₂ : VMState} {gas : U256} {sent : ℕ}

/-- A call that has been made, or not, when its gas and its memory are charged. -/
theorem finishCall_meets (hrow : CallRow op) (hs : schedule.Moderate) (hm : Fetched schedule op m)
    (hm₁ : Charged schedule m (op.need m) (op.price schedule ext answer m) m₁)
    (hm₂ : Charged schedule m₁ 0 sent m₂) (hsent : sent = op.callGas schedule ext answer m)
    (hgas : gas.toNat = sent + op.stipend schedule m)
    (hend : rangeEnd (m.operand (sizesOffset op + 2)) (m.operand (sizesOffset op + 3)) ≤ int63max)
    {params : Option CallParameters}
    (hsome : ∀ p, params = some p → Admitted ext answer (op.value m) ∧ p.gas = gas)
    (hnone : params = none → ¬Admitted ext answer (op.value m)) :
    Meets answer (Executed schedule ext answer code op m) (Thrown schedule ext answer code op m)
      (finishCall op gas params) m₂ := by
  have hargs := hrow.args
  have hcalls : op = .call ∨ op = .callcode ∨ op = .delegatecall ∨ op = .staticcall := hrow.isCall
  have hready : Ready m₂ (instructionInfo op).args (instructionInfo op).ret :=
    hm₂.ready (hm₁.ready hm.ready)
  have hret : 0 < (instructionInfo op).ret := hrow.ret ▸ Nat.one_pos
  have hpaid := hm₁.gas
  have hsentGas : m₂.m_io_gas.toNat + sent = m₁.m_io_gas.toNat := by
    have := hm₂.gas
    rwa [expansion_zero] at this
  have hfits : m₁.m_io_gas.toNat + op.stipend schedule m < 2 ^ 64 := by
    have hle := stipend_le_price hrow hs ext answer m
    have hlt := m.m_io_gas.isLt
    omega
  have hmem : m₂.m_mem = m₁.m_mem := by rw [hm₂.mem, grown_zero]
  have hoperand : ∀ i, m₂.operand i = m.operand i := fun i =>
    (hm₂.operand i).trans (hm₁.operand i)
  have hgoes : op.Goes code m (m₂.m_PC + 1) := by
    rw [hm₂.pc, hm₁.pc]
    exact hrow.goes code m
  cases params with
  | some params =>
    obtain ⟨hadmitted, hparams⟩ := hsome params rfl
    refine .bind (.ask (q := Query.call params) ?_)
    dsimp only
    refine .bind (sp_meets hready (by omega) (.bind (sp_meets hready (by omega) ?_)))
    rw [hoperand, hoperand]
    refine .bind (writeOutput_meets hend ?_ (.bind (.modify (.bind ?_))))
    · rw [hmem, hm₁.mem, hrow.need]
      exact (le_max_right ..).trans (le_length_grown ..)
    have hwritten : ∀ mem returned, Ready {m₂ with m_mem := mem, m_returnData := returned}
        (instructionInfo op).args (instructionInfo op).ret := fun _ _ =>
      ⟨hready.low, hready.high, hready.spp, hready.room⟩
    refine setSPP_meets (hwritten _ _) hret (.bind (.modify (next_meets ?_)))
    have hsends : op.Sends schedule ext answer m sent (answer (.call params)).gas.toNat := by
      rw [Sends, if_neg hrow.not_create, if_pos hcalls]
      exact ⟨hsent, .inl ⟨hadmitted, params, by rw [hparams, hgas], rfl⟩⟩
    have hwrites := hrow.writes ext answer m
      ((answer (.call params)).output.bytes.take (m.operand (sizesOffset op + 3)).toNat)
      (List.length_take_le ..)
    exact hm₁.sent hsends (toNat_refunded hsentGas hfits) hwrites (congrArg (overwrite · _ _) hmem)
      (hrow.leaves ..) (fun _ => hgoes) hm₂.spp
  | none =>
    have hadmitted := hnone rfl
    refine .bind (setSPP_meets hready hret (.bind (.modify (next_meets ?_))))
    have hsends : op.Sends schedule ext answer m sent gas.toNat := by
      rw [Sends, if_neg hrow.not_create, if_pos hcalls]
      exact ⟨hsent, .inr ⟨hadmitted, hgas⟩⟩
    refine hm₁.sent hsends (toNat_refunded hsentGas hfits)
      (hrow.writes ext answer m [] (Nat.zero_le _)) ?_ (hrow.leaves ..) (fun _ => hgoes) hm₂.spp
    rw [overwrite_nil]
    exact hmem

/-- The state in which a call is set up differs in the data that was returned before. -/
theorem executed_refunded {returned : Buffer} {flow : Flow} {m' : VMState} (hop : op.IsCall)
    (h : Executed schedule ext answer code op {m with m_returnData := returned} flow m') :
    Executed schedule ext answer code op m flow m' := by
  rcases hop with rfl | rfl | rfl | rfl
  all_goals exact ⟨h.gas, h.mem, h.leaves, h.goes, h.spp⟩

omit [Sha3] in
theorem thrown_refunded {returned : Buffer} {e : VMException} {m' : VMState} (hop : op.IsCall)
    (h : Thrown schedule ext answer code op {m with m_returnData := returned} e m') :
    Thrown schedule ext answer code op m e m' := by
  rcases hop with rfl | rfl | rfl | rfl
  all_goals exact ⟨h.paid, h.settled⟩

/-- The gas, the memory and the parameters of a call, and what is done with them. -/
theorem callSetup_carries {g : U64} (hrow : CallRow op) (hs : schedule.Moderate)
    (hm : Fetched schedule op m) (hg : g.toNat = schedule.callGas) :
    Meets answer (fun r => Meets answer (Executed schedule ext answer code op m)
        (Thrown schedule ext answer code op m) (finishCall op r.1 r.2))
      (Thrown schedule ext answer code op m)
      (do
        updateCallGas schedule op (op.value m)
        updateCallMem schedule op
        let callGas ← callGas schedule
        let gas := if 0 < op.value m then callGas + BitVec.ofNat 256 schedule.callStipend
          else callGas
        return (gas, ← callParameters ext op (op.value m) gas)) {m with m_runGas := g} := by
  refine .bind (updateCallGas_meets ext hrow hs hm.ready hg (fun _ => thrown_outOfGas rfl rfl)
    fun g hg => ?_)
  refine .bind (updateCallMem_meets hrow hs hm hg fun m₁ hinput houtput hm₁ => ?_)
  refine .bind (callGas_meets hrow hm.ready hm₁ fun gas m₂ hgas hle hm₂ => ?_)
  dsimp only
  have hoperand : ∀ i, m₂.operand i = m.operand i := fun i =>
    (hm₂.operand i).trans (hm₁.operand i)
  generalize hsum : (if 0 < op.value m then gas + BitVec.ofNat 256 schedule.callStipend
    else gas) = sum
  have hsent : sum.toNat = gas.toNat + op.stipend schedule m := by
    have hsmall := hs.price schedule.callStipend (by simp [EVMSchedule.prices])
    rw [← hsum, stipend]
    split
    case isTrue =>
      unfold int63max at hle
      rw [BitVec.toNat_add, BitVec.toNat_ofNat, Nat.mod_eq_of_lt (a := schedule.callStipend)
        (by omega)]
      exact Nat.mod_eq_of_lt (by omega)
    case isFalse => rfl
  refine .bind (callParameters_meets hrow (hm₂.ready (hm₁.ready hm.ready)) ?_ ?_ ?_ ?_)
  · rw [hoperand, hoperand]
    exact hinput
  · rw [hoperand, hoperand, hm₂.mem, grown_zero, hm₁.mem, hrow.need]
    exact (le_max_left ..).trans (le_length_grown ..)
  · intro hadmitted params hparams
    refine .pure (finishCall_meets hrow hs hm hm₁ hm₂ hgas hsent houtput
      (fun p hp => ?_) fun hp => ?_)
    · cases hp
      exact ⟨hadmitted, hparams⟩
    · cases hp
  · intro hadmitted
    refine .pure (finishCall_meets hrow hs hm hm₁ hm₂ hgas hsent houtput
      (fun p hp => ?_) fun _ => hadmitted)
    cases hp

theorem caseCallSetup_carries (hrow : CallRow op) (hs : schedule.Moderate)
    (hm : Fetched schedule op m) :
    Carries schedule ext answer code op
      (caseCallSetup schedule ext op >>= fun r => finishCall op r.1 r.2) m := by
  refine .bind (.bind (setRunGas_meets (thrown_outOfGas rfl rfl) fun g hg _ => ?_))
  dsimp only
  rw [meets_ite]
  split
  case isTrue h =>
    have hvalue : ({m with m_runGas := g} : VMState).operand 2 = op.value m := by
      rw [hrow.value, if_pos h]
      rfl
    refine .bind (sp_meets hm.ready.retune (hrow.value_args h) ?_)
    rw [hvalue]
    exact callSetup_carries hrow hs hm hg
  case isFalse h =>
    have hvalue : op.value m = 0 := by rw [hrow.value, if_neg h]
    have hsetup := @callSetup_carries schedule ext answer code op m _ g hrow hs hm hg
    rw [hvalue] at hsetup
    exact .bind (.pure hsetup)

theorem caseCall_carries (hop : op.IsCall) (hs : schedule.Moderate) (hm : Fetched schedule op m) :
    Carries schedule ext answer code op (caseCall schedule ext op) m := by
  refine .bind (.modify ?_)
  have hcall : Carries schedule ext answer code op
      (caseCallSetup schedule ext op >>= fun r => finishCall op r.1 r.2)
      {m with m_returnData := .empty} :=
    caseCallSetup_carries (callRow hop) hs ⟨hm.ready.refunded, hm.price, hm.copy⟩
  exact hcall.mono (fun _ _ h => executed_refunded hop h) fun _ _ h => thrown_refunded hop h

end Finishing
end Calls
/-! ### The switch -/

section Switch
variable [Sha3] {evmOptimize : Bool} {schedule : EVMSchedule} {ext : ExtVM}
  {answer : (q : Query) → q.Reply} {code : Code} {op : Instruction} {m : VMState}

theorem caseExp_carries (hs : schedule.Moderate) (hm : Fetched schedule .exp m) :
    Carries schedule ext answer code .exp (do
      setRunGas ((schedule.expGas + schedule.expByteGas * byteCount (← sp 1)) % 2 ^ 32)
      caseComputed true (binary exp256)) m := by
  have hplain : Plain .exp := ⟨fun _ => rfl, fun _ _ _ _ => ⟨rfl, rfl⟩, fun _ _ _ => rfl,
    fun _ _ _ _ => trivial, fun _ _ => rfl⟩
  refine .bind (sp_meets hm.ready Nat.one_lt_two ?_)
  refine .bind (setRunGas_meets (thrown_outOfGas rfl rfl) fun g hg _ => ?_)
  refine caseComputed_meets hplain Nat.one_pos (computes_binary _ le_rfl) hm.ready ?_
  have hown := hs.price schedule.expGas (by simp [EVMSchedule.prices])
  have hbyte := hs.price schedule.expByteGas (by simp [EVMSchedule.prices])
  have hcount : byteCount (m.operand 1) ≤ 32 := Nat.sub_le ..
  have := Nat.mul_le_mul hbyte hcount
  rw [hg]
  exact Nat.mod_eq_of_lt (by omega)

theorem special_carries (hop : op.known = true) (hs : schedule.Moderate)
    (hm : Fetched schedule op m) :
    Carries schedule ext answer code op (special evmOptimize schedule ext code op) m := by
  cases op
  case create2 =>
    refine .bind (require_meets thrown_badInstruction fun _ => ?_)
    exact .bind (refuse_meets thrown_disallowedStateChange (caseCreate_carries (.inr rfl) hs hm))
  case create =>
    exact .bind (refuse_meets thrown_disallowedStateChange (caseCreate_carries (.inl rfl) hs hm))
  case delegatecall =>
    refine .bind (require_meets thrown_badInstruction fun _ => ?_)
    exact caseCall_carries (.inr (.inr (.inl rfl))) hs hm
  case staticcall =>
    refine .bind (require_meets thrown_badInstruction fun _ => ?_)
    exact caseCall_carries (.inr (.inr (.inr rfl))) hs hm
  case call =>
    refine .bind (sp_meets hm.ready (by decide) ?_)
    exact .bind (refuse_meets thrown_disallowedStateChange (caseCall_carries (.inl rfl) hs hm))
  case callcode => exact caseCall_carries (.inr (.inl rfl)) hs hm
  case return_ => exact caseReturn_carries hs hm
  case revert => exact caseRevert_carries hs hm
  case suicide => exact caseSuicide_carries hs hm
  case stop =>
    refine pay_meets hm.price fun m₁ hm₁ => .pure ?_
    exact Charged.done hm₁ ⟨rfl, rfl⟩ rfl rfl rfl trivial (fun h => absurd h (by decide)) rfl
  case mload => exact caseMload_carries hs hm
  case mstore => exact caseMstore_carries hs hm
  case mstore8 => exact caseMstore8_carries hs hm
  case sha3 => exact caseSha3_carries hm
  case log n => exact caseLog_carries hm hs (of_decide_eq_true hop)
  case exp => exact caseExp_carries hs hm
  case calldatacopy => exact calldatacopy_carries hs hm
  case returndatacopy => exact caseReturndatacopy_carries hs hm
  case codecopy => exact codecopy_carries hs hm
  case extcodecopy => exact caseExtcodecopy_carries hs hm
  case pop =>
    refine pay_meets hm.price fun m₁ hm₁ => next_meets ?_
    exact Charged.done hm₁ ⟨rfl, rfl⟩ rfl rfl rfl trivial (fun _ => congrArg (· + 1) hm₁.pc) rfl
  case push n => exact casePush_carries hm
  case pushc => exact casePushc_carries hm
  case jump => exact caseJump_carries hm
  case jumpi => exact caseJumpi_carries hm
  case jumpc => exact caseJumpc_carries hm
  case jumpci => exact caseJumpci_carries hm
  case swap n => exact caseSwap_carries hm
  case sstore => exact caseSstore_carries hs hm
  case jumpdest =>
    refine .bind (.modify (pay_meets (g := 1) rfl fun m₁ hm₁ => next_meets ?_))
    exact Charged.done hm₁ ⟨rfl, rfl⟩ rfl rfl rfl trivial (fun _ => congrArg (· + 1) hm₁.pc) rfl
  all_goals exact .throw thrown_badInstruction

/-- Every case does what `Effects` says of its instruction, or throws with the gas and the memory
in order. -/
theorem interpretCase_meets (hop : op.known = true) (hs : schedule.Moderate)
    (hm : Fetched schedule op m) :
    Carries schedule ext answer code op (interpretCase evmOptimize schedule ext code op) m := by
  unfold interpretCase
  cases hcomputed : computed schedule ext op with
  | some row =>
    have hdup : op ≠ .dup 0 := fun h => absurd (h ▸ hop) (by decide)
    have hrow := computedRow hdup hcomputed
    exact caseComputed_meets hrow.plain hrow.ret hrow.word hm.ready
      (hm.price.trans (hrow.price ext answer m).symm)
  | none =>
    cases hasked : asked schedule op with
    | some a => exact caseAsked_meets (askedRow hasked) hm
    | none => exact special_carries hop hs hm

end Switch
end Aleth.Evm
