import Aleth.Evm.Calls

/-! The metering of a step (`fetchInstruction`, then the case).

Whatever is on the stack, a step charges what its instruction costs in unbounded
numbers, or there is not enough gas for it; memory grows to what was paid for,
and what comes back of a creation or a call is never more than was sent. -/
namespace Aleth.Evm
open Devcore Machine Instruction

/-- The stack pointer is at a slot or at the end of the stack. -/
structure VMState.Balanced (m : VMState) : Prop where
  low : 0 ≤ m.m_SPP
  high : m.m_SPP ≤ stackLimit

/-- The machine with the operands of the instruction in reach. -/
def VMState.fetched (m : VMState) (schedule : EVMSchedule) (op : Instruction) : VMState :=
  {m with
    m_OP := op
    m_SP := m.m_SPP
    m_SPP := m.m_SPP + (instructionInfo op).args - (instructionInfo op).ret
    m_runGas := BitVec.ofNat 64 (schedule.tierStepGas (instructionInfo op).gasPriceTier)
    m_newMemSize := BitVec.ofNat 64 m.m_mem.length
    m_copyMemSize := 0}

/-- Creations and calls give back no more gas than they were given. -/
structure Honest (answer : (q : Query) → q.Reply) : Prop where
  create (endowment gas : U256) (code : Bytes) (op : Instruction) (salt : U256) :
    (answer (.create endowment gas code op salt)).gas.toNat ≤ gas.toNat
  call (params : CallParameters) : (answer (.call params)).gas.toNat ≤ params.gas.toNat

/-- What a step that goes through has charged, and what memory there is after it. -/
structure Metered (schedule : EVMSchedule) (ext : ExtVM) (answer : (q : Query) → q.Reply)
    (op : Instruction) (m m' : VMState) : Prop where
  charged : ∃ sent returned, op.Sends schedule ext answer m sent returned ∧
    m'.m_io_gas.toNat + (op.cost schedule ext answer m + sent) = m.m_io_gas.toNat + returned
  mem : m'.m_mem.length = max m.m_mem.length (roundUp (op.need m))
  le : m'.m_io_gas.toNat ≤ m.m_io_gas.toNat

/-- What a step that throws has charged: what it costs, or nothing, if there was gas for it. -/
structure Broken (schedule : EVMSchedule) (ext : ExtVM) (answer : (q : Query) → q.Reply)
    (op : Instruction) (m : VMState) (e : VMException) (m' : VMState) : Prop where
  charged : e ≠ .outOfGas →
    m'.m_io_gas.toNat + op.cost schedule ext answer m = m.m_io_gas.toNat ∧
        m'.m_mem.length = max m.m_mem.length (roundUp (op.need m)) ∨
      m'.m_io_gas = m.m_io_gas ∧ m'.m_mem = m.m_mem
  paid : ∃ need, m'.m_mem.length = max m.m_mem.length (roundUp need) ∧
    m'.m_io_gas.toNat + expansion schedule m.m_mem.length need ≤ m.m_io_gas.toNat

section Metering
variable {schedule : EVMSchedule} {ext : ExtVM} {answer : (q : Query) → q.Reply} {code : Code}
  {op : Instruction} {m : VMState}

/-! ### Fetching -/

/-- How many slots are in use. -/
def VMState.stackSize (m : VMState) : ℤ := stackLimit - m.m_SPP

/-- There are operands enough for the instruction. -/
def Instruction.HasOperands (op : Instruction) (m : VMState) : Prop :=
  ((instructionInfo op).args : ℤ) ≤ m.stackSize

/-- There is room for what the instruction leaves. -/
def Instruction.HasRoom (op : Instruction) (m : VMState) : Prop :=
  m.stackSize - (instructionInfo op).args + (instructionInfo op).ret ≤ stackLimit

theorem adjustStack_meets {P : Unit → VMState → Prop} {E : VMException → VMState → Prop}
    {removed added : ℕ} (hlow : 0 ≤ m.m_SPP)
    (hunder : stackLimit < m.m_SPP + removed → ∀ m', m'.m_io_gas = m.m_io_gas →
      m'.m_mem = m.m_mem → E .stackUnderflow m')
    (hover : m.m_SPP + removed ≤ stackLimit → m.m_SPP + removed - added < 0 →
      ∀ m', m'.m_io_gas = m.m_io_gas → m'.m_mem = m.m_mem → E .outOfStack m')
    (hok : m.m_SPP + removed ≤ stackLimit → 0 ≤ m.m_SPP + removed - added →
      P () {m with m_SP := m.m_SPP, m_SPP := m.m_SPP + removed - added}) :
    Meets answer P E (adjustStack removed added) m := by
  refine .bind (.modify (.bind (.get ?_)))
  dsimp only
  rw [meets_ite]
  split
  case isTrue hhigh =>
    unfold throwBadStack
    rw [if_pos (by omega)]
    exact .bind (.throw (hunder hhigh _ rfl rfl))
  case isFalse hhigh =>
    refine .bind (.modify (.bind (.get ?_)))
    rw [meets_ite]
    split
    case isTrue hneg =>
      unfold throwBadStack
      rw [if_neg (by omega)]
      exact .throw (hover (not_lt.mp hhigh) hneg _ rfl rfl)
    case isFalse hneg => exact .pure (hok (not_lt.mp hhigh) (not_lt.mp hneg))

/-- An instruction that is fetched finds its operands, or there are too few or too many. -/
theorem fetchInstruction_meets {P : Unit → VMState → Prop} {E : VMException → VMState → Prop}
    {b : UInt8} (hs : schedule.Moderate) (hm : m.Balanced) (hb : code.m_code[m.m_PC]? = some b)
    (hunder : ¬(ofByte b).HasOperands m → ∀ m', m'.m_io_gas = m.m_io_gas → m'.m_mem = m.m_mem →
      E .stackUnderflow m')
    (hover : (ofByte b).HasOperands m → ¬(ofByte b).HasRoom m → ∀ m', m'.m_io_gas = m.m_io_gas →
      m'.m_mem = m.m_mem → E .outOfStack m')
    (hok : (ofByte b).HasOperands m → (ofByte b).HasRoom m →
      Fetched schedule (ofByte b) (m.fetched schedule (ofByte b)) →
      P () (m.fetched schedule (ofByte b))) :
    Meets answer P E (fetchInstruction schedule code) m := by
  have htier := hs.tier (instructionInfo (ofByte b)).gasPriceTier
  simp only [HasOperands, HasRoom, VMState.stackSize] at hunder hover hok
  refine .bind (.get ?_)
  rw [hb]
  refine .bind (.modify (.bind (adjustStack_meets hm.low ?_ ?_ ?_)))
  · intro h
    exact hunder (by show ¬_ ≤ _; dsimp only at h; omega)
  · intro h h'
    exact hover (by dsimp only at h; omega) (by dsimp only at h'; omega)
  intro hhigh hlow
  unfold setRunGas toInt63
  rw [if_neg (by unfold int63max; omega)]
  dsimp only at hhigh hlow
  refine .bind (.bind (.pure (.modify (.modify (hok (by omega) (by omega) ?_)))))
  exact ⟨⟨hm.low, hhigh, rfl, hlow⟩, toNat_ofNat_of_le (by show _ ≤ _; omega), rfl⟩

/-! ### What the outcomes say -/

theorem within_rangeEnd {offset size : U256} {data : Bytes} (h : data.length ≤ size.toNat) :
    data = [] ∨ offset.toNat + data.length ≤ rangeEnd offset size := by
  by_cases hsize : size = 0
  · subst hsize
    exact .inl (List.eq_nil_of_length_eq_zero (Nat.le_zero.mp h))
  · rw [rangeEnd_of_ne hsize]
    exact .inr (Nat.add_le_add_left h _)

theorem length_padded (data : Bytes) (index size : ℕ) : (padded data index size).length = size := by
  rw [padded, List.length_map, List.length_range]

/-- Nothing is written outside the memory that the instruction needs. -/
theorem Instruction.Writes.within {offset : ℕ} {data : Bytes}
    (h : op.Writes ext answer m offset data) : data = [] ∨ offset + data.length ≤ op.need m := by
  have hcopy {o i s : U256} {l : Bytes}
      (h : offset = o.toNat ∧ data = padded l i.toNat s.toNat) :
      data = [] ∨ offset + data.length ≤ rangeEnd o s := by
    rw [h.1]
    exact within_rangeEnd (by rw [h.2, length_padded])
  have hcall {o s : U256} {rest : ℕ} (h : offset = o.toNat ∧ data.length ≤ s.toNat) :
      data = [] ∨ offset + data.length ≤ max rest (rangeEnd o s) := by
    rw [h.1]
    exact (within_rangeEnd h.2).imp_right fun hle => hle.trans (le_max_right ..)
  cases op
  case mstore =>
    refine .inr ?_
    rw [h.1, h.2, toBigEndian_length]
    exact Nat.add_le_add_right (toUnsigned_le _) 32
  case mstore8 =>
    refine .inr ?_
    rw [h.1, h.2]
    exact Nat.add_le_add_right (toUnsigned_le _) 1
  case calldatacopy => exact hcopy h
  case codecopy => exact hcopy h
  case returndatacopy => exact hcopy h
  case extcodecopy => exact hcopy h
  case call => exact hcall h
  case callcode => exact hcall h
  case delegatecall => exact hcall h
  case staticcall => exact hcall h
  all_goals exact .inl h

theorem sends_le [Sha3] (hworld : Honest answer) {sent returned : ℕ}
    (h : op.Sends schedule ext answer m sent returned) :
    returned ≤ sent + op.stipend schedule m := by
  unfold Sends at h
  split at h
  case isTrue =>
    rcases h with ⟨-, -, gas, code, salt, hgas, hreturned⟩ | ⟨-, -, hreturned⟩
    · rw [hreturned, ← hgas]
      exact (hworld.create ..).trans (Nat.le_add_right ..)
    · rw [hreturned]
      exact Nat.zero_le _
  case isFalse =>
    split at h
    case isTrue =>
      rcases h with ⟨-, ⟨-, params, hgas, hreturned⟩ | ⟨-, hreturned⟩⟩
      · rw [hreturned, ← hgas]
        exact hworld.call params
      · exact hreturned.le
    case isFalse =>
      rw [h.2]
      exact Nat.zero_le _

/-- The stipend is part of the price. -/
theorem stipend_le [Sha3] (hs : schedule.Moderate) (ext : ExtVM) (answer : (q : Query) → q.Reply)
    (op : Instruction) (m : VMState) : op.stipend schedule m ≤ op.price schedule ext answer m := by
  by_cases hcall : op.IsCall
  · exact stipend_le_price (callRow hcall) hs ext answer m
  · have hvalue : op.value m = 0 := by
      cases op
      case call => exact absurd (.inl rfl) hcall
      case callcode => exact absurd (.inr (.inl rfl)) hcall
      all_goals rfl
    rw [stipend, hvalue, if_neg (by decide)]
    exact Nat.zero_le _

/-- What an instruction charges is more than what comes back by what the memory costs. -/
theorem Executed.pays [Sha3] {flow : Flow} {m' : VMState} (hs : schedule.Moderate)
    (hworld : Honest answer) (h : Executed schedule ext answer code op m flow m') :
    m'.m_io_gas.toNat + expansion schedule m.m_mem.length (op.need m) ≤ m.m_io_gas.toNat := by
  obtain ⟨sent, returned, hsends, hgas⟩ := h.gas
  have hreturned := sends_le hworld hsends
  have hcharged := hgas hreturned
  have hstipend := stipend_le hs ext answer op m
  unfold cost at hcharged
  omega

theorem Executed.metered [Sha3] {flow : Flow} {m' : VMState} (hs : schedule.Moderate)
    (hworld : Honest answer) (h : Executed schedule ext answer code op m flow m') :
    Metered schedule ext answer op m m' := by
  obtain ⟨sent, returned, hsends, hgas⟩ := h.gas
  have hreturned := sends_le hworld hsends
  have hcharged := hgas hreturned
  have hpays := h.pays hs hworld
  refine ⟨⟨sent, returned, hsends, hcharged⟩, ?_, by omega⟩
  obtain ⟨offset, data, hwrites, hmem⟩ := h.mem
  rw [hmem]
  rcases hwrites.within with rfl | hwithin
  · rw [overwrite_nil, length_grown]
  · rw [length_overwrite (hwithin.trans (le_length_grown ..)), length_grown]

theorem Thrown.broken {e : VMException} {m' : VMState}
    (h : Thrown schedule ext answer code op m e m') : Broken schedule ext answer op m e m' := by
  obtain ⟨need, hmem, hgas⟩ := h.paid
  refine ⟨fun hne => ?_, need, by rw [hmem, length_grown], hgas⟩
  have hsettled := h.settled
  cases e
  case outOfGas => exact absurd rfl hne
  case stackUnderflow => exact hsettled.elim
  case outOfStack => exact hsettled.elim
  case fault => exact .inl ⟨hsettled.2.1, by rw [hsettled.2.2, length_grown]⟩
  case badJumpDestination => exact .inl ⟨hsettled.1, by rw [hsettled.2, length_grown]⟩
  case revertInstruction => exact .inl ⟨hsettled.1, by rw [hsettled.2, length_grown]⟩
  all_goals exact .inr hsettled

theorem Executed.balanced [Sha3] {flow : Flow} {m' : VMState} (hm : Fetched schedule op m)
    (h : Executed schedule ext answer code op m flow m') : m'.Balanced := by
  have hspp := hm.ready.spp
  have hhigh := hm.ready.high
  refine ⟨h.spp ▸ hm.ready.room, ?_⟩
  rw [h.spp]
  omega

end Metering

section Sample

/-- A world in which everyone exists and nothing is spent. -/
def generous : (q : Query) → q.Reply
  | .store _ => 0
  | .setStore _ _ => ()
  | .originalStorageValue _ => 0
  | .balance _ => 10
  | .codeAt _ => .empty
  | .codeSizeAt _ => 0
  | .codeHashAt _ => H256.alignRight []
  | .exists _ => true
  | .suicide _ => ()
  | .create _ sent _ _ _ => ⟨.success, .empty, 0, sent⟩
  | .call params => ⟨.success, .empty, params.gas⟩
  | .log _ _ => ()
  | .blockHash _ => H256.alignRight []
  | .refund _ => ()

theorem honest_generous : Honest generous := ⟨fun _ _ _ _ _ => le_rfl, fun _ => le_rfl⟩

def sampleExt : ExtVM where
  envInfo := ⟨1, 0, 0, 0, 0, 0, []⟩
  myAddress := 1
  caller := 2
  origin := 2
  value := 0
  gasPrice := 0
  data := .empty
  code := .empty
  depth := 0
  isCreate := false
  staticCall := false

/-- A call that sends 1000 of gas and a value, with its output behind the memory. -/
def beforeCall : VMState :=
  {m_io_gas := 100000
   m_SPP := 1017
   m_stack := fun i =>
    if i = 1017 then 1000 else if i = 1018 then 3 else if i = 1019 then 1
    else if i = 1022 then 64 else if i = 1023 then 32 else 0}

/-- Code that is a call and nothing else. -/
def callCode : Code := ⟨[0xf1], [], []⟩

@[reducible] def sampleSha3 : Sha3 := ⟨H256.alignRight⟩

end Sample
end Aleth.Evm
