import Aleth.Evm.Rules

/-! What the cases of the interpreter come to.

Every case does what `Effects` says of its instruction, or throws with the gas
and the memory in order (`interpretCase_meets`). The charges are exact because no
sum of the metering reaches 2^64: prices are moderate, and `toInt63` bounds the
rest. -/
namespace Aleth.Evm
open Devcore Machine Instruction

/-- The instruction has been carried out. -/
structure Executed [Sha3] (schedule : EVMSchedule) (ext : ExtVM) (answer : (q : Query) → q.Reply)
    (code : Code) (op : Instruction) (m : VMState) (flow : Flow) (m' : VMState) : Prop where
  gas : ∃ sent returned, op.Sends schedule ext answer m sent returned ∧
    (returned ≤ sent + op.stipend schedule m →
      m'.m_io_gas.toNat + (op.cost schedule ext answer m + sent) = m.m_io_gas.toNat + returned)
  mem : ∃ offset data, op.Writes ext answer m offset data ∧
    m'.m_mem = overwrite (grown m.m_mem (op.need m)) offset data
  leaves : op.Leaves code m (grown m.m_mem (op.need m)) (m'.m_stack m'.m_SPP)
  goes : flow = .running → op.Goes code m m'.m_PC
  spp : m'.m_SPP = m.m_SPP

/-- The instruction has thrown. -/
structure Thrown (schedule : EVMSchedule) (ext : ExtVM) (answer : (q : Query) → q.Reply)
    (code : Code) (op : Instruction) (m : VMState) (e : VMException) (m' : VMState) : Prop where
  paid : ∃ need, m'.m_mem = grown m.m_mem need ∧
    m'.m_io_gas.toNat + expansion schedule m.m_mem.length need ≤ m.m_io_gas.toNat
  settled : match e with
    | .fault => ¬op.Readable code m ∧
      m'.m_io_gas.toNat + op.cost schedule ext answer m = m.m_io_gas.toNat ∧
        m'.m_mem = grown m.m_mem (op.need m)
    | .stackUnderflow | .outOfStack => False
    | .outOfGas => True
    | .badJumpDestination | .revertInstruction _ =>
      m'.m_io_gas.toNat + op.cost schedule ext answer m = m.m_io_gas.toNat ∧
        m'.m_mem = grown m.m_mem (op.need m)
    | _ => m'.m_io_gas = m.m_io_gas ∧ m'.m_mem = m.m_mem

/-- As `fetchInstruction` leaves the machine. -/
structure Fetched (schedule : EVMSchedule) (op : Instruction) (m : VMState) : Prop where
  ready : Ready m (instructionInfo op).args (instructionInfo op).ret
  price : m.m_runGas.toNat = schedule.tierStepGas (instructionInfo op).gasPriceTier
  copy : m.m_copyMemSize = 0

/-- The instruction needs no memory, sends nothing along and goes on behind itself. -/
structure Plain [Sha3] (op : Instruction) : Prop where
  need (m : VMState) : op.need m = 0
  sends (schedule : EVMSchedule) (ext : ExtVM) (answer : (q : Query) → q.Reply) (m : VMState) :
    op.Sends schedule ext answer m 0 0
  writes (ext : ExtVM) (answer : (q : Query) → q.Reply) (m : VMState) : op.Writes ext answer m 0 []
  leaves (code : Code) (m : VMState) (mem : Bytes) (v : U256) : op.Leaves code m mem v
  goes (code : Code) (m : VMState) : op.Goes code m (m.m_PC + 1)

section Steps
variable {evmOptimize : Bool} {schedule : EVMSchedule} {ext : ExtVM}
  {answer : (q : Query) → q.Reply} {code : Code} {op : Instruction} {m m' : VMState}

theorem thrown_outOfGas (hgas : m'.m_io_gas = m.m_io_gas) (hmem : m'.m_mem = m.m_mem) :
    Thrown schedule ext answer code op m .outOfGas m' :=
  ⟨⟨0, by rw [hmem, grown_zero], by rw [hgas, expansion_zero]; rfl⟩, trivial⟩

/-- The checks that come before anything is charged. -/
theorem thrown_early {e : VMException} (hgas : m'.m_io_gas = m.m_io_gas)
    (hmem : m'.m_mem = m.m_mem)
    (he : e = .badInstruction ∨ e = .disallowedStateChange ∨ e = .bufferOverrun) :
    Thrown schedule ext answer code op m e m' := by
  refine ⟨⟨0, by rw [hmem, grown_zero], by rw [hgas, expansion_zero]; rfl⟩, ?_⟩
  rcases he with rfl | rfl | rfl
  all_goals exact ⟨hgas, hmem⟩

theorem thrown_badInstruction :
    Thrown schedule ext answer code op m .badInstruction m := thrown_early rfl rfl (.inl rfl)

theorem thrown_disallowedStateChange :
    Thrown schedule ext answer code op m .disallowedStateChange m :=
  thrown_early rfl rfl (.inr (.inl rfl))

/-- The throws that come when everything is charged. -/
theorem Charged.thrown {e : VMException} {m₁ : VMState}
    (h : Charged schedule m (op.need m) (op.price schedule ext answer m) m₁)
    (he : e = .badJumpDestination ∨ ∃ output, e = .revertInstruction output) :
    Thrown schedule ext answer code op m e m₁ := by
  have hgas := h.gas
  refine ⟨⟨_, h.mem, by omega⟩, ?_⟩
  rcases he with rfl | ⟨output, rfl⟩
  · exact ⟨hgas, h.mem⟩
  · exact ⟨hgas, h.mem⟩

theorem Charged.thrown_fault {m₁ : VMState}
    (h : Charged schedule m (op.need m) (op.price schedule ext answer m) m₁)
    (hread : ¬op.Readable code m) : Thrown schedule ext answer code op m .fault m₁ := by
  have hgas := h.gas
  exact ⟨⟨_, h.mem, by omega⟩, hread, hgas, h.mem⟩

/-! ### Charging -/

section Charging
variable {α : Type} {P : α → VMState → Prop}

theorem pay_meets {rest : Unit → VM α} {g n c : U64} {price : ℕ} (hprice : g.toNat = price)
    (hok : ∀ m₁, Charged schedule m 0 price m₁ →
      Meets answer P (Thrown schedule ext answer code op m) (rest ()) m₁) :
    Meets answer P (Thrown schedule ext answer code op m) (updateIOGas >>= rest)
      {m with m_runGas := g, m_newMemSize := n, m_copyMemSize := c} :=
  .bind (updateIOGas_meets schedule hprice (thrown_outOfGas rfl rfl)
    fun m₁ hm₁ => hok m₁ hm₁.retune)

theorem charge_pays {rest : Unit → VM α} {need g n c : U64}
    (hneed : need.toNat = op.need m) (hbound : op.need m ≤ 2 ^ 63 + 31)
    (hcopy : c.toNat ≤ int63max)
    (hprice : g.toNat + schedule.copyGas * words c.toNat = op.price schedule ext answer m)
    (hfits : op.price schedule ext answer m ≤ 2 ^ 63)
    (hok : ∀ m₁, Charged schedule m (op.need m) (op.price schedule ext answer m) m₁ →
      Meets answer P (Thrown schedule ext answer code op m) (rest ()) m₁) :
    Meets answer P (Thrown schedule ext answer code op m)
      (updateMem schedule need >>= fun _ => updateIOGas >>= rest)
      {m with m_runGas := g, m_newMemSize := n, m_copyMemSize := c} := by
  refine charge_meets (hneed ▸ hbound) hcopy hprice hfits
    (fun _ hgas hmem => thrown_outOfGas hgas hmem) fun m₁ hm₁ => hok m₁ ?_
  rw [← hneed]
  exact hm₁.retune

end Charging

variable [Sha3]

/-- An instruction has been carried out when it has charged, and sent along what it sends. -/
theorem Charged.sent {flow : Flow} {m₁ : VMState} {sent returned offset : ℕ} {data : Bytes}
    (h : Charged schedule m (op.need m) (op.price schedule ext answer m) m₁)
    (hsends : op.Sends schedule ext answer m sent returned)
    (hgas : returned ≤ sent + op.stipend schedule m →
      m'.m_io_gas.toNat + sent = m₁.m_io_gas.toNat + returned)
    (hwrites : op.Writes ext answer m offset data)
    (hmem : m'.m_mem = overwrite m₁.m_mem offset data)
    (hleaves : op.Leaves code m (grown m.m_mem (op.need m)) (m'.m_stack m'.m_SPP))
    (hgoes : flow = .running → op.Goes code m m'.m_PC) (hspp : m'.m_SPP = m₁.m_SPP) :
    Executed schedule ext answer code op m flow m' where
  gas := ⟨sent, returned, hsends, fun hle => by
    have := hgas hle
    have := h.gas
    unfold cost
    omega⟩
  mem := ⟨offset, data, hwrites, by rw [hmem, h.mem]⟩
  leaves := hleaves
  goes := hgoes
  spp := hspp.trans h.spp

/-- An instruction that sends nothing along. -/
theorem Charged.executed {flow : Flow} {m₁ : VMState} {offset : ℕ} {data : Bytes}
    (h : Charged schedule m (op.need m) (op.price schedule ext answer m) m₁)
    (hsends : op.Sends schedule ext answer m 0 0) (hwrites : op.Writes ext answer m offset data)
    (hgas : m'.m_io_gas = m₁.m_io_gas) (hmem : m'.m_mem = overwrite m₁.m_mem offset data)
    (hleaves : op.Leaves code m (grown m.m_mem (op.need m)) (m'.m_stack m'.m_SPP))
    (hgoes : flow = .running → op.Goes code m m'.m_PC) (hspp : m'.m_SPP = m₁.m_SPP) :
    Executed schedule ext answer code op m flow m' :=
  h.sent hsends (fun _ => by rw [hgas]) hwrites hmem hleaves hgoes hspp

/-- An instruction that writes nothing to memory. -/
theorem Charged.done {flow : Flow} {m₁ : VMState}
    (h : Charged schedule m (op.need m) (op.price schedule ext answer m) m₁)
    (hsends : op.Sends schedule ext answer m 0 0) (hwrites : op.Writes ext answer m 0 [])
    (hgas : m'.m_io_gas = m₁.m_io_gas) (hmem : m'.m_mem = m₁.m_mem)
    (hleaves : op.Leaves code m (grown m.m_mem (op.need m)) (m'.m_stack m'.m_SPP))
    (hgoes : flow = .running → op.Goes code m m'.m_PC) (hspp : m'.m_SPP = m₁.m_SPP) :
    Executed schedule ext answer code op m flow m' :=
  h.executed hsends hwrites hgas (by rw [overwrite_nil, hmem]) hleaves hgoes hspp

/-- Plain instructions, when they have charged their price. -/
theorem Plain.executed (hop : Plain op) {flow : Flow} {m₁ : VMState}
    (h : Charged schedule m 0 (op.price schedule ext answer m) m₁)
    (hgas : m'.m_io_gas = m₁.m_io_gas) (hmem : m'.m_mem = m₁.m_mem)
    (hpc : flow = .running → m'.m_PC = m₁.m_PC + 1) (hspp : m'.m_SPP = m₁.m_SPP) :
    Executed schedule ext answer code op m flow m' := by
  refine Charged.done ((hop.need m).symm ▸ h) (hop.sends ..) (hop.writes ..) hgas hmem
    (hop.leaves ..) (fun hrun => ?_) hspp
  rw [hpc hrun, h.pc]
  exact hop.goes code m

end Steps

/-! ### The tables -/

/-- The word is a function of the machine, which reading it does not change. -/
def Computes (word : VM U256) (args : ℕ) : Prop :=
  ∀ (answer : (q : Query) → q.Reply) (E : VMException → VMState → Prop) (m : VMState) (ret : ℕ),
    Ready m args ret → ∃ v, ∀ P : U256 → VMState → Prop, P v m → Meets answer P E word m

theorem computes_nullary (f : VMState → U256) (args : ℕ) : Computes (nullary f) args :=
  fun _ _ m _ _ => ⟨f m, fun _ h => .bind (.get (.pure h))⟩

theorem computes_unary (f : U256 → U256) {args : ℕ} (hargs : 1 ≤ args) :
    Computes (unary f) args := by
  intro answer E m ret hm
  exact ⟨f (m.operand 0), fun P hP => .bind (sp_meets hm hargs (.pure hP))⟩

theorem computes_binary (f : U256 → U256 → U256) {args : ℕ} (hargs : 2 ≤ args) :
    Computes (binary f) args := by
  intro answer E m ret hm
  refine ⟨f (m.operand 0) (m.operand 1), fun P hP => .bind (sp_meets hm (by omega) ?_)⟩
  exact .bind (sp_meets hm hargs (.pure hP))

theorem computes_ternary (f : U256 → U256 → U256 → U256) {args : ℕ} (hargs : 3 ≤ args) :
    Computes (ternary f) args := by
  intro answer E m ret hm
  refine ⟨f (m.operand 0) (m.operand 1) (m.operand 2),
    fun P hP => .bind (sp_meets hm (by omega) ?_)⟩
  exact .bind (sp_meets hm (by omega) (.bind (sp_meets hm hargs (.pure hP))))

theorem computes_sp {i args : ℕ} (h : i < args) : Computes (sp i) args :=
  fun _ _ m _ hm => ⟨m.operand i, fun _ hP => sp_meets hm h hP⟩

section Tables
variable [Sha3] {schedule : EVMSchedule} {ext : ExtVM} {answer : (q : Query) → q.Reply}
  {code : Code} {op : Instruction} {m : VMState}

/-- What the table of computed words promises. -/
structure ComputedRow (schedule : EVMSchedule) (word : VM U256) (op : Instruction) : Prop where
  plain : Plain op
  ret : 0 < (instructionInfo op).ret
  price (ext : ExtVM) (answer : (q : Query) → q.Reply) (m : VMState) :
    op.price schedule ext answer m = schedule.tierStepGas (instructionInfo op).gasPriceTier
  word : Computes word (instructionInfo op).args

theorem computedRow {guard : Bool} {word : VM U256} (hdup : op ≠ .dup 0)
    (h : computed schedule ext op = some (guard, word)) : ComputedRow schedule word op := by
  cases op
  case dup n =>
    cases h
    refine ⟨⟨fun _ => rfl, fun _ _ _ _ => ⟨rfl, rfl⟩, fun _ _ _ => rfl, fun _ _ _ _ => trivial,
      fun _ _ => rfl⟩, Nat.succ_pos n, fun _ _ _ => rfl, computes_sp ?_⟩
    have hn : n ≠ 0 := fun hn => hdup (hn ▸ rfl)
    exact Nat.sub_one_lt hn
  all_goals first
    | cases h
      done
    | cases h
      refine ⟨⟨fun _ => rfl, fun _ _ _ _ => ⟨rfl, rfl⟩, fun _ _ _ => rfl, fun _ _ _ _ => trivial,
        fun _ _ => rfl⟩, Nat.one_pos, fun _ _ _ => rfl, ?_⟩
      first
        | exact computes_nullary _ _
        | exact computes_unary _ le_rfl
        | exact computes_binary _ le_rfl
        | exact computes_ternary _ le_rfl

/-- The case charges the price that is being reckoned, computes the word and goes on. -/
theorem caseComputed_meets {guard : Bool} {word : VM U256} {g n c : U64} (hplain : Plain op)
    (hret : 0 < (instructionInfo op).ret) (hword : Computes word (instructionInfo op).args)
    (hm : Ready m (instructionInfo op).args (instructionInfo op).ret)
    (hprice : g.toNat = op.price schedule ext answer m) :
    Meets answer (Executed schedule ext answer code op m) (Thrown schedule ext answer code op m)
      (caseComputed guard word) {m with m_runGas := g, m_newMemSize := n, m_copyMemSize := c} := by
  refine .bind (require_meets (thrown_early rfl rfl (.inl rfl)) fun _ => ?_)
  refine pay_meets hprice fun m₁ hm₁ => ?_
  obtain ⟨v, hv⟩ := hword answer _ m₁ _ (hm₁.ready hm)
  refine .bind (hv _ (.bind (setSPP_meets (hm₁.ready hm) hret (next_meets ?_))))
  exact hplain.executed hm₁ rfl rfl (fun _ => rfl) rfl

/-- What the table of questions promises. -/
structure AskedRow (schedule : EVMSchedule) (a : Asked) (op : Instruction) : Prop where
  plain : Plain op
  args : 0 < (instructionInfo op).args
  ret : 0 < (instructionInfo op).ret
  price (ext : ExtVM) (answer : (q : Query) → q.Reply) (m : VMState) :
    op.price schedule ext answer m = a.price

theorem askedRow {a : Asked} (h : asked schedule op = some a) : AskedRow schedule a op := by
  cases op
  all_goals first
    | cases h
      done
    | cases h
      exact ⟨⟨fun _ => rfl, fun _ _ _ _ => ⟨rfl, rfl⟩, fun _ _ _ => rfl, fun _ _ _ _ => trivial,
        fun _ _ => rfl⟩, Nat.one_pos, Nat.one_pos, fun _ _ _ => rfl⟩

theorem caseAsked_meets {a : Asked} (hrow : AskedRow schedule a op) (hm : Fetched schedule op m) :
    Meets answer (Executed schedule ext answer code op m) (Thrown schedule ext answer code op m)
      (caseAsked a) m := by
  refine .bind (require_meets thrown_badInstruction fun _ => ?_)
  refine .bind (setRunGas_meets (thrown_outOfGas rfl rfl) fun g hg _ => ?_)
  refine pay_meets (hg.trans (hrow.price ext answer m).symm) fun m₁ hm₁ => ?_
  refine .bind (sp_meets (hm₁.ready hm.ready) hrow.args ?_)
  refine .bind (.ask (.bind (setSPP_meets (hm₁.ready hm.ready) hrow.ret (next_meets ?_))))
  exact hrow.plain.executed hm₁ rfl rfl (fun _ => rfl) rfl

end Tables
end Aleth.Evm
