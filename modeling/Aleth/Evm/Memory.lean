import Aleth.Evm.Control
import Aleth.Structure.FlatMemory

/-! The memory of a run is a byte map without an end.

The interpreter keeps a vector that it grows before an instruction is carried out,
and takes offsets to 32 or 64 bits. With less gas than the first 4 GiB of memory
cost, offsets that are paid for are not cut, and no instruction can tell the vector
from a map of all places to bytes that begins with zeros. -/
namespace Aleth.Evm
open Devcore Machine Instruction

/-- The memory as the byte map that it stands for. -/
def VMState.bytes (m : VMState) : ℕ → UInt8 := flat 0 m.m_mem

theorem bytes_grown (mem : Bytes) (need : ℕ) : flat 0 (grown mem need) = flat 0 mem :=
  Flat.flat_append_replicate _

namespace Instruction

/-- The instruction stores the data, at the place that its operand says. -/
def Stores (ext : ExtVM) (answer : (q : Query) → q.Reply) (m : VMState) (offset : ℕ)
    (data : Bytes) : Instruction → Prop
  | .mstore => offset = (m.operand 0).toNat ∧ data = toBigEndian 32 (m.operand 1).toNat
  | .mstore8 =>
    offset = (m.operand 0).toNat ∧ data = [UInt8.ofNat ((m.operand 1).toNat % 256)]
  | op => op.Writes ext answer m offset data

/-- The word that an instruction loads, or makes of what it loads. -/
def Loads [Sha3] (m : VMState) (v : U256) : Instruction → Prop
  | .mload => v = toWord (Flat.read m.bytes (m.operand 0).toNat 32)
  | .sha3 => v = toWord
    (Devcore.sha3 (Flat.read m.bytes (m.operand 0).toNat (m.operand 1).toNat)).bytes
  | _ => True

end Instruction

/-- A step that goes through stores what the instruction stores, and loads what is there. -/
structure Remembered [Sha3] (ext : ExtVM) (answer : (q : Query) → q.Reply) (op : Instruction)
    (m m' : VMState) : Prop where
  stores : ∃ offset data, op.Stores ext answer m offset data ∧
    m'.bytes = Flat.write m.bytes offset data
  loads : op.Loads m (m'.m_stack m'.m_SPP)

section Memory
variable {schedule : EVMSchedule} {ext : ExtVM} {answer : (q : Query) → q.Reply} {code : Code}
  {op : Instruction} {m m' : VMState} {flow : Flow}

/-! ### What is paid for -/

/-- The gas and what the memory cost are no more than there was in the beginning. -/
def Paid (schedule : EVMSchedule) (gas : ℕ) (m : VMState) : Prop :=
  memCost schedule m.m_mem.length + m.m_io_gas.toNat ≤ gas

theorem Executed.paid [Sha3] {gas : ℕ} (hs : schedule.Moderate) (hworld : Honest answer)
    (hpaid : Paid schedule gas m) (h : Executed schedule ext answer code op m flow m') :
    Paid schedule gas m' := by
  have hpays := h.pays hs hworld
  have hadd := expansion_add schedule m.m_mem.length (op.need m)
  unfold Paid at hpaid ⊢
  rw [(h.metered hs hworld).mem]
  omega

/-- Memory of 4 GiB costs more than 2 ^ 45. -/
theorem length_lt_of_paid (hs : schedule ∈ schedules) {gas : ℕ} (hgas : gas < 2 ^ 45)
    (hpaid : Paid schedule gas m) : m.m_mem.length < 2 ^ 32 := by
  have hquad : ∀ s ∈ schedules, 2 ^ 45 ≤ memCost s (2 ^ 32) := by decide
  refine not_le.mp fun hle => ?_
  have hcost := (hquad schedule hs).trans (memCost_mono schedule hle)
  unfold Paid at hpaid
  omega

/-! ### A step -/

theorem toUnsigned_of_lt {x : U256} (h : x.toNat < 2 ^ 32) : toUnsigned x = x.toNat :=
  Nat.mod_eq_of_lt h

/-- Offsets that are paid for are not cut. -/
theorem Instruction.Writes.stores {offset : ℕ} {data : Bytes} (hneed : op.need m < 2 ^ 32)
    (h : op.Writes ext answer m offset data) : op.Stores ext answer m offset data := by
  cases op
  case mstore =>
    have hlt : (m.operand 0).toNat + 32 < 2 ^ 32 := hneed
    exact ⟨h.1.trans (toUnsigned_of_lt (by omega)), h.2⟩
  case mstore8 =>
    have hlt : (m.operand 0).toNat + 1 < 2 ^ 32 := hneed
    exact ⟨h.1.trans (toUnsigned_of_lt (by omega)), h.2⟩
  all_goals exact h

theorem Instruction.Leaves.loads [Sha3] {v : U256} (hneed : op.need m < 2 ^ 32)
    (h : op.Leaves code m (grown m.m_mem (op.need m)) v) : op.Loads m v := by
  have hroom := le_length_grown m.m_mem (op.need m)
  cases op
  case mload =>
    have hlt : (m.operand 0).toNat + 32 < 2 ^ 32 := hneed
    have hread : Flat.read (flat 0 (grown m.m_mem (need m .mload))) (m.operand 0).toNat 32 =
        ((grown m.m_mem (need m .mload)).drop (m.operand 0).toNat).take 32 :=
      Flat.read_flat hroom
    rw [bytes_grown] at hread
    rw [Leaves, toUnsigned_of_lt (by omega), ← hread] at h
    exact h
  case sha3 =>
    by_cases hsize : m.operand 1 = 0
    · rw [Leaves, hsize] at h
      rw [Loads, hsize]
      exact h
    · have hread : Flat.read (flat 0 (grown m.m_mem (need m .sha3))) (m.operand 0).toNat
          (m.operand 1).toNat =
          ((grown m.m_mem (need m .sha3)).drop (m.operand 0).toNat).take (m.operand 1).toNat :=
        Flat.read_flat ((rangeEnd_of_ne hsize).symm.trans_le hroom)
      rw [bytes_grown] at hread
      rw [Leaves, ← hread] at h
      exact h
  all_goals exact trivial

theorem Executed.remembered [Sha3] (hneed : op.need m < 2 ^ 32)
    (h : Executed schedule ext answer code op m flow m') : Remembered ext answer op m m' := by
  obtain ⟨offset, data, hwrites, hmem⟩ := h.mem
  refine ⟨?_, h.leaves.loads hneed⟩
  refine ⟨offset, data, hwrites.stores hneed, ?_⟩
  unfold VMState.bytes
  rcases hwrites.within with rfl | hwithin
  · rw [hmem, overwrite_nil, bytes_grown, Flat.write_nil]
  · have hinside : offset ≤ (grown m.m_mem (op.need m)).length :=
      (Nat.le_of_add_right_le hwithin).trans (le_length_grown ..)
    rw [hmem, overwrite, Flat.flat_overwrite hinside, bytes_grown]

/-- **A turn acts on a byte map.** What it throws leaves the memory as it was. -/
theorem interpret_remembers [Sha3] (evmOptimize : Bool) (hs : schedule ∈ schedules) (ext : ExtVM)
    (hworld : Honest answer) {gas : ℕ} (hgas : gas < 2 ^ 45) (hm : m.Balanced)
    (hpaid : Paid schedule gas m) :
    Meets answer
      (fun _ m' => Remembered ext answer (ofByte (code.m_code.getD m.m_PC 0))
          (m.fetched schedule (ofByte (code.m_code.getD m.m_PC 0))) m' ∧
        m'.Balanced ∧ Paid schedule gas m')
      (fun _ m' => m'.bytes = m.bytes) (interpret evmOptimize schedule ext code) m := by
  have hmoderate := EVMSchedule.moderate_of_mem hs
  have hbad : ∀ m' : VMState, m'.m_mem = m.m_mem → m'.bytes = m.bytes := fun _ => congrArg (flat 0)
  cases hb : code.m_code[m.m_PC]? with
  | none =>
    refine .bind (.bind (.get ?_))
    rw [hb]
    exact .throw rfl
  | some b =>
    rw [List.getD_eq_getElem?_getD, hb, Option.getD_some]
    refine .bind (fetchInstruction_meets hmoderate hm hb (fun _ m' _ => hbad m')
      (fun _ _ m' _ => hbad m') fun _ _ hm' => .bind (.get ?_))
    have hcase : Carries schedule ext answer code (ofByte b)
        (interpretCase evmOptimize schedule ext code (ofByte b))
        (m.fetched schedule (ofByte b)) := interpretCase_meets (known_ofByte b) hmoderate hm'
    refine hcase.mono (fun flow m' h => ?_) fun e m' h => ?_
    · have hfetched : Paid schedule gas (m.fetched schedule (ofByte b)) := hpaid
      have hpaid' := h.paid hmoderate hworld hfetched
      have hlength := length_lt_of_paid hs hgas hpaid'
      have hneed : (ofByte b).need (m.fetched schedule (ofByte b)) < 2 ^ 32 := by
        refine lt_of_le_of_lt ?_ hlength
        rw [(h.metered hmoderate hworld).mem]
        exact (le_roundUp _).trans (le_max_right ..)
      exact ⟨h.remembered hneed, h.balanced hm', hpaid'⟩
    · obtain ⟨need, hmem, -⟩ := h.paid
      unfold VMState.bytes
      rw [hmem, bytes_grown]
      rfl

/-! ### Runs -/

/-- Nothing is stored in the range while the run goes on. -/
def Untouched [Sha3] (evmOptimize : Bool) (schedule : EVMSchedule) (ext : ExtVM) (code : Code)
    (turns : ℕ) (world : World) (m : VMState) (offset size : ℕ) : Prop :=
  ∀ k < turns, ∀ m', interpretCases evmOptimize schedule ext code k world m = (.ok .running, m') →
    ∀ o data, (ofByte (code.m_code.getD m'.m_PC 0)).Stores ext (world k)
        (m'.fetched schedule (ofByte (code.m_code.getD m'.m_PC 0))) o data →
      data = [] ∨ offset + size ≤ o ∨ o + data.length ≤ offset

/-- A range in which nothing is stored stays as it is. -/
theorem interpretCases_untouched [Sha3] (evmOptimize : Bool) (hs : schedule ∈ schedules)
    (ext : ExtVM) {turns : ℕ} {world : World} (hworld : ∀ k, Honest (world k)) {gas : ℕ}
    (hgas : gas < 2 ^ 45) (hm : m.Balanced) (hpaid : Paid schedule gas m) {offset size : ℕ}
    (huntouched : Untouched evmOptimize schedule ext code turns world m offset size)
    (hrun : interpretCases evmOptimize schedule ext code turns world m = (.ok .running, m')) :
    Flat.read m'.bytes offset size = Flat.read m.bytes offset size := by
  induction turns generalizing world m with
  | zero =>
    cases hrun
    rfl
  | succ turns ih =>
    have hmeets := @interpret_remembers schedule (world 0) code m _ evmOptimize hs ext (hworld 0)
      gas hgas hm hpaid
    rcases hstep : (interpret evmOptimize schedule ext code).under (world 0) m with ⟨r, m₁⟩
    by_cases hr : r = .ok .running
    · subst hr
      obtain ⟨⟨⟨o, data, hstores, hbytes⟩, -⟩, hbalanced, hpaid₁⟩ := hmeets.ok hstep
      have hrest : Untouched evmOptimize schedule ext code turns (fun k => world (k + 1)) m₁
          offset size := by
        intro k hk m₂ hm₂
        refine huntouched (k + 1) (Nat.succ_lt_succ hk) m₂ ?_
        rw [interpretCases_running hstep]
        exact hm₂
      rw [interpretCases_running hstep] at hrun
      rw [ih (fun k => hworld (k + 1)) hbalanced hpaid₁ hrest hrun, hbytes]
      exact Flat.read_of_write_apart (huntouched 0 (Nat.succ_pos _) m rfl o data hstores)
    · rw [interpretCases_done hstep hr] at hrun
      exact absurd (congrArg Prod.fst hrun) hr

/-- **Memory is a byte map without an end.** In a run with less than 2 ^ 45 of gas, over memory that
is zero in the beginning, every turn loads what is at the places that its operands say, in all
their 256 bits, and stores there and nowhere else, zeros where a source that is copied ends; what
is thrown changes nothing; and what was stored is found again until something is stored there. -/
theorem exec_memory [Sha3] (evmOptimize : Bool) (hs : schedule ∈ schedules) (ext : ExtVM)
    (turns : ℕ) {world : World} (hworld : ∀ k, Honest (world k)) {io_gas : U64}
    (hgas : io_gas.toNat < 2 ^ 45) {code : Code}
    (hcode : code = optimize evmOptimize ext.code.bytes)
    (hrun : exec evmOptimize schedule ext turns world io_gas = (.ok .running, m)) :
    (turns = 0 → m.bytes = fun _ => 0) ∧
      (∀ answer, Honest answer → Meets answer
        (fun _ m' => Remembered ext answer (ofByte (code.m_code.getD m.m_PC 0))
          (m.fetched schedule (ofByte (code.m_code.getD m.m_PC 0))) m')
        (fun _ m' => m'.bytes = m.bytes) (interpret evmOptimize schedule ext code) m) ∧
      ∀ (more : ℕ) (later : World), (∀ k, Honest (later k)) → ∀ m' offset size,
        interpretCases evmOptimize schedule ext code more later m = (.ok .running, m') →
        Untouched evmOptimize schedule ext code more later m offset size →
        Flat.read m'.bytes offset size = Flat.read m.bytes offset size := by
  subst hcode
  have hstart : VMState.Balanced {m_io_gas := io_gas} ∧
      Paid schedule io_gas.toNat {m_io_gas := io_gas} := by
    refine ⟨⟨Int.natCast_nonneg _, le_rfl⟩, ?_⟩
    simp [Paid, memCost]
  have hm : m.Balanced ∧ Paid schedule io_gas.toNat m :=
    interpretCases_keeps Honest (fun m => m.Balanced ∧ Paid schedule io_gas.toNat m)
      (fun answer hanswer m hm => (interpret_remembers evmOptimize hs ext hanswer hgas hm.1
        hm.2).mono (fun _ _ h _ => h.2) fun _ _ _ => trivial) hworld hstart hrun
  refine ⟨fun hzero => ?_, fun answer hanswer => ?_, fun more later hlater m' offset size h hu =>
    interpretCases_untouched evmOptimize hs ext hlater hgas hm.1 hm.2 hu h⟩
  · subst hzero
    cases hrun
    exact Flat.flat_nil
  · exact (interpret_remembers evmOptimize hs ext hanswer hgas hm.1 hm.2).mono
      (fun _ _ h => h.1) fun _ _ h => h

end Memory

/-- Twelve is stored at 64 and loaded again. -/
def storeExt : ExtVM :=
  {sampleExt with code := ⟨[0x60, 12, 0x60, 64, 0x52, 0x60, 64, 0x51], by decide⟩}

theorem exec_memory_store : ∃ m,
    @exec sampleSha3 false ByzantiumSchedule storeExt 4 (fun _ => generous) 100 =
      (.ok .running, m) ∧
    m.m_PC = 7 ∧ Flat.read m.bytes 95 1 = [12] ∧
    @Meets Query Query.Reply VMState VMException Flow generous
      (fun _ m' => @Remembered sampleSha3 storeExt generous .mload
        (m.fetched ByzantiumSchedule .mload) m')
      (fun _ m' => m'.bytes = m.bytes)
      (@interpret false ByzantiumSchedule storeExt (optimize false storeExt.code.bytes) sampleSha3)
      m := by
  have hmem : ByzantiumSchedule ∈ schedules := List.mem_of_getElem? (i := 5) rfl
  have hmemory := @exec_memory ByzantiumSchedule _ sampleSha3 false hmem storeExt 4
    (fun _ => generous) (fun _ => honest_generous) 100 (by decide) _ rfl rfl
  exact ⟨_, rfl, rfl, rfl, hmemory.2.1 generous honest_generous⟩

end Aleth.Evm
