import Aleth.Evm.Effects

/-! Rules for the parts of a case.

Each says what a part does, whatever is asked of the outcome: what it leaves when
it goes through, and the state in which it throws otherwise. `Charged` is what
all ways to charge come to: the gas, the memory, and nothing else. -/
namespace Aleth.Evm
open Devcore Machine Instruction

/-- The operands are in the stack, and so is the place of the result. -/
structure Ready (m : VMState) (args ret : ℕ) : Prop where
  low : 0 ≤ m.m_SP
  high : m.m_SP + args ≤ stackLimit
  spp : m.m_SPP = m.m_SP + args - ret
  room : 0 ≤ m.m_SPP

namespace Ready
variable {m : VMState} {args ret : ℕ}

theorem inStack (h : Ready m args ret) {i : ℕ} (hi : i < args) : InStack (m.m_SP + i) := by
  have := h.low
  have := h.high
  exact ⟨by omega, by omega⟩

theorem result (h : Ready m args ret) (hret : 0 < ret) : InStack m.m_SPP := by
  have := h.high
  have := h.spp
  exact ⟨h.room, by omega⟩

end Ready

/-- The memory an instruction needs and its price have been charged, and nothing else is done. -/
structure Charged (schedule : EVMSchedule) (m : VMState) (need price : ℕ) (m' : VMState) :
    Prop where
  gas : m'.m_io_gas.toNat + (price + expansion schedule m.m_mem.length need) = m.m_io_gas.toNat
  mem : m'.m_mem = grown m.m_mem need
  stack : m'.m_stack = m.m_stack
  sp : m'.m_SP = m.m_SP
  spp : m'.m_SPP = m.m_SPP
  pc : m'.m_PC = m.m_PC
  returnData : m'.m_returnData = m.m_returnData

theorem Ready.retune {m : VMState} {args ret : ℕ} {g n c : U64} (h : Ready m args ret) :
    Ready {m with m_runGas := g, m_newMemSize := n, m_copyMemSize := c} args ret :=
  ⟨h.low, h.high, h.spp, h.room⟩

theorem Ready.restack {m : VMState} {args ret : ℕ} {stack : ℤ → U256} (h : Ready m args ret) :
    Ready {m with m_stack := stack} args ret :=
  ⟨h.low, h.high, h.spp, h.room⟩

theorem Ready.refunded {m : VMState} {args ret : ℕ} {returnData : Buffer} (h : Ready m args ret) :
    Ready {m with m_returnData := returnData} args ret :=
  ⟨h.low, h.high, h.spp, h.room⟩

namespace Charged
variable {schedule : EVMSchedule} {m m' : VMState} {need price args ret : ℕ}

theorem ready (h : Charged schedule m need price m') (hm : Ready m args ret) :
    Ready m' args ret :=
  ⟨h.sp ▸ hm.low, h.sp ▸ hm.high, by rw [h.sp, h.spp]; exact hm.spp, h.spp ▸ hm.room⟩

theorem operand (h : Charged schedule m need price m') (i : ℕ) : m'.operand i = m.operand i := by
  rw [VMState.operand, h.stack, h.sp]
  rfl

/-- Only what is held counts, not what is being reckoned. -/
theorem retune {g n c : U64}
    (h : Charged schedule {m with m_runGas := g, m_newMemSize := n, m_copyMemSize := c} need price
      m') : Charged schedule m need price m' :=
  ⟨h.gas, h.mem, h.stack, h.sp, h.spp, h.pc, h.returnData⟩

end Charged

variable {answer : (q : Query) → q.Reply} {E : VMException → VMState → Prop} {m : VMState}

/-! ### Numbers -/

section Numbers
variable {P : U64 → VMState → Prop}

theorem toInt63_meets {v : ℕ} (hout : E .outOfGas m)
    (hok : ∀ w : U64, w.toNat = v → v ≤ int63max → P w m) : Meets answer P E (toInt63 v) m := by
  unfold toInt63
  rw [meets_ite]
  split
  case isTrue h => exact .throw hout
  case isFalse h =>
    refine .pure (hok _ ?_ (not_lt.mp h))
    rw [BitVec.toNat_ofNat]
    exact Nat.mod_eq_of_lt (by unfold int63max at h; omega)

theorem memNeed_meets {offset size : U256} (hout : E .outOfGas m)
    (hok : ∀ w : U64, w.toNat = rangeEnd offset size → rangeEnd offset size ≤ int63max → P w m) :
    Meets answer P E (memNeed offset size) m := toInt63_meets hout hok

theorem gasForMem_meets {schedule : EVMSchedule} {size : ℕ} (hout : E .outOfGas m)
    (hok : ∀ w : U64, w.toNat = memCost schedule size → P w m) :
    Meets answer P E (gasForMem schedule size) m := toInt63_meets hout fun w hw _ => hok w hw

end Numbers

section Units
variable {P : Unit → VMState → Prop}

theorem setRunGas_meets {gas : ℕ} (hout : E .outOfGas m)
    (hok : ∀ w : U64, w.toNat = gas → gas ≤ int63max → P () {m with m_runGas := w}) :
    Meets answer P E (setRunGas gas) m := by
  unfold setRunGas
  exact .bind (toInt63_meets hout fun w hw hle => .modify (hok w hw hle))

theorem addRunGas_meets {gas : ℕ} (hfits : m.m_runGas.toNat ≤ 2 ^ 63) (hout : E .outOfGas m)
    (hok : ∀ w : U64, w.toNat = m.m_runGas.toNat + gas → gas ≤ int63max →
      P () {m with m_runGas := w}) : Meets answer P E (addRunGas gas) m := by
  unfold addRunGas
  refine .bind (toInt63_meets hout fun w hw hle => .modify (hok _ ?_ hle))
  rw [BitVec.toNat_add, hw]
  exact Nat.mod_eq_of_lt (by unfold int63max at hle; omega)

theorem setCopyMemSize_meets {size : U256} (hout : E .outOfGas m)
    (hok : ∀ w : U64, w.toNat = size.toNat → size.toNat ≤ int63max →
      P () {m with m_copyMemSize := w}) : Meets answer P E (setCopyMemSize size) m := by
  unfold setCopyMemSize
  exact .bind (toInt63_meets hout fun w hw hle => .modify (hok w hw hle))

/-! ### Charging -/

section Charging
variable {schedule : EVMSchedule} {price : ℕ}

theorem updateIOGas_meets (schedule : EVMSchedule) (hprice : m.m_runGas.toNat = price)
    (hout : E .outOfGas m)
    (hok : ∀ m', Charged schedule m 0 price m' → P () m') : Meets answer P E updateIOGas m := by
  simp only [updateIOGas, meets_bind, meets_get, meets_ite, meets_throw, meets_modify]
  split
  case isTrue h => exact hout
  case isFalse h =>
    refine hok _ ⟨?_, (grown_zero _).symm, rfl, rfl, rfl, rfl, rfl⟩
    have hle : m.m_runGas.toNat ≤ m.m_io_gas.toNat := not_lt.mp h
    rw [expansion_zero, BitVec.toNat_sub_of_le hle]
    omega

theorem words_add (w : U64) (h : w.toNat ≤ int63max) : ((w + 31) / 32).toNat = words w.toNat := by
  have h31 : (w + 31).toNat = w.toNat + 31 := by
    rw [BitVec.toNat_add]
    exact Nat.mod_eq_of_lt (by unfold int63max at h; show w.toNat + 31 < _; omega)
  rw [BitVec.toNat_udiv, h31]
  rfl

/-- The charges of `updateGas` do not wrap. -/
theorem updateGas_meets (hcopy : m.m_copyMemSize.toNat ≤ int63max)
    (hprice : m.m_runGas.toNat + schedule.copyGas * words m.m_copyMemSize.toNat = price)
    (hfits : price ≤ 2 ^ 63) (hout : ∀ g, E .outOfGas {m with m_runGas := g})
    (hok : ∀ g : U64, g.toNat = price + (memCost schedule (max m.m_mem.length
        m.m_newMemSize.toNat) - memCost schedule m.m_mem.length) →
      g.toNat ≤ m.m_io_gas.toNat → P () {m with m_runGas := g}) :
    Meets answer P E (updateGas schedule) m := by
  have hrest : ∀ g : U64, g.toNat = m.m_runGas.toNat + (memCost schedule (max m.m_mem.length
        m.m_newMemSize.toNat) - memCost schedule m.m_mem.length) →
      g.toNat ≤ m.m_runGas.toNat + int63max →
      Meets answer P E (do
        modify fun m => {m with m_runGas :=
          m.m_runGas + BitVec.ofNat 64 schedule.copyGas * ((m.m_copyMemSize + 31) / 32)}
        let m ← get
        if m.m_io_gas < m.m_runGas then throw .outOfGas) {m with m_runGas := g} := by
    intro g hg hgle
    simp only [meets_bind, meets_get, meets_ite, meets_throw, meets_pure, meets_modify]
    split
    case isTrue h => exact hout _
    case isFalse h =>
      refine hok _ ?_ (not_lt.mp h)
      have hsum : schedule.copyGas * words m.m_copyMemSize.toNat ≤ 2 ^ 63 := by omega
      have hmul : (BitVec.ofNat 64 schedule.copyGas * ((m.m_copyMemSize + 31) / 32)).toNat =
          schedule.copyGas * words m.m_copyMemSize.toNat := by
        rw [BitVec.toNat_mul, BitVec.toNat_ofNat, words_add _ hcopy, Nat.mod_mul_mod]
        exact Nat.mod_eq_of_lt (hsum.trans_lt (by norm_num))
      rw [BitVec.toNat_add, hmul, hg]
      unfold int63max at hgle
      rw [Nat.mod_eq_of_lt (by omega)]
      omega
  unfold updateGas
  simp only [meets_bind, meets_get, meets_ite]
  split
  case isTrue h =>
    refine gasForMem_meets (hout _) fun a ha => ?_
    rw [meets_bind]
    refine gasForMem_meets (hout _) fun b hb => ?_
    have hmono := memCost_mono schedule h.le
    have hsub : (a - b).toNat = a.toNat - b.toNat :=
      BitVec.toNat_sub_of_le (by rw [BitVec.le_def, ha, hb]; exact hmono)
    rw [meets_bind]
    refine toInt63_meets (hout _) fun w hw hle => ?_
    have hadd : (m.m_runGas + w).toNat = m.m_runGas.toNat + w.toNat := by
      rw [BitVec.toNat_add]
      unfold int63max at hle
      exact Nat.mod_eq_of_lt (by omega)
    rw [meets_bind, meets_modify]
    refine hrest _ ?_ ?_
    · rw [hadd, hw, hsub, ha, hb, max_eq_right h.le]
    · rw [hadd]
      omega
  case isFalse h =>
    rw [← meets_bind]
    refine hrest m.m_runGas ?_ (Nat.le_add_right ..)
    rw [max_eq_left (not_lt.mp h)]
    omega

/-- `updateMem` and `updateIOGas`: memory is had when it is paid for. -/
theorem charge_meets {α : Type} {P : α → VMState → Prop} {rest : Unit → VM α} {need : U64}
    (hneed : need.toNat ≤ 2 ^ 63 + 31) (hcopy : m.m_copyMemSize.toNat ≤ int63max)
    (hprice : m.m_runGas.toNat + schedule.copyGas * words m.m_copyMemSize.toNat = price)
    (hfits : price ≤ 2 ^ 63)
    (hout : ∀ m', m'.m_io_gas = m.m_io_gas → m'.m_mem = m.m_mem → E .outOfGas m')
    (hok : ∀ m', Charged schedule m need.toNat price m' → Meets answer P E (rest ()) m') :
    Meets answer P E (updateMem schedule need >>= fun _ => updateIOGas >>= rest) m := by
  have hsize : ((need + 31) / 32 * 32).toNat = roundUp need.toNat := by
    have h31 : (need + 31).toNat = need.toNat + 31 := by
      rw [BitVec.toNat_add]
      exact Nat.mod_eq_of_lt (by show need.toNat + 31 < _; omega)
    rw [BitVec.toNat_mul, BitVec.toNat_udiv, h31]
    refine Nat.mod_eq_of_lt ?_
    show (need.toNat + 31) / 32 * 32 < 2 ^ 64
    omega
  refine .bind ?_
  unfold updateMem
  refine .bind (.modify (.bind ?_))
  refine updateGas_meets hcopy hprice hfits (fun g => hout _ rfl rfl) fun g hg hle => .modify ?_
  refine .bind ?_
  simp only [updateIOGas, meets_bind, meets_get, meets_ite, meets_throw, meets_modify]
  rw [if_neg (show ¬m.m_io_gas < g from not_lt.mpr hle)]
  refine hok _ ⟨?_, ?_, rfl, rfl, rfl, rfl, rfl⟩
  · rw [BitVec.toNat_sub_of_le hle]
    dsimp only at hg hle ⊢
    rw [hsize] at hg
    unfold expansion
    omega
  · show m.m_mem ++ List.replicate (((need + 31) / 32 * 32).toNat - _) 0 = _
    rw [hsize]
    rfl

end Charging

theorem require_meets {guard : Bool} (hbad : E .badInstruction m) (hok : guard = true → P () m) :
    Meets answer P E (require guard) m := by
  unfold require
  rw [meets_ite]
  split
  case isTrue h => exact .pure (hok h)
  case isFalse => exact .throw hbad

theorem refuse_meets {c : Bool} (hbad : E .disallowedStateChange m) (hok : P () m) :
    Meets answer P E (refuse c) m := by
  unfold refuse
  rw [meets_ite]
  split
  case isTrue => exact .throw hbad
  case isFalse => exact .pure hok

/-! ### The stack and memory -/

section Places
variable {args ret : ℕ}

theorem sp_meets {P : U256 → VMState → Prop} (hm : Ready m args ret) {i : ℕ} (hi : i < args)
    (hok : P (m.operand i) m) : Meets answer P E (sp i) m := by
  simp only [sp, meets_bind, meets_get]
  rw [if_pos (hm.inStack hi)]
  exact .pure hok

theorem setSP_meets {i : ℕ} {v : U256} (hm : Ready m args ret) (hi : i < args)
    (hok : P () {m with m_stack := Function.update m.m_stack (m.m_SP + i) v}) :
    Meets answer P E (setSP i v) m := by
  simp only [setSP, meets_bind, meets_get]
  rw [if_pos (hm.inStack hi)]
  exact .modify hok

theorem setSPP_meets {v : U256} (hm : Ready m args ret) (hret : 0 < ret)
    (hok : P () {m with m_stack := Function.update m.m_stack m.m_SPP v}) :
    Meets answer P E (setSPP v) m := by
  simp only [setSPP, meets_bind, meets_get]
  rw [if_pos (hm.result hret)]
  exact .modify hok

end Places

theorem next_meets {P : Flow → VMState → Prop}
    (hok : P .running {m with m_PC := m.m_PC + 1}) : Meets answer P E next m :=
  .bind (.modify (.pure hok))

theorem continueAt_meets {P : Flow → VMState → Prop} {pc : ℕ}
    (hok : P .running {m with m_PC := pc}) : Meets answer P E (continueAt pc) m :=
  .bind (.modify (.pure hok))

end Units

theorem toUint64_of_le {x : U256} (h : x.toNat ≤ int63max) : toUint64 x = x.toNat :=
  Nat.mod_eq_of_lt (by unfold int63max at h; omega)

theorem rangeEnd_of_ne {offset size : U256} (h : size ≠ 0) :
    rangeEnd offset size = offset.toNat + size.toNat := if_neg h

theorem size_le_rangeEnd (offset size : U256) : size.toNat ≤ rangeEnd offset size := by
  unfold rangeEnd
  split
  case isTrue h =>
    subst h
    exact le_rfl
  case isFalse => exact Nat.le_add_left ..

theorem toNat_pos_of_ne {size : U256} (h : size ≠ 0) : 0 < size.toNat := by
  refine Nat.pos_of_ne_zero fun h0 => h ?_
  exact BitVec.eq_of_toNat_eq h0

theorem readMem_meets {P : Bytes → VMState → Prop} {offset size : ℕ}
    (hroom : size ≠ 0 → offset + size ≤ m.m_mem.length)
    (hok : P ((m.m_mem.drop offset).take size) m) : Meets answer P E (readMem offset size) m := by
  simp only [readMem, meets_bind, meets_get, meets_ite, meets_pure, meets_throw]
  split
  case isTrue h =>
    rw [h, List.take_zero] at hok
    exact hok
  case isFalse h =>
    rw [if_pos (hroom h)]
    exact hok

/-- A range of memory that has been paid for. -/
theorem readRange_meets {P : Bytes → VMState → Prop} {offset size : U256}
    (hend : rangeEnd offset size ≤ int63max) (hroom : rangeEnd offset size ≤ m.m_mem.length)
    (hok : P ((m.m_mem.drop offset.toNat).take size.toNat) m) :
    Meets answer P E (readMem (toUint64 offset) (toUint64 size)) m := by
  rw [toUint64_of_le ((size_le_rangeEnd ..).trans hend)]
  by_cases h : size = 0
  · subst h
    exact readMem_meets (fun h => absurd rfl h) hok
  · rw [rangeEnd_of_ne h] at hend hroom
    rw [toUint64_of_le (Nat.le_of_add_right_le hend)]
    exact readMem_meets (fun _ => hroom) hok

@[simp] theorem overwrite_nil (mem : Bytes) (offset : ℕ) : overwrite mem offset [] = mem := by
  simp [overwrite]

theorem length_overwrite {mem data : Bytes} {offset : ℕ} (h : offset + data.length ≤ mem.length) :
    (overwrite mem offset data).length = mem.length := by
  simp only [overwrite, List.length_append, List.length_take, List.length_drop]
  omega

/-- Writing on from where one write has ended. -/
theorem overwrite_overwrite {mem a b : Bytes} {offset : ℕ}
    (h : offset + a.length ≤ mem.length) :
    overwrite (overwrite mem offset a) (offset + a.length) b = overwrite mem offset (a ++ b) := by
  have hlength : (mem.take offset ++ a).length = offset + a.length := by
    rw [List.length_append, List.length_take]
    omega
  unfold overwrite
  rw [List.take_append_of_le_length hlength.ge, List.take_of_length_le hlength.le,
    ← List.drop_drop, List.drop_left' hlength, List.drop_drop, List.length_append,
    List.append_assoc (List.take offset mem), Nat.add_assoc]

theorem writeMem_meets {P : Unit → VMState → Prop} {offset : ℕ} {data : Bytes}
    (hfits : data ≠ [] → offset + data.length ≤ m.m_mem.length)
    (hok : P () {m with m_mem := overwrite m.m_mem offset data}) :
    Meets answer P E (writeMem offset data) m := by
  simp only [writeMem, meets_bind, meets_get, meets_ite, meets_pure, meets_throw, meets_modify]
  split
  case isTrue h =>
    rw [h, overwrite_nil] at hok
    exact hok
  case isFalse h =>
    rw [if_pos (hfits h)]
    exact hok

/-- What is copied, and the zeros behind it. -/
theorem padded_eq {data : Bytes} {index size : ℕ} :
    padded data index size = (data.drop index).take size ++
      List.replicate (size - ((data.drop index).take size).length) 0 := by
  refine List.ext_getElem ?_ fun j h₁ h₂ => ?_
  · simp only [padded, List.length_map, List.length_range, List.length_append,
      List.length_replicate, List.length_take, List.length_drop]
    omega
  · simp only [padded, List.length_map, List.length_range] at h₁
    simp only [padded, List.getElem_map, List.getElem_range]
    rw [List.getElem_append]
    split
    case isTrue h =>
      rw [List.length_take, List.length_drop] at h
      rw [List.getElem_take, List.getElem_drop, List.getD_eq_getElem]
    case isFalse h =>
      rw [List.length_take, List.length_drop] at h
      rw [List.getElem_replicate, List.getD_eq_default]
      omega

/-- The cast of the index is exact wherever the index is used. -/
theorem copied_eq (data : Buffer) (index size : ℕ) :
    (data.bytes.drop (index % 2 ^ 64)).take
        (if data.bytes.length < index + size then
          if data.bytes.length < index then 0 else data.bytes.length - index % 2 ^ 64
        else size) = (data.bytes.drop index).take size ∧
      (if data.bytes.length < index + size then
        if data.bytes.length < index then 0 else data.bytes.length - index % 2 ^ 64
      else size) = ((data.bytes.drop index).take size).length := by
  have hsize := data.size_lt
  rw [List.length_take, List.length_drop]
  by_cases hin : index ≤ data.bytes.length
  · have hmod : index % 2 ^ 64 = index := Nat.mod_eq_of_lt (hin.trans_lt hsize)
    rw [hmod]
    split
    case isTrue hend =>
      rw [if_neg (not_lt.mpr hin)]
      refine ⟨?_, by omega⟩
      rw [List.take_of_length_le (by rw [List.length_drop]),
        List.take_of_length_le (by rw [List.length_drop]; omega)]
    case isFalse hend => exact ⟨rfl, by omega⟩
  · have hout : data.bytes.length < index := not_le.mp hin
    rw [if_pos (by omega), if_pos hout, List.take_zero, List.drop_eq_nil_of_le hout.le,
      List.take_nil]
    exact ⟨rfl, by omega⟩

theorem copyDataToMemory_meets {P : Unit → VMState → Prop} {data : Buffer} {i args ret : ℕ}
    (hm : Ready m args ret) (hi : i + 2 < args)
    (hend : rangeEnd (m.operand i) (m.operand (i + 2)) ≤ int63max)
    (hroom : rangeEnd (m.operand i) (m.operand (i + 2)) ≤ m.m_mem.length)
    (hok : P () {m with
      m_mem := overwrite m.m_mem (m.operand i).toNat
        (padded data.bytes (m.operand (i + 1)).toNat (m.operand (i + 2)).toNat)}) :
    Meets answer P E (copyDataToMemory data i) m := by
  unfold copyDataToMemory
  refine .bind (sp_meets hm (by omega) (.bind (sp_meets hm (by omega) (.bind (sp_meets hm hi ?_)))))
  have hsize : (m.operand (i + 2)).toNat % 2 ^ 64 = (m.operand (i + 2)).toNat :=
    toUint64_of_le ((size_le_rangeEnd ..).trans hend)
  dsimp only
  rw [hsize]
  obtain ⟨hbytes, hcount⟩ := copied_eq data (m.operand (i + 1)).toNat (m.operand (i + 2)).toNat
  rw [hbytes, hcount]
  rw [padded_eq] at hok
  generalize hcopied : (data.bytes.drop (m.operand (i + 1)).toNat).take
    (m.operand (i + 2)).toNat = copied at hok ⊢
  have hle : copied.length ≤ (m.operand (i + 2)).toNat := by
    rw [← hcopied]
    exact List.length_take_le ..
  by_cases hzero : m.operand (i + 2) = 0
  · have hnil : copied = [] := List.eq_nil_of_length_eq_zero (by rw [hzero] at hle; simpa using hle)
    subst hnil
    rw [hzero] at hok ⊢
    exact .bind (writeMem_meets (fun h => absurd rfl h) (writeMem_meets (fun h => absurd rfl h)
      (by simpa using hok)))
  · rw [rangeEnd_of_ne hzero] at hend hroom
    have hoffset : (m.operand i).toNat % 2 ^ 64 = (m.operand i).toNat :=
      toUint64_of_le (Nat.le_of_add_right_le hend)
    rw [hoffset]
    refine .bind (writeMem_meets (fun _ => by omega) (writeMem_meets (fun _ => ?_) ?_))
    · rw [List.length_replicate]
      show _ ≤ (overwrite m.m_mem _ copied).length
      rw [length_overwrite (by omega)]
      omega
    · show P () {m with m_mem := overwrite (overwrite m.m_mem _ copied) _ _}
      rw [overwrite_overwrite (by omega)]
      exact hok

end Aleth.Evm
