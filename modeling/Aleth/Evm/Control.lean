import Aleth.Evm.Runs

/-! Where a run of the interpreter gets to.

Between two turns the program counter is at the start of an instruction, as the
code is scanned from its beginning, and the stack pointer is in the stack. So no
turn reads outside the stack, the memory or the code, and the stack is found too
small or too full exactly when it is. -/
namespace Aleth.Evm
open Devcore Machine Instruction

/-- Between two turns. -/
structure Steady (code : Bytes) (m : VMState) : Prop where
  starts : Starts code m.m_PC
  room : m.m_PC ≤ code.length + 32
  balanced : m.Balanced

/-- What a turn throws, and when. -/
structure Verdict (op : Instruction) (m : VMState) (e : VMException) : Prop where
  fault : e ≠ .fault
  underflow : e = .stackUnderflow ↔ ¬op.HasOperands m
  out : e = .outOfStack ↔ op.HasOperands m ∧ ¬op.HasRoom m

section Control
variable {schedule : EVMSchedule} {ext : ExtVM} {source : Bytes} {code : Code}
  {answer : (q : Query) → q.Reply} {op : Instruction} {m m' : VMState} {pc : ℕ}

/-- Jumps lead to the starts of instructions of the code. -/
theorem Prepared.jump (h : Prepared source code) {dest : U256}
    (hdest : verifyJumpDest code dest = some pc) :
    Starts source pc ∧ pc < source.length := by
  unfold verifyJumpDest at hdest
  split at hdest
  case isTrue hall =>
    cases hdest
    obtain ⟨hstarts, hop⟩ := (h.dests _).mp hall.2
    refine ⟨hstarts, not_le.mp fun hle => ?_⟩
    rw [ofByte_getD_of_le hle] at hop
    cases hop
  case isFalse => cases hdest

/-- The instruction at a start, after the preparation. -/
theorem Prepared.not_synthetic (h : Prepared source code) (hpc : Starts source pc) :
    ¬(ofByte (code.m_code.getD pc 0)).Synthetic := by
  rw [h.byte pc hpc]
  split
  case isTrue => decide
  case isFalse hsyn => exact hsyn

theorem Prepared.getElem? (h : Prepared source code) (hm : Steady source m) :
    code.m_code[m.m_PC]? = some (code.m_code.getD m.m_PC 0) := by
  have hroom := hm.room
  have hlt : m.m_PC < code.m_code.length := by rw [h.length]; omega
  rw [List.getD_eq_getElem _ _ hlt]
  exact List.getElem?_eq_getElem hlt

/-- Where an instruction that is carried out goes on. -/
theorem Goes.steady (h : Prepared source code) (hm : Steady source m)
    (hop : op = ofByte (code.m_code.getD m.m_PC 0)) (hstop : op ≠ .stop)
    (hgoes : op.Goes code (m.fetched schedule op) pc) :
    Starts source pc ∧ pc ≤ source.length + 32 := by
  have hinside : m.m_PC < source.length :=
    not_le.mp fun hle => hstop (hop.trans (h.stop hle))
  have hsyn : ¬op.Synthetic := hop ▸ h.not_synthetic hm.starts
  have hnext : nextPc source m.m_PC = m.m_PC + 1 + op.pushSize := by
    rw [← h.nextPc_eq hm.starts, nextPc, ← hop]
  have hfollows : pc = m.m_PC + 1 + op.pushSize →
      Starts source pc ∧ pc ≤ source.length + 32 := by
    intro hpc
    have hsize : op.pushSize ≤ 32 := hop ▸ pushSize_ofByte_le _
    refine ⟨?_, by omega⟩
    rw [hpc, ← hnext]
    exact hm.starts.next
  have hjumps {dest : U256} (hdest : verifyJumpDest code dest = some pc) :
      Starts source pc ∧ pc ≤ source.length + 32 := by
    obtain ⟨hstarts, hlt⟩ := h.jump hdest
    exact ⟨hstarts, by omega⟩
  cases op
  case push n => exact hfollows hgoes
  case pushc => exact absurd (.inl rfl) hsyn
  case jumpc => exact absurd (.inr (.inl rfl)) hsyn
  case jumpci => exact absurd (.inr (.inr rfl)) hsyn
  case jump => exact hjumps hgoes
  case jumpi =>
    by_cases hcondition : (m.fetched schedule .jumpi).operand 1 ≠ 0
    · rw [Goes, if_pos hcondition] at hgoes
      exact hjumps hgoes
    · rw [Goes, if_neg hcondition] at hgoes
      exact hfollows hgoes
  all_goals exact hfollows hgoes

/-- What an instruction reads of the code is there. -/
theorem Prepared.readable (h : Prepared source code) (hm : Steady source m)
    (hop : op = ofByte (code.m_code.getD m.m_PC 0)) :
    op.Readable code (m.fetched schedule op) := by
  have hsyn : ¬op.Synthetic := hop ▸ h.not_synthetic hm.starts
  have hsize : op.pushSize ≤ 32 := hop ▸ pushSize_ofByte_le _
  cases op
  case push n =>
    have hinside : m.m_PC < source.length := by
      refine not_le.mp fun hle => ?_
      rw [h.stop hle] at hop
      cases hop
    have hn : n ≤ 32 := hsize
    show m.m_PC + 1 + n ≤ code.m_code.length
    rw [h.length]
    omega
  case pushc => exact absurd (.inl rfl) hsyn
  all_goals exact trivial

/-- Carrying out an instruction throws nothing about the stack, and reads what is there. -/
theorem Thrown.verdict {e : VMException} {m₀ : VMState} (hoperands : op.HasOperands m)
    (hroom : op.HasRoom m) (hread : op.Readable code m₀)
    (h : Thrown schedule ext answer code op m₀ e m') : Verdict op m e := by
  have hsettled := h.settled
  cases e
  case fault => exact absurd hread hsettled.1
  case stackUnderflow => exact hsettled.elim
  case outOfStack => exact hsettled.elim
  all_goals exact ⟨(fun h => by cases h), by simp [hoperands], by simp [hroom]⟩

theorem stop_halts [Sha3] (m : VMState) :
    Meets answer (fun flow _ => op = .stop → flow = .stopped) (fun _ _ => True)
      (interpretCase false schedule ext code op) m := by
  by_cases hstop : op = .stop
  · subst hstop
    exact .bind ((meets_any _ m).mono (fun _ _ _ => .pure fun _ => rfl) fun _ _ _ => trivial)
  · exact (meets_any _ m).mono (fun _ _ _ h => absurd h hstop) fun _ _ h => h

/-- A turn carries its instruction out, if nothing is missing on the stack. -/
theorem interpret_carries [Sha3] (hs : schedule ∈ schedules) (ext : ExtVM)
    (answer : (q : Query) → q.Reply) (h : Prepared source code) (hm : Steady source m)
    (hop : ofByte (code.m_code.getD m.m_PC 0) = op) :
    Meets answer
      (fun flow m' => Executed schedule ext answer code op (m.fetched schedule op) flow m' ∧
        Fetched schedule op (m.fetched schedule op) ∧ (flow = .running → op ≠ .stop) ∧
        op.HasOperands m ∧ op.HasRoom m)
      (fun e _ => Verdict op m e) (interpret false schedule ext code) m := by
  have hmoderate := EVMSchedule.moderate_of_mem hs
  have hread := @Prepared.readable schedule source code op m h hm hop.symm
  refine .bind (fetchInstruction_meets hmoderate hm.balanced (h.getElem? hm) ?_ ?_ ?_)
  · rw [hop]
    intro hoperands m' _ _
    exact ⟨by decide, by simp [hoperands], by simp [hoperands]⟩
  · rw [hop]
    intro hoperands hroom m' _ _
    exact ⟨by decide, by simp [hoperands], by simp [hoperands, hroom]⟩
  rw [hop]
  intro hoperands hroom hm'
  refine .bind (.get ?_)
  have hcase : Carries schedule ext answer code op (interpretCase false schedule ext code op)
      (m.fetched schedule op) := interpretCase_meets (hop ▸ known_ofByte _) hmoderate hm'
  refine (hcase.and (stop_halts _)).mono
    (fun flow m' hexecuted => ⟨hexecuted.1, hm', fun hrun hstop => ?_, hoperands, hroom⟩)
    fun e m' hthrown => hthrown.1.verdict hoperands hroom hread
  rw [hexecuted.2 hstop] at hrun
  cases hrun

/-- **A turn leads from the start of an instruction to the start of an instruction.** -/
theorem interpret_steady [Sha3] (hs : schedule ∈ schedules) (ext : ExtVM)
    (answer : (q : Query) → q.Reply) (h : Prepared source code) (hm : Steady source m) :
    Meets answer
      (fun flow m' => (flow = .running → Steady source m') ∧
        (ofByte (code.m_code.getD m.m_PC 0)).HasOperands m ∧
        (ofByte (code.m_code.getD m.m_PC 0)).HasRoom m)
      (fun e _ => Verdict (ofByte (code.m_code.getD m.m_PC 0)) m e)
      (interpret false schedule ext code) m := by
  refine (interpret_carries hs ext answer h hm rfl).mono (fun flow m' hall => ?_) fun _ _ h => h
  obtain ⟨hexecuted, hfetched, hstop, hfits⟩ := hall
  refine ⟨fun hrun => ?_, hfits⟩
  obtain ⟨hstarts, hplace⟩ := Goes.steady h hm rfl (hstop hrun) (hexecuted.goes hrun)
  exact ⟨hstarts, hplace, hexecuted.balanced hfetched⟩

end Control

/-- A push of a byte that looks like a jump destination, and a `POP`. -/
def pushExt : ExtVM := {sampleExt with code := ⟨[0x60, 0x5b, 0x50], by decide⟩}

end Aleth.Evm
