import Aleth.Evm.Control

/-! The rewritten code does what the plain code does.

Where no more constants were put in the pool than 16 bits can tell apart, a run of
the rewritten code and one of the plain code are the same, turn by turn: the
program counter, the stack, the gas, the memory, the questions and the outcome.
Only the name of the instruction that was fetched differs (`Same`). A jump that was
replaced stands behind the push of its destination, and cannot be reached otherwise. -/
namespace Aleth.Evm
open Devcore Machine Instruction

/-- But for the instruction that was fetched, the states are the same. -/
def VMState.Same (m m' : VMState) : Prop := ∃ op, m' = {m with m_OP := op}

theorem VMState.Same.refl (m : VMState) : m.Same m := ⟨m.m_OP, rfl⟩

theorem VMState.Same.symm {m m' : VMState} (h : m.Same m') : m'.Same m := by
  obtain ⟨op, rfl⟩ := h
  exact ⟨m.m_OP, rfl⟩

theorem VMState.Same.trans {m m' m'' : VMState} (h : m.Same m') (h' : m'.Same m'') :
    m.Same m'' := by
  obtain ⟨op, rfl⟩ := h
  obtain ⟨op', rfl⟩ := h'
  exact ⟨op', rfl⟩

/-- The computations come to the same outcome, from states that are the same. -/
def Alike {α : Type} (x y : VM α) (m m' : VMState) : Prop :=
  ∀ answer : (q : Query) → q.Reply, (x.under answer m).1 = (y.under answer m').1 ∧
    (x.under answer m).2.Same (y.under answer m').2

/-- The computation does not look at the instruction that was fetched. -/
def Ignores {α : Type} (x : VM α) : Prop := ∀ m m', m.Same m' → Alike x x m m'

section Alike
variable {α β : Type} {x y : VM α} {f g : α → VM β} {m m' : VMState}

theorem Alike.bind (h : Alike x y m m') (hf : ∀ a m m', m.Same m' → Alike (f a) (g a) m m') :
    Alike (x >>= f) (y >>= g) m m' := by
  intro answer
  obtain ⟨hr, hs⟩ := h answer
  rw [under_bind, under_bind]
  rcases hx : x.under answer m with ⟨r, m₁⟩
  rcases hy : y.under answer m' with ⟨r', m₁'⟩
  rw [hx, hy] at hr hs
  dsimp only at hr hs
  subst hr
  cases r with
  | error e => exact ⟨rfl, hs⟩
  | ok a => exact hf a m₁ m₁' hs answer

theorem Ignores.bind (h : Ignores x) (hf : ∀ a, Ignores (f a)) : Ignores (x >>= f) :=
  fun m m' hs => (h m m' hs).bind fun a => hf a

theorem ignores_updateIOGas : Ignores updateIOGas := by
  intro m m' ⟨op, hm⟩ answer
  subst hm
  unfold updateIOGas
  simp only [under_bind, under_get, under_ite, under_throw, under_modify]
  split_ifs
  · exact ⟨rfl, op, rfl⟩
  · exact ⟨rfl, op, rfl⟩

theorem ignores_sp (i : ℕ) : Ignores (sp i) := by
  intro m m' ⟨op, hm⟩ answer
  subst hm
  unfold sp
  simp only [under_bind, under_get, under_ite, under_throw, under_pure]
  split_ifs
  · exact ⟨rfl, op, rfl⟩
  · exact ⟨rfl, op, rfl⟩

theorem ignores_setSPP (v : U256) : Ignores (setSPP v) := by
  intro m m' ⟨op, hm⟩ answer
  subst hm
  unfold setSPP
  simp only [under_bind, under_get, under_ite, under_throw, under_modify]
  split_ifs
  · exact ⟨rfl, op, rfl⟩
  · exact ⟨rfl, op, rfl⟩

theorem ignores_continueAt (pc : ℕ) : Ignores (continueAt pc) := by
  intro m m' ⟨op, hm⟩ answer
  subst hm
  exact ⟨rfl, op, rfl⟩

theorem ignores_next : Ignores next := by
  intro m m' ⟨op, hm⟩ answer
  subst hm
  exact ⟨rfl, op, rfl⟩

theorem ignores_adjustStack (removed added : ℕ) : Ignores (adjustStack removed added) := by
  intro m m' ⟨op, hm⟩ answer
  subst hm
  unfold adjustStack throwBadStack
  simp only [under_bind, under_get, under_ite, under_throw, under_modify]
  split_ifs
  all_goals exact ⟨rfl, op, rfl⟩

theorem ignores_setRunGas (gas : ℕ) : Ignores (setRunGas gas) := by
  intro m m' ⟨op, hm⟩ answer
  subst hm
  unfold setRunGas toInt63
  simp only [under_bind, under_ite, under_throw, under_pure, under_modify]
  split_ifs
  · exact ⟨rfl, op, rfl⟩
  · exact ⟨rfl, op, rfl⟩

end Alike
/-! ### What the rewritten cases come to -/

/-- A constant is pushed, and the run goes on behind it. -/
def pushing (v : U256) (pc : ℕ) : VM Flow := do
  updateIOGas
  setSPP v
  continueAt pc

/-- The run goes on at a destination, or behind the jump. -/
def jumping (taken : Bool) (pc : ℕ) : VM Flow := do
  updateIOGas
  if taken then continueAt pc else next

theorem ignores_pushing (v : U256) (pc : ℕ) : Ignores (pushing v pc) :=
  ignores_updateIOGas.bind fun _ => (ignores_setSPP v).bind fun _ => ignores_continueAt pc

theorem ignores_jumping (taken : Bool) (pc : ℕ) : Ignores (jumping taken pc) := by
  refine ignores_updateIOGas.bind fun _ => ?_
  cases taken with
  | true => exact ignores_continueAt pc
  | false => exact ignores_next

section Cases
variable {code : Code} {answer : (q : Query) → q.Reply} {m : VMState} {n pc : ℕ} {v : U256}

theorem under_updateIOGas (answer : (q : Query) → q.Reply) (m : VMState) :
    updateIOGas.under answer m = (.error .outOfGas, m) ∨
      updateIOGas.under answer m = (.ok (), {m with m_io_gas := m.m_io_gas - m.m_runGas}) := by
  unfold updateIOGas
  simp only [under_bind, under_get, under_ite, under_throw, under_modify]
  split_ifs
  · exact .inl rfl
  · exact .inr rfl

theorem under_require (answer : (q : Query) → q.Reply) (m : VMState) :
    (require true).under answer m = (.ok (), m) := rfl

theorem under_sp {args ret i : ℕ} (hm : Ready m args ret) (hi : i < args) :
    (sp i).under answer m = (.ok (m.operand i), m) := by
  unfold sp
  simp only [under_bind, under_get, under_ite, under_pure]
  exact if_pos (hm.inStack hi)

theorem under_codeBytes (h : pc + n ≤ code.m_code.length) :
    (codeBytes code pc n).under answer m = (.ok ((code.m_code.drop pc).take n), m) := by
  unfold codeBytes
  rw [if_pos h]
  rfl

theorem under_casePush (hroom : m.m_PC + 1 + n ≤ code.m_code.length) :
    (casePush code n).under answer m =
      (pushing (constantAt code.m_code m.m_PC n) (m.m_PC + 1 + n)).under answer m := by
  unfold casePush pushing
  rcases under_updateIOGas answer m with h | h
  · rw [under_bind_error h, under_bind_error h]
  · rw [under_bind_ok h, under_bind_ok h, under_bind_ok (under_get ..)]
    exact under_bind_ok (under_codeBytes hroom) _

theorem under_casePushc {high low rest : UInt8} (hroom : m.m_PC + 1 + 3 ≤ code.m_code.length)
    (hbytes : (code.m_code.drop (m.m_PC + 1)).take 3 = [high, low, rest])
    (hv : code.m_pool[high.toNat * 256 + low.toNat]? = some v) :
    (casePushc true code).under answer m =
      (pushing v (m.m_PC + 3 + rest.toNat)).under answer m := by
  unfold casePushc pushing
  rw [under_bind_ok (under_require answer m)]
  rcases under_updateIOGas answer m with h | h
  · rw [under_bind_error h, under_bind_error h]
  · rw [under_bind_ok h, under_bind_ok h, under_bind_ok (under_get ..),
      under_bind_ok (under_codeBytes hroom), hbytes]
    dsimp only
    rw [hv]

/-- A jump to a destination. -/
theorem under_jumpTo {dest : U256} (hdest : verifyJumpDest code dest = some pc) :
    jumpTo code dest = continueAt pc := by
  unfold jumpTo
  rw [hdest]

theorem toUint64_of_verified {dest : U256} (hdest : (verifyJumpDest code dest).isSome) :
    verifyJumpDest code dest = some (toUint64 dest) := by
  unfold verifyJumpDest at hdest ⊢
  split at hdest
  case isTrue h => rw [if_pos h, toUint64_of_le h.1]
  case isFalse => cases hdest

section Jumps
variable {args ret : ℕ}

/-- Charging leaves the operands where they are. -/
theorem under_sp_charged {i : ℕ} (hm : Ready m args ret) (hi : i < args) (g : U64) :
    (sp i).under answer {m with m_io_gas := g} = (.ok (m.operand i), {m with m_io_gas := g}) :=
  under_sp ⟨hm.low, hm.high, hm.spp, hm.room⟩ hi

theorem under_caseJump (hm : Ready m args ret) (hargs : 0 < args)
    (hdest : (verifyJumpDest code (m.operand 0)).isSome) :
    (caseJump code).under answer m = (jumping true (toUint64 (m.operand 0))).under answer m := by
  unfold caseJump jumping
  rcases under_updateIOGas answer m with h | h
  · rw [under_bind_error h, under_bind_error h]
  · rw [under_bind_ok h, under_bind_ok h, under_bind_ok (under_sp_charged hm hargs _)]
    rw [under_jumpTo (toUint64_of_verified hdest)]
    rfl

theorem under_caseJumpc (hm : Ready m args ret) (hargs : 0 < args) :
    (caseJumpc true).under answer m = (jumping true (toUint64 (m.operand 0))).under answer m := by
  unfold caseJumpc jumping
  rw [under_bind_ok (under_require answer m)]
  rcases under_updateIOGas answer m with h | h
  · rw [under_bind_error h, under_bind_error h]
  · rw [under_bind_ok h, under_bind_ok h, under_bind_ok (under_sp_charged hm hargs _)]
    rfl

theorem under_caseJumpi (hm : Ready m args ret) (hargs : 1 < args)
    (hdest : (verifyJumpDest code (m.operand 0)).isSome) :
    (caseJumpi code).under answer m =
      (jumping (m.operand 1 ≠ 0) (toUint64 (m.operand 0))).under answer m := by
  unfold caseJumpi jumping
  rcases under_updateIOGas answer m with h | h
  · rw [under_bind_error h, under_bind_error h]
  · rw [under_bind_ok h, under_bind_ok h, under_bind_ok (under_sp_charged hm hargs _), under_ite,
      under_ite]
    by_cases htaken : m.operand 1 ≠ 0
    · rw [if_pos htaken, if_pos (decide_eq_true htaken),
        under_bind_ok (under_sp_charged hm (Nat.zero_lt_of_lt hargs) _)]
      rw [under_jumpTo (toUint64_of_verified hdest)]
    · rw [if_neg htaken, if_neg (by simpa using htaken)]

theorem under_caseJumpci (hm : Ready m args ret) (hargs : 1 < args) :
    (caseJumpci true).under answer m =
      (jumping (m.operand 1 ≠ 0) (toUint64 (m.operand 0))).under answer m := by
  unfold caseJumpci jumping
  rw [under_bind_ok (under_require answer m)]
  rcases under_updateIOGas answer m with h | h
  · rw [under_bind_error h, under_bind_error h]
  · rw [under_bind_ok h, under_bind_ok h, under_bind_ok (under_sp_charged hm hargs _), under_ite,
      under_ite]
    by_cases htaken : m.operand 1 ≠ 0
    · rw [if_pos htaken, if_pos (decide_eq_true htaken),
        under_bind_ok (under_sp_charged hm (Nat.zero_lt_of_lt hargs) _)]
    · rw [if_neg htaken, if_neg (by simpa using htaken)]

end Jumps
end Cases
/-! ### A turn -/

section Turn
variable [Sha3] {schedule : EVMSchedule} {ext : ExtVM} {p c : Code} {op : Instruction}
  {m m' : VMState}

/-- The cases that look at neither the code nor the pool. -/
theorem interpretCase_congr (hdests : c.m_jumpDests = p.m_jumpDests) (hpush : ∀ n, op ≠ .push n)
    (hsyn : ¬op.Synthetic) :
    interpretCase true schedule ext c op = interpretCase false schedule ext p op := by
  have hjump : jumpTo c = jumpTo p := by
    funext dest
    unfold jumpTo
    rw [verifyJumpDest_congr hdests]
  cases op
  case push n => exact absurd rfl (hpush n)
  case pushc => exact absurd (.inl rfl) hsyn
  case jumpc => exact absurd (.inr (.inl rfl)) hsyn
  case jumpci => exact absurd (.inr (.inr rfl)) hsyn
  case jump =>
    show caseJump c = caseJump p
    unfold caseJump
    rw [hjump]
  case jumpi =>
    show caseJumpi c = caseJumpi p
    unfold caseJumpi
    rw [hjump]
  all_goals rfl

omit [Sha3] in
/-- Instructions that are like each other on the stack and in price are fetched alike. -/
theorem fetch_alike {b b' : UInt8} (hm : m.Same m') (hb : c.m_code[m.m_PC]? = some b)
    (hb' : p.m_code[m.m_PC]? = some b')
    (hmetric : instructionInfo (ofByte b) = instructionInfo (ofByte b')) :
    Alike (fetchInstruction schedule c) (fetchInstruction schedule p) m m' := by
  obtain ⟨op, rfl⟩ := hm
  intro answer
  unfold fetchInstruction
  rw [under_bind_ok (under_get ..), under_bind_ok (under_get ..)]
  dsimp only
  rw [hb, hb']
  dsimp only
  rw [under_bind_ok (under_modify ..), under_bind_ok (under_modify ..), hmetric]
  refine ((ignores_adjustStack _ _).bind fun _ => (ignores_setRunGas _).bind fun _ => ?_)
    _ _ ⟨_, rfl⟩ answer
  intro m m' ⟨op, hm⟩ answer
  subst hm
  exact ⟨rfl, op, rfl⟩

end Turn

/-- Between two turns of the plain code: if an instruction stands behind a push and nothing else
leads to it, the constant is on top. -/
structure Coherent (source : Bytes) (p : Code) (m : VMState) : Prop where
  steady : Steady source m
  top : ∀ pc n, Starts p.m_code pc → ofByte (p.m_code.getD pc 0) = .push n →
    pc + 1 + n = m.m_PC → ofByte (p.m_code.getD m.m_PC 0) ≠ .jumpdest →
    m.m_stack m.m_SPP = constantAt p.m_code pc n

section Turns
variable [Sha3] {schedule : EVMSchedule} {ext : ExtVM} {source : Bytes} {p c : Code}
  {op op' : Instruction} {m m' : VMState}

omit [Sha3] in
theorem constantAt_congr {a b : Bytes} {pc n : ℕ} (hlength : a.length = b.length)
    (h : ∀ j, pc ≤ j → j ≤ pc + n → a.getD j 0 = b.getD j 0) :
    constantAt a pc n = constantAt b pc n := by
  unfold constantAt
  congr 1
  refine List.ext_getElem (by simp [hlength]) fun j ha hb => ?_
  rw [List.length_take, List.length_drop] at ha hb
  have hj := h (pc + 1 + j) (by omega) (by omega)
  rw [List.getD_eq_getElem _ _ (by omega), List.getD_eq_getElem _ _ (by omega)] at hj
  rw [List.getElem_take, List.getElem_take, List.getElem_drop, List.getElem_drop]
  exact hj

/-- What the rewritten instruction does with a state is what the plain one does. -/
def CasesAlike (schedule : EVMSchedule) (ext : ExtVM) (p c : Code) (op op' : Instruction)
    (m : VMState) : Prop :=
  Alike (interpretCase true schedule ext c op) (interpretCase false schedule ext p op')
    (m.fetched schedule op) (m.fetched schedule op')

theorem casesAlike_push {n : ℕ} (hprepared : Prepared source p) (hrewritten : Rewritten p c)
    (hm : Steady source m) (hop : ofByte (p.m_code.getD m.m_PC 0) = .push n) :
    CasesAlike schedule ext p c (ofByte (c.m_code.getD m.m_PC 0)) (.push n) m := by
  have hstarts := hprepared.starts_iff.mpr hm.starts
  have hstands := hrewritten.stands m.m_PC hstarts
  have hn := le_of_ofByte_eq_push hop
  have hinside : m.m_PC < source.length := by
    refine not_le.mp fun hle => ?_
    rw [hprepared.stop hle] at hop
    cases hop
  have hplength := hprepared.length
  have hclength := hrewritten.length
  unfold Stands at hstands
  rw [hop] at hstands
  dsimp only at hstands
  intro answer
  have hplain : (casePush p n).under answer (m.fetched schedule (.push n)) =
      (pushing (constantAt p.m_code m.m_PC n) (m.m_PC + 1 + n)).under answer
        (m.fetched schedule (.push n)) :=
    under_casePush (by show m.m_PC + 1 + n ≤ _; omega)
  split at hstands
  case isTrue hlong =>
    obtain ⟨hbyte, hv, hrest⟩ := hstands
    rw [hbyte, ofByte_pushcByte]
    have hpc : m.m_PC + 3 + (c.m_code.getD (m.m_PC + 3) 0).toNat = m.m_PC + 1 + n := by omega
    have hpooled : (casePushc true c).under answer (m.fetched schedule .pushc) =
        (pushing (constantAt p.m_code m.m_PC n) (m.m_PC + 1 + n)).under answer
          (m.fetched schedule .pushc) := by
      rw [← hpc]
      exact under_casePushc (by show m.m_PC + 1 + 3 ≤ _; omega)
        (take_three (by show m.m_PC + 1 + 3 ≤ _; omega)) hv
    show ((casePushc true c).under answer _).1 = ((casePush p n).under answer _).1 ∧
      ((casePushc true c).under answer _).2.Same ((casePush p n).under answer _).2
    rw [hplain, hpooled]
    exact ignores_pushing _ _ _ _ ⟨.push n, rfl⟩ answer
  case isFalse hshort =>
    have hbyte : c.m_code.getD m.m_PC 0 = p.m_code.getD m.m_PC 0 :=
      hstands _ le_rfl (Nat.le_add_right ..)
    rw [hbyte, hop]
    have hkept : (casePush c n).under answer (m.fetched schedule (.push n)) =
        (pushing (constantAt c.m_code m.m_PC n) (m.m_PC + 1 + n)).under answer
          (m.fetched schedule (.push n)) :=
      under_casePush (by show m.m_PC + 1 + n ≤ _; omega)
    show ((casePush c n).under answer _).1 = ((casePush p n).under answer _).1 ∧
      ((casePush c n).under answer _).2.Same ((casePush p n).under answer _).2
    rw [hplain, hkept, constantAt_congr hclength hstands]
    exact ⟨rfl, .refl _⟩

omit [Sha3] in
/-- A jump that was replaced finds the constant that was verified. -/
theorem Coherent.verified (hm : Coherent source p m) (hverified : Verified p m.m_PC)
    (hop : ofByte (p.m_code.getD m.m_PC 0) ≠ .jumpdest) :
    (verifyJumpDest p ((m.fetched schedule op).operand 0)).isSome := by
  obtain ⟨pc, n, hstarts, hpush, hbehind, hdest⟩ := hverified
  have htop := hm.top pc n hstarts hpush hbehind hop
  have hoperand : (m.fetched schedule op).operand 0 = m.m_stack m.m_SPP :=
    congrArg m.m_stack (add_zero m.m_SPP)
  rw [hoperand, htop]
  exact hdest

theorem casesAlike_jump (hrewritten : Rewritten p c) (hm : Coherent source p m)
    (hop : ofByte (p.m_code.getD m.m_PC 0) = .jump)
    (hready : ∀ op, instructionInfo op = instructionInfo .jump →
      Ready (m.fetched schedule op) (instructionInfo .jump).args (instructionInfo .jump).ret)
    (hkept : Kept p c m.m_PC) :
    CasesAlike schedule ext p c (ofByte (c.m_code.getD m.m_PC 0)) .jump m := by
  rcases hkept with hbyte | ⟨hverified, ⟨-, hbyte⟩ | ⟨hother, -⟩⟩
  · rw [hbyte, hop]
    intro answer
    rw [interpretCase_congr hrewritten.dests (fun n h => by cases h) (by decide)]
    exact ⟨rfl, .refl _⟩
  · rw [hbyte, ofByte_jumpcByte]
    intro answer
    have hdest := @Coherent.verified schedule source p .jump m hm hverified (by rw [hop]; decide)
    show ((caseJumpc true).under answer _).1 = ((caseJump p).under answer _).1 ∧
      ((caseJumpc true).under answer _).2.Same ((caseJump p).under answer _).2
    rw [under_caseJump (hready .jump rfl) Nat.one_pos hdest,
      under_caseJumpc (hready .jumpc rfl) Nat.one_pos]
    exact ignores_jumping _ _ _ _ ⟨.jump, rfl⟩ answer
  · rw [hop] at hother
    cases hother

theorem casesAlike_jumpi (hrewritten : Rewritten p c) (hm : Coherent source p m)
    (hop : ofByte (p.m_code.getD m.m_PC 0) = .jumpi)
    (hready : ∀ op, instructionInfo op = instructionInfo .jumpi →
      Ready (m.fetched schedule op) (instructionInfo .jumpi).args (instructionInfo .jumpi).ret)
    (hkept : Kept p c m.m_PC) :
    CasesAlike schedule ext p c (ofByte (c.m_code.getD m.m_PC 0)) .jumpi m := by
  rcases hkept with hbyte | ⟨hverified, ⟨hother, -⟩ | ⟨-, hbyte⟩⟩
  · rw [hbyte, hop]
    intro answer
    rw [interpretCase_congr hrewritten.dests (fun n h => by cases h) (by decide)]
    exact ⟨rfl, .refl _⟩
  · rw [hop] at hother
    cases hother
  · rw [hbyte, ofByte_jumpciByte]
    intro answer
    have hdest := @Coherent.verified schedule source p .jumpi m hm hverified (by rw [hop]; decide)
    show ((caseJumpci true).under answer _).1 = ((caseJumpi p).under answer _).1 ∧
      ((caseJumpci true).under answer _).2.Same ((caseJumpi p).under answer _).2
    rw [under_caseJumpi (hready .jumpi rfl) Nat.one_lt_two hdest,
      under_caseJumpci (hready .jumpci rfl) Nat.one_lt_two]
    exact ignores_jumping _ _ _ _ ⟨.jumpi, rfl⟩ answer

omit [Sha3] in
/-- Instructions that stand for each other are like each other on the stack and in price. -/
theorem Stands.instructionInfo {pc : ℕ} (h : Stands p c pc) :
    instructionInfo (ofByte (c.m_code.getD pc 0)) =
      instructionInfo (ofByte (p.m_code.getD pc 0)) := by
  by_cases hpush : ∃ n, ofByte (p.m_code.getD pc 0) = .push n
  · obtain ⟨n, hop⟩ := hpush
    unfold Stands at h
    rw [hop] at h ⊢
    dsimp only at h
    split at h
    case isTrue =>
      rw [h.1, ofByte_pushcByte]
      rfl
    case isFalse =>
      rw [h pc le_rfl (Nat.le_add_right ..), hop]
  · have hkept := (stands_of_ne fun n hn => hpush ⟨n, hn⟩).mp h
    rcases hkept with hbyte | ⟨-, ⟨hop, hbyte⟩ | ⟨hop, hbyte⟩⟩
    · rw [hbyte]
    · rw [hop, hbyte, ofByte_jumpcByte]
      rfl
    · rw [hop, hbyte, ofByte_jumpciByte]
      rfl

omit [Sha3] in
theorem Fetched.ready_of_info (h : Fetched schedule op (m.fetched schedule op))
    (hinfo : instructionInfo op' = instructionInfo op) :
    Ready (m.fetched schedule op') (instructionInfo op).args (instructionInfo op).ret := by
  have hspp : (m.fetched schedule op').m_SPP = (m.fetched schedule op).m_SPP := by
    show m.m_SPP + _ - _ = m.m_SPP + _ - _
    rw [hinfo]
  exact ⟨h.ready.low, h.ready.high, hspp.trans h.ready.spp, hspp ▸ h.ready.room⟩

/-- The case of an instruction does what that of the plain instruction does. -/
theorem casesAlike (hprepared : Prepared source p) (hrewritten : Rewritten p c)
    (hm : Coherent source p m) (hop : ofByte (p.m_code.getD m.m_PC 0) = op)
    (hfetched : Fetched schedule op (m.fetched schedule op)) :
    CasesAlike schedule ext p c (ofByte (c.m_code.getD m.m_PC 0)) op m := by
  have hstarts := hprepared.starts_iff.mpr hm.steady.starts
  have hsyn := hprepared.not_synthetic hm.steady.starts
  rw [hop] at hsyn
  by_cases hpush : ∃ n, op = .push n
  · obtain ⟨n, rfl⟩ := hpush
    exact casesAlike_push hprepared hrewritten hm.steady hop
  have hkept : Kept p c m.m_PC :=
    (stands_of_ne fun n hn => hpush ⟨n, hop ▸ hn⟩).mp (hrewritten.stands _ hstarts)
  by_cases hjump : op = .jump
  · subst hjump
    exact casesAlike_jump hrewritten hm hop (fun _ => hfetched.ready_of_info) hkept
  by_cases hjumpi : op = .jumpi
  · subst hjumpi
    exact casesAlike_jumpi hrewritten hm hop (fun _ => hfetched.ready_of_info) hkept
  rcases hkept with hbyte | ⟨-, ⟨hother, -⟩ | ⟨hother, -⟩⟩
  · rw [hbyte, hop]
    intro answer
    rw [interpretCase_congr hrewritten.dests (fun n hn => hpush ⟨n, hn⟩) hsyn]
    exact ⟨rfl, .refl _⟩
  · exact absurd (hop.symm.trans hother) hjump
  · exact absurd (hop.symm.trans hother) hjumpi

omit [Sha3] in
/-- Where fetching goes through, it leaves the operands in reach. -/
theorem under_fetch {code : Code} {b : UInt8} (hs : schedule.Moderate) (hm : m.Balanced)
    (hb : code.m_code[m.m_PC]? = some b) {answer : (q : Query) → q.Reply} {r : Unit}
    (h : (fetchInstruction schedule code).under answer m = (.ok r, m')) :
    m' = m.fetched schedule (ofByte b) ∧
      Fetched schedule (ofByte b) (m.fetched schedule (ofByte b)) := by
  have hmeets : Meets answer
      (fun _ m' => m' = m.fetched schedule (ofByte b) ∧
        Fetched schedule (ofByte b) (m.fetched schedule (ofByte b))) (fun _ _ => True)
      (fetchInstruction schedule code) m :=
    fetchInstruction_meets hs hm hb (fun _ _ _ _ => trivial) (fun _ _ _ _ _ => trivial)
      fun _ _ hfetched => ⟨rfl, hfetched⟩
  exact hmeets.ok h

/-- **A turn of the rewritten code is one of the plain code.** -/
theorem interpret_alike (hs : schedule ∈ schedules) (hprepared : Prepared source p)
    (hrewritten : Rewritten p c) (hm : Coherent source p m) (hsame : m.Same m') :
    Alike (interpret true schedule ext c) (interpret false schedule ext p) m' m := by
  have hmoderate := EVMSchedule.moderate_of_mem hs
  have hstarts := hprepared.starts_iff.mpr hm.steady.starts
  have hinfo := (hrewritten.stands _ hstarts).instructionInfo
  have hb := hprepared.getElem? hm.steady
  have hlt : m.m_PC < c.m_code.length := by
    rw [hrewritten.length]
    exact (List.getElem?_eq_some_iff.mp hb).1
  have hb' : c.m_code[m.m_PC]? = some (c.m_code.getD m.m_PC 0) := by
    rw [List.getD_eq_getElem _ _ hlt]
    exact List.getElem?_eq_getElem hlt
  obtain ⟨op, rfl⟩ := hsame
  intro answer
  have hfetch : Alike (fetchInstruction schedule c) (fetchInstruction schedule p)
      {m with m_OP := op} m := fetch_alike (VMState.Same.symm ⟨op, rfl⟩) hb' hb hinfo
  obtain ⟨hr, hstates⟩ := hfetch answer
  rcases hc : (fetchInstruction schedule c).under answer {m with m_OP := op} with ⟨r, m₁⟩
  rcases hp : (fetchInstruction schedule p).under answer m with ⟨r', m₂⟩
  rw [hc, hp] at hr hstates
  dsimp only at hr hstates
  subst hr
  unfold interpret
  cases r with
  | error e =>
    rw [under_bind_error hc, under_bind_error hp]
    exact ⟨rfl, hstates⟩
  | ok r =>
    obtain ⟨rfl, hfetched⟩ := under_fetch hmoderate hm.steady.balanced hb hp
    have hbalanced : ({m with m_OP := op} : VMState).Balanced :=
      ⟨hm.steady.balanced.low, hm.steady.balanced.high⟩
    obtain ⟨rfl, -⟩ := under_fetch hmoderate hbalanced hb' hc
    rw [under_bind_ok hc, under_bind_ok hp, under_bind_ok (under_get ..),
      under_bind_ok (under_get ..)]
    exact casesAlike hprepared hrewritten hm rfl hfetched answer

/-! ### Runs -/

omit [Sha3] in
/-- Where a jump leads there is a destination; other instructions go on behind themselves. -/
theorem Goes.behind (hprepared : Prepared source p) (hm : Steady source m) {pc : ℕ}
    (hop : op = ofByte (p.m_code.getD m.m_PC 0))
    (hgoes : op.Goes p (m.fetched schedule op) pc) :
    pc = nextPc p.m_code m.m_PC ∨ ofByte (p.m_code.getD pc 0) = .jumpdest := by
  have hsyn : ¬op.Synthetic := hop ▸ hprepared.not_synthetic hm.starts
  have hfollows (h : pc = m.m_PC + 1 + op.pushSize) : pc = nextPc p.m_code m.m_PC := by
    rw [h, nextPc, ← hop]
  have hjumps {dest : U256} (hdest : verifyJumpDest p dest = some pc) :
      ofByte (p.m_code.getD pc 0) = .jumpdest := by
    unfold verifyJumpDest at hdest
    split at hdest
    case isTrue hall =>
      cases hdest
      obtain ⟨hstarts, hjumpdest⟩ := (hprepared.dests _).mp hall.2
      rw [hprepared.byte _ hstarts, hjumpdest, if_neg (by decide)]
      exact hjumpdest
    case isFalse => cases hdest
  cases op
  case push n => exact .inl (hfollows hgoes)
  case pushc => exact absurd (.inl rfl) hsyn
  case jumpc => exact absurd (.inr (.inl rfl)) hsyn
  case jumpci => exact absurd (.inr (.inr rfl)) hsyn
  case jump => exact .inr (hjumps hgoes)
  case jumpi =>
    by_cases hcondition : (m.fetched schedule .jumpi).operand 1 ≠ 0
    · rw [Goes, if_pos hcondition] at hgoes
      exact .inr (hjumps hgoes)
    · rw [Goes, if_neg hcondition] at hgoes
      exact .inl (hfollows hgoes)
  all_goals exact .inl (hfollows hgoes)

/-- A turn of the plain code leaves the constant that it pushed on top. -/
theorem interpret_coherent (hs : schedule ∈ schedules) (hprepared : Prepared source p)
    (hm : Coherent source p m) (answer : (q : Query) → q.Reply) :
    Meets answer (fun flow m' => flow = .running → Coherent source p m') (fun _ _ => True)
      (interpret false schedule ext p) m := by
  refine (interpret_carries hs ext answer hprepared hm.steady rfl).mono
    (fun flow m' hall hrun => ?_) fun _ _ _ => trivial
  obtain ⟨hexecuted, hfetched, hstop, -⟩ := hall
  have hgoes := hexecuted.goes hrun
  obtain ⟨hstarts, hplace⟩ := Goes.steady hprepared hm.steady rfl (hstop hrun) hgoes
  refine ⟨⟨hstarts, hplace, hexecuted.balanced hfetched⟩, fun pc n hpc hpush hbehind hother => ?_⟩
  rcases Goes.behind hprepared hm.steady rfl hgoes with hnext | hdest
  · -- nothing but the push itself goes on behind the push
    have hsame : nextPc p.m_code pc = nextPc p.m_code m.m_PC := by
      rw [← hnext, ← hbehind, nextPc, hpush]
      rfl
    have hwhere : pc = m.m_PC := hpc.nextPc_inj (hprepared.starts_iff.mpr hm.steady.starts) hsame
    have hleaves := hexecuted.leaves
    rw [← hwhere, hpush] at hleaves
    rw [hleaves]
    show pushed ((p.m_code.drop (m.m_PC + 1)).take n) = _
    rw [← hwhere]
    rfl
  · exact absurd hdest hother

/-- Runs that begin alike go on alike. -/
theorem interpretCases_alike (hs : schedule ∈ schedules) (hprepared : Prepared source p)
    (hrewritten : Rewritten p c) (turns : ℕ) (world : World) (hm : Coherent source p m)
    (hsame : m.Same m') :
    (interpretCases true schedule ext c turns world m').1 =
        (interpretCases false schedule ext p turns world m).1 ∧
      (interpretCases false schedule ext p turns world m).2.Same
        (interpretCases true schedule ext c turns world m').2 := by
  induction turns generalizing world m m' with
  | zero => exact ⟨rfl, hsame⟩
  | succ turns ih =>
    have halike : Alike (interpret true schedule ext c) (interpret false schedule ext p) m' m :=
      interpret_alike hs hprepared hrewritten hm hsame
    obtain ⟨hr, hstates⟩ := halike (world 0)
    have hcoherent : Meets (world 0) (fun flow m' => flow = .running → Coherent source p m')
        (fun _ _ => True) (interpret false schedule ext p) m :=
      interpret_coherent hs hprepared hm (world 0)
    rcases hc : (interpret true schedule ext c).under (world 0) m' with ⟨r, m₁'⟩
    rcases hp : (interpret false schedule ext p).under (world 0) m with ⟨r', m₁⟩
    rw [hc, hp] at hr hstates
    dsimp only at hr hstates
    subst hr
    by_cases hrun : r = .ok .running
    · subst hrun
      rw [interpretCases_running hc, interpretCases_running hp]
      exact ih (fun k => world (k + 1)) (hcoherent.ok hp rfl) hstates.symm
    · rw [interpretCases_done hc hrun, interpretCases_done hp hrun]
      exact ⟨rfl, hstates.symm⟩

/-- **The optimized interpreter computes what the plain one does.** With constants in a pool that
16 bits can index, and with jumps to constants replaced, a run comes after any number of turns, in
any world and with any gas, to the same outcome and the same state; only the name of the
instruction that was fetched last may differ. -/
theorem exec_optimized (hs : schedule ∈ schedules) (ext : ExtVM)
    (hpool : (optimize true ext.code.bytes).m_pool.length ≤ 2 ^ 16) (turns : ℕ) (world : World)
    (io_gas : U64) :
    (exec true schedule ext turns world io_gas).1 =
        (exec false schedule ext turns world io_gas).1 ∧
      (exec false schedule ext turns world io_gas).2.Same
        (exec true schedule ext turns world io_gas).2 := by
  have hstart : Coherent ext.code.bytes (optimize false ext.code.bytes) {m_io_gas := io_gas} :=
    ⟨⟨starts_zero _, Nat.zero_le _, Int.natCast_nonneg _, le_rfl⟩, fun pc n _ _ hbehind _ =>
      absurd hbehind (by show pc + 1 + n ≠ 0; omega)⟩
  exact interpretCases_alike hs (prepared_optimize _) (rewritten_optimize _ hpool) turns world
    hstart (.refl _)

end Turns

/-- A constant of six bytes, and a jump over a byte that cannot be run. -/
def poolExt : ExtVM :=
  {sampleExt with
    code := ⟨[0x65, 1, 2, 3, 4, 5, 6, 0x60, 0xb, 0x56, 0xfe, 0x5b, 0x50], by decide⟩}

theorem exec_optimized_pool :
    (@exec sampleSha3 true ByzantiumSchedule poolExt 6 (fun _ => generous) 100).1 =
        .ok .stopped ∧
      (@exec sampleSha3 true ByzantiumSchedule poolExt 6 (fun _ => generous) 100).1 =
        (@exec sampleSha3 false ByzantiumSchedule poolExt 6 (fun _ => generous) 100).1 :=
  ⟨rfl, (@exec_optimized sampleSha3 ByzantiumSchedule (List.mem_of_getElem? (i := 5) rfl) poolExt
    (by decide) 6 (fun _ => generous) 100).1⟩

end Aleth.Evm
