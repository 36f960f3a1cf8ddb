import Aleth.Evm.Metering
import Aleth.Evm.Optimize

/-! Runs of the interpreter (`LegacyVM::exec`).

The world answers differently from one turn to the next. Every turn that goes on
takes gas, so a run ends after no more turns than there is gas. -/
namespace Aleth.Evm
open Devcore Machine Instruction

/-- How questions are answered, turn by turn. -/
abbrev World := ℕ → (q : Query) → q.Reply

section Runs
variable [Sha3] (evmOptimize : Bool) (schedule : EVMSchedule) (ext : ExtVM) (code : Code)

/-- The loop of `interpretCases`, for so many turns. -/
def interpretCases : (turns : ℕ) → World → VMState → Except VMException Flow × VMState
  | 0, _, m => (.ok .running, m)
  | turns + 1, world, m =>
    match (interpret evmOptimize schedule ext code).under (world 0) m with
    | (.ok .running, m') => interpretCases turns (fun k => world (k + 1)) m'
    | r => r

/-- `exec`: the code is prepared, and run with an empty stack and no memory. -/
def exec (turns : ℕ) (world : World) (io_gas : U64) : Except VMException Flow × VMState :=
  interpretCases evmOptimize schedule ext (optimize evmOptimize ext.code.bytes) turns world
    {m_io_gas := io_gas}

end Runs

section Rules
variable [Sha3] {evmOptimize : Bool} {schedule : EVMSchedule} {ext : ExtVM} {code : Code}
  {answer : (q : Query) → q.Reply} {op : Instruction} {m m' : VMState}

/-- A turn that goes on. -/
theorem interpretCases_running {turns : ℕ} {world : World}
    (hstep : (interpret evmOptimize schedule ext code).under (world 0) m = (.ok .running, m')) :
    interpretCases evmOptimize schedule ext code (turns + 1) world m =
      interpretCases evmOptimize schedule ext code turns (fun k => world (k + 1)) m' := by
  rewrite [interpretCases, hstep]
  rfl

/-- A turn that is the last one. -/
theorem interpretCases_done {turns : ℕ} {world : World} {r : Except VMException Flow}
    (hstep : (interpret evmOptimize schedule ext code).under (world 0) m = (r, m'))
    (hr : r ≠ .ok .running) :
    interpretCases evmOptimize schedule ext code (turns + 1) world m = (r, m') := by
  rewrite [interpretCases, hstep]
  cases r with
  | error e => rfl
  | ok flow =>
    cases flow with
    | stopped => rfl
    | running => exact absurd rfl hr

/-- What every turn keeps under the answers that are allowed, a run keeps. -/
theorem interpretCases_keeps (allowed : ((q : Query) → q.Reply) → Prop) (I : VMState → Prop)
    (hturn : ∀ answer, allowed answer → ∀ m, I m →
      Meets answer (fun flow m' => flow = .running → I m') (fun _ _ => True)
        (interpret evmOptimize schedule ext code) m)
    {turns : ℕ} {world : World} (hworld : ∀ k, allowed (world k)) (h : I m)
    (hrun : interpretCases evmOptimize schedule ext code turns world m = (.ok .running, m')) :
    I m' := by
  induction turns generalizing world m with
  | zero =>
    cases hrun
    exact h
  | succ turns ih =>
    have hmeets := hturn _ (hworld 0) m h
    rcases hstep : (interpret evmOptimize schedule ext code).under (world 0) m with ⟨r, m₁⟩
    by_cases hr : r = .ok .running
    · subst hr
      rw [interpretCases_running hstep] at hrun
      exact ih (fun k => hworld (k + 1)) (hmeets.ok hstep rfl) hrun
    · rw [interpretCases_done hstep hr] at hrun
      exact absurd (congrArg Prod.fst hrun) hr

end Rules

/-! ### Every turn takes gas -/

/-- What makes a program pay for going on. -/
structure EVMSchedule.Charging (s : EVMSchedule) : Prop where
  tier : ∀ t, t ≠ .zero ∧ t ≠ .special ∧ t ≠ .invalid → 1 ≤ s.tierStepGas t
  exp : 1 ≤ s.expGas
  sha3 : 1 ≤ s.sha3Gas
  sload : 1 ≤ s.sloadGas
  sstoreSet : 1 ≤ s.sstoreSetGas
  sstoreReset : 1 ≤ s.sstoreResetGas
  sstoreUnchanged : 1 ≤ s.sstoreUnchangedGas
  log : 1 ≤ s.logGas
  create : 1 ≤ s.createGas
  call : 1 ≤ s.callGas
  extcodesize : 1 ≤ s.extcodesizeGas
  extcodecopy : 1 ≤ s.extcodecopyGas
  extcodehash : 1 ≤ s.extcodehashGas
  balance : 1 ≤ s.balanceGas
  blockhash : 1 ≤ s.blockhashGas

theorem EVMSchedule.charging_of_mem {s : EVMSchedule} (h : s ∈ schedules) : s.Charging := by
  have htier : ∀ s ∈ schedules, s.tierStepGas = DefaultSchedule.tierStepGas := by
    simp [schedules, FrontierSchedule, DefaultSchedule, HomesteadSchedule, EIP150Schedule,
      EIP158Schedule, ByzantiumSchedule, EWASMSchedule, ConstantinopleSchedule,
      ConstantinopleFixSchedule, ExperimentalSchedule]
  have hall : ∀ s ∈ schedules, 1 ≤ s.expGas ∧ 1 ≤ s.sha3Gas ∧ 1 ≤ s.sloadGas ∧
      1 ≤ s.sstoreSetGas ∧ 1 ≤ s.sstoreResetGas ∧ 1 ≤ s.sstoreUnchangedGas ∧ 1 ≤ s.logGas ∧
      1 ≤ s.createGas ∧ 1 ≤ s.callGas ∧ 1 ≤ s.extcodesizeGas ∧ 1 ≤ s.extcodecopyGas ∧
      1 ≤ s.extcodehashGas ∧ 1 ≤ s.balanceGas ∧ 1 ≤ s.blockhashGas := by decide
  obtain ⟨hexp, hsha3, hsload, hset, hreset, hsame, hlog, hcreate, hcall, hsize, hcopy, hhash,
    hbalance, hblockhash⟩ := hall s h
  refine ⟨fun t ht => ?_, hexp, hsha3, hsload, hset, hreset, hsame, hlog, hcreate, hcall, hsize,
    hcopy, hhash, hbalance, hblockhash⟩
  obtain ⟨h0, hspecial, hinvalid⟩ := ht
  rw [htier s h]
  cases t
  case zero => exact absurd rfl h0
  case special => exact absurd rfl hspecial
  case invalid => exact absurd rfl hinvalid
  all_goals decide

theorem storePrice_pos {schedule : EVMSchedule} (hs : schedule.Charging)
    (current new original : U256) : 1 ≤ storePrice schedule current new original := by
  unfold storePrice
  split_ifs
  all_goals first
    | exact hs.sstoreSet
    | exact hs.sstoreReset
    | exact hs.sstoreUnchanged

section Turns
variable [Sha3] {evmOptimize : Bool} {schedule : EVMSchedule} {ext : ExtVM} {code : Code}
  {answer : (q : Query) → q.Reply} {op : Instruction} {m m' : VMState}

/-- Going on has a price. -/
theorem price_pos_or_halts (hs : schedule.Charging) (op : Instruction) (m : VMState) :
    1 ≤ op.price schedule ext answer m ∨
      Meets answer (fun flow _ => flow = .stopped) (fun _ _ => True)
        (interpretCase evmOptimize schedule ext code op) m := by
  have htier {t : Tier} (h : t ≠ .zero ∧ t ≠ .special ∧ t ≠ .invalid) :
      1 ≤ schedule.tierStepGas t := hs.tier t h
  have hthen {α : Type} {x : VM α} {f : α → VM Flow} {m : VMState}
      (hf : ∀ a m, Meets answer (fun flow _ => flow = .stopped) (fun _ _ => True) (f a) m) :
      Meets answer (fun flow _ => flow = .stopped) (fun _ _ => True) (x >>= f) m :=
    .bind ((meets_any x m).mono (fun a m _ => hf a m) fun _ _ _ => trivial)
  cases op
  case stop => exact .inr (hthen fun _ _ => .pure rfl)
  case return_ => exact .inr (hthen fun _ _ => hthen fun _ _ => .pure rfl)
  case revert => exact .inr (hthen fun _ _ => hthen fun _ _ => .throw trivial)
  case suicide =>
    refine .inr (hthen fun _ _ => hthen fun _ _ => hthen fun _ _ => hthen fun _ _ => ?_)
    exact hthen fun _ _ => hthen fun _ _ => .pure rfl
  case exp => exact .inl (hs.exp.trans (Nat.le_add_right ..))
  case sha3 => exact .inl (hs.sha3.trans (Nat.le_add_right ..))
  case log n =>
    refine .inl (hs.log.trans ?_)
    exact (Nat.le_add_right ..).trans (Nat.le_add_right ..)
  case balance => exact .inl hs.balance
  case extcodesize => exact .inl hs.extcodesize
  case extcodehash => exact .inl hs.extcodehash
  case blockhash => exact .inl hs.blockhash
  case sload => exact .inl hs.sload
  case sstore => exact .inl (storePrice_pos hs ..)
  case extcodecopy => exact .inl (hs.extcodecopy.trans (Nat.le_add_right ..))
  case jumpdest => exact .inl le_rfl
  case push n => exact .inl (hs.tier .veryLow (by decide))
  case dup n => exact .inl (hs.tier .veryLow (by decide))
  case swap n => exact .inl (hs.tier .veryLow (by decide))
  case create => exact .inl hs.create
  case create2 => exact .inl (hs.create.trans (Nat.le_add_right ..))
  all_goals first
    | exact .inl (htier (by decide))
    | exact .inl ((htier (t := .veryLow) (by decide)).trans (Nat.le_add_right ..))
    | exact .inl (hs.call.trans ((Nat.le_add_right ..).trans (Nat.le_add_right ..)))
    | exact .inr (.throw trivial)

/-- The price is more than the stipend where going on has one. -/
theorem stipend_lt_price (hs : schedule.Moderate) (hc : schedule.Charging)
    (h : 1 ≤ op.price schedule ext answer m) :
    op.stipend schedule m + 1 ≤ op.price schedule ext answer m := by
  by_cases hcall : op.IsCall
  · have hstipend := hs.stipend
    have hbase := hc.call
    rw [(callRow hcall).price]
    unfold stipend
    split
    all_goals omega
  · have hvalue : op.value m = 0 := by
      cases op
      case call => exact absurd (.inl rfl) hcall
      case callcode => exact absurd (.inr (.inl rfl)) hcall
      all_goals rfl
    rw [stipend, hvalue, if_neg (by decide)]
    exact h

theorem Executed.takes_gas {flow : Flow} (hs : schedule.Moderate) (hc : schedule.Charging)
    (hworld : Honest answer) (hprice : 1 ≤ op.price schedule ext answer m)
    (h : Executed schedule ext answer code op m flow m') :
    m'.m_io_gas.toNat < m.m_io_gas.toNat := by
  obtain ⟨sent, returned, hsends, hgas⟩ := h.gas
  have hreturned := sends_le hworld hsends
  have hcharged := hgas hreturned
  have hstipend := stipend_lt_price hs hc hprice
  unfold cost at hcharged
  omega

/-- A turn that goes on leaves less gas. -/
theorem interpret_takes_gas (hs : schedule ∈ schedules) (hworld : Honest answer)
    (hm : m.Balanced) :
    Meets answer
      (fun flow m' => flow = .running → m'.m_io_gas.toNat < m.m_io_gas.toNat ∧ m'.Balanced)
      (fun _ _ => True) (interpret evmOptimize schedule ext code) m := by
  have hmoderate := EVMSchedule.moderate_of_mem hs
  have hcharging := EVMSchedule.charging_of_mem hs
  cases hb : code.m_code[m.m_PC]? with
  | none =>
    refine .bind (.bind (.get ?_))
    rw [hb]
    exact .throw trivial
  | some b =>
    refine .bind (fetchInstruction_meets hmoderate hm hb (fun _ _ _ _ => trivial)
      (fun _ _ _ _ _ => trivial) fun _ _ hm' => .bind (.get ?_))
    have hcase : Carries schedule ext answer code (ofByte b)
        (interpretCase evmOptimize schedule ext code (ofByte b))
        (m.fetched schedule (ofByte b)) := interpretCase_meets (known_ofByte b) hmoderate hm'
    rcases price_pos_or_halts hcharging (ofByte b) (m.fetched schedule (ofByte b)) with
      hprice | hhalts
    · refine hcase.mono (fun _ m' h _ => ⟨?_, h.balanced hm'⟩) fun _ _ _ => trivial
      show _ < (m.fetched schedule (ofByte b)).m_io_gas.toNat
      exact h.takes_gas hmoderate hcharging hworld hprice
    · refine hhalts.mono (fun flow _ h hrun => ?_) fun _ _ _ => trivial
      rw [h] at hrun
      cases hrun

/-- A turn never leaves more gas, whether it goes on, stops or throws. -/
theorem interpret_keeps_gas (hs : schedule ∈ schedules) (hworld : Honest answer)
    (hm : m.Balanced) :
    Meets answer (fun _ m' => m'.m_io_gas.toNat ≤ m.m_io_gas.toNat)
      (fun _ m' => m'.m_io_gas.toNat ≤ m.m_io_gas.toNat)
      (interpret evmOptimize schedule ext code) m := by
  have hmoderate := EVMSchedule.moderate_of_mem hs
  have hsame (m' : VMState) (h : m'.m_io_gas = m.m_io_gas) :
      m'.m_io_gas.toNat ≤ m.m_io_gas.toNat := h ▸ le_rfl
  cases hb : code.m_code[m.m_PC]? with
  | none =>
    refine .bind (.bind (.get ?_))
    rw [hb]
    exact .throw le_rfl
  | some b =>
    refine .bind (fetchInstruction_meets hmoderate hm hb (fun _ m' h _ => hsame m' h)
      (fun _ _ m' h _ => hsame m' h) fun _ _ hm' => .bind (.get ?_))
    have hcase : Carries schedule ext answer code (ofByte b)
        (interpretCase evmOptimize schedule ext code (ofByte b))
        (m.fetched schedule (ofByte b)) := interpretCase_meets (known_ofByte b) hmoderate hm'
    refine hcase.mono (fun _ _ h => (h.metered hmoderate hworld).le) fun _ _ h => ?_
    obtain ⟨need, -, hpaid⟩ := h.paid
    exact (Nat.le_add_right _ _).trans hpaid

/-- **The interpreter comes to an end.** Whatever the code and the world, after one turn more than
there is gas the run has stopped or thrown, and further turns change nothing. -/
theorem interpretCases_ends (evmOptimize : Bool) (hs : schedule ∈ schedules) (ext : ExtVM)
    (code : Code) {world : World} (hworld : ∀ k, Honest (world k)) (hm : m.Balanced) {turns : ℕ}
    (hturns : m.m_io_gas.toNat < turns) :
    (∀ m', interpretCases evmOptimize schedule ext code turns world m ≠ (.ok .running, m')) ∧
      ∀ more, turns ≤ more → interpretCases evmOptimize schedule ext code more world m =
        interpretCases evmOptimize schedule ext code turns world m := by
  induction turns generalizing world m with
  | zero => exact absurd hturns (Nat.not_lt_zero _)
  | succ turns ih =>
    have hturn : Meets (world 0)
        (fun flow m' => flow = .running → m'.m_io_gas.toNat < m.m_io_gas.toNat ∧ m'.Balanced)
        (fun _ _ => True) (interpret evmOptimize schedule ext code) m :=
      interpret_takes_gas hs (hworld 0) hm
    have hfewer {more : ℕ} (hle : turns + 1 ≤ more) : ∃ k, more = k + 1 ∧ turns ≤ k :=
      ⟨more - 1, by omega, by omega⟩
    rcases hstep : (interpret evmOptimize schedule ext code).under (world 0) m with ⟨r, m₁⟩
    by_cases hr : r = .ok .running
    · subst hr
      obtain ⟨hless, hbalanced⟩ := hturn.ok hstep rfl
      obtain ⟨hends, hsame⟩ := ih (fun k => hworld (k + 1)) hbalanced (by omega)
      rw [interpretCases_running hstep]
      refine ⟨hends, fun more hle => ?_⟩
      obtain ⟨k, rfl, hk⟩ := hfewer hle
      rw [interpretCases_running hstep]
      exact hsame k hk
    · rw [interpretCases_done hstep hr]
      refine ⟨fun m' h => hr (congrArg Prod.fst h), fun more hle => ?_⟩
      obtain ⟨k, rfl, -⟩ := hfewer hle
      exact interpretCases_done hstep hr

end Turns

/-- Code that jumps back to its beginning for ever. -/
def endless : Code := ⟨[0x5b, 0x60, 0, 0x56], [0], []⟩

theorem interpretCases_ends_endless :
    @interpretCases sampleSha3 false ByzantiumSchedule sampleExt endless 2000 (fun _ => generous)
        {m_io_gas := 1000} =
      @interpretCases sampleSha3 false ByzantiumSchedule sampleExt endless 1001 (fun _ => generous)
        {m_io_gas := 1000} :=
  (@interpretCases_ends sampleSha3 ByzantiumSchedule _ false (List.mem_of_getElem? (i := 5) rfl)
    sampleExt endless (fun _ => generous) (fun _ => honest_generous) ⟨by decide, by decide⟩ 1001
    (by decide)).2 2000 (by decide)

end Aleth.Evm
