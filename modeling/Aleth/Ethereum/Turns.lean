import Aleth.Ethereum.Frames

/-! Turns of the interpreter on the state.

A turn asks what its protocol lets it ask, and the state answers it; the answers
are those of a function, as all that changes the world is asked last. So a frame
whose levels below are sound comes to its end, with no more gas, and leads along
every course that its steps lead along (`Begun.exec`). -/
namespace Aleth.Ethereum
open Devcore Throwing Evm
variable [Sha3]

/-- What the chain promises to the executives. -/
structure Env.Sound (env : Env) : Prop where
  schedule : env.m_sealEngine.evmSchedule ∈ schedules
  number : env.m_envInfo.number < 2 ^ 63
  fork : env.m_envInfo.number < env.m_sealEngine.experimentalForkBlock + 256
  hashes : 256 ≤ env.m_envInfo.precedingHashes.length
  gasLimit : env.m_envInfo.gasLimit.toNat < 2 ^ 63

/-! ### The answers of a turn -/

namespace ExtVM

/-- What is answered about the number of a block. -/
def hashOf (env : Env) (number : U256) : H256 :=
  let currentNumber := BitVec.ofNat 256 env.m_envInfo.number
  if currentNumber ≤ number ∨ number < max 256 currentNumber - 256 then H256.zero
  else env.m_envInfo.precedingHashes.getD (currentNumber - 1 - number).toNat H256.zero

/-- What is answered in a state, as far as nothing is changed. -/
def told (env : Env) (ext : Evm.ExtVM) (s : State) : (q : Query) → q.Reply
  | .store n => storageOf (s.view ext.myAddress) n
  | .originalStorageValue key => originalOf s.m_db (s.view ext.myAddress) key
  | .balance a => balanceOf (s.view a)
  | .codeAt a => toBuffer (codeOf (s.view a))
  | .codeSizeAt a => (codeOf (s.view a)).length
  | .codeHashAt a => if exists_ a then codeHashOf (s.view a) else H256.zero
  | .exists a => exists_ a
  | .create _ _ _ _ _ => ⟨.failure, .empty, 0, 0⟩
  | .call _ => ⟨.failure, .empty, 0⟩
  | .blockHash number => hashOf env number
  | .setStore _ _ | .suicide _ | .log _ _ | .refund _ => ()
where
  exists_ (a : Address) : Bool :=
    if env.m_sealEngine.evmSchedule.emptinessIsNonexistence then
      (s.view a).any fun v => !isEmptyView v
    else (s.view a).isSome

end ExtVM

section Answers
variable {env : Env} {ext : Evm.ExtVM} {D : Address → U256 → Prop} {s t : State}

/-- There are hashes enough for what is not refused. -/
theorem Env.Sound.run_blockHash (h : env.Sound) (number : U256) (s : State) :
    (ExtVM.blockHash env number).run s = (.ok (ExtVM.hashOf env number), s) := by
  unfold ExtVM.blockHash ExtVM.hashOf
  have hnumber := h.number
  have hhashes := h.hashes
  have hcurrent : (BitVec.ofNat 256 env.m_envInfo.number).toNat = env.m_envInfo.number := by
    rw [BitVec.toNat_ofNat]
    exact Nat.mod_eq_of_lt (by omega)
  dsimp only
  generalize BitVec.ofNat 256 env.m_envInfo.number = currentNumber at hcurrent
  by_cases hout : currentNumber ≤ number ∨ number < max 256 currentNumber - 256
  · rw [if_pos hout, if_pos hout]
    rfl
  · rw [if_neg hout, if_neg hout, if_pos h.fork]
    obtain ⟨hlt, hge⟩ := not_or.mp hout
    have hindex : (currentNumber - 1 - number).toNat < env.m_envInfo.precedingHashes.length := by
      refine lt_of_lt_of_le ?_ hhashes
      rcases le_total currentNumber 256 with hle | hle
      · rw [max_eq_left hle] at hge
        bv_omega
      · rw [max_eq_right hle] at hge
        bv_omega
    rw [List.getElem?_eq_getElem hindex, List.getD_eq_getElem _ _ hindex]
    rfl

theorem told_quiet (h : State.Quiet D s t) {q : Query} (hq : ∀ n, q ≠ .store n) :
    ExtVM.told env ext t q = ExtVM.told env ext s q := by
  have hexists (a : Address) : ExtVM.told.exists_ env t a = ExtVM.told.exists_ env s a := by
    unfold ExtVM.told.exists_
    rcases h.views a with ⟨hs, ht⟩ | ⟨v, st, hs, ht, _⟩
    · rw [hs, ht]
    · rw [hs, ht]
      rfl
  cases q with
  | store n => exact absurd rfl (hq n)
  | originalStorageValue key =>
    show originalOf t.m_db _ key = originalOf s.m_db _ key
    rw [h.db, originalOf_similar _ _ (h.views _)]
  | balance a => exact balanceOf_similar (h.views a)
  | codeAt a => exact congrArg toBuffer (State.codeOf_similar (h.views a))
  | codeSizeAt a => exact congrArg List.length (State.codeOf_similar (h.views a))
  | codeHashAt a =>
    show (if _ then _ else _) = if _ then _ else _
    rw [hexists, codeHashOf_similar (h.views a)]
  | «exists» a => exact hexists a
  | _ => rfl

/-- What can be asked and changes nothing is answered by what the state says. -/
theorem outcome_told (hsound : env.Sound) (hs : s.WellFormed D) {below : Nested} (u : SubState)
    {E : ExecutionError → Frame → Prop} {q : Query} (hq : ¬q.Changes)
    (hrefund : ∀ amount, q ≠ .refund amount) :
    Outcome (fun r f => r = ExtVM.told env ext s q ∧ State.Quiet D s f.1 ∧ f.1.WellFormed D ∧
      f.2 = u) E (ExtVM.answer env below ext q) (s, u) := by
  have hframe {α : Type} {x : Execution α} {v : α} (h : Outcome
      (fun r t => r = v ∧ State.Quiet D s t ∧ t.WellFormed D) (fun e t => E e (t, u)) x s) :
      Outcome (fun r f => r = v ∧ State.Quiet D s f.1 ∧ f.1.WellFormed D ∧ f.2 = u) E
        (inFrame x) (s, u) :=
    outcome_inFrame (f := (s, u)) (h.mono (fun _ _ h => ⟨h.1, h.2.1, h.2.2, rfl⟩) fun _ _ h => h)
  have hcode {α : Type} (g : Bytes → α) (a : Address) {E : ExecutionError → State → Prop} :
      Outcome (fun r t => r = g (codeOf (s.view a)) ∧ State.Quiet D s t ∧ t.WellFormed D) E
        (do return g (← onState (State.code a))) s :=
    .bind ((State.reads_code hs a).outcome.mono (fun _ _ h => .pure ⟨congrArg g h.1, h.2⟩)
      fun _ _ h => h)
  have hexists (a : Address) {E : ExecutionError → State → Prop} :
      Outcome (fun r t => r = ExtVM.told.exists_ env s a ∧ State.Quiet D s t ∧ t.WellFormed D) E
        (ExtVM.exists_ env a) s := by
    unfold ExtVM.exists_ ExtVM.told.exists_
    refine .ite (fun h => ?_) fun h => ?_
    · rw [if_pos h]
      exact (State.reads_accountNonemptyAndExisting hs a).outcome
    · rw [if_neg h]
      exact (State.reads_addressInUse hs a).outcome
  cases q with
  | store n => exact hframe (State.reads_storage hs ext.myAddress n).outcome
  | originalStorageValue key =>
    exact hframe (State.reads_originalStorageValue hs ext.myAddress key).outcome
  | balance a => exact hframe (State.reads_balance hs a).outcome
  | codeAt a => exact hframe (hcode toBuffer a)
  | codeSizeAt a => exact hframe (hcode List.length a)
  | «exists» a => exact hframe (hexists a)
  | codeHashAt a =>
    refine hframe (.bind ((hexists a).mono (fun r t h => ?_) fun _ _ h => h))
    obtain ⟨rfl, hquiet, ht⟩ := h
    refine .ite (fun hthere => ?_) fun hnone => .pure ⟨(if_neg hnone).symm, hquiet, ht⟩
    refine (State.reads_codeHash ht a).outcome.mono (fun r v h => ⟨?_, hquiet.trans h.2.1, h.2.2⟩)
      fun _ _ h => h
    rw [h.1, codeHashOf_similar (hquiet.views a)]
    exact (if_pos hthere).symm
  | blockHash number =>
    refine hframe (.of_ok (hsound.run_blockHash number s) ⟨rfl, .refl s, hs⟩)
  | refund amount => exact absurd rfl (hrefund amount)
  | setStore n v => exact absurd trivial hq
  | suicide a => exact absurd trivial hq
  | create endowment gas code op salt => exact absurd trivial hq
  | call params => exact absurd trivial hq
  | log topics data => exact absurd trivial hq

end Answers

/-! ### A turn -/

/-- No more gas is given back than was given. -/
def Fine : (q : Query) → q.Reply → Prop
  | .create _ gas _ _ _, r => r.gas.toNat ≤ gas.toNat
  | .call p, r => r.gas.toNat ≤ p.gas.toNat
  | _, _ => True

/-- What a call or a creation comes to: no more gas, and where it fails nothing is left but the
nonce. -/
structure Called (D : Address → U256 → Prop) (R : Frame → Frame → Prop) (c : Prop)
    (sender : Address) (f : Frame) (gas : ℕ) (status : StatusCode) (left : U256) (g : Frame) :
    Prop where
  goes : Goes D R f g
  gas : left.toNat ≤ gas
  failed : status ≠ .success →
    g.2 = f.2 ∧ ∃ s₀, Counted D R c sender f.1 s₀ ∧ State.Inert D s₀ g.1

/-- The levels below a frame keep to the course. -/
structure Nested.Sound (env : Env) (below : Nested) (D : Address → U256 → Prop) (static : Bool)
    (R : Frame → Frame → Prop) (ext : Evm.ExtVM) : Prop where
  call {f : Frame} {p : CallParameters} : f.1.Ready D →
    p.valueTransfer ≤ balanceOf (f.1.view p.senderAddress) →
    (static = true → p.staticCall = true) →
    (p.staticCall = true → p.valueTransfer = 0 ∨ p.receiveAddress = p.senderAddress) →
    Outcome (fun r g => Called D R False p.senderAddress f p.gas.toNat r.status r.gas g)
      (fun _ _ => False) (below.call ext p) f
  create {f : Frame} {endowment gas salt : U256} {code : Bytes} {op : Instruction} :
    static = false → f.1.Ready D → endowment ≤ balanceOf (f.1.view ext.myAddress) →
    op = .create ∨ op = .create2 →
    Outcome (fun r g => Called D R (Executive.countsNonce env ext.myAddress) ext.myAddress f
        gas.toNat r.status r.gas g) (fun _ _ => False)
      (below.create ext endowment gas code op salt) f

/-- What there is in the middle of a turn that began in `f₀`. -/
structure Asked (D : Address → U256 → Prop) (R : Frame → Frame → Prop) (ext : Evm.ExtVM)
    (f₀ : Frame) (held : Held) (f : Frame) : Prop where
  quiet : State.Quiet D f₀.1 f.1
  wellFormed : f.1.WellFormed D
  along : R f₀ f
  fresh : held.fresh = true → f = f₀
  own : ∀ v, held.own = some v → v = balanceOf (f₀.1.view ext.myAddress)

def Midturn (D : Address → U256 → Prop) (R : Frame → Frame → Prop) (ext : Evm.ExtVM)
    (f₀ : Frame) : Phase → Frame → Prop
  | .asking held, f => Asked D R ext f₀ held f
  | .changed, f => Goes D R f₀ f

section Turn
variable {env : Env} {ext : Evm.ExtVM} {D : Address → U256 → Prop} {static : Bool}
  {R : Frame → Frame → Prop} {below : Nested} {f₀ f : Frame} {held : Held} {q : Query}

theorem Asked.goes (h : Asked D R ext f₀ held f) : Goes D R f₀ f :=
  ⟨h.quiet.forth h.wellFormed, h.along⟩

/-- A question that changes nothing. -/
theorem Asked.told (hsound : env.Sound) (hc : Course env D static R) (h : Asked D R ext f₀ held f)
    (hq : ¬q.Changes) (hrefund : ∀ amount, q ≠ .refund amount)
    (hmay : ext.May env.m_sealEngine.evmSchedule (.asking held) q) :
    Outcome (fun r g => Midturn D R ext f₀ (ext.after (.asking held) q r) g ∧
      r = ExtVM.told env ext f₀.1 q) (fun _ _ => False) (ExtVM.answer env below ext q) f := by
  refine (outcome_told hsound h.wellFormed f.2 hq hrefund).mono (fun r g hr => ?_) fun _ _ h => h
  obtain ⟨hr, hquiet, hg, hsub⟩ := hr
  have htold : r = ExtVM.told env ext f₀.1 q := by
    rw [hr]
    by_cases hstore : ∃ n, q = .store n
    · obtain ⟨n, rfl⟩ := hstore
      rw [h.fresh hmay]
    · exact told_quiet h.quiet fun n hn => hstore ⟨n, hn⟩
  obtain ⟨t, u⟩ := g
  obtain rfl : u = f.2 := hsub
  have halong : R f₀ (t, f.2) := hc.trans h.along (hc.agree f.2 (hquiet.agree []))
  have hown : ∃ own, ext.after (.asking held) q r = .asking ⟨false, own⟩ ∧
      ∀ v, own = some v → v = balanceOf (f₀.1.view ext.myAddress) := by
    cases q with
    | balance a =>
      refine ⟨_, rfl, fun v hv => ?_⟩
      split at hv
      case isTrue ha =>
        cases hv
        rw [htold, ha]
        rfl
      case isFalse => exact h.own v hv
    | refund amount => exact absurd rfl (hrefund amount)
    | setStore n v => exact absurd trivial hq
    | suicide a => exact absurd trivial hq
    | create endowment gas code op salt => exact absurd trivial hq
    | call params => exact absurd trivial hq
    | log topics data => exact absurd trivial hq
    | _ => exact ⟨held.own, rfl, h.own⟩
  obtain ⟨own, hafter, hown⟩ := hown
  refine ⟨?_, htold⟩
  rw [hafter]
  exact ⟨h.quiet.trans hquiet, hg, halong, fun hfresh => Bool.noConfusion hfresh, hown⟩

/-- A question that changes the world. -/
theorem Asked.changes (hc : Course env D static R)
    (hbelow : ext.depth < 1024 → below.Sound env D static R ext)
    (hstatic : static = true → ext.staticCall = true) (hs : f₀.1.Ready D)
    (hmy : f₀.1.view ext.myAddress ≠ none) (h : Asked D R ext f₀ held f) (hq : q.Changes)
    (hmay : ext.May env.m_sealEngine.evmSchedule (.asking held) q) :
    Outcome (fun r g => ext.after (.asking held) q r = .changed ∧ Goes D R f g ∧ Fine q r)
      (fun _ _ => False) (ExtVM.answer env below ext q) f := by
  have hno (hfree : ext.staticCall = false) : static = false := by
    by_contra hnot
    rw [hstatic (by simpa using hnot)] at hfree
    cases hfree
  have hready : f.1.Ready D := (h.quiet.forth h.wellFormed).ready hs
  have hmine : f.1.view ext.myAddress ≠ none := (h.quiet.forth h.wellFormed).kept _ hmy
  have hheld : ∀ v, held.own = some v → v = balanceOf (f.1.view ext.myAddress) := by
    intro v hv
    rw [h.own v hv, balanceOf_similar (h.quiet.views _)]
  cases q with
  | setStore n v =>
    refine outcome_inFrame ((outcome_setStorage hc (hno hmay) hready hmine n v).mono
      (fun _ t ht => ⟨rfl, ht.goes f.2, trivial⟩) fun _ _ h => h)
  | suicide a =>
    refine .bind (outcome_inFrame ((outcome_suicide hc (hno hmay) hready _ a).mono
      (fun _ t ht => .modify ?_) fun _ _ h => h))
    exact ⟨rfl, ⟨ht.1, ht.2 f.2⟩, trivial⟩
  | log topics data =>
    exact .modify ⟨rfl, ⟨.refl hready.wellFormed, hc.note (hno hmay) rfl (.inl le_rfl)⟩, trivial⟩
  | create endowment gas code op salt =>
    obtain ⟨hfree, hdepth, hop, v, hv, hle⟩ := hmay
    rw [hheld v hv] at hle
    exact ((hbelow hdepth).create (hno hfree) hready hle hop).mono
      (fun r g hr => ⟨rfl, hr.goes, hr.gas⟩) fun _ _ h => h
  | call p =>
    obtain ⟨hdepth, hfunded, hfree, hmoves⟩ := hmay
    have hle : p.valueTransfer ≤ balanceOf (f.1.view p.senderAddress) := by
      rcases hfunded with hzero | ⟨hsender, v, hv, hle⟩
      · rw [hzero]
        exact not_lt.mp BitVec.not_lt_zero
      · rw [hsender, ← hheld v hv]
        exact hle
    exact ((hbelow hdepth).call hready hle (fun h => hfree (hstatic h)) hmoves).mono
      (fun r g hr => ⟨rfl, hr.goes, hr.gas⟩) fun _ _ h => h
  | _ => exact hq.elim

/-- The levels below, and what is known of the frame when a turn begins. -/
structure Begun (env : Env) (D : Address → U256 → Prop) (static : Bool)
    (R : Frame → Frame → Prop) (below : Nested) (ext : Evm.ExtVM) (f : Frame) : Prop where
  below : ext.depth < 1024 → below.Sound env D static R ext
  static : static = true → ext.staticCall = true
  ready : f.1.Ready D
  account : f.1.view ext.myAddress ≠ none

theorem Begun.goes {g : Frame} (h : Begun env D static R below ext f) (hg : Goes D R f g) :
    Begun env D static R below ext g :=
  ⟨h.below, h.static, hg.forth.ready h.ready, hg.forth.kept _ h.account⟩

/-- Whatever may be asked is answered. -/
theorem Begun.answers (hsound : env.Sound) (hc : Course env D static R)
    (h : Begun env D static R below ext f₀) (k : Evm.Phase) (q : Query) (f : Frame)
    (hf : Midturn D R ext f₀ k f) (hmay : ext.May env.m_sealEngine.evmSchedule k q) :
    ∃ r g, (ExtVM.answer env below ext q).run f = (.ok r, g) ∧
      Midturn D R ext f₀ (ext.after k q r) g ∧
      (¬q.Changes → r = ExtVM.told env ext f₀.1 q) ∧
      (q.Changes → Fine q r ∧
        ∀ q', ¬ext.May env.m_sealEngine.evmSchedule (ext.after k q r) q') := by
  cases k with
  | changed => exact hmay.elim
  | asking held =>
    have hf : Asked D R ext f₀ held f := hf
    by_cases hq : q.Changes
    · have hbelow := h.below
      obtain ⟨r, g, hrun, hafter, hgoes, hfine⟩ :=
        (hf.changes hc hbelow h.static h.ready h.account hq hmay).returns
      refine ⟨r, g, hrun, ?_, fun hno => absurd hq hno, fun _ => ⟨hfine, ?_⟩⟩
      · rw [hafter]
        exact hf.goes.trans hc hgoes
      · rw [hafter]
        exact fun q' h => h
    · by_cases hrefund : ∃ amount, q = .refund amount
      · obtain ⟨amount, rfl⟩ := hrefund
        have hno : static = false := by
          by_contra hstatic
          have hfree : ext.staticCall = false := hmay.1
          rw [h.static (by simpa using hstatic)] at hfree
          cases hfree
        have hamount : f.2.refunds ≤ f.2.refunds + amount ∨
            env.m_sealEngine.evmSchedule.eip1283Mode = true :=
          hmay.2.imp_left fun h => le_add_of_nonneg_right h
        refine ⟨(), _, rfl, ?_, fun _ => rfl, fun hq' => absurd hq' hq⟩
        exact ⟨hf.quiet, hf.wellFormed, hc.trans hf.along (hc.note hno rfl hamount),
          fun hfresh => Bool.noConfusion hfresh, hf.own⟩
      · have htells : Outcome _ _ (ExtVM.answer env below ext q) f :=
          hf.told hsound hc hq (fun amount h => hrefund ⟨amount, h⟩) hmay
        obtain ⟨r, g, hrun, hmid, htold⟩ := htells.returns
        exact ⟨r, g, hrun, hmid, fun _ => htold, fun hq' => absurd hq' hq⟩

/-- What a turn comes to: no access without meaning, no more gas, and less of it where the
interpreter goes on. -/
structure Turned (source : Bytes) (m : VMState) (r : Except VMException Flow × VMState) :
    Prop where
  fault : r.1 ≠ .error .fault
  gas : r.2.m_io_gas.toNat ≤ m.m_io_gas.toNat
  running : r.1 = .ok .running → Steady source r.2 ∧ r.2.m_io_gas.toNat < m.m_io_gas.toNat

/-- Under honest answers. -/
theorem turned_interpret {schedule : EVMSchedule} {answer : (q : Query) → q.Reply}
    (hs : schedule ∈ schedules) (hanswer : Honest answer) {m : VMState}
    (hm : Steady ext.code.bytes m) :
    Turned ext.code.bytes m
      ((interpret false schedule ext (optimize false ext.code.bytes)).under answer m) := by
  have hkeeps : Machine.Meets answer _ _
      (interpret false schedule ext (optimize false ext.code.bytes)) m :=
    interpret_keeps_gas hs hanswer hm.balanced
  have hless : Machine.Meets answer _ _
      (interpret false schedule ext (optimize false ext.code.bytes)) m :=
    interpret_takes_gas hs hanswer hm.balanced
  have hgas := hkeeps.comes
  have htakes := hless.comes
  have hsteady := (interpret_steady hs ext answer (prepared_optimize _) hm).comes
  rcases hrun : (interpret false schedule ext (optimize false ext.code.bytes)).under answer m with
    ⟨e | flow, m'⟩
  · rw [hrun] at hgas hsteady
    exact ⟨fun he => hsteady.fault (Except.error.inj he), hgas, fun he => by cases he⟩
  · rw [hrun] at hgas hsteady htakes
    refine ⟨fun he => ?_, hgas, fun he => ?_⟩
    · cases he
    · cases he
      exact ⟨hsteady.1 rfl, (htakes rfl).1⟩

theorem Begun.turn (hsound : env.Sound) (hc : Course env D static R)
    (h : Begun env D static R below ext f) {m : VMState} (hm : Steady ext.code.bytes m) :
    Outcome (fun r g => Goes D R f g ∧ Turned ext.code.bytes m r) (fun _ _ => False)
      ((interpret false env.m_sealEngine.evmSchedule ext (optimize false ext.code.bytes) m).handle
        (ExtVM.answer env below ext)) f := by
  have hfresh : Midturn D R ext f (.asking ⟨true, none⟩) f :=
    ⟨.refl _, h.ready.wellFormed, (hc.refl h.ready.wellFormed).along f.2, fun _ => rfl,
      fun v hv => by cases hv⟩
  have hfine : ∀ q, Fine q (ExtVM.told env ext f.1 q) := by
    intro q
    cases q with
    | create endowment gas code op salt => exact Nat.zero_le _
    | call p => exact Nat.zero_le _
    | _ => trivial
  obtain ⟨answer, g, k, hanswer, -, hrun, hg⟩ := Asking.Follows.answered hfine
    (orderly_interpret false env.m_sealEngine.evmSchedule ext (optimize false ext.code.bytes) m)
    hfresh (h.answers hsound hc)
  have hhonest : Honest answer :=
    ⟨fun endowment gas code op salt => hanswer (.create endowment gas code op salt),
      fun p => hanswer (.call p)⟩
  refine .of_ok hrun ⟨?_, turned_interpret hsound.schedule hhonest hm⟩
  cases k with
  | asking held => exact Asked.goes hg
  | changed => exact hg

/-- What a run of the interpreter comes to. -/
structure Stopped (gas : ℕ) (r : Except VMException Flow × VMState) : Prop where
  running : r.1 ≠ .ok .running
  fault : r.1 ≠ .error .fault
  gas : r.2.m_io_gas.toNat ≤ gas

/-- There are turns enough: each one that goes on takes gas. -/
theorem Begun.turns (hsound : env.Sound) (hc : Course env D static R)
    (h : Begun env D static R below ext f) {m : VMState} (hm : Steady ext.code.bytes m) {n : ℕ}
    (hn : m.m_io_gas.toNat < n) :
    Outcome (fun r g => Goes D R f g ∧ Stopped m.m_io_gas.toNat r) (fun _ _ => False)
      (ExtVM.turns env below ext (optimize false ext.code.bytes) n m) f := by
  induction n generalizing m f with
  | zero => exact absurd hn (Nat.not_lt_zero _)
  | succ n ih =>
    refine .bind ((h.turn hsound hc hm).mono (fun r g hr => ?_) fun _ _ h => h)
    obtain ⟨hgoes, hturned⟩ := hr
    refine .ite (fun hrunning => ?_) fun hstopped => .pure ⟨hgoes, ?_⟩
    · obtain ⟨hsteady, hless⟩ := hturned.running hrunning
      refine (ih (h.goes hgoes) hsteady (by omega)).mono (fun r' g' hr' => ?_) fun _ _ h => h
      obtain ⟨hrest, hrunning', hfault, hgas⟩ := hr'
      exact ⟨hgoes.trans hc hrest, hrunning', hfault, hgas.trans hless.le⟩
    · exact ⟨hstopped, hturned.fault, hturned.gas⟩

theorem Begun.exec (hsound : env.Sound) (hc : Course env D static R)
    (h : Begun env D static R below ext f) (io_gas : U256) :
    Outcome (fun r g => Goes D R f g ∧ Stopped io_gas.toNat r) (fun _ _ => False)
      (ExtVM.exec env below ext io_gas) f := by
  have hstart : Steady ext.code.bytes {m_io_gas := io_gas.setWidth 64} :=
    ⟨starts_zero _, Nat.zero_le _, Int.natCast_nonneg _, le_rfl⟩
  have hgas : (io_gas.setWidth 64).toNat ≤ io_gas.toNat := by
    rw [BitVec.toNat_setWidth]
    exact Nat.mod_le ..
  refine (h.turns hsound hc hstart (Nat.lt_succ_self _)).mono (fun r g hr => ?_) fun _ _ h => h
  exact ⟨hr.1, hr.2.running, hr.2.fault, hr.2.gas.trans hgas⟩

end Turn
end Aleth.Ethereum
