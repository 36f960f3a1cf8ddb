import Aleth.Ethereum.Turns

/-! Levels of executives.

A call or a creation is set up from the state at its savepoint, run, and rolled
back where it fails. By induction on the levels that are left below the limit of
the depth, every level is sound: it comes to an end, gives back no more gas than
it was given, leads along every course that the steps of frames lead along, and
leaves nothing behind where it fails. -/
namespace Aleth.Ethereum
open Devcore Throwing Evm
variable [Sha3]

/-- A call or a creation that was set up and is still to be run. -/
structure Executive.Waits (static : Bool) (s₀ : State) (e : Executive) (ext : Evm.ExtVM)
    (t : State) : Prop where
  running : e.m_ext = some ext
  savepoint : e.m_savepoint = s₀.savepoint
  excepted : e.m_excepted = .None
  sub : e.m_sub = {}
  depth : ext.depth = e.m_depth
  stays : static = true → ext.staticCall = true
  account : t.view ext.myAddress ≠ none
  creation : e.m_isCreation = true → static = false ∧ t.Dirty ext.myAddress

/-- What comes of a call or a creation, from the state at its savepoint on. -/
structure Executive.Over (D : Address → U256 → Prop) (R : Frame → Frame → Prop) (s₀ : State)
    (gas : ℕ) (e : Executive) (t : State) : Prop where
  goes : Goes D R (s₀, {}) (t, e.m_sub)
  gas : e.m_gas.toNat ≤ gas
  failed : e.m_excepted ≠ .None → e.m_sub = {} ∧ State.Inert D s₀ t

namespace Executive
variable {D : Address → U256 → Prop} {static : Bool} {R : Frame → Frame → Prop} {env : Env}
  {below : Nested} {ext : Evm.ExtVM} {s s₀ t : State} {e : Executive} {gas : ℕ}

/-! ### Running -/

/-- Back at the savepoint. -/
theorem Over.of_agree (hc : Course env D static R) (hforth : State.Forth D s₀ t)
    (hagree : State.Agree D [] s₀ t) (hsub : e.m_sub = {}) (hgas : e.m_gas.toNat ≤ gas) :
    Over D R s₀ gas e t := by
  refine ⟨⟨hforth, ?_⟩, hgas, fun _ => ⟨hsub, hagree.inert⟩⟩
  rw [hsub]
  exact hc.agree {} hagree

/-- What was done since the savepoint is undone. -/
theorem outcome_revert {E : ExecutionError → State → Prop} (hs : s₀.WellFormed D)
    (h : State.Forth D s₀ t) (hsave : e.m_savepoint = s₀.savepoint) :
    Outcome (fun e' t' => e'.m_sub = {} ∧ e'.m_gas = e.m_gas ∧ e'.m_ext = e.m_ext ∧
      State.Forth D s₀ t' ∧ State.Agree D [] s₀ t') E (revert e) t := by
  obtain ⟨hforth, hagree⟩ := h.rollback hs
  rw [← hsave] at hforth hagree
  exact .bind (.modify (.pure ⟨rfl, rfl, rfl, hforth, hagree⟩))

theorem outcome_fail {E : ExecutionError → State → Prop} (hc : Course env D static R)
    (hs : s₀.WellFormed D) (h : State.Forth D s₀ t) (hsave : e.m_savepoint = s₀.savepoint)
    (x : VMException) :
    Outcome (fun e' t' => e'.m_ext = e.m_ext ∧ Over D R s₀ gas e' t') E (fail e x) t := by
  refine (outcome_revert (e := {e with m_gas := 0, m_excepted := toTransactionException x}) hs h
    hsave).mono (fun e' t' he => ?_) fun _ _ h => h
  obtain ⟨hsub, hgas, hext, hforth, hagree⟩ := he
  refine ⟨hext, .of_agree hc hforth hagree hsub ?_⟩
  rw [hgas]
  exact Nat.zero_le _

/-- The code of the new account is paid for with what is left of the gas. -/
theorem outcome_deposit {E : ExecutionError → State → Prop} (hc : Course env D static R)
    (hno : static = false) (hs : s.Ready D) (hdirty : s.Dirty ext.myAddress) (out : Bytes) :
    Outcome (fun r t => State.Forth D s t ∧ ∀ e', r = some e' →
      Walks D R s t ∧ e'.m_gas.toNat ≤ e.m_gas.toNat ∧ e'.m_sub = e.m_sub ∧
        e'.m_ext = e.m_ext ∧ e'.m_excepted = e.m_excepted) E (deposit env e ext out) s := by
  have hnone : Outcome (fun r t => State.Forth D s t ∧ ∀ e', r = some e' →
      Walks D R s t ∧ e'.m_gas.toNat ≤ e.m_gas.toNat ∧ e'.m_sub = e.m_sub ∧
        e'.m_ext = e.m_ext ∧ e'.m_excepted = e.m_excepted) E
      (pure none : Execution (Option Executive)) s :=
    .pure ⟨.refl hs.wellFormed, fun _ h => by cases h⟩
  refine .ite (fun _ => hnone) fun _ => .ite (fun hpaid => ?_) fun _ =>
    .ite (fun _ => hnone) fun _ => ?_
  · refine .bind ((outcome_setCode hc hno hs hdirty out).mono (fun _ t ht => .pure ?_)
      fun _ _ h => h)
    refine ⟨ht.forth, fun e' he => ?_⟩
    cases he
    refine ⟨ht, ?_, rfl, rfl, rfl⟩
    show (e.m_gas - _).toNat ≤ _
    have hlt := e.m_gas.isLt
    rw [BitVec.toNat_sub_of_le]
    · exact Nat.sub_le ..
    · rw [BitVec.le_def, BitVec.toNat_ofNat]
      exact (Nat.mod_le ..).trans hpaid
  · refine .bind ((outcome_setCode hc hno hs hdirty []).mono (fun _ t ht => .pure ?_)
      fun _ _ h => h)
    refine ⟨ht.forth, fun e' he => ?_⟩
    cases he
    exact ⟨ht, le_rfl, rfl, rfl, rfl⟩

theorem outcome_finish (hc : Course env D static R) (hs₀ : s₀.Ready D) (hwalk : Walks D R s₀ s)
    (hwaits : Waits static s₀ e ext s) {m : VMState} {sub : SubState}
    (hgoes : Goes D R (s, {}) (t, sub)) (hgas : m.m_io_gas.toNat ≤ gas)
    {r : Except VMException Flow} (hr : r ≠ .error .fault) :
    Outcome (fun e' t' => e'.m_ext = e.m_ext ∧ Over D R s₀ gas e' t') (fun _ _ => False)
      (finish env {e with m_gas := m.m_io_gas.setWidth 256, m_sub := sub} ext m r) t := by
  have hall : Goes D R (s₀, {}) (t, sub) := (hwalk.goes {}).trans hc hgoes
  have hwidth : (m.m_io_gas.setWidth 256).toNat ≤ gas := by
    rw [BitVec.toNat_setWidth]
    exact (Nat.mod_le ..).trans hgas
  have hexcepted := hwaits.excepted
  have hforth₀ : State.Forth D s₀ t := hall.forth
  cases r with
  | ok flow =>
    refine .ite (fun hcreation => ?_) fun _ =>
      .pure ⟨rfl, hall, hwidth, fun h => absurd hexcepted h⟩
    obtain ⟨hno, hdirty⟩ := hwaits.creation hcreation
    refine .bind ((outcome_deposit hc hno (hgoes.forth.ready (hwalk.forth.ready hs₀))
      (hgoes.forth.moves.dirty _ hdirty) m.m_output).mono (fun d t' hd => ?_) fun _ _ h => h)
    cases d with
    | none =>
      exact outcome_fail hc hs₀.wellFormed (hforth₀.trans hd.1) hwaits.savepoint _
    | some e' =>
      obtain ⟨hrest, hpaid, hsub, hext, hexcepted'⟩ := hd.2 e' rfl
      refine .pure ⟨hext, ?_, hpaid.trans hwidth, fun h => absurd (hexcepted'.trans hexcepted) h⟩
      rw [hsub]
      exact hall.trans hc (hrest.goes sub)
  | error x =>
    cases x with
    | fault => exact absurd rfl hr
    | revertInstruction output =>
      refine .bind ((outcome_revert (e := {e with m_gas := m.m_io_gas.setWidth 256, m_sub := sub})
        hs₀.wellFormed hforth₀ hwaits.savepoint).mono (fun e' t' he => .pure ?_) fun _ _ h => h)
      obtain ⟨hsub, hgas', hext, hforth, hagree⟩ := he
      refine ⟨hext, .of_agree hc hforth hagree hsub ?_⟩
      show e'.m_gas.toNat ≤ gas
      rw [hgas']
      exact hwidth
    | _ => exact outcome_fail hc hs₀.wellFormed hforth₀ hwaits.savepoint _

theorem run_go {r : Except VMException Flow} {m : VMState} {sub : SubState}
    (hext : e.m_ext = some ext)
    (hrun : (ExtVM.exec env below ext e.m_gas).run (s, e.m_sub) = (.ok (r, m), (t, sub))) :
    (go env below e).run s =
      (finish env {e with m_gas := m.m_io_gas.setWidth 256, m_sub := sub} ext m r).run t := by
  unfold go
  rw [hext]
  unfold Throwing.run at hrun ⊢
  dsimp only
  rw [hrun]

theorem outcome_go (hsound : env.Sound) (hc : Course env D static R)
    (hbelow : ext.depth < 1024 → below.Sound env D static R ext) (hs₀ : s₀.Ready D)
    (hwalk : Walks D R s₀ s) (hwaits : Waits static s₀ e ext s) :
    Outcome (fun e' t => e'.m_ext = e.m_ext ∧ Over D R s₀ e.m_gas.toNat e' t) (fun _ _ => False)
      (go env below e) s := by
  have hbegun : Begun env D static R below ext (s, {}) :=
    ⟨hbelow, hwaits.stays, hwalk.forth.ready hs₀, hwaits.account⟩
  obtain ⟨⟨r, m⟩, ⟨t, sub⟩, hrun, hgoes, hstopped⟩ := (hbegun.exec hsound hc e.m_gas).returns
  have hfinish := outcome_finish hc hs₀ hwalk hwaits hgoes hstopped.gas hstopped.fault
  exact .of_run (run_go hwaits.running (hwaits.sub ▸ hrun)) hfinish

/-! ### Setting up -/

/-- An executive with nothing set up. -/
structure Fresh (e : Executive) : Prop where
  ext : e.m_ext = none
  sub : e.m_sub = {}
  excepted : e.m_excepted = .None
  gas : e.m_gas = 0
  isCreation : e.m_isCreation = false

omit [Sha3] in
theorem Fresh.not_running (h : Fresh e) (p : CallParameters) : ∀ ext, e.m_ext = some ext →
    ext.depth = e.m_depth ∧ ext.staticCall = p.staticCall ∧ ext.myAddress = p.receiveAddress := by
  intro ext hext
  rw [h.ext] at hext
  cases hext

/-- What setting up comes to, from the state at the savepoint: nothing is left to be done, or the
frame is ready to be run. -/
structure SetUp (D : Address → U256 → Prop) (static : Bool) (R : Frame → Frame → Prop)
    (s₀ : State) (depth gas : ℕ) (r : Bool × Executive) (t : State) : Prop where
  walks : Walks D R s₀ t
  gas : r.2.m_gas.toNat ≤ gas
  sub : r.2.m_sub = {}
  failed : r.2.m_excepted ≠ .None → State.Inert D s₀ t
  done : r.1 = true → r.2.m_ext = none
  waits : r.1 = false → ∃ ext, Waits static s₀ r.2 ext t ∧ ext.depth = depth

theorem SetUp.over {r : Bool × Executive} {depth : ℕ} (h : SetUp D static R s₀ depth gas r t) :
    Over D R s₀ gas r.2 t := by
  refine ⟨?_, h.gas, fun he => ⟨h.sub, h.failed he⟩⟩
  rw [h.sub]
  exact h.walks.goes {}

/-- What the branches of a call have in common, before ether is transferred. -/
structure Opened (D : Address → U256 → Prop) (R : Frame → Frame → Prop) (p : CallParameters)
    (e : Executive) (s : State) (r : Bool × Executive) (t : State) : Prop where
  walks : Walks D R s t
  inert : State.Inert D s t
  gas : r.2.m_gas.toNat ≤ p.gas.toNat
  sub : r.2.m_sub = {}
  savepoint : r.2.m_savepoint = e.m_savepoint
  isCreation : r.2.m_isCreation = e.m_isCreation
  depth : r.2.m_depth = e.m_depth
  done : r.1 = true → r.2.m_ext = none
  goesOn : r.1 = false → r.2.m_excepted = .None ∧
    balanceOf (t.view p.senderAddress) = balanceOf (s.view p.senderAddress)
  ext : ∀ ext, r.2.m_ext = some ext → ext.depth = e.m_depth ∧ ext.staticCall = p.staticCall ∧
    ext.myAddress = p.receiveAddress

theorem opened_quiet (hc : Course env D static R) {p : CallParameters} {r : Bool × Executive}
    (hq : State.Quiet D s t) (ht : t.WellFormed D)
    (hgas : r.2.m_gas.toNat ≤ p.gas.toNat) (hsub : r.2.m_sub = {})
    (hsave : r.2.m_savepoint = e.m_savepoint) (hcreation : r.2.m_isCreation = e.m_isCreation)
    (hdepth : r.2.m_depth = e.m_depth) (hdone : r.1 = true → r.2.m_ext = none)
    (hgoesOn : r.1 = false → r.2.m_excepted = .None)
    (hext : ∀ ext, r.2.m_ext = some ext → ext.depth = e.m_depth ∧ ext.staticCall = p.staticCall ∧
      ext.myAddress = p.receiveAddress) : Opened D R p e s r t :=
  ⟨hc.quiet hq ht, (hq.agree []).inert, hgas, hsub, hsave, hcreation, hdepth, hdone,
    fun h => ⟨hgoesOn h, balanceOf_similar (hq.views _)⟩, hext⟩

theorem outcome_callPrecompiled (hc : Course env D static R) (hs : s.Ready D) (he : Fresh e)
    (p : CallParameters) :
    Outcome (Opened D R p e s) (fun _ _ => False) (callPrecompiled env e p) s := by
  have hnone : ∀ ext, e.m_ext = some ext → _ := he.not_running p
  have hzero : e.m_gas.toNat ≤ p.gas.toNat := by
    rw [he.gas]
    exact Nat.zero_le _
  have hquiet := State.Quiet.refl (D := D) s
  refine .ite (fun _ => ?_) fun hpaid => ?_
  · have hout {t : State} (hwalk : Walks D R s t) (hinert : State.Inert D s t) :
        Opened D R p e s (true, {e with m_excepted := .OutOfGasBase}) t :=
      ⟨hwalk, hinert, hzero, he.sub, rfl, rfl, rfl, fun _ => he.ext,
        fun h => Bool.noConfusion h, hnone⟩
    refine .ite (fun _ => ?_) fun _ => ?_
    · exact .bind ((outcome_addNothing hc hs p.codeAddress).mono
        (fun _ t ht => .pure (hout ht.1 ht.2)) fun _ _ h => h)
    · exact .pure (hout (hc.quiet hquiet hs.wellFormed) (hquiet.agree []).inert)
  · have hleft : (BitVec.ofNat 256 (p.gas.toNat - env.m_sealEngine.costOfPrecompiled
        p.codeAddress p.data)).toNat ≤ p.gas.toNat := by
      rw [BitVec.toNat_ofNat]
      exact (Nat.mod_le ..).trans (Nat.sub_le ..)
    refine .ite (fun _ => .pure ?_) fun _ => .pure ?_
    · exact opened_quiet hc hquiet hs.wellFormed hleft he.sub rfl rfl rfl
        (fun h => Bool.noConfusion h) (fun _ => he.excepted) hnone
    · exact opened_quiet hc hquiet hs.wellFormed (Nat.zero_le _) he.sub rfl rfl rfl
        (fun _ => he.ext) (fun h => Bool.noConfusion h) hnone

/-- The account that is called. -/
theorem outcome_callAccount (hc : Course env D static R) (hs : s.Ready D) (he : Fresh e)
    (p : CallParameters) (gasPrice : U256) (origin : Address) :
    Outcome (Opened D R p e s) (fun _ _ => False) (callAccount env e p gasPrice origin) s := by
  refine .bind ((State.reads_addressHasCode hs.wellFormed p.codeAddress).outcome.mono
    (fun c t₁ h₁ => ?_) fun _ _ h => h)
  obtain ⟨-, hq₁, ht₁⟩ := h₁
  refine .ite (fun _ => ?_) fun _ => .pure ?_
  · refine .bind ((State.reads_code ht₁ p.codeAddress).outcome.mono (fun code t₂ h₂ => ?_)
      fun _ _ h => h)
    obtain ⟨-, hq₂, ht₂⟩ := h₂
    refine .bind ((State.reads_codeHash ht₂ p.codeAddress).outcome.mono (fun _ t h => .pure ?_)
      fun _ _ h => h)
    obtain ⟨-, hq, ht⟩ := h
    refine opened_quiet hc ((hq₁.trans hq₂).trans hq) ht le_rfl rfl rfl rfl rfl
      (fun h => Bool.noConfusion h) (fun _ => he.excepted) fun ext hext => ?_
    cases hext
    exact ⟨rfl, rfl, rfl⟩
  · refine opened_quiet hc hq₁ ht₁ le_rfl he.sub rfl rfl rfl (fun h => Bool.noConfusion h)
      (fun _ => he.excepted) (he.not_running p)

/-- A nonce is counted, then the call or creation is set up. -/
def SetUpFrom (D : Address → U256 → Prop) (static : Bool) (R : Frame → Frame → Prop) (c : Prop)
    (sender : Address) (depth gas : ℕ) (s : State) (r : Bool × Executive) (t : State) : Prop :=
  ∃ s₀, Counted D R c sender s s₀ ∧ SetUp D static R s₀ depth gas r t

/-- The transfer of a call, once its branch was taken. -/
theorem outcome_transferred (hc : Course env D static R) (hs : s.Ready D) {p : CallParameters}
    (hv : p.valueTransfer ≤ balanceOf (s.view p.senderAddress))
    (hstatic : static = true → p.staticCall = true)
    (hmoves : p.staticCall = true → p.valueTransfer = 0 ∨ p.receiveAddress = p.senderAddress)
    {r : Bool × Executive} (he : Fresh e) (hsave : e.m_savepoint = s.savepoint)
    (hr : Opened D R p e s r t) :
    Outcome (SetUp D static R s e.m_depth p.gas.toNat) (fun _ _ => False)
      (if r.1 then return (true, r.2)
      else do
        onState (State.transferBalance p.senderAddress p.receiveAddress p.valueTransfer)
        return (r.2.m_ext.isNone, r.2)) t := by
  refine .ite (fun hdone => .pure ?_) fun hgoesOn => ?_
  · exact ⟨hr.walks, hr.gas, hr.sub, fun _ => hr.inert, fun _ => hr.done hdone,
      fun h => Bool.noConfusion h⟩
  · obtain ⟨hexcepted, hbalance⟩ := hr.goesOn (by simpa using hgoesOn)
    refine .bind ((outcome_transferBalance hc (hr.walks.forth.ready hs) (hbalance ▸ hv)
      fun h => hmoves (hstatic h)).mono (fun _ u hu => .pure ?_) fun _ _ h => h)
    refine ⟨hr.walks.trans hc hu.1, hr.gas, hr.sub, fun h => absurd hexcepted h,
      fun hnone => Option.isNone_iff_eq_none.mp hnone, fun hsome => ?_⟩
    obtain ⟨ext, hext⟩ := Option.ne_none_iff_exists'.mp
      (fun hnone => Bool.noConfusion (hsome.symm.trans (Option.isNone_iff_eq_none.mpr hnone)))
    obtain ⟨hdepth, hcall, hmy⟩ := hr.ext ext hext
    refine ⟨ext, ⟨hext, hr.savepoint.trans hsave, hexcepted, hr.sub, hdepth.trans hr.depth.symm,
      fun h => hcall.trans (hstatic h), ?_, fun h => ?_⟩, hdepth⟩
    · rw [hmy]
      exact hu.2
    · rw [hr.isCreation] at h
      exact absurd (he.isCreation.symm.trans h) Bool.false_ne_true

theorem outcome_call (hc : Course env D static R) (hs : s.Ready D) (he : Fresh e)
    (hcount : e.m_t.isSome = true → static = false) {p : CallParameters}
    (hv : p.valueTransfer ≤ balanceOf (s.view p.senderAddress))
    (hstatic : static = true → p.staticCall = true)
    (hmoves : p.staticCall = true → p.valueTransfer = 0 ∨ p.receiveAddress = p.senderAddress)
    (gasPrice : U256) (origin : Address) :
    Outcome (SetUpFrom D static R (e.m_t.isSome ∧ countsNonce env p.senderAddress)
      p.senderAddress e.m_depth p.gas.toNat s) (fun _ _ => False)
      (call env e p gasPrice origin) s := by
  refine .when (fun hcounts => outcome_counted hc (hcount hcounts.1) hs hcounts p.senderAddress)
    (fun hno => .of_not hc hs.wellFormed hno p.senderAddress) fun s₀ h => ?_
  have hs₀ := h.walks.forth.ready hs
  have hfresh : Fresh {e with m_savepoint := s₀.savepoint} :=
    ⟨he.ext, he.sub, he.excepted, he.gas, he.isCreation⟩
  have hafter (r : Bool × Executive) (t : State)
      (hr : Opened D R p {e with m_savepoint := s₀.savepoint} s₀ r t) :
      Outcome (SetUpFrom D static R (e.m_t.isSome ∧ countsNonce env p.senderAddress)
        p.senderAddress e.m_depth p.gas.toNat s) (fun _ _ => False) _ t :=
    (outcome_transferred hc hs₀ ((h.balance _).symm ▸ hv) hstatic hmoves hfresh rfl hr).mono
      (fun _ _ h' => ⟨s₀, h, h'⟩) fun _ _ h => h
  refine .bind (.bind (.get (.pure (.ite (fun _ => ?_) fun _ => ?_))))
  · exact .bind ((outcome_callPrecompiled hc hs₀ hfresh p).mono hafter fun _ _ h => h)
  · exact .bind ((outcome_callAccount hc hs₀ hfresh p gasPrice origin).mono hafter
      fun _ _ h => h)

theorem reads_addressTaken (hs : s.WellFormed D) (a : Address) :
    ∃ b, State.Reads D (addressTaken a) s b := by
  by_cases hcode : codeHashOf (s.view a) ≠ EmptySHA3
  · refine ⟨true, (State.reads_addressHasCode hs a).bind fun t ht _ => ?_⟩
    rw [if_pos (by simpa using hcode)]
    exact .pure ht true
  · refine ⟨decide (0 < nonceOf s.m_accountStartNonce (s.view a)),
      (State.reads_addressHasCode hs a).bind fun t ht hq => ?_⟩
    rw [if_neg (by simpa using hcode)]
    refine (State.reads_getNonce ht a).bind fun u hu _ => ?_
    rw [hq.startNonce, nonceOf_similar _ (hq.views a)]
    exact .pure hu _

theorem outcome_executeCreate (hc : Course env D static R) (hno : static = false) (hs : s.Ready D)
    (he : Fresh e) {sender : Address} {endowment : U256}
    (hv : endowment ≤ balanceOf (s.view sender)) (gasPrice gas : U256) (init : Bytes)
    (origin : Address) :
    Outcome (SetUpFrom D static R (countsNonce env sender) sender e.m_depth gas.toNat s)
      (fun _ _ => False) (executeCreate env e sender endowment gasPrice gas init origin) s := by
  refine .when (fun hcounts => outcome_counted hc hno hs hcounts sender)
    (fun hnot => .of_not hc hs.wellFormed hnot sender) fun s₀ h => ?_
  have hs₀ := h.walks.forth.ready hs
  refine .bind (.bind (.get (.pure ?_)))
  obtain ⟨taken, htaken⟩ := reads_addressTaken hs₀.wellFormed e.m_newAddress
  refine .bind (htaken.outcome.mono (fun _ t ht => ?_) fun _ _ h => h)
  obtain ⟨-, hq, ht⟩ := ht
  have hwalk := hc.quiet hq ht
  have hmoved : State.Forth D s₀ t := hwalk.forth
  refine .ite (fun _ => ?_) fun _ => ?_
  · refine .bind ((outcome_revert hs₀.wellFormed hmoved rfl).mono
      (fun e' u hu => .pure ⟨s₀, h, ?_⟩) fun _ _ h => h)
    obtain ⟨hsub, hgas, -, hforth, hagree⟩ := hu
    refine ⟨⟨hforth, fun v => hc.agree v hagree⟩, ?_, hsub, fun _ => hagree.inert, fun _ => rfl,
      fun h => Bool.noConfusion h⟩
    show e'.m_gas.toNat ≤ gas.toNat
    rw [hgas]
    exact Nat.zero_le _
  · have hfunded : endowment ≤ balanceOf (t.view sender) := by
      rw [balanceOf_similar (hq.views sender), h.balance]
      exact hv
    refine .bind ((outcome_setUp hc hno (hwalk.forth.ready hs₀) hfunded e.m_newAddress).mono
      (fun _ u hu => ?_) fun _ _ h => h)
    refine .ite (fun _ => .pure ⟨s₀, h, ?_⟩) fun _ => .pure ⟨s₀, h, ?_⟩
    · exact ⟨hwalk.trans hc hu.1, le_rfl, he.sub, fun h => absurd he.excepted h,
        fun _ => he.ext, fun h => Bool.noConfusion h⟩
    · obtain ⟨v, hv⟩ := hu.2.view
      refine ⟨hwalk.trans hc hu.1, le_rfl, rfl, fun h => absurd he.excepted h,
        fun h => Bool.noConfusion h, fun _ => ⟨_, ⟨rfl, rfl, he.excepted, rfl, rfl,
        fun h => ?_, ?_, fun _ => ⟨hno, hu.2⟩⟩, rfl⟩⟩
      · rw [hno] at h
        cases h
      · show u.view e.m_newAddress ≠ none
        rw [hv]
        exact Option.some_ne_none v

theorem outcome_createOpcode (hc : Course env D static R) (hno : static = false) (hs : s.Ready D)
    (he : Fresh e) {sender : Address} {endowment : U256}
    (hv : endowment ≤ balanceOf (s.view sender)) (gasPrice gas : U256) (init : Bytes)
    (origin : Address) :
    Outcome (SetUpFrom D static R (countsNonce env sender) sender e.m_depth gas.toNat s)
      (fun _ _ => False) (createOpcode env e sender endowment gasPrice gas init origin) s := by
  refine .bind ((State.reads_getNonce hs.wellFormed sender).outcome.mono (fun nonce t ht => ?_)
    fun _ _ h => h)
  obtain ⟨-, hq, ht⟩ := ht
  refine (outcome_executeCreate hc hno ((hq.forth ht).ready hs) ?_ ?_ gasPrice gas init
    origin).mono (fun r u hu => ?_) fun _ _ h => h
  · exact ⟨he.ext, he.sub, he.excepted, he.gas, he.isCreation⟩
  · rw [balanceOf_similar (hq.views sender)]
    exact hv
  · obtain ⟨s₀, hcounted, hsetUp⟩ := hu
    exact ⟨s₀, hcounted.of_quiet hc hq ht, hsetUp⟩

theorem outcome_create2Opcode (hc : Course env D static R) (hno : static = false) (hs : s.Ready D)
    (he : Fresh e) {sender : Address} {endowment : U256}
    (hv : endowment ≤ balanceOf (s.view sender)) (gasPrice gas : U256) (init : Bytes)
    (origin : Address) (salt : U256) :
    Outcome (SetUpFrom D static R (countsNonce env sender) sender e.m_depth gas.toNat s)
      (fun _ _ => False)
      (create2Opcode env e sender endowment gasPrice gas init origin salt) s := by
  unfold create2Opcode
  dsimp only
  generalize right160 _ = a
  exact outcome_executeCreate (e := {e with m_newAddress := a}) hc hno hs
    ⟨he.ext, he.sub, he.excepted, he.gas, he.isCreation⟩ hv gasPrice gas init origin

/-! ### One level -/

theorem Over.frame (hc : Course env D static R) (h : Over D R s₀ gas e t) (u : SubState) :
    Goes D R (s₀, u) (t, u.add e.m_sub) := ⟨h.goes.forth, hc.frame u h.goes.along⟩

/-- What is set up is run, and what it noted is noted in the frame above. -/
theorem outcome_went (hsound : env.Sound) (hc : Course env D static R) {c : Prop} {sender : Address}
    {depth : ℕ} (hbelow : ∀ ext : Evm.ExtVM, ext.depth = depth → ext.depth < 1024 →
      below.Sound env D static R ext) (hs : s.Ready D) {u : SubState} {r : Bool × Executive}
    (h : SetUpFrom D static R c sender depth gas s r t) :
    Outcome (fun e' g => ∃ s₀, Counted D R c sender s s₀ ∧ Over D R s₀ gas e' g.1 ∧
      g.2 = u.add e'.m_sub) (fun _ _ => False) (went env below r.1 r.2) (t, u) := by
  obtain ⟨s₀, hcounted, hsetUp⟩ := h
  have hs₀ := hcounted.walks.forth.ready hs
  refine .ite (fun hdone => .pure ⟨s₀, hcounted, hsetUp.over, ?_⟩) fun hgoesOn => ?_
  · rw [hsetUp.sub]
    exact (SubState.add_empty u).symm
  · obtain ⟨ext, hwaits, hdepth⟩ := hsetUp.waits (by simpa using hgoesOn)
    refine .bind (outcome_inFrame ((outcome_go hsound hc (hbelow ext hdepth) hs₀ hsetUp.walks
      hwaits).mono (fun e' t' h => .bind (.modify (.pure ⟨s₀, hcounted, ?_, rfl⟩)))
      fun _ _ h => h))
    exact ⟨h.2.goes, h.2.gas.trans hsetUp.gas, h.2.failed⟩

theorem Over.called {c : Prop} {sender : Address} {f : Frame} {u : SubState}
    (hc : Course env D static R) (hcounted : Counted D R c sender f.1 s₀) (h : Over D R s₀ gas e t)
    (hu : u = f.2.add e.m_sub) :
    Called D R c sender f gas (transactionExceptionToEvmcStatusCode e.m_excepted) e.m_gas
      (t, u) := by
  subst hu
  refine ⟨(hcounted.walks.goes f.2).trans hc (h.frame hc f.2), h.gas, fun hstatus => ?_⟩
  have hexcepted : e.m_excepted ≠ .None := fun hnone => hstatus (hnone ▸ rfl)
  obtain ⟨hsub, hinert⟩ := h.failed hexcepted
  refine ⟨?_, s₀, hcounted, hinert⟩
  rw [hsub]
  exact SubState.add_empty f.2

end Executive

section Nested
variable {D : Address → U256 → Prop} {static : Bool} {R : Frame → Frame → Prop} {env : Env}
  {below : Nested} {ext : Evm.ExtVM} {f : Frame}

theorem outcome_extCall (hsound : env.Sound) (hc : Course env D static R)
    (hbelow : ∀ ext' : Evm.ExtVM, ext'.depth = ext.depth + 1 → ext'.depth < 1024 →
      below.Sound env D static R ext') (hs : f.1.Ready D) {p : CallParameters}
    (hv : p.valueTransfer ≤ balanceOf (f.1.view p.senderAddress))
    (hstatic : static = true → p.staticCall = true)
    (hmoves : p.staticCall = true → p.valueTransfer = 0 ∨ p.receiveAddress = p.senderAddress) :
    Outcome (fun r g => Called D R False p.senderAddress f p.gas.toNat r.status r.gas g)
      (fun _ _ => False) (ExtVM.call env below ext p) f := by
  refine .bind (outcome_inFrame ((Executive.outcome_call (e := {m_depth := ext.depth + 1}) hc hs
    ⟨rfl, rfl, rfl, rfl, rfl⟩ (fun h => by cases h) hv hstatic hmoves ext.gasPrice
    ext.origin).mono (fun r t h => ?_) fun _ _ h => h))
  refine .bind ((Executive.outcome_went hsound hc hbelow hs (u := f.2) h).mono
    (fun e g hg => .pure ?_) fun _ _ h => h)
  obtain ⟨s₀, hcounted, hover, hsub⟩ := hg
  refine hover.called hc ⟨hcounted.walks, fun h => h.elim, fun _ => ?_⟩ hsub
  exact hcounted.quiet fun h => by cases h.1

theorem outcome_extCreate (hsound : env.Sound) (hc : Course env D static R) (hno : static = false)
    (hbelow : ∀ ext' : Evm.ExtVM, ext'.depth = ext.depth + 1 → ext'.depth < 1024 →
      below.Sound env D static R ext') (hs : f.1.Ready D) {endowment gas salt : U256}
    {code : Bytes} {op : Instruction} (hv : endowment ≤ balanceOf (f.1.view ext.myAddress))
    (hop : op = .create ∨ op = .create2) :
    Outcome (fun r g => Called D R (Executive.countsNonce env ext.myAddress) ext.myAddress f
      gas.toNat r.status r.gas g) (fun _ _ => False)
      (ExtVM.create env below ext endowment gas code op salt) f := by
  have hfresh : Executive.Fresh {m_depth := ext.depth + 1} := ⟨rfl, rfl, rfl, rfl, rfl⟩
  have hafter {r : Bool × Executive} {t : State}
      (h : Executive.SetUpFrom D static R (Executive.countsNonce env ext.myAddress) ext.myAddress
        (ext.depth + 1) gas.toNat f.1 r t) :=
    Executive.outcome_went hsound hc hbelow hs (u := f.2) h
  have hsetUp : Outcome (Executive.SetUpFrom D static R (Executive.countsNonce env ext.myAddress)
      ext.myAddress (ext.depth + 1) gas.toNat f.1) (fun _ _ => False)
      (if op = .create then
        Executive.createOpcode env {m_depth := ext.depth + 1} ext.myAddress endowment ext.gasPrice
          gas code ext.origin
      else if op = .create2 then
        Executive.create2Opcode env {m_depth := ext.depth + 1} ext.myAddress endowment ext.gasPrice
          gas code ext.origin salt
      else throw .assertion) f.1 := by
    refine .ite (fun _ => Executive.outcome_createOpcode hc hno hs hfresh hv ..) fun hcreate =>
      .ite (fun _ => Executive.outcome_create2Opcode hc hno hs hfresh hv ..) fun hcreate2 => ?_
    exact absurd (hop.resolve_left hcreate) hcreate2
  refine .bind (outcome_inFrame (hsetUp.mono (fun r t h => ?_) fun _ _ h => h))
  refine .bind ((hafter h).mono (fun e g hg => .pure ?_) fun _ _ h => h)
  obtain ⟨s₀, hcounted, hover, hsub⟩ := hg
  exact hover.called hc hcounted hsub

/-- **Every level is sound.** Where there are as many levels as the depth may still grow, calls and
creations of a frame come to an end, give back no more gas than they were given, keep to the
course, and leave nothing behind where they fail. -/
theorem sound_nested (hsound : env.Sound) (hc : Course env D static R) {n : ℕ}
    (hdepth : depthLimit ≤ ext.depth + n) (hext : ext.depth < depthLimit) :
    (nested env n).Sound env D static R ext := by
  induction n generalizing ext with
  | zero => exact absurd hdepth (not_le.mpr hext)
  | succ n ih =>
    have hbelow (ext' : Evm.ExtVM) (hnext : ext'.depth = ext.depth + 1)
        (hlt : ext'.depth < depthLimit) : (nested env n).Sound env D static R ext' :=
      ih (by omega) hlt
    exact ⟨fun hs hv hstatic hmoves => outcome_extCall hsound hc hbelow hs hv hstatic hmoves,
      fun hno hs hv hop => outcome_extCreate hsound hc hno hbelow hs hv hop⟩

end Nested
end Aleth.Ethereum
