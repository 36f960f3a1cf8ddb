import Aleth.Evm.LegacyVM
import Aleth.Structure.Protocol

/-! What a turn of the interpreter may ask.

A turn reads, adds to the refund counter, and then changes the world at most once:
it writes storage, logs, destroys the account, creates or calls. Nothing is asked
after that. A creation or a call is asked for below the limit of the depth, with
no more value than the balance that was asked for; and where the frame is static
nothing is changed, except by calls that are static again and move no value. -/
namespace Aleth.Evm
open Devcore Machine

/-- What has been asked in a turn: whether nothing yet, and the last answer for the own balance. -/
structure Held where
  fresh : Bool
  own : Option U256

/-- Questions are asked until the world is changed. -/
inductive Phase where
  | asking (held : Held)
  | changed

/-- The question changes the world. -/
def Query.Changes : Query → Prop
  | .setStore _ _ | .suicide _ | .create _ _ _ _ _ | .call _ | .log _ _ => True
  | _ => False

/-- The call can be made with what is held. -/
structure CallParameters.Fits (params : CallParameters) (ext : ExtVM) (held : Held) : Prop where
  depth : ext.depth < 1024
  funded : params.valueTransfer = 0 ∨
    params.senderAddress = ext.myAddress ∧ ∃ v, held.own = some v ∧ params.valueTransfer ≤ v
  static : ext.staticCall = true → params.staticCall = true
  moves : params.staticCall = true →
    params.valueTransfer = 0 ∨ params.receiveAddress = params.senderAddress

/-- What a turn may ask; storage is looked at before anything else. -/
def ExtVM.May (schedule : EVMSchedule) (ext : ExtVM) : Phase → Query → Prop
  | .changed, _ => False
  | .asking held, .store _ => held.fresh = true
  | .asking _, .setStore _ _ | .asking _, .suicide _ | .asking _, .log _ _ =>
    ext.staticCall = false
  | .asking _, .refund amount =>
    ext.staticCall = false ∧ (0 ≤ amount ∨ schedule.eip1283Mode = true)
  | .asking held, .create endowment _ _ op _ =>
    ext.staticCall = false ∧ ext.depth < 1024 ∧ (op = .create ∨ op = .create2) ∧
      ∃ v, held.own = some v ∧ endowment ≤ v
  | .asking held, .call params => params.Fits ext held
  | .asking _, _ => True

/-- The phase after an answer. -/
def ExtVM.after (ext : ExtVM) : Phase → (q : Query) → q.Reply → Phase
  | .changed, _, _ => .changed
  | .asking held, .balance a, v => .asking ⟨false, if a = ext.myAddress then some v else held.own⟩
  | .asking _, .setStore _ _, _ | .asking _, .suicide _, _ | .asking _, .log _ _, _
  | .asking _, .create _ _ _ _ _, _ | .asking _, .call _, _ => .changed
  | .asking held, _, _ => .asking ⟨false, held.own⟩

def turn (schedule : EVMSchedule) (ext : ExtVM) : Protocol Query Query.Reply where
  Phase := Phase
  may := ext.May schedule
  after := ext.after

section Mute
variable {schedule : EVMSchedule} {code : Code}

theorem mute_toInt63 (v : ℕ) : Mute (toInt63 v) := mute_ite (mute_throw _) (mute_pure _)

theorem mute_memNeed (offset size : U256) : Mute (memNeed offset size) := mute_toInt63 _

theorem mute_sp (i : ℕ) : Mute (sp i) :=
  mute_get.bind fun _ => mute_ite (mute_pure _) (mute_throw _)

theorem mute_setSP (i : ℕ) (v : U256) : Mute (setSP i v) :=
  mute_get.bind fun _ => mute_ite (mute_modify _) (mute_throw _)

theorem mute_setSPP (v : U256) : Mute (setSPP v) :=
  mute_get.bind fun _ => mute_ite (mute_modify _) (mute_throw _)

theorem mute_updateIOGas : Mute updateIOGas :=
  mute_get.bind fun _ => mute_ite ((mute_throw _).bind fun _ => mute_modify _) (mute_modify _)

theorem mute_gasForMem (size : ℕ) : Mute (gasForMem schedule size) := mute_toInt63 _

theorem mute_updateGas : Mute (updateGas schedule) := by
  have hcharge : Mute (do
      modify fun m => {m with
        m_runGas := m.m_runGas + BitVec.ofNat 64 schedule.copyGas * ((m.m_copyMemSize + 31) / 32)}
      let m ← get
      if m.m_io_gas < m.m_runGas then throw .outOfGas : VM Unit) :=
    (mute_modify _).bind fun _ => mute_get.bind fun _ => mute_ite (mute_throw _) (mute_pure _)
  refine mute_get.bind fun m => mute_ite ?_ hcharge
  exact (mute_gasForMem _).bind fun _ => (mute_gasForMem _).bind fun _ =>
    (mute_toInt63 _).bind fun _ => (mute_modify _).bind fun _ => hcharge

theorem mute_updateMem (newMem : U64) : Mute (updateMem schedule newMem) :=
  (mute_modify _).bind fun _ => mute_updateGas.bind fun _ => mute_modify _

theorem mute_setRunGas (gas : ℕ) : Mute (setRunGas gas) :=
  (mute_toInt63 _).bind fun _ => mute_modify _

theorem mute_addRunGas (gas : ℕ) : Mute (addRunGas gas) :=
  (mute_toInt63 _).bind fun _ => mute_modify _

theorem mute_setCopyMemSize (size : U256) : Mute (setCopyMemSize size) :=
  (mute_toInt63 _).bind fun _ => mute_modify _

theorem mute_readMem (offset size : ℕ) : Mute (readMem offset size) :=
  mute_get.bind fun _ => mute_ite (mute_pure _) (mute_ite (mute_pure _) (mute_throw _))

theorem mute_writeMem (offset : ℕ) (data : Bytes) : Mute (writeMem offset data) :=
  mute_get.bind fun _ => mute_ite (mute_pure _) (mute_ite (mute_modify _) (mute_throw _))

theorem mute_copyDataToMemory (data : Buffer) (i : ℕ) : Mute (copyDataToMemory data i) :=
  (mute_sp _).bind fun _ => (mute_sp _).bind fun _ => (mute_sp _).bind fun _ =>
    (mute_writeMem ..).bind fun _ => mute_writeMem ..

theorem mute_next : Mute next := (mute_modify _).bind fun _ => mute_pure _

theorem mute_continueAt (pc : ℕ) : Mute (continueAt pc) := (mute_modify _).bind fun _ => mute_pure _

theorem mute_stop : Mute stop := mute_pure _

theorem mute_require (guard : Bool) : Mute (require guard) := mute_ite (mute_pure _) (mute_throw _)

theorem mute_codeBytes (pc n : ℕ) : Mute (codeBytes code pc n) :=
  mute_ite (mute_pure _) (mute_throw _)

theorem mute_throwBadStack (spp : ℤ) (removed : ℕ) : Mute (throwBadStack spp removed) :=
  mute_ite (mute_throw _) (mute_throw _)

theorem mute_adjustStack (removed added : ℕ) : Mute (adjustStack removed added) := by
  have hadd : Mute (do
      modify fun m => {m with m_SPP := m.m_SPP - added}
      let m ← get
      if m.m_SPP < 0 then throwBadStack m.m_SPP removed : VM Unit) :=
    (mute_modify _).bind fun _ => mute_get.bind fun _ =>
      mute_ite (mute_throwBadStack ..) (mute_pure _)
  exact (mute_modify _).bind fun _ => mute_get.bind fun _ =>
    mute_ite ((mute_throwBadStack ..).bind fun _ => hadd) hadd

theorem mute_fetchInstruction : Mute (fetchInstruction schedule code) := by
  refine mute_get.bind fun m => ?_
  cases code.m_code[m.m_PC]? with
  | none => exact mute_throw _
  | some b =>
    exact (mute_modify _).bind fun _ => (mute_adjustStack ..).bind fun _ =>
      (mute_setRunGas _).bind fun _ => mute_modify _

theorem mute_jumpTo (dest : U256) : Mute (jumpTo code dest) := by
  unfold jumpTo
  cases verifyJumpDest code dest with
  | some pc => exact mute_continueAt pc
  | none => exact mute_throw _

theorem mute_operandsFrom (i n : ℕ) : Mute (operandsFrom i n) := by
  induction n generalizing i with
  | zero => exact mute_pure _
  | succ n ih => exact (mute_sp _).bind fun _ => (ih _).bind fun _ => mute_pure _

theorem mute_output : Mute (output schedule) :=
  (mute_setCopyMemSize _).bind fun _ => (mute_sp _).bind fun _ => (mute_sp _).bind fun _ =>
    (mute_memNeed ..).bind fun _ => (mute_updateMem _).bind fun _ => mute_updateIOGas.bind fun _ =>
    (mute_sp _).bind fun _ => (mute_sp _).bind fun _ => mute_readMem ..

end Mute

/-! ### The cases -/

/-- Whatever a turn is told, it keeps to what it may ask. -/
def Orderly {α : Type} (schedule : EVMSchedule) (ext : ExtVM) (x : VM α) (m : VMState)
    (k : Phase) : Prop :=
  Follows (turn schedule ext) (fun _ _ _ => True) x m k

section Cases
variable {evmOptimize : Bool} {schedule : EVMSchedule} {ext : ExtVM} {code : Code} {m : VMState}
  {held : Held} {k : Phase} {α β : Type} {x : VM α} {f : α → VM β} {op : Instruction}

theorem orderly_of_mute (hx : Mute x) : Orderly schedule ext x m k := .of_mute hx fun _ _ => trivial

theorem orderly_after (hx : Mute x) (hf : ∀ a m', Orderly schedule ext (f a) m' k) :
    Orderly schedule ext (x >>= f) m k := .after_mute hx hf

/-- A question that changes nothing. -/
theorem orderly_ask {q : Query} {f : q.Reply → VM β} (hq : ext.May schedule (.asking held) q)
    (hf : ∀ r m' held', ext.after (.asking held) q r = .asking held' →
      Orderly schedule ext (f r) m' (.asking held'))
    (hkeeps : ∀ r, ∃ held', ext.after (.asking held) q r = .asking held') :
    Orderly schedule ext (ask q >>= f) m (.asking held) := by
  refine .bind (.ask hq fun r => ?_)
  obtain ⟨held', hafter⟩ := hkeeps r
  have hphase : (turn schedule ext).after (.asking held) q r = .asking held' := hafter
  rw [hphase]
  exact hf r m held' hafter

/-- A question that is the last one. -/
theorem orderly_change {q : Query} {f : q.Reply → VM β} (hq : ext.May schedule (.asking held) q)
    (hf : ∀ r, Mute (f r)) : Orderly schedule ext (ask q >>= f) m (.asking held) :=
  .bind (.ask hq fun r => orderly_of_mute (hf r))

theorem orderly_refuse {c : Bool} {f : Unit → VM β}
    (hf : c = false → Orderly schedule ext (f ()) m k) :
    Orderly schedule ext (refuse c >>= f) m k := by
  cases c with
  | false => exact hf rfl
  | true => exact .bind (.throw _)

theorem orderly_ite {c : Prop} [Decidable c] {y : VM α} (hx : Orderly schedule ext x m k)
    (hy : Orderly schedule ext y m k) : Orderly schedule ext (if c then x else y) m k := by
  split
  · exact hx
  · exact hy

theorem orderly_caseComputed {guard : Bool} {word : VM U256} (hword : Mute word) :
    Orderly schedule ext (caseComputed guard word) m k :=
  orderly_of_mute <| (mute_require _).bind fun _ => mute_updateIOGas.bind fun _ =>
    hword.bind fun _ => (mute_setSPP _).bind fun _ => mute_next

theorem mute_computed {guard : Bool} {word : VM U256}
    (h : computed schedule ext op = some (guard, word)) : Mute word := by
  have hunary (f : U256 → U256) : Mute (unary f) := (mute_sp 0).bind fun _ => mute_pure _
  have hbinary (f : U256 → U256 → U256) : Mute (binary f) :=
    (mute_sp 0).bind fun _ => (mute_sp 1).bind fun _ => mute_pure _
  have hternary (f : U256 → U256 → U256 → U256) : Mute (ternary f) :=
    (mute_sp 0).bind fun _ => (mute_sp 1).bind fun _ => (mute_sp 2).bind fun _ => mute_pure _
  have hnullary (f : VMState → U256) : Mute (nullary f) := mute_get.bind fun _ => mute_pure _
  cases op
  all_goals cases h
  all_goals first
    | exact hbinary _
    | exact hunary _
    | exact hnullary _
    | exact hternary _
    | exact mute_sp _

theorem orderly_caseAsked (hfresh : held.fresh = true) {a : Asked}
    (h : asked schedule op = some a) :
    Orderly schedule ext (caseAsked a) m (.asking held) := by
  have hquery : ∀ i, ext.May schedule (.asking held) (a.query i) ∧
      ∀ r, ∃ held', ext.after (.asking held) (a.query i) r = .asking held' := by
    cases op
    all_goals cases h
    all_goals first
      | exact fun i => ⟨trivial, fun r => ⟨_, rfl⟩⟩
      | exact fun i => ⟨hfresh, fun r => ⟨_, rfl⟩⟩
  refine orderly_after (mute_require _) fun _ _ => orderly_after (mute_setRunGas _) fun _ _ =>
    orderly_after mute_updateIOGas fun _ _ => orderly_after (mute_sp 0) fun i _ => ?_
  exact orderly_ask (hquery i).1 (fun _ _ _ _ =>
    orderly_of_mute ((mute_setSPP _).bind fun _ => mute_next)) (hquery i).2

theorem orderly_caseLog (n : ℕ) :
    Orderly schedule ext (caseLog schedule ext n) m (.asking held) := by
  refine orderly_refuse fun hstatic => ?_
  have hmem : Mute (logGasMem schedule n) :=
    (mute_sp _).bind fun _ => (mute_setRunGas _).bind fun _ => (mute_sp _).bind fun _ =>
      (mute_sp _).bind fun _ => (mute_memNeed _ _).bind fun _ => mute_updateMem _
  refine orderly_after hmem fun _ _ => orderly_after mute_updateIOGas fun _ _ =>
    orderly_after (mute_operandsFrom ..) fun _ _ => orderly_after (mute_sp _) fun _ _ =>
    orderly_after (mute_sp _) fun _ _ => orderly_after (mute_readMem ..) fun _ _ => ?_
  exact orderly_change hstatic fun _ => mute_next

theorem mute_caseCopy (data : Buffer) : Mute (caseCopy schedule data) :=
  (mute_sp _).bind fun _ => (mute_setCopyMemSize _).bind fun _ => (mute_sp _).bind fun _ =>
    (mute_sp _).bind fun _ => (mute_memNeed _ _).bind fun _ => (mute_updateMem _).bind fun _ =>
    mute_updateIOGas.bind fun _ => (mute_copyDataToMemory ..).bind fun _ => mute_next

theorem mute_caseReturndatacopy : Mute (caseReturndatacopy schedule) :=
  (mute_require _).bind fun _ => (mute_sp _).bind fun _ => (mute_sp _).bind fun _ =>
    mute_get.bind fun _ => mute_ite ((mute_throw _).bind fun _ => mute_caseCopy _)
      (mute_caseCopy _)

theorem orderly_caseExtcodecopy :
    Orderly schedule ext (caseExtcodecopy schedule) m (.asking held) := by
  refine orderly_after (mute_setRunGas _) fun _ _ => orderly_after (mute_sp _) fun _ _ =>
    orderly_after (mute_setCopyMemSize _) fun _ _ => orderly_after (mute_sp _) fun _ _ =>
    orderly_after (mute_sp _) fun _ _ => orderly_after (mute_memNeed _ _) fun _ _ =>
    orderly_after (mute_updateMem _) fun _ _ => orderly_after mute_updateIOGas fun _ _ =>
    orderly_after (mute_sp _) fun _ _ => ?_
  exact orderly_ask trivial (fun _ _ _ _ => orderly_of_mute
    ((mute_copyDataToMemory ..).bind fun _ => mute_next)) fun _ => ⟨_, rfl⟩

/-! ### Storage and the account -/

/-- Nothing is changed but the refund counter; what is returned and what is held is as `P` says. -/
def Looks (schedule : EVMSchedule) (ext : ExtVM) (P : α → Held → Prop) (x : VM α) (m : VMState)
    (held : Held) : Prop :=
  Follows (turn schedule ext) (fun a _ k => ∃ held', k = .asking held' ∧ P a held') x m
    (Phase.asking held)

/-- What is done after a look. -/
theorem Looks.then_ {P : α → Held → Prop} (hx : Looks schedule ext P x m held)
    (hf : ∀ a m' held', P a held' → Orderly schedule ext (f a) m' (.asking held')) :
    Orderly schedule ext (x >>= f) m (.asking held) := by
  refine .bind (hx.mono fun a m' k' h => ?_)
  obtain ⟨held', rfl, hP⟩ := h
  exact hf a m' held' hP

theorem Looks.bind {P : α → Held → Prop} {P' : β → Held → Prop}
    (hx : Looks schedule ext P x m held)
    (hf : ∀ a m' held', P a held' → Looks schedule ext P' (f a) m' held') :
    Looks schedule ext P' (x >>= f) m held := by
  refine Follows.bind (hx.mono fun a m' k' h => ?_)
  obtain ⟨held', rfl, hP⟩ := h
  exact hf a m' held' hP

theorem looks_of_mute {P : α → Held → Prop} (hx : Mute x) (hP : ∀ a, P a held) :
    Looks schedule ext P x m held := .of_mute hx fun a _ => ⟨held, rfl, hP a⟩

theorem looks_after {P : β → Held → Prop} (hx : Mute x)
    (hf : ∀ a m', Looks schedule ext P (f a) m' held) : Looks schedule ext P (x >>= f) m held :=
  .after_mute hx hf

theorem looks_pure {P : α → Held → Prop} {a : α} (hP : P a held) :
    Looks schedule ext P (pure a) m held := .pure ⟨held, rfl, hP⟩

theorem looks_ite {P : α → Held → Prop} {c : Prop} [Decidable c] {y : VM α}
    (hx : c → Looks schedule ext P x m held) (hy : ¬c → Looks schedule ext P y m held) :
    Looks schedule ext P (if c then x else y) m held := by
  split
  case isTrue hc => exact hx hc
  case isFalse hc => exact hy hc

theorem looks_ask {P : β → Held → Prop} {q : Query} {f : q.Reply → VM β}
    {n : q.Reply → Held} (hq : ext.May schedule (.asking held) q)
    (hn : ∀ r, ext.after (.asking held) q r = .asking (n r))
    (hf : ∀ r m', Looks schedule ext P (f r) m' (n r)) :
    Looks schedule ext P (ask q >>= f) m held := by
  refine Follows.bind (Follows.ask hq fun r => ?_)
  have hphase : (turn schedule ext).after (Phase.asking held) q r = Phase.asking (n r) := hn r
  rw [hphase]
  exact hf r m

/-- Only the refund counter is changed. -/
abbrev Refunds (schedule : EVMSchedule) (ext : ExtVM) (x : VM Unit) (m : VMState)
    (held : Held) : Prop :=
  Looks schedule ext (fun _ _ => True) x m held

theorem refunds_refund (hstatic : ext.staticCall = false) {amount : ℤ}
    (hamount : 0 ≤ amount ∨ schedule.eip1283Mode = true) :
    Refunds schedule ext (refund amount) m held := by
  refine ⟨⟨hstatic, hamount⟩, fun r => ?_⟩
  exact fun _ _ => ⟨⟨false, held.own⟩, rfl, trivial⟩

theorem refunds_of_mute {x : VM Unit} (hx : Mute x) : Refunds schedule ext x m held :=
  looks_of_mute hx fun _ => trivial

theorem refunds_refundChanged (hstatic : ext.staticCall = false)
    (hmode : schedule.eip1283Mode = true) (o c n : U256) :
    Refunds schedule ext (refundChanged schedule o c n) m held := by
  have hrefund (amount : ℤ) (m : VMState) (held : Held) :
      Refunds schedule ext (refund amount) m held := refunds_refund hstatic (.inr hmode)
  have hrestored (m : VMState) (held : Held) : Refunds schedule ext (do
      if o = n then
        if o = 0 then refund (schedule.sstoreRefundGas + schedule.sstoreRefundNonzeroGas)
        else refund schedule.sstoreRefundNonzeroGas) m held :=
    looks_ite (fun _ => looks_ite (fun _ => hrefund ..) fun _ => hrefund ..) fun _ =>
      refunds_of_mute (mute_pure _)
  have hcleared (m : VMState) (held : Held) : Refunds schedule ext (do
      if n = 0 then refund schedule.sstoreRefundGas
      if o = n then
        if o = 0 then refund (schedule.sstoreRefundGas + schedule.sstoreRefundNonzeroGas)
        else refund schedule.sstoreRefundNonzeroGas) m held :=
    looks_ite (fun _ => (hrefund ..).bind fun _ _ _ _ => hrestored ..) fun _ => hrestored ..
  exact looks_ite (fun _ => looks_ite (fun _ => (hrefund ..).bind fun _ _ _ _ => hcleared ..)
    fun _ => hcleared ..) fun _ => hrestored ..

theorem refunds_updateSSGasPreEIP1283 (hstatic : ext.staticCall = false) (c n : U256) :
    Refunds schedule ext (updateSSGasPreEIP1283 schedule c n) m held := by
  refine looks_ite (fun _ => refunds_of_mute (mute_setRunGas _)) fun _ => looks_ite (fun _ => ?_)
    fun _ => refunds_of_mute (mute_setRunGas _)
  exact looks_after (mute_setRunGas _) fun _ _ =>
    refunds_refund hstatic (.inl (Int.natCast_nonneg _))

theorem refunds_updateSSGasEIP1283 (hstatic : ext.staticCall = false)
    (hmode : schedule.eip1283Mode = true) (key c n : U256) :
    Refunds schedule ext (updateSSGasEIP1283 schedule key c n) m held := by
  refine looks_ite (fun _ => refunds_of_mute (mute_modify _)) fun _ =>
    looks_ask trivial (fun _ => rfl) fun o _ => looks_ite (fun _ => ?_) fun _ => ?_
  · refine looks_ite (fun _ => refunds_of_mute (mute_modify _)) fun _ =>
      looks_after (mute_modify _) fun _ _ => looks_ite
        (fun _ => refunds_refund hstatic (.inr hmode))
        fun _ => refunds_of_mute (mute_pure _)
  · exact looks_after (mute_modify _) fun _ _ => refunds_refundChanged hstatic hmode ..

theorem orderly_caseSstore (hfresh : held.fresh = true) :
    Orderly schedule ext (caseSstore schedule ext) m (.asking held) := by
  refine orderly_refuse fun hstatic => ?_
  have hgas : Refunds schedule ext (updateSSGas schedule) m held := by
    refine looks_after (mute_sp _) fun _ _ => looks_ask hfresh (fun _ => rfl) fun _ _ =>
      looks_after (mute_sp _) fun _ _ => looks_ite (fun hmode => ?_) fun _ => ?_
    · exact looks_after (mute_sp _) fun _ _ => refunds_updateSSGasEIP1283 hstatic hmode ..
    · exact refunds_updateSSGasPreEIP1283 hstatic ..
  refine hgas.then_ fun _ _ _ _ => orderly_after mute_updateIOGas fun _ _ =>
    orderly_after (mute_sp _) fun _ _ => orderly_after (mute_sp _) fun _ _ => ?_
  exact orderly_change hstatic fun _ => mute_next

theorem orderly_caseSuicide : Orderly schedule ext (caseSuicide schedule ext) m (.asking held) := by
  refine orderly_refuse fun hstatic => ?_
  refine orderly_after (mute_setRunGas _) fun _ _ => orderly_after (mute_sp _) fun dest m => ?_
  have hgas : Refunds schedule ext (updateSuicideGas schedule ext (asAddress dest)) m held := by
    refine looks_ask trivial (fun _ => rfl) fun _ _ => looks_ite (fun _ => looks_ite (fun _ => ?_)
      fun _ => refunds_of_mute (mute_pure _)) fun _ => refunds_of_mute (mute_pure _)
    exact looks_ask trivial (fun _ => rfl) fun _ _ => looks_ite
      (fun _ => refunds_of_mute (mute_modify _)) fun _ => refunds_of_mute (mute_pure _)
  exact hgas.then_ fun _ _ _ _ => orderly_after mute_updateIOGas fun _ _ =>
    orderly_change hstatic fun _ => mute_stop

/-! ### Creations and calls -/

/-- A creation is asked for with what is held. -/
theorem orderly_caseCreate (hstatic : ext.staticCall = false)
    (hop : op = .create ∨ op = .create2) :
    Orderly schedule ext (caseCreate schedule ext op) m (.asking held) := by
  have hsalt (initSize : U256) : Mute (createSalt schedule op initSize) :=
    mute_ite ((mute_sp _).bind fun _ => (mute_addRunGas _).bind fun _ => mute_pure _) (mute_pure _)
  refine orderly_after (mute_setRunGas _) fun _ _ => orderly_after (mute_sp _) fun endowment _ =>
    orderly_after (mute_sp _) fun _ _ => orderly_after (mute_sp _) fun initSize _ =>
    orderly_after (hsalt initSize) fun _ _ => orderly_after (mute_memNeed _ _) fun _ _ =>
    orderly_after (mute_updateMem _) fun _ _ => orderly_after mute_updateIOGas fun _ _ =>
    orderly_after (mute_modify _) fun _ _ => ?_
  refine .bind (.ask trivial fun v => ?_)
  have hphase : (turn schedule ext).after (Phase.asking held) (.balance ext.myAddress) v =
      Phase.asking ⟨false, some v⟩ := congrArg (fun own => Phase.asking ⟨false, own⟩) (if_pos rfl)
  rw [hphase]
  split
  case isTrue hadmitted =>
    refine orderly_after mute_get fun _ _ => orderly_after (mute_readMem ..) fun _ _ => ?_
    refine orderly_change ⟨hstatic, hadmitted.2, hop, v, rfl, hadmitted.1⟩ fun _ => ?_
    exact (mute_setSPP _).bind fun _ => (mute_modify _).bind fun _ => mute_next
  case isFalse => exact orderly_of_mute ((mute_setSPP _).bind fun _ => mute_next)

/-- The parameters of a call fit what is held. -/
theorem looks_callParameters {value gas : U256}
    (hvalue : op ≠ .call ∧ op ≠ .callcode → value = 0)
    (hmoves : ext.staticCall = true → value = 0 ∨ op = .callcode) :
    Looks schedule ext (fun params held => ∀ p, params = some p → p.Fits ext held)
      (callParameters ext op value gas) m held := by
  refine looks_after (mute_sp _) fun _ _ => looks_ask trivial
    (n := fun v => ⟨false, some v⟩)
    (fun v => congrArg (fun own => Phase.asking ⟨false, own⟩) (if_pos rfl)) fun v _ =>
      looks_ite (fun hadmitted => ?_) fun _ => looks_pure fun p hp => by cases hp
  refine looks_after (mute_sp _) fun _ _ => looks_after (mute_sp _) fun _ _ =>
    looks_after (mute_readMem ..) fun _ _ => looks_pure fun p hp => ?_
  cases hp
  refine ⟨hadmitted.2, ?_, fun hstatic => ?_, fun hstatic => ?_⟩
  · by_cases hdelegate : op = .delegatecall
    · subst hdelegate
      exact .inl (hvalue ⟨by decide, by decide⟩)
    · exact .inr ⟨if_neg hdelegate, v, rfl, hadmitted.1⟩
  · simp [hstatic]
  · by_cases hcode : op = .callcode
    · subst hcode
      exact .inr rfl
    · refine .inl ?_
      by_cases hcall : op = .call
      · subst hcall
        exact (hmoves (by simpa using hstatic)).resolve_right (by decide)
      · exact hvalue ⟨hcall, hcode⟩

theorem orderly_finishCall {gas : U256} {params : Option CallParameters}
    (hfits : ∀ p, params = some p → p.Fits ext held) :
    Orderly schedule ext (finishCall op gas params) m (.asking held) := by
  cases params with
  | none =>
    exact orderly_of_mute ((mute_setSPP _).bind fun _ => (mute_modify _).bind fun _ => mute_next)
  | some p =>
    have hmay : ext.May schedule (.asking held) (.call p) := hfits p rfl
    refine orderly_change hmay fun _ => (mute_sp _).bind fun _ => (mute_sp _).bind fun _ => ?_
    exact (mute_writeMem ..).bind fun _ => (mute_modify _).bind fun _ =>
      (mute_setSPP _).bind fun _ => (mute_modify _).bind fun _ => mute_next

/-- Setting the price leaves the operands where they are. -/
theorem looks_setRunGas {P : β → Held → Prop} {gas : ℕ} {f : Unit → VM β}
    (hf : ∀ g, Looks schedule ext P (f ()) {m with m_runGas := g} held) :
    Looks schedule ext P (setRunGas gas >>= f) m held := by
  unfold setRunGas toInt63
  split
  case isTrue => exact Follows.bind (Follows.bind (Follows.throw _))
  case isFalse => exact Follows.bind (Follows.bind (Follows.pure (Follows.modify (hf _))))

theorem looks_sp {P : β → Held → Prop} {i : ℕ} {f : U256 → VM β}
    (hf : Looks schedule ext P (f (m.m_stack (m.m_SP + i))) m held) :
    Looks schedule ext P (sp i >>= f) m held := by
  refine Follows.bind (Follows.bind (Follows.pure ?_))
  split
  case isTrue => exact Follows.pure hf
  case isFalse => exact Follows.throw _

theorem looks_caseCallSetup
    (hstatic : ext.staticCall = true → op = .call → m.m_stack (m.m_SP + 2) = 0) :
    Looks schedule ext (fun r held => ∀ p, r.2 = some p → p.Fits ext held)
      (caseCallSetup schedule ext op) m held := by
  have hrest (value : U256) (m : VMState) (hvalue : op ≠ .call ∧ op ≠ .callcode → value = 0)
      (hmoves : ext.staticCall = true → value = 0 ∨ op = .callcode) :
      Looks schedule ext (fun r held => ∀ p, r.2 = some p → p.Fits ext held) (do
        updateCallGas schedule op value
        updateCallMem schedule op
        let callGas ← callGas schedule
        let gas := if 0 < value then callGas + BitVec.ofNat 256 schedule.callStipend else callGas
        return (gas, ← callParameters ext op value gas)) m held := by
    have hcharge (held : Held) (m : VMState) : Refunds schedule ext (do
        if 0 < value then addRunGas schedule.callValueTransferGas) m held :=
      refunds_of_mute (mute_ite (mute_addRunGas _) (mute_pure _))
    have hgas : Refunds schedule ext (updateCallGas schedule op value) m held := by
      refine looks_ite (fun _ => looks_after (mute_sp _) fun _ _ => looks_ask trivial
        (fun _ => rfl) fun _ _ => looks_ite (fun _ => looks_ite (fun _ => ?_)
          fun _ => hcharge ..) fun _ => hcharge ..) fun _ => hcharge ..
      exact looks_after (mute_addRunGas _) fun _ _ => hcharge ..
    have hmem : Mute (updateCallMem schedule op) :=
      (mute_sp _).bind fun _ => (mute_sp _).bind fun _ => (mute_memNeed _ _).bind fun _ =>
        (mute_sp _).bind fun _ => (mute_sp _).bind fun _ => (mute_memNeed _ _).bind fun _ =>
        (mute_updateMem _).bind fun _ => mute_updateIOGas
    have hcall : Mute (callGas schedule) :=
      mute_get.bind fun _ => (mute_sp _).bind fun _ => (mute_setRunGas _).bind fun _ =>
        mute_updateIOGas.bind fun _ => mute_pure _
    refine hgas.bind fun _ _ _ _ => looks_after hmem fun _ _ => looks_after hcall fun _ _ =>
      (looks_callParameters hvalue hmoves).bind fun params _ _ hparams => looks_pure hparams
  refine looks_setRunGas fun g => ?_
  split
  case isTrue hhave =>
    refine looks_sp (hrest _ _ (fun hne => ?_) fun hs => ?_)
    · simp [haveValueArg, hne.1, hne.2] at hhave
    · by_cases hcall : op = .call
      · exact .inl (hstatic hs hcall)
      · simp only [haveValueArg, hcall, false_or, decide_eq_true_eq] at hhave
        exact .inr hhave
  case isFalse => exact hrest 0 _ (fun _ => rfl) fun _ => .inl rfl

theorem orderly_caseCall
    (hstatic : ext.staticCall = true → op = .call → m.m_stack (m.m_SP + 2) = 0) :
    Orderly schedule ext (caseCall schedule ext op) m (.asking held) := by
  refine .bind (.modify ?_)
  refine Looks.then_ (looks_caseCallSetup hstatic) fun r _ _ hfits => ?_
  obtain ⟨gas, params⟩ := r
  exact orderly_finishCall hfits

/-! ### A turn -/

theorem mute_casePushc : Mute (casePushc evmOptimize code) := by
  refine (mute_require _).bind fun _ => mute_updateIOGas.bind fun _ => mute_get.bind fun _ =>
    (mute_codeBytes ..).bind fun bytes => ?_
  split
  · split
    · exact (mute_setSPP _).bind fun _ => mute_continueAt _
    · exact mute_throw _
  · exact mute_throw _

/-- The cases that work on the machine alone. -/
theorem mute_special [Sha3] (hop : op = .mload ∨ op = .mstore ∨ op = .mstore8 ∨ op = .sha3 ∨
      op = .exp ∨ op = .jump ∨ op = .jumpi ∨ op = .jumpc ∨ op = .jumpci) :
    Mute (special evmOptimize schedule ext code op) := by
  rcases hop with rfl | rfl | rfl | rfl | rfl | rfl | rfl | rfl | rfl
  · exact (mute_sp _).bind fun _ => (mute_toInt63 _).bind fun _ => (mute_updateMem _).bind fun _ =>
      mute_updateIOGas.bind fun _ => (mute_sp _).bind fun _ => (mute_readMem ..).bind fun _ =>
      (mute_setSPP _).bind fun _ => mute_next
  · exact (mute_sp _).bind fun _ => (mute_toInt63 _).bind fun _ => (mute_updateMem _).bind fun _ =>
      mute_updateIOGas.bind fun _ => (mute_sp _).bind fun _ => (mute_sp _).bind fun _ =>
      (mute_writeMem ..).bind fun _ => mute_next
  · exact (mute_sp _).bind fun _ => (mute_toInt63 _).bind fun _ => (mute_updateMem _).bind fun _ =>
      mute_updateIOGas.bind fun _ => (mute_sp _).bind fun _ => (mute_sp _).bind fun _ =>
      (mute_writeMem ..).bind fun _ => mute_next
  · exact (mute_sp _).bind fun _ => (mute_setRunGas _).bind fun _ => (mute_sp _).bind fun _ =>
      (mute_sp _).bind fun _ => (mute_memNeed _ _).bind fun _ => (mute_updateMem _).bind fun _ =>
      mute_updateIOGas.bind fun _ => (mute_sp _).bind fun _ => (mute_sp _).bind fun _ =>
      (mute_readMem ..).bind fun _ => (mute_setSPP _).bind fun _ => mute_next
  · exact (mute_sp _).bind fun _ => (mute_setRunGas _).bind fun _ => (mute_require _).bind fun _ =>
      mute_updateIOGas.bind fun _ => ((mute_sp _).bind fun _ => (mute_sp _).bind fun _ =>
      mute_pure _).bind fun _ => (mute_setSPP _).bind fun _ => mute_next
  · exact mute_updateIOGas.bind fun _ => (mute_sp _).bind fun _ => mute_jumpTo _
  · exact mute_updateIOGas.bind fun _ => (mute_sp _).bind fun _ =>
      mute_ite ((mute_sp _).bind fun _ => mute_jumpTo _) mute_next
  · exact (mute_require _).bind fun _ => mute_updateIOGas.bind fun _ => (mute_sp _).bind fun _ =>
      mute_continueAt _
  · exact (mute_require _).bind fun _ => mute_updateIOGas.bind fun _ => (mute_sp _).bind fun _ =>
      mute_ite ((mute_sp _).bind fun _ => mute_continueAt _) mute_next

theorem orderly_special [Sha3] (hfresh : held.fresh = true) :
    Orderly schedule ext (special evmOptimize schedule ext code op) m (.asking held) := by
  have hother {op : Instruction} (hop : op ≠ .call) :
      Orderly schedule ext (caseCall schedule ext op) m (.asking held) :=
    orderly_caseCall fun _ h => absurd h hop
  cases op
  case create2 =>
    exact orderly_after (mute_require _) fun _ _ => orderly_refuse fun hstatic =>
      orderly_caseCreate hstatic (.inr rfl)
  case create => exact orderly_refuse fun hstatic => orderly_caseCreate hstatic (.inl rfl)
  case delegatecall =>
    exact orderly_after (mute_require _) fun _ _ => orderly_caseCall fun _ h => by cases h
  case staticcall =>
    exact orderly_after (mute_require _) fun _ _ => orderly_caseCall fun _ h => by cases h
  case callcode => exact hother (by decide)
  case call =>
    refine .bind (.bind (.pure ?_))
    split
    case isTrue =>
      refine .pure (orderly_refuse fun hrefused => orderly_caseCall fun hstatic _ => ?_)
      simpa [hstatic] using hrefused
    case isFalse => exact .throw _
  case suicide => exact orderly_caseSuicide
  case log n => exact orderly_caseLog n
  case extcodecopy => exact orderly_caseExtcodecopy
  case sstore => exact orderly_caseSstore hfresh
  case return_ =>
    exact orderly_of_mute (mute_output.bind fun _ => (mute_modify _).bind fun _ => mute_stop)
  case revert =>
    exact orderly_of_mute ((mute_require _).bind fun _ => mute_output.bind fun _ => mute_throw _)
  case stop => exact orderly_of_mute (mute_updateIOGas.bind fun _ => mute_stop)
  case calldatacopy => exact orderly_of_mute (mute_caseCopy _)
  case codecopy => exact orderly_of_mute (mute_caseCopy _)
  case returndatacopy => exact orderly_of_mute mute_caseReturndatacopy
  case pop => exact orderly_of_mute (mute_updateIOGas.bind fun _ => mute_next)
  case jumpdest =>
    exact orderly_of_mute ((mute_modify _).bind fun _ => mute_updateIOGas.bind fun _ => mute_next)
  case push n =>
    exact orderly_of_mute (mute_updateIOGas.bind fun _ => mute_get.bind fun _ =>
      (mute_codeBytes ..).bind fun _ => (mute_setSPP _).bind fun _ => mute_continueAt _)
  case pushc => exact orderly_of_mute mute_casePushc
  case swap n =>
    exact orderly_of_mute (mute_updateIOGas.bind fun _ => (mute_sp _).bind fun _ =>
      (mute_sp _).bind fun _ => (mute_setSP ..).bind fun _ => (mute_setSP ..).bind fun _ =>
      mute_next)
  all_goals first
    | exact orderly_of_mute (mute_special (by decide))
    | exact orderly_of_mute (mute_throw _)

theorem orderly_interpretCase [Sha3] (hfresh : held.fresh = true) (op : Instruction) :
    Orderly schedule ext (interpretCase evmOptimize schedule ext code op) m (.asking held) := by
  unfold interpretCase
  split
  case h_1 guard word hcomputed => exact orderly_caseComputed (mute_computed hcomputed)
  case h_2 =>
    split
    case h_1 a hasked => exact orderly_caseAsked hfresh hasked
    case h_2 => exact orderly_special hfresh

/-- **A turn asks in order.** Whatever the code, the stack and the answers, it changes the world at
most once and last, with no more than it holds, and not at all where the frame is static. -/
theorem orderly_interpret [Sha3] (evmOptimize : Bool) (schedule : EVMSchedule) (ext : ExtVM)
    (code : Code) (m : VMState) :
    Orderly schedule ext (interpret evmOptimize schedule ext code) m (.asking ⟨true, none⟩) :=
  orderly_after mute_fetchInstruction fun _ _ => orderly_after mute_get fun m _ =>
    orderly_interpretCase rfl m.m_OP

end Cases
end Aleth.Evm
