import Aleth.Ethereum.Executive

/-! What executives do to the state, step by step.

A frame is the state with what is noted besides it. `Course` is a relation along
which the steps of frames lead, those of static frames or those of all; what the
steps do is proved here once for every course. Storage slots in `D` do not
count: in frames that may create, these are all, as clearing the storage of a
new account has no undo for what was written over it. -/
namespace Aleth.Ethereum
open Devcore Throwing Evm

section Views
variable {K : U256 → Prop} {o o' : Option AccountView}

theorem balanceOf_similar (h : Similar K o o') : balanceOf o' = balanceOf o := by
  rcases h with ⟨rfl, rfl⟩ | ⟨v, st, rfl, rfl, _⟩
  · rfl
  · rfl

theorem nonceOf_similar (startNonce : U256) (h : Similar K o o') :
    nonceOf startNonce o' = nonceOf startNonce o := by
  rcases h with ⟨rfl, rfl⟩ | ⟨v, st, rfl, rfl, _⟩
  · rfl
  · rfl

end Views

theorem SubState.add_empty (u : SubState) : u.add {} = u := by
  simp [SubState.add]

variable [Sha3]

theorem originalOf_similar {K : U256 → Prop} {o o' : Option AccountView} (db : StateDB) (k : U256)
    (h : Similar K o o') : originalOf db o' k = originalOf db o k := by
  rcases h with ⟨rfl, rfl⟩ | ⟨v, st, rfl, rfl, _⟩
  · rfl
  · rfl

theorem codeHashOf_similar {K : U256 → Prop} {o o' : Option AccountView} (h : Similar K o o') :
    codeHashOf o' = codeHashOf o := by
  rcases h with ⟨rfl, rfl⟩ | ⟨v, st, rfl, rfl, _⟩
  · rfl
  · rfl

namespace State
variable {D : Address → U256 → Prop} {s t u : State} {a : Address}

/-- The state has moved on, and the accounts that were there are still there. -/
structure Forth (D : Address → U256 → Prop) (s t : State) : Prop where
  moves : Moves D s t
  kept : ∀ a, s.view a ≠ none → t.view a ≠ none

/-- Accounts can be read and made. -/
structure Ready (D : Address → U256 → Prop) (s : State) : Prop where
  wellFormed : s.WellFormed D
  startNonce : s.m_accountStartNonce ≠ Invalid256

theorem Ready.known (hs : s.Ready D) (a : Address) : s.Known a := fun _ => hs.startNonce

theorem Moves.ready (h : Moves D s t) (hs : s.Ready D) : t.Ready D :=
  ⟨h.wellFormed, h.startNonce.trans_ne hs.startNonce⟩

theorem Forth.refl (hs : s.WellFormed D) : Forth D s s := ⟨.refl hs, fun _ h => h⟩

theorem Forth.trans (h₁ : Forth D s t) (h₂ : Forth D t u) : Forth D s u :=
  ⟨h₁.moves.trans h₂.moves, fun a h => h₂.kept a (h₁.kept a h)⟩

theorem Forth.ready (h : Forth D s t) (hs : s.Ready D) : t.Ready D := h.moves.ready hs

theorem Quiet.forth (h : Quiet D s t) (ht : t.WellFormed D) : Forth D s t :=
  ⟨h.moves ht, fun a ha hno => ha ((h.views a).eq_none_iff.mp hno)⟩

theorem Shows.balance {w : Address → Option AccountView} (h : Shows D t w) (a : Address) :
    balanceOf (t.view a) = balanceOf (w a) := balanceOf_similar (h a)

/-- An account is put where there may have been none. -/
theorem Shows.forth {f : AccountView → AccountView} {nonce balance : U256}
    (h : Shows D t (Function.update s.view a (orFresh nonce balance f (s.view a))))
    (hm : Moves D s t) : Forth D s t ∧ t.view a ≠ none := by
  refine ⟨⟨hm, fun b hb hno => ?_⟩, fun hno => ?_⟩
  · have hnone := (h b).eq_none_iff.mp hno
    rw [Function.update_apply] at hnone
    split at hnone
    case isTrue => cases hnone
    case isFalse => exact hb hnone
  · have hnone := (h a).eq_none_iff.mp hno
    rw [Function.update_self] at hnone
    cases hnone

/-- What was done since is undone. -/
theorem Forth.rollback (hs : s.WellFormed D) (h : Forth D s t) :
    Forth D s (t.rollback s.savepoint) ∧ Agree D [] s (t.rollback s.savepoint) := by
  obtain ⟨hw, hlog, hagree⟩ := (h.moves.back s (.refl hs)).rollback
  refine ⟨⟨⟨hw, fun s₀ hb => ?_, hagree.db, hagree.startNonce, hagree.dirty⟩, fun a ha hno => ?_⟩,
    hagree⟩
  · exact hb.of_agree hw hlog (hagree.of_nil _)
  · exact ha ((hagree.similar a).eq_none_iff.mp hno)

/-- What the destruction of an account makes of the views: the receiver is given all ether first,
so that the account itself may be the receiver. -/
def destroyed (startNonce : U256) (w : Address → Option AccountView) (dying receiver : Address) :
    Address → Option AccountView :=
  let w' := Function.update w receiver (credited startNonce (balanceOf (w dying)) (w receiver))
  Function.update w' dying (credited startNonce (0 - balanceOf (w' dying)) (w' dying))

/-- Accounts are as they were; where there was none there may be an empty one. -/
def Inert (D : Address → U256 → Prop) (s t : State) : Prop :=
  ∀ a, Similar (D a) (s.view a) (t.view a) ∨
    s.view a = none ∧ Similar (D a) (some (.fresh s.m_accountStartNonce 0)) (t.view a)

theorem Agree.inert (h : Agree D [] s t) : Inert D s t := fun a => .inl (h.similar a)

omit [Sha3] in
theorem debited_zero (o : Option AccountView) : debited 0 o = o := by
  cases o with
  | none => rfl
  | some v => exact congrArg some (AccountView.ext rfl rfl (sub_zero v.balance) rfl rfl rfl rfl)

theorem transferred_zero (startNonce : U256) (w : Address → Option AccountView)
    (sender receiver : Address) : transferred startNonce w sender receiver 0 =
      Function.update w receiver (credited startNonce 0 (w receiver)) := by
  rw [transferred, debited_zero, Function.update_eq_self]

/-- A transfer of nothing, or to oneself. -/
theorem Shows.inert {sender receiver : Address} {value : U256}
    (h : Shows D t (transferred s.m_accountStartNonce s.view sender receiver value))
    (hv : value ≤ balanceOf (s.view sender)) (hsame : value = 0 ∨ receiver = sender) :
    Inert D s t := by
  have hzero (h : Shows D t (transferred s.m_accountStartNonce s.view sender receiver 0)) :
      Inert D s t := by
    intro a
    have ha := h a
    rw [transferred_zero, Function.update_apply] at ha
    split at ha
    case isTrue hreceiver =>
      subst hreceiver
      cases hview : s.view a with
      | none =>
        rw [hview] at ha
        exact .inr ⟨rfl, ha⟩
      | some v =>
        rw [hview] at ha
        have hsum : credited s.m_accountStartNonce 0 (some v) = some v :=
          congrArg some (AccountView.ext rfl rfl (add_zero v.balance) rfl rfl rfl rfl)
        rw [hsum] at ha
        exact .inl ha
    case isFalse => exact .inl ha
  rcases hsame with rfl | rfl
  · exact hzero h
  · cases hview : s.view receiver with
    | none =>
      rw [hview] at hv
      rw [le_antisymm hv (not_lt.mp BitVec.not_lt_zero)] at h
      exact hzero h
    | some v =>
      intro a
      have ha := h a
      rw [transferred, Function.update_self, Function.update_idem, Function.update_apply,
        hview] at ha
      split at ha
      case isTrue hreceiver =>
        have hsum : credited s.m_accountStartNonce value (debited value (some v)) = some v :=
          congrArg some (AccountView.ext rfl rfl (sub_add_cancel v.balance value) rfl rfl rfl rfl)
        rw [hsum] at ha
        rw [hreceiver, hview]
        exact .inl (hreceiver ▸ ha)
      case isFalse => exact .inl ha

theorem Inert.trans (h₁ : Inert D s t) (hn : t.m_accountStartNonce = s.m_accountStartNonce)
    (h₂ : Inert D t u) : Inert D s u := by
  intro a
  rcases h₁ a with hst | ⟨hno, hst⟩
  · rcases h₂ a with htu | ⟨hno, htu⟩
    · exact .inl (hst.trans htu)
    · exact .inr ⟨hst.eq_none_iff.mp hno, hn ▸ htu⟩
  · rcases h₂ a with htu | ⟨hno', _⟩
    · exact .inr ⟨hno, hst.trans htu⟩
    · rw [hno'] at hst
      cases hst.eq_none_iff.mp rfl

end State

/-! ### Steps on the state -/

/-- The state, and what is noted besides it. -/
abbrev Frame := State × SubState

/-- A relation that the steps of frames lead along: of static frames, or of all. -/
structure Course (env : Env) (D : Address → U256 → Prop) (static : Bool)
    (R : Frame → Frame → Prop) : Prop where
  trans {f g h : Frame} : R f g → R g h → R f h
  agree {s t : State} (u : SubState) : State.Agree D [] s t → R (s, u) (t, u)
  transfer {s t : State} {sender receiver : Address} {value : U256} (u : SubState) :
    State.Moves D s t → value ≤ balanceOf (s.view sender) →
    (static = true → value = 0 ∨ receiver = sender) →
    State.Shows D t (State.transferred s.m_accountStartNonce s.view sender receiver value) →
    R (s, u) (t, u)
  write {s t : State} (u : SubState) : static = false →
    (∀ a, balanceOf (t.view a) = balanceOf (s.view a)) → R (s, u) (t, u)
  destroy {s t : State} {dying receiver : Address} (u : SubState) : static = false →
    State.Shows D t (State.destroyed s.m_accountStartNonce s.view dying receiver) →
    R (s, u) (t, {u with suicides := insert dying u.suicides})
  note {s : State} {u v : SubState} : static = false → v.suicides = u.suicides →
    u.refunds ≤ v.refunds ∨ env.m_sealEngine.evmSchedule.eip1283Mode = true → R (s, u) (s, v)
  frame {s t : State} {v : SubState} (u : SubState) : R (s, {}) (t, v) → R (s, u) (t, u.add v)
  /-- Accounts are created where storage does not count. -/
  clears : static = false → ∀ a k, D a k

/-- From one frame to another, along the course. -/
structure Goes (D : Address → U256 → Prop) (R : Frame → Frame → Prop) (f g : Frame) : Prop where
  forth : State.Forth D f.1 g.1
  along : R f g

/-- The same for the state, whatever is noted besides. -/
structure Walks (D : Address → U256 → Prop) (R : Frame → Frame → Prop) (s t : State) : Prop where
  forth : State.Forth D s t
  along : ∀ u, R (s, u) (t, u)

section Steps
variable {D : Address → U256 → Prop} {static : Bool} {R : Frame → Frame → Prop} {s t u : State}
  {f g h : Frame} {α : Type} {env : Env}

theorem Goes.trans (hc : Course env D static R) (h₁ : Goes D R f g) (h₂ : Goes D R g h) :
    Goes D R f h := ⟨h₁.forth.trans h₂.forth, hc.trans h₁.along h₂.along⟩

theorem Walks.trans (hc : Course env D static R) (h₁ : Walks D R s t) (h₂ : Walks D R t u) :
    Walks D R s u := ⟨h₁.forth.trans h₂.forth, fun v => hc.trans (h₁.along v) (h₂.along v)⟩

theorem Walks.goes (h : Walks D R s t) (v : SubState) : Goes D R (s, v) (t, v) :=
  ⟨h.forth, h.along v⟩

theorem Course.quiet (hc : Course env D static R) (h : State.Quiet D s t) (ht : t.WellFormed D) :
    Walks D R s t := ⟨h.forth ht, fun v => hc.agree v (h.agree [])⟩

theorem Course.refl (hc : Course env D static R) (hs : s.WellFormed D) : Walks D R s s :=
  hc.quiet (.refl s) hs

theorem Course.writes (hc : Course env D static R) (hno : static = false) (h : State.Forth D s t)
    (hb : ∀ a, balanceOf (t.view a) = balanceOf (s.view a)) : Walks D R s t :=
  ⟨h, fun v => hc.write v hno hb⟩

/-- What a mutator does, in an execution. -/
theorem State.Acts.outcome {x : StateM Unit} {w : Address → Option AccountView}
    {E : ExecutionError → State → Prop} (h : State.Acts D x s w) :
    Outcome (fun _ t => State.Moves D s t ∧ State.Shows D t w) E (onState x) s := by
  obtain ⟨t, hrun, hmoves, hshows⟩ := h
  exact .mapError (.of_ok hrun ⟨hmoves, hshows⟩)

/-- What an observer answers, in an execution. -/
theorem State.Reads.outcome {x : StateM α} {v : α} {E : ExecutionError → State → Prop}
    (h : State.Reads D x s v) :
    Outcome (fun r t => r = v ∧ State.Quiet D s t ∧ t.WellFormed D) E (onState x) s := by
  obtain ⟨t, hrun, ht, hquiet⟩ := h
  exact .mapError (.of_ok hrun ⟨rfl, hquiet, ht⟩)

theorem run_inFrame {x : Execution α} {r : Except ExecutionError α}
    (hrun : x.run f.1 = (r, t)) : (inFrame x).run f = (r, (t, f.2)) := by
  unfold Throwing.run at hrun ⊢
  unfold inFrame Throwing.run
  rw [hrun]

theorem outcome_inFrame {P : α → Frame → Prop} {E : ExecutionError → Frame → Prop}
    {x : Execution α} (h : Outcome (fun a t => P a (t, f.2)) (fun e t => E e (t, f.2)) x f.1) :
    Outcome P E (inFrame x) f := by
  rcases hrun : x.run f.1 with ⟨e | a, t⟩
  · exact .of_error (run_inFrame hrun) (h.error e t hrun)
  · exact .of_ok (run_inFrame hrun) (h.ok a t hrun)

/-! ### What the methods of the state do -/

section Methods
variable {E : ExecutionError → State → Prop} {a sender receiver : Address} {value : U256}

omit [Sha3] in
theorem balanceOf_update {w : Address → Option AccountView} {o : Option AccountView}
    (h : balanceOf o = balanceOf (w a)) (b : Address) :
    balanceOf (Function.update w a o b) = balanceOf (w b) := by
  rw [Function.update_apply]
  split
  case isTrue hb => rw [hb, h]
  case isFalse => rfl

theorem balanceOf_orFresh {nonce : U256} {f : AccountView → AccountView}
    (hf : ∀ v, (f v).balance = v.balance) (o : Option AccountView) :
    balanceOf (State.orFresh nonce 0 f o) = balanceOf o := by
  cases o with
  | none => rfl
  | some v => exact hf v

/-- The views with a nonce counted. -/
def counted (startNonce : U256) (w : Address → Option AccountView) (a : Address) :
    Address → Option AccountView :=
  Function.update w a
    (State.orFresh (startNonce + 1) 0 (fun v => {v with nonce := v.nonce + 1}) (w a))

theorem balanceOf_counted (startNonce : U256) (w : Address → Option AccountView)
    (a b : Address) : balanceOf (counted startNonce w a b) = balanceOf (w b) := by
  unfold counted
  exact balanceOf_update (balanceOf_orFresh (by simp) _) b

theorem outcome_incNonce (hc : Course env D static R) (hno : static = false) (hs : s.Ready D)
    (a : Address) :
    Outcome (fun _ t => Walks D R s t ∧ State.Shows D t (counted s.m_accountStartNonce s.view a)) E
      (onState (State.incNonce a)) s := by
  refine (State.acts_incNonce hs.wellFormed (hs.known a)).outcome.mono (fun _ t h => ?_)
    fun _ _ h => h
  refine ⟨hc.writes hno (h.2.forth h.1).1 fun b => ?_, h.2⟩
  rw [h.2.balance b]
  exact balanceOf_counted ..

/-- The nonce of the sender is counted, or not. -/
structure Counted (D : Address → U256 → Prop) (R : Frame → Frame → Prop) (c : Prop)
    (sender : Address) (s t : State) : Prop where
  walks : Walks D R s t
  shows_ : c → State.Shows D t (counted s.m_accountStartNonce s.view sender)
  quiet : ¬c → State.Quiet D s t

theorem Counted.balance {c : Prop} {sender : Address} (h : Counted D R c sender s t)
    (a : Address) : balanceOf (t.view a) = balanceOf (s.view a) := by
  by_cases hcount : c
  · rw [(h.shows_ hcount).balance a, balanceOf_counted]
  · exact balanceOf_similar ((h.quiet hcount).views a)

theorem Counted.of_not (hc : Course env D static R) {c : Prop} (hs : s.WellFormed D) (hno : ¬c)
    (sender : Address) : Counted D R c sender s s :=
  ⟨hc.refl hs, fun h => absurd h hno, fun _ => .refl s⟩

theorem outcome_counted (hc : Course env D static R) {c : Prop} (hno : static = false)
    (hs : s.Ready D) (h : c) (sender : Address) :
    Outcome (fun _ t => Counted D R c sender s t) E (onState (State.incNonce sender)) s :=
  (outcome_incNonce hc hno hs sender).mono
    (fun _ _ ht => ⟨ht.1, fun _ => ht.2, fun hnot => absurd h hnot⟩) fun _ _ h => h

theorem Counted.of_quiet (hc : Course env D static R) {c : Prop} {sender : Address}
    (hq : State.Quiet D s t) (ht : t.WellFormed D) (h : Counted D R c sender t u) :
    Counted D R c sender s u := by
  refine ⟨(hc.quiet hq ht).trans hc h.walks, fun hcount => ?_, fun hno => hq.trans (h.quiet hno)⟩
  have hshows := h.shows_ hcount
  rw [hq.startNonce] at hshows
  exact hq.shows.update (State.respects_orFresh fun _ _ => rfl) hshows

theorem outcome_transferBalance (hc : Course env D static R) (hs : s.Ready D)
    (hv : value ≤ balanceOf (s.view sender))
    (hstatic : static = true → value = 0 ∨ receiver = sender) :
    Outcome (fun _ t => Walks D R s t ∧ t.view receiver ≠ none) E
      (onState (State.transferBalance sender receiver value)) s := by
  refine (State.acts_transferBalance hs.wellFormed hv (hs.known receiver)).outcome.mono
    (fun _ t h => ?_) fun _ _ h => h
  have hkept (a : Address) (ha : s.view a ≠ none) :
      Function.update s.view sender (State.debited value (s.view sender)) a ≠ none := by
    rw [Function.update_apply]
    split
    case isTrue hsender =>
      rw [State.debited, ne_eq, Option.map_eq_none_iff, ← hsender]
      exact ha
    case isFalse => exact ha
  have hreceiver : t.view receiver ≠ none := by
    intro hnone
    have hno := (h.2 receiver).eq_none_iff.mp hnone
    rw [State.transferred, Function.update_self] at hno
    cases hno
  refine ⟨⟨⟨h.1, fun a ha hnone => ?_⟩, fun u => hc.transfer u h.1 hv hstatic h.2⟩, hreceiver⟩
  have hno := (h.2 a).eq_none_iff.mp hnone
  rw [State.transferred, Function.update_apply] at hno
  split at hno
  case isTrue => cases hno
  case isFalse => exact hkept a ha hno

theorem outcome_addNothing (hc : Course env D static R) (hs : s.Ready D) (a : Address) :
    Outcome (fun _ t => Walks D R s t ∧ State.Inert D s t) E
      (onState (State.addBalance a 0)) s := by
  refine (State.acts_addBalance hs.wellFormed (hs.known a) 0).outcome.mono (fun _ t h => ?_)
    fun _ _ h => h
  have hforth := (h.2.forth h.1).1
  have hle : (0 : U256) ≤ balanceOf (s.view a) := not_lt.mp BitVec.not_lt_zero
  rw [← State.transferred_zero _ _ a] at h
  exact ⟨⟨hforth, fun u => hc.transfer u h.1 hle (fun _ => .inl rfl) h.2⟩,
    h.2.inert hle (.inl rfl)⟩

theorem outcome_setStorage (hc : Course env D static R) (hno : static = false) (hs : s.Ready D)
    (ha : s.view a ≠ none) (k v : U256) :
    Outcome (fun _ t => Walks D R s t) E (onState (State.setStorage a k v)) s := by
  refine (State.acts_setStorage hs.wellFormed ha k v).outcome.mono (fun _ t h => ?_) fun _ _ h => h
  obtain ⟨w, hw⟩ := Option.ne_none_iff_exists'.mp ha
  have hsame : Function.update s.view a (State.stored k v (s.view a)) a ≠ none := by
    rw [Function.update_self, hw]
    exact Option.some_ne_none _
  refine hc.writes hno ⟨h.1, fun b hb hnone => ?_⟩ fun b => ?_
  · have hview := (h.2 b).eq_none_iff.mp hnone
    by_cases hba : b = a
    · exact hsame (hba ▸ hview)
    · rw [Function.update_of_ne hba] at hview
      exact hb hview
  · rw [h.2.balance b]
    refine balanceOf_update ?_ b
    rw [hw]
    rfl

/-- The code of an account that was made. -/
theorem outcome_setCode (hc : Course env D static R) (hno : static = false) (hs : s.Ready D)
    (ha : s.Dirty a) (code : Bytes) :
    Outcome (fun _ t => Walks D R s t) E (onState (State.setCode a code)) s := by
  refine (State.acts_setCode hs.wellFormed ha code).outcome.mono (fun _ t h => ?_) fun _ _ h => h
  obtain ⟨w, hw⟩ := ha.view
  refine hc.writes hno ⟨h.1, fun b hb hnone => ?_⟩ fun b => ?_
  · have hview := (h.2 b).eq_none_iff.mp hnone
    rw [Function.update_apply, hw] at hview
    split at hview
    case isTrue => cases hview
    case isFalse => exact hb hview
  · rw [h.2.balance b]
    refine balanceOf_update ?_ b
    rw [hw]
    rfl

/-- An account that is given a nonce counts as changed. -/
theorem dirty_setNonce {n : U256} (ha : s.view a ≠ none)
    (hrun : (State.setNonce a n).run s = (.ok (), t)) : t.Dirty a := by
  obtain ⟨v, hv⟩ := Option.ne_none_iff_exists'.mp ha
  obtain ⟨account, hpeek, _⟩ := Option.map_eq_some_iff.mp hv
  rw [State.setNonce, run_bind_ok (State.run_account s a), hpeek] at hrun
  have ht : ((s.load a).modifyAccount a (·.setNonce n)).log (.nonce a account.m_nonce) = t :=
    congrArg Prod.snd hrun
  refine ⟨((s.load a).entry a).setNonce n, ?_, rfl⟩
  rw [← ht]
  exact (State.find_modifyAccount (b := a) (·.setNonce n)).trans (if_pos rfl)

theorem outcome_setNonce (hc : Course env D static R) (hno : static = false) (hs : s.Ready D)
    (ha : s.view a ≠ none) (n : U256) :
    Outcome (fun _ t => Walks D R s t ∧ t.Dirty a) E (onState (State.setNonce a n)) s := by
  obtain ⟨t, hrun, hm, ht⟩ := State.acts_setNonce hs.wellFormed a n
  refine .mapError (.of_ok hrun ⟨hc.writes hno (ht.forth hm).1 fun b => ?_, dirty_setNonce ha hrun⟩)
  rw [ht.balance b]
  exact balanceOf_update (balanceOf_orFresh (by simp) _) b

/-- Nothing that was written over the trie counts. -/
theorem outcome_clearStorage (hc : Course env D static R) (hno : static = false) (hs : s.Ready D)
    (ha : s.Dirty a) :
    Outcome (fun _ t => Walks D R s t) E (onState (State.clearStorage a)) s := by
  obtain ⟨account, hfind, -⟩ := ha
  refine (State.acts_clearStorage hs.wellFormed hfind fun k _ => hc.clears hno a k).outcome.mono
    (fun _ t h => ?_) fun _ _ h => h
  have hview := State.view_of_find hfind
  refine hc.writes hno ⟨h.1, fun b hb hnone => ?_⟩ fun b => ?_
  · have hnot := (h.2 b).eq_none_iff.mp hnone
    rw [Function.update_apply, hview] at hnot
    split at hnot
    case isTrue => cases hnot
    case isFalse => exact hb hnot
  · rw [h.2.balance b]
    refine balanceOf_update ?_ b
    rw [hview, State.cleared, Option.map_some]
    split
    · rfl
    · rfl

theorem outcome_onState_bind {β : Type} {P : β → State → Prop} {x : StateM α} {f : α → StateM β}
    (h : Outcome (fun a t => Outcome P E (onState (f a)) t) E (onState x) s) :
    Outcome P E (onState (x >>= f)) s := by
  rw [onState, mapError_bind]
  exact .bind h

/-- A new account is there, and counts as changed. -/
theorem outcome_setUp (hc : Course env D static R) (hno : static = false) (hs : s.Ready D)
    (hv : value ≤ balanceOf (s.view sender)) (a : Address) :
    Outcome (fun _ t => Walks D R s t ∧ t.Dirty a) E
      (onState (Executive.setUp env sender a value)) s := by
  refine outcome_onState_bind ?_
  refine (outcome_transferBalance hc hs hv fun h => by simp [hno] at h).mono (fun _ t₁ h₁ => ?_)
    fun _ _ h => h
  obtain ⟨hwalk₁, ha⟩ := h₁
  have ht₁ := hwalk₁.forth.ready hs
  refine outcome_onState_bind (.mapError ?_)
  refine .of_ok (State.run_requireAccountStartNonce ht₁.startNonce) ?_
  refine outcome_onState_bind ?_
  refine (outcome_setNonce hc hno ht₁ ha _).mono (fun _ t₂ h₂ => ?_) fun _ _ h => h
  obtain ⟨hwalk₂, hdirty⟩ := h₂
  refine (outcome_clearStorage hc hno (hwalk₂.forth.ready ht₁) hdirty).mono (fun _ t h => ?_)
    fun _ _ h => h
  exact ⟨(hwalk₁.trans hc hwalk₂).trans hc h, h.forth.moves.dirty a hdirty⟩

theorem acts_suicide (hs : s.Ready D) (dying receiver : Address) :
    State.Acts D (ExtVM.suicide dying receiver) s
      (State.destroyed s.m_accountStartNonce s.view dying receiver) := by
  obtain ⟨t₁, hrun₁, ht₁, hq⟩ := State.reads_balance (D := D) hs.wellFormed dying
  have hready₁ : t₁.Ready D := (hq.forth ht₁).ready hs
  have hadd := State.acts_addBalance ht₁ (hready₁.known receiver) (balanceOf (s.view dying))
  rw [hq.startNonce] at hadd
  obtain ⟨t₂, hrun₂, hm₂, hshows₂⟩ :=
    State.Acts.after (hq.moves ht₁) hq.shows (State.respects_credited _ _) hadd
  have hready₂ : t₂.Ready D := hm₂.ready hs
  have hset := State.acts_setBalance hm₂.wellFormed (hready₂.known dying) 0
  rw [hm₂.startNonce, hshows₂.balance dying] at hset
  obtain ⟨t, hrun, hm, hshows⟩ :=
    State.Acts.after hm₂ hshows₂ (State.respects_credited _ _) hset
  exact ⟨t, (run_bind_ok hrun₁ _).trans ((run_bind_ok hrun₂ _).trans hrun), hm, hshows⟩

theorem outcome_suicide (hc : Course env D static R) (hno : static = false) (hs : s.Ready D)
    (dying receiver : Address) :
    Outcome (fun _ t => State.Forth D s t ∧
      ∀ u : SubState, R (s, u) (t, {u with suicides := insert dying u.suicides})) E
      (onState (ExtVM.suicide dying receiver)) s := by
  refine (acts_suicide hs dying receiver).outcome.mono (fun _ t h => ?_) fun _ _ h => h
  refine ⟨⟨h.1, fun a ha hnone => ?_⟩, fun u => hc.destroy u hno h.2⟩
  have hview := (h.2 a).eq_none_iff.mp hnone
  rw [State.destroyed, Function.update_apply] at hview
  split at hview
  case isTrue => cases hview
  case isFalse =>
    rw [Function.update_apply] at hview
    split at hview
    case isTrue => cases hview
    case isFalse => exact ha hview

end Methods
end Steps
end Aleth.Ethereum
