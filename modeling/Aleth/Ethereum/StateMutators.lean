import Aleth.Ethereum.StateObservers

/-! What the mutators of a state do.

`Moves` is what a computation may do to a state on which there are savepoints:
from wherever undoing leads back to a savepoint, it still does afterwards. Each
mutator moves the state, and its effect on the views is that of a function on
what can be observed (`Shows`), up to the slots that do not count. -/
namespace Aleth.Ethereum
open Devcore Throwing
variable [Sha3]

/-- An account as it is made, without code and storage. -/
def AccountView.fresh (nonce balance : U256) : AccountView where
  alive := true
  nonce := nonce
  balance := balance
  root := EmptyTrie
  codeHash := EmptySHA3
  code := []
  storage := fun _ => 0

theorem view_ofBalance (db : StateDB) (nonce balance : U256) :
    (Account.ofBalance nonce balance).view db = .fresh nonce balance := by
  apply AccountView.ext <;> try rfl
  · show (if EmptySHA3 = EmptySHA3 then [] else _) = []
    rw [if_pos rfl]
  · funext k
    exact db.storage_empty k

namespace State
variable {s t u s₀ : State} {a b : Address} {e : Change} {es : List Change}
  {D : Address → U256 → Prop}

structure Moves (D : Address → U256 → Prop) (s t : State) : Prop where
  wellFormed : t.WellFormed D
  back : ∀ s₀, Back D s₀ s → Back D s₀ t
  db : t.m_db = s.m_db
  startNonce : t.m_accountStartNonce = s.m_accountStartNonce
  dirty : ∀ a, s.Dirty a → t.Dirty a

theorem Moves.refl (hs : s.WellFormed D) : Moves D s s := ⟨hs, fun _ h => h, rfl, rfl, fun _ h => h⟩

theorem Moves.trans (h₁ : Moves D s t) (h₂ : Moves D t u) : Moves D s u where
  wellFormed := h₂.wellFormed
  back s₀ h := h₂.back s₀ (h₁.back s₀ h)
  db := h₂.db.trans h₁.db
  startNonce := h₂.startNonce.trans h₁.startNonce
  dirty a h := h₂.dirty a (h₁.dirty a h)

theorem Quiet.moves (h : Quiet D s t) (ht : t.WellFormed D) : Moves D s t where
  wellFormed := ht
  back _ hb := hb.quiet ht h
  db := h.db
  startNonce := h.startNonce
  dirty := h.dirty

/-- The views are those of `w`, up to the slots in `D`. -/
def Shows (D : Address → U256 → Prop) (t : State) (w : Address → Option AccountView) : Prop :=
  ∀ a, Similar (D a) (w a) (t.view a)

theorem Quiet.shows (h : Quiet D s t) : Shows D t s.view := h.views

/-! ### Changes of an account in the cache -/

/-- An update of an account in the cache, with an entry of the log that undoes it. -/
def change (a : Address) (f : Account → Account) (e : Change) (s : State) : State :=
  (s.modifyAccount a f).log e

theorem view_change (f : Account → Account) (e : Change) :
    (s.change a f e).view b = if b = a then some ((f (s.entry a)).view s.m_db) else s.view b :=
  view_modifyAccount f

theorem WellFormed.log (hs : s.WellFormed D) (e : Change) : (s.log e).WellFormed D :=
  ⟨hs.nonExisting, hs.coherent, hs.clean⟩

/-- What a logged change of an account in the cache owes: the entry leads back, but for slots
in `K`. -/
structure Reverts (K : U256 → Prop) (s : State) (a : Address) (account : Account)
    (f : Account → Account) (e : Change) : Prop where
  found : s.m_cache.find a = some account
  coherent : (f account).Coherent s.m_db
  dirty : (f account).isDirty = true
  address : e.address = a
  keeps : e.releases = false
  effect : Similar K (some (account.view s.m_db)) (e.effect s.m_db ((f account).view s.m_db))

section Reverts
variable {K : U256 → Prop} {account : Account} {f : Account → Account}

theorem Reverts.wellFormed (h : Reverts K s a account f e) (hs : s.WellFormed D) :
    (s.change a f e).WellFormed D := by
  have hentry := entry_of_find h.found
  refine (hs.modifyAccount ?_ (Or.inl ?_)).log e
  · rw [hentry]
    exact h.coherent
  · rw [hentry]
    exact h.dirty

theorem Reverts.dirty_change (h : Reverts K s a account f e) :
    (s.change a f e).Dirty b ↔ b = a ∨ s.Dirty b := by
  refine (dirty_modifyAccount f).trans ?_
  rw [entry_of_find h.found]
  split
  case isTrue hb => exact ⟨fun _ => Or.inl hb, fun _ => h.dirty⟩
  case isFalse hb => exact ⟨Or.inr, fun h => h.resolve_left hb⟩

/-- A logged change does not lose the way back. -/
theorem Reverts.back (h : Reverts K s a account f e) (hb : Back D s₀ s)
    (hK : ∀ k, K k → loose D (since s₀ s) a k) : Back D s₀ (s.change a f e) := by
  have hw := h.wellFormed hb.wellFormed
  have hda : (s.change a f e).Dirty e.address := h.dirty_change.mpr (Or.inl h.address)
  have hno : e.releases ≠ true := by
    rw [h.keeps]
    exact Bool.false_ne_true
  have hvalid : (s.change a f e).ValidEntry D e := by
    refine ⟨hda, fun b hb => ?_⟩
    rw [hb] at hno
    exact (hno rfl).elim
  have hview : (s.change a f e).view e.address = some ((f account).view s.m_db) := by
    rw [view_change, if_pos h.address, entry_of_find h.found]
  refine hb.logged hw rfl hvalid ⟨undo_db _ _, undo_startNonce _ _, fun b => ?_, fun b hb => ?_⟩
  · rw [view_undo hw hda hview, h.address]
    split
    case isTrue hb =>
      rw [hb, view_of_find h.found]
      exact h.effect.mono hK
    case isFalse hb =>
      rw [view_change, if_neg hb]
      exact Similar.refl _ _
  · exact (dirty_undo hda).mpr ⟨h.dirty_change.mpr (Or.inr hb), fun hr => (hno hr).elim⟩

theorem Reverts.moves (h : Reverts K s a account f e) (hs : s.WellFormed D)
    (hK : ∀ k, K k → D a k) : Moves D s (s.change a f e) where
  wellFormed := h.wellFormed hs
  back _ hb := h.back hb fun k hk => Or.inl (hK k hk)
  db := rfl
  startNonce := rfl
  dirty _ hb := h.dirty_change.mpr (Or.inr hb)

end Reverts

/-! ### Effects on the views -/

/-- The computation returns, keeps the ways back, and leaves the views that are given. -/
def Acts (D : Address → U256 → Prop) (x : StateM Unit) (s : State)
    (w : Address → Option AccountView) : Prop :=
  ∃ t, x.run s = (.ok (), t) ∧ Moves D s t ∧ Shows D t w

/-- An update of a view that does not look at the storage. -/
def Respects (g : Option AccountView → Option AccountView) : Prop :=
  ∀ (K : U256 → Prop) (o o' : Option AccountView), Similar K o o' → Similar K (g o) (g o')

/-- What is put over similar views is similar. -/
theorem Shows.update {g : Option AccountView → Option AccountView} (hg : Respects g)
    {w : Address → Option AccountView} (ht : Shows D t w)
    (hu : Shows D u (Function.update t.view a (g (t.view a)))) :
    Shows D u (Function.update w a (g (w a))) := by
  intro b
  refine Similar.trans ?_ (hu b)
  rw [Function.update_apply, Function.update_apply]
  split
  case isTrue hb =>
    rw [hb]
    exact hg _ _ _ (ht a)
  case isFalse => exact ht b

theorem Acts.after {x : StateM Unit} {w : Address → Option AccountView}
    {g : Option AccountView → Option AccountView} (hm : Moves D s t) (ht : Shows D t w)
    (hg : Respects g) (hx : Acts D x t (Function.update t.view a (g (t.view a)))) :
    ∃ u, x.run t = (.ok (), u) ∧ Moves D s u ∧ Shows D u (Function.update w a (g (w a))) := by
  obtain ⟨u, hrun, hm', hu⟩ := hx
  exact ⟨u, hrun, hm.trans hm', ht.update hg hu⟩

/-- A step that reads, and one that acts on what was read. -/
theorem Acts.of_reads {α : Type} {x : StateM α} {v : α} {f : α → StateM Unit}
    {g : Option AccountView → Option AccountView} (hx : Reads D x s v) (hg : Respects g)
    (hf : ∀ t, t.WellFormed D → Quiet D s t →
      Acts D (f v) t (Function.update t.view a (g (t.view a)))) :
    Acts D (x >>= f) s (Function.update s.view a (g (s.view a))) := by
  obtain ⟨t, hrun, ht, hq⟩ := hx
  obtain ⟨u, hrun', hm, hu⟩ := Acts.after (hq.moves ht) hq.shows hg (hf t ht hq)
  exact ⟨u, (run_bind_ok hrun f).trans hrun', hm, hu⟩

theorem Acts.pure (hs : s.WellFormed D) : Acts D (pure ()) s s.view :=
  ⟨s, rfl, Moves.refl hs, fun _ => Similar.refl _ _⟩

theorem Reverts.acts {K : U256 → Prop} {account : Account} {f : Account → Account}
    (h : Reverts K s a account f e) (hs : s.WellFormed D) (hK : ∀ k, K k → D a k) :
    Acts D (modify (change a f e)) s (Function.update s.view a (some ((f account).view s.m_db))) := by
  refine ⟨_, rfl, h.moves hs hK, fun b => Similar.of_eq ?_⟩
  rw [view_change, entry_of_find h.found, Function.update_apply]

/-! ### Creating accounts -/

theorem find_noteCreated (account : Account) :
    (s.noteCreated a account).m_cache.find b = if b = a then some account else s.m_cache.find b :=
  SortedMap.find_insert _ _ _ _

theorem WellFormed.noteCreated {account : Account} (hs : s.WellFormed D)
    (hc : account.Coherent s.m_db) (hd : account.isDirty = true) :
    (s.noteCreated a account).WellFormed D := by
  have h := hs.modifyAccount (a := a) (f := fun _ => account) hc (Or.inl hd)
  exact ⟨fun b hb => hs.nonExisting b (List.mem_of_mem_filter hb), h.coherent, h.clean⟩

theorem view_noteCreated {account : Account} (hs : s.WellFormed D)
    (hw : (s.noteCreated a account).WellFormed D) :
    (s.noteCreated a account).view b = if b = a then some (account.view s.m_db) else s.view b := by
  have hf := find_noteCreated (s := s) (a := a) (b := b) account
  split
  case isTrue hb =>
    rw [if_pos hb] at hf
    exact view_of_find hf
  case isFalse hb =>
    rw [if_neg hb] at hf
    cases hc : s.m_cache.find b with
    | some account' => exact (view_of_find (hf.trans hc)).trans (view_of_find hc).symm
    | none => exact (view_of_find_none hw (hf.trans hc)).trans (view_of_find_none hs hc).symm

/-- Undone, a new account is as absent as it was. -/
theorem moves_noteCreated {account : Account} (hs : s.WellFormed D) (hno : s.view a = none)
    (hc : account.Coherent s.m_db) (hd : account.isDirty = true) :
    Moves D s (s.noteCreated a account) := by
  have hfind : s.m_cache.find a = none := by
    cases hf : s.m_cache.find a with
    | none => rfl
    | some account' =>
      rw [view_of_find hf] at hno
      cases hno
  have hclean : ¬ s.Dirty a := fun h => by
    obtain ⟨account', hf, _⟩ := h
    rw [hfind] at hf
    cases hf
  have hw := hs.noteCreated (a := a) hc hd
  have hdirty : ∀ b, (s.noteCreated a account).Dirty b ↔ b = a ∨ s.Dirty b := by
    intro b
    refine (dirty_modifyAccount (s := s) (a := a) (b := b) fun _ => account).trans ?_
    split
    case isTrue hb => exact ⟨fun _ => Or.inl hb, fun _ => hd⟩
    case isFalse hb => exact ⟨Or.inr, fun h => h.resolve_left hb⟩
  have hda : (s.noteCreated a account).Dirty (Change.create a).address :=
    (hdirty a).mpr (Or.inl rfl)
  have hview : (s.noteCreated a account).view (Change.create a).address =
      some (account.view s.m_db) := (view_noteCreated hs hw).trans (if_pos rfl)
  refine ⟨hw, fun s₀ hb => hb.logged hw rfl ⟨hda, fun _ h => by cases h⟩ ?_, rfl, rfl,
    fun b hb => (hdirty b).mpr (Or.inr hb)⟩
  refine ⟨rfl, rfl, fun b => Similar.of_eq ?_, fun b hb => ?_⟩
  · rw [view_undo hw hda hview]
    split
    case isTrue hb =>
      rw [show b = a from hb, hno]
      exact (view_of_find_none hs hfind).symm.trans hno
    case isFalse hb => exact (view_noteCreated hs hw).trans (if_neg hb)
  · refine (dirty_undo hda).mpr ⟨(hdirty b).mpr (Or.inr hb), fun _ hba => hclean ?_⟩
    rw [show b = a from hba] at hb
    exact hb

/-- `createAccount` on an address that is not in use. -/
theorem run_createAccount (hs : s.WellFormed D) (hno : s.view a = none) :
    ∃ t, t.WellFormed D ∧ Quiet D s t ∧ t.view a = none ∧
      ∀ account, (createAccount a account).run s = (.ok (), t.noteCreated a account) := by
  obtain ⟨t, hrun, ht, hq⟩ := reads_addressInUse hs a
  rw [hno] at hrun
  exact ⟨t, ht, hq, (hq.views a).eq_none_iff.mpr hno, fun account => (run_bind_ok hrun _).trans rfl⟩

theorem acts_createAccount {account : Account} (hs : s.WellFormed D) (hno : s.view a = none)
    (hc : account.Coherent s.m_db) (hd : account.isDirty = true) :
    Acts D (createAccount a account) s
      (Function.update s.view a (some (account.view s.m_db))) := by
  obtain ⟨t, ht, hq, htno, hrun⟩ := run_createAccount hs hno
  have hc' : account.Coherent t.m_db := by
    rw [hq.db]
    exact hc
  have hm := moves_noteCreated ht htno hc' hd
  refine ⟨_, hrun account, (hq.moves ht).trans hm, fun b => ?_⟩
  rw [view_noteCreated ht hm.wellFormed, Function.update_apply, hq.db]
  split
  · exact Similar.refl _ _
  · exact hq.views b

/-! ### Accounts that are there -/

/-- A step on the account that `account` answers with. -/
theorem acts_of_account {f : Option Account → StateM Unit}
    {g : Option AccountView → Option AccountView} (hs : s.WellFormed D) (hg : Respects g)
    (hnone : ∀ t, t.WellFormed D → Quiet D s t → s.view a = none → t.view a = none →
      Acts D (f none) t (Function.update t.view a (g none)))
    (hsome : ∀ t account, t.WellFormed D → Quiet D s t → s.peek a = some account →
      t.m_cache.find a = some account →
      Acts D (f (some account)) t (Function.update t.view a (g (some (account.view t.m_db))))) :
    Acts D (account a >>= f) s (Function.update s.view a (g (s.view a))) := by
  obtain ⟨ht, hq, hfind⟩ := load_spec hs a
  have hpeek := load_peek hs a
  have hact : Acts D (f (s.peek a)) (s.load a)
      (Function.update (s.load a).view a (g ((s.load a).view a))) := by
    cases hp : s.peek a with
    | none =>
      rw [hp] at hpeek
      have hno : (s.load a).view a = none := by
        rw [view, hpeek]
        rfl
      rw [hno]
      refine hnone _ ht hq ?_ hno
      rw [view, hp]
      rfl
    | some account =>
      rw [hp] at hfind
      rw [view_of_find hfind]
      exact hsome _ account ht hq hp hfind
  obtain ⟨u, hrun, hm, hu⟩ := Acts.after (hq.moves ht) hq.shows hg hact
  exact ⟨u, (run_bind_ok (run_account s a) f).trans hrun, hm, hu⟩

/-- An account that is made where there is none, and changed where there is one. -/
def orFresh (nonce balance : U256) (f : AccountView → AccountView) (o : Option AccountView) :
    Option AccountView := some (o.elim (.fresh nonce balance) f)

theorem respects_orFresh {nonce balance : U256} {f : AccountView → AccountView}
    (hf : ∀ v st, f {v with storage := st} = {f v with storage := st}) :
    Respects (orFresh nonce balance f) := by
  rintro K o o' (⟨rfl, rfl⟩ | ⟨v, st, rfl, rfl, hst⟩)
  · exact Similar.refl _ _
  · have hstorage : (f v).storage = v.storage := by
      have h := congrArg AccountView.storage (hf v v.storage)
      exact h
    refine Or.inr ⟨f v, st, rfl, congrArg some (hf v st), fun k hk => ?_⟩
    rw [hstorage]
    exact hst k hk

theorem coherent_ofBalance (db : StateDB) (nonce balance : U256) :
    (Account.ofBalance nonce balance).Coherent db where
  original k v hk := by cases hk
  code := by
    show sha3 (if EmptySHA3 = EmptySHA3 then [] else _) = EmptySHA3
    rw [if_pos rfl]
    rfl

theorem acts_createFresh (hs : s.WellFormed D) (hno : s.view a = none) (nonce balance : U256) :
    Acts D (createAccount a (.ofBalance nonce balance)) s
      (Function.update s.view a (some (.fresh nonce balance))) := by
  have h := acts_createAccount hs hno (coherent_ofBalance s.m_db nonce balance) rfl
  rwa [view_ofBalance] at h

/-- Either the account is there, or it is known which nonce it starts with. -/
def Known (s : State) (a : Address) : Prop :=
  s.view a = none → s.m_accountStartNonce ≠ Invalid256

theorem run_requireAccountStartNonce (h : s.m_accountStartNonce ≠ Invalid256) :
    requireAccountStartNonce.run s = (.ok s.m_accountStartNonce, s) :=
  (run_bind_ok (run_get s) _).trans (by rw [if_neg h]; rfl)

theorem acts_createContract (hs : s.WellFormed D) (hno : s.view a = none) (hk : s.Known a) :
    Acts D (createContract a) s
      (Function.update s.view a (some (.fresh s.m_accountStartNonce 0))) := by
  obtain ⟨t, hrun, h⟩ := acts_createFresh hs hno s.m_accountStartNonce 0
  exact ⟨t, (run_bind_ok (run_requireAccountStartNonce (hk hno)) _).trans hrun, h⟩

theorem acts_setNonce (hs : s.WellFormed D) (a : Address) (n : U256) :
    Acts D (setNonce a n) s
      (Function.update s.view a (orFresh n 0 (fun v => {v with nonce := n}) (s.view a))) := by
  refine acts_of_account hs (respects_orFresh fun v st => rfl) (fun t ht _ _ hno => ?_)
    fun t account ht _ _ hf => ?_
  · exact acts_createFresh ht hno n 0
  · refine Reverts.acts (K := fun _ => False)
      ⟨hf, ?_, rfl, rfl, rfl, Similar.refl _ _⟩ ht fun k hk => hk.elim
    exact ⟨(ht.coherent a account hf).original, (ht.coherent a account hf).code⟩

theorem acts_incNonce (hs : s.WellFormed D) (hk : s.Known a) :
    Acts D (incNonce a) s (Function.update s.view a
      (orFresh (s.m_accountStartNonce + 1) 0 (fun v => {v with nonce := v.nonce + 1})
        (s.view a))) := by
  refine acts_of_account hs (respects_orFresh fun v st => rfl) (fun t ht hq hsno hno => ?_)
    fun t account ht _ _ hf => ?_
  · have hstart : t.m_accountStartNonce ≠ Invalid256 := by
      rw [hq.startNonce]
      exact hk hsno
    obtain ⟨u, hrun, h⟩ := acts_createFresh ht hno (t.m_accountStartNonce + 1) 0
    rw [hq.startNonce] at h
    exact ⟨u, (run_bind_ok (run_requireAccountStartNonce hstart) _).trans hrun, h⟩
  · refine Reverts.acts (K := fun _ => False)
      ⟨hf, ?_, rfl, rfl, rfl, Similar.refl _ _⟩ ht fun k hk => hk.elim
    exact ⟨(ht.coherent a account hf).original, (ht.coherent a account hf).code⟩

/-! ### Balances -/

theorem modifyAccount_modifyAccount (s : State) (a : Address) (f g : Account → Account) :
    (s.modifyAccount a f).modifyAccount a g = s.modifyAccount a fun x => g (f x) := by
  have hfind : (s.modifyAccount a f).m_cache.find a = some (f (s.entry a)) :=
    (find_modifyAccount f).trans (if_pos rfl)
  have hentry : (s.modifyAccount a f).entry a = f (s.entry a) := entry_of_find hfind
  have hcache : (s.modifyAccount a f).m_cache.insert a (g (f (s.entry a))) =
      s.m_cache.insert a (g (f (s.entry a))) := by
    apply SortedMap.ext_find
    intro k
    rw [SortedMap.find_insert, SortedMap.find_insert, find_modifyAccount]
    split <;> rfl
  unfold modifyAccount at hentry hcache ⊢
  rw [hentry, hcache]

/-- A clean account is marked as changed, and the log notes that it was touched. -/
theorem moves_touch {account : Account} (hs : s.WellFormed D)
    (hf : s.m_cache.find a = some account) (hclean : account.isDirty = false) :
    Moves D s (s.change a Account.changed (.touch a)) ∧
      (s.change a Account.changed (.touch a)).view = s.view ∧
      (s.change a Account.changed (.touch a)).m_cache.find a = some account.changed := by
  have hentry := entry_of_find hf
  have hc := hs.coherent a account hf
  have hnot : ¬ s.Dirty a := fun h => by
    obtain ⟨account', hf', hd⟩ := h
    rw [hf] at hf'
    cases hf'
    rw [hclean] at hd
    cases hd
  have hw : (s.change a Account.changed (.touch a)).WellFormed D := by
    refine (hs.modifyAccount ?_ (Or.inl ?_)).log _
    · rw [hentry]
      exact ⟨hc.original, hc.code⟩
    · rfl
  have hview : (s.change a Account.changed (.touch a)).view = s.view := by
    funext b
    rw [view_change, hentry]
    split
    case isTrue hb =>
      rw [hb, view_of_find hf]
      rfl
    case isFalse => rfl
  have hdirty : ∀ b, (s.change a Account.changed (.touch a)).Dirty b ↔ b = a ∨ s.Dirty b := by
    intro b
    refine (dirty_modifyAccount Account.changed).trans ?_
    split
    case isTrue hb => exact ⟨fun _ => Or.inl hb, fun _ => rfl⟩
    case isFalse hb => exact ⟨Or.inr, fun h => h.resolve_left hb⟩
  have hda : (s.change a Account.changed (.touch a)).Dirty (Change.touch a).address :=
    (hdirty a).mpr (Or.inl rfl)
  have hva : (s.change a Account.changed (.touch a)).view (Change.touch a).address =
      some (account.view s.m_db) := by
    rw [hview]
    exact view_of_find hf
  refine ⟨⟨hw, fun s₀ hb => hb.logged hw rfl ⟨hda, fun b hb => ?_⟩ ⟨rfl, rfl, fun b => ?_,
    fun b hb => ?_⟩, rfl, rfl, fun b hb => (hdirty b).mpr (Or.inr hb)⟩, hview, ?_⟩
  · cases hb
    rw [hview, view_of_find hf]
    exact hs.clean a account hf hclean
  · rw [view_undo hw hda hva, hview]
    split
    case isTrue hb =>
      rw [show b = a from hb, view_of_find hf]
      exact Similar.refl _ _
    case isFalse => exact Similar.refl _ _
  · refine (dirty_undo hda).mpr ⟨(hdirty b).mpr (Or.inr hb), fun _ hba => hnot ?_⟩
    rw [show b = a from hba] at hb
    exact hb
  · refine (find_modifyAccount Account.changed).trans ((if_pos rfl).trans ?_)
    rw [hentry]

/-- `touchAndAdd` adds to the balance after noting a first touch. -/
theorem exists_touched {account : Account} (hs : s.WellFormed D)
    (hf : s.m_cache.find a = some account) (amount : U256) :
    ∃ t account', Moves D s t ∧ t.view = s.view ∧ t.m_cache.find a = some account' ∧
      s.touchAndAdd a amount account = t.modifyAccount a (·.addBalance amount) := by
  by_cases htouch : (!account.isDirty && account.isEmpty) = true
  · have hclean : account.isDirty = false := by
      rw [Bool.and_eq_true, Bool.not_eq_true'] at htouch
      exact htouch.1
    obtain ⟨hm, hv, hf'⟩ := moves_touch hs hf hclean
    refine ⟨_, _, hm, hv, hf', ?_⟩
    unfold touchAndAdd
    rw [if_pos htouch]
    exact (modifyAccount_modifyAccount (s.log (.touch a)) a Account.changed
      (·.addBalance amount)).symm
  · refine ⟨s, account, Moves.refl hs, rfl, hf, ?_⟩
    unfold touchAndAdd
    rw [if_neg htouch]

def credited (startNonce amount : U256) : Option AccountView → Option AccountView :=
  orFresh startNonce amount fun v => {v with balance := v.balance + amount}

theorem respects_credited (startNonce amount : U256) : Respects (credited startNonce amount) :=
  respects_orFresh fun _ _ => rfl

theorem reverts_addBalance {account : Account} (hs : s.WellFormed D)
    (hf : s.m_cache.find a = some account) (amount : U256) :
    Reverts (fun _ => False) s a account (·.addBalance amount) (.balance a amount) where
  found := hf
  coherent := ⟨(hs.coherent a account hf).original, (hs.coherent a account hf).code⟩
  dirty := rfl
  address := rfl
  keeps := rfl
  effect := by
    refine Similar.of_eq (congrArg some ?_)
    apply AccountView.ext <;> try rfl
    show account.m_balance + amount + (0 - amount) = account.m_balance
    ring

/-- What `addBalance` does to an account in the cache; an amount of zero is not logged. -/
theorem acts_credit {account : Account} (hs : s.WellFormed D)
    (hf : s.m_cache.find a = some account) (startNonce amount : U256) :
    Acts D (modify fun s : State => if amount ≠ 0 then
        (s.modifyAccount a (·.addBalance amount)).log (.balance a amount)
      else s.modifyAccount a (·.addBalance amount)) s
      (Function.update s.view a (credited startNonce amount (s.view a))) := by
  rw [view_of_find hf]
  by_cases hzero : amount = 0
  · subst hzero
    have hc := hs.coherent a account hf
    have hview : (account.addBalance 0).view s.m_db = account.view s.m_db := by
      apply AccountView.ext <;> try rfl
      exact add_zero account.m_balance
    obtain ⟨hw, hq⟩ := quiet_modifyAccount (f := (·.addBalance 0)) hs hf
      ⟨hc.original, hc.code⟩ hview (Or.inl rfl)
    refine ⟨_, by rw [run_modify, if_neg (not_not.mpr rfl)], hq.moves hw, fun b => ?_⟩
    refine Similar.trans (Similar.of_eq ?_) (hq.views b)
    rw [Function.update_apply]
    split
    case isTrue hb =>
      rw [hb, view_of_find hf]
      exact congrArg some hview.symm
    case isFalse => rfl
  · have h := (reverts_addBalance hs hf amount).acts hs fun k hk => hk.elim
    obtain ⟨t, hrun, hm⟩ := h
    refine ⟨t, ?_, hm⟩
    rw [run_modify, if_pos hzero]
    exact hrun

theorem noteCreated_eq (s : State) (a : Address) (nonce amount : U256) :
    s.noteCreated a (.ofBalance nonce amount) =
      (s.noteCreated a (.ofBalance nonce 0)).modifyAccount a (·.addBalance amount) := by
  have hentry : (s.noteCreated a (.ofBalance nonce 0)).entry a = .ofBalance nonce 0 :=
    entry_of_find ((find_noteCreated _).trans (if_pos rfl))
  have haccount : (Account.ofBalance nonce 0).addBalance amount = .ofBalance nonce amount := by
    show { Account.ofBalance nonce 0 with m_balance := 0 + amount, m_isUnchanged := false } = _
    rw [zero_add]
    rfl
  have hcache : (s.noteCreated a (.ofBalance nonce 0)).m_cache.insert a (.ofBalance nonce amount) =
      s.m_cache.insert a (.ofBalance nonce amount) := by
    apply SortedMap.ext_find
    intro k
    rw [SortedMap.find_insert, SortedMap.find_insert, find_noteCreated]
    split <;> rfl
  unfold modifyAccount
  rw [hentry]
  dsimp only
  rw [haccount, hcache]
  rfl

theorem acts_addBalance (hs : s.WellFormed D) (hk : s.Known a) (amount : U256) :
    Acts D (addBalance a amount) s
      (Function.update s.view a (credited s.m_accountStartNonce amount (s.view a))) := by
  refine acts_of_account hs (respects_credited _ _) (fun t ht hq hsno hno => ?_)
    fun t account ht _ _ hf => ?_
  · have hstart : t.m_accountStartNonce ≠ Invalid256 := by
      rw [hq.startNonce]
      exact hk hsno
    obtain ⟨t', ht', hq', hno', hrun⟩ := run_createAccount ht hno
    have hm := moves_noteCreated ht' hno' (coherent_ofBalance t'.m_db t.m_accountStartNonce 0) rfl
    have hfind : (t'.noteCreated a (.ofBalance t.m_accountStartNonce 0)).m_cache.find a =
        some (.ofBalance t.m_accountStartNonce 0) := (find_noteCreated _).trans (if_pos rfl)
    obtain ⟨u, hrun', hm', hu⟩ := acts_credit hm.wellFormed hfind t.m_accountStartNonce amount
    rw [run_modify, ← noteCreated_eq] at hrun'
    refine ⟨u, ?_, ((hq'.moves ht').trans hm).trans hm', fun b => Similar.trans ?_ (hu b)⟩
    · refine (run_bind_ok (run_requireAccountStartNonce hstart) _).trans ?_
      exact (run_bind_ok (hrun _) _).trans hrun'
    · rw [Function.update_apply, Function.update_apply, view_noteCreated ht' hm.wellFormed,
        view_noteCreated ht' hm.wellFormed, if_pos rfl, view_ofBalance]
      split
      case isTrue hb =>
        refine Similar.of_eq (congrArg some ?_)
        apply AccountView.ext <;> try rfl
        · exact hq.startNonce
        · exact zero_add amount
      case isFalse => exact hq'.views b
  · obtain ⟨t', account', hm, hview, hf', htouch⟩ := exists_touched ht hf amount
    obtain ⟨u, hrun, hm', hu⟩ := acts_credit hm.wellFormed hf' s.m_accountStartNonce amount
    refine ⟨u, ?_, hm.trans hm', ?_⟩
    · rw [run_modify] at hrun
      rw [run_modify, htouch, ← hrun]
    · rw [hview, view_of_find hf] at hu
      exact hu

def debited (value : U256) : Option AccountView → Option AccountView :=
  Option.map fun v => {v with balance := v.balance - value}

omit [Sha3] in
theorem respects_debited (value : U256) : Respects (debited value) := by
  rintro K o o' (⟨rfl, rfl⟩ | ⟨v, st, rfl, rfl, hst⟩)
  · exact Similar.refl _ _
  · exact Or.inr ⟨_, st, rfl, rfl, hst⟩

theorem view_eq_map (s : State) (a : Address) : s.view a = (s.peek a).map (Account.view s.m_db) :=
  rfl

theorem acts_subBalance (hs : s.WellFormed D) {value : U256}
    (hv : value ≤ balanceOf (s.view a)) :
    Acts D (subBalance a value) s (Function.update s.view a (debited value (s.view a))) := by
  unfold subBalance
  by_cases hzero : value = 0
  · rw [if_pos hzero]
    refine ⟨s, rfl, Moves.refl hs, fun b => Similar.of_eq ?_⟩
    rw [Function.update_apply]
    split
    case isTrue hb =>
      rw [hb, hzero]
      cases s.view a with
      | none => rfl
      | some v =>
        refine congrArg some ?_
        apply AccountView.ext <;> try rfl
        exact (sub_zero v.balance).symm
    case isFalse => rfl
  · rw [if_neg hzero]
    refine acts_of_account hs (respects_debited value) (fun t ht hq hsno hno => ?_)
      fun t account ht hq hp hf => ?_
    · rw [hsno] at hv
      exact (hzero (le_antisymm hv (not_lt.mp BitVec.not_lt_zero))).elim
    · rw [view_eq_map, hp] at hv
      have hlt : ¬ account.m_balance < value := not_lt.mpr hv
      dsimp only
      rw [if_neg hlt]
      have hk : t.Known a := by
        intro h
        rw [view_of_find hf] at h
        cases h
      have h := acts_addBalance ht hk (0 - value)
      rw [view_of_find hf] at h
      have hdebit : credited t.m_accountStartNonce (0 - value) (some (account.view t.m_db)) =
          debited value (some (account.view t.m_db)) := by
        refine congrArg some ?_
        apply AccountView.ext <;> try rfl
        show account.m_balance + (0 - value) = account.m_balance - value
        ring
      rwa [hdebit] at h

/-- A computation that throws, and keeps the ways back all the same. -/
def Fails {α : Type} (D : Address → U256 → Prop) (x : StateM α) (s : State) : Prop :=
  ∃ e t, x.run s = (.error e, t) ∧ Moves D s t

theorem fails_subBalance (hs : s.WellFormed D) {value : U256}
    (hv : balanceOf (s.view a) < value) : Fails D (subBalance a value) s := by
  have hzero : value ≠ 0 := fun h => by
    rw [h] at hv
    exact BitVec.not_lt_zero hv
  obtain ⟨ht, hq, _⟩ := load_spec hs a
  unfold subBalance
  rw [if_neg hzero]
  refine ⟨.notEnoughCash, s.load a, (run_bind_ok (run_account s a) _).trans ?_, hq.moves ht⟩
  rw [view_eq_map] at hv
  cases hp : s.peek a with
  | none => rfl
  | some account =>
    rw [hp] at hv
    have hlt : account.m_balance < value := hv
    dsimp only
    rw [if_pos hlt]
    rfl

theorem fails_addBalance (hs : s.WellFormed D) (hno : s.view a = none)
    (hstart : s.m_accountStartNonce = Invalid256) (amount : U256) :
    Fails D (addBalance a amount) s := by
  obtain ⟨ht, hq, _⟩ := load_spec hs a
  refine ⟨.invalidAccountStartNonce, s.load a, (run_bind_ok (run_account s a) _).trans ?_,
    hq.moves ht⟩
  have hp : s.peek a = none := Option.map_eq_none_iff.mp hno
  rw [hp]
  refine run_bind_error ((run_bind_ok (run_get (s.load a)) _).trans ?_) _
  rw [if_pos (hq.startNonce.trans hstart)]
  rfl

/-- What a transfer makes of the views. -/
def transferred (startNonce : U256) (w : Address → Option AccountView) (sender receiver : Address)
    (value : U256) : Address → Option AccountView :=
  let w' := Function.update w sender (debited value (w sender))
  Function.update w' receiver (credited startNonce value (w' receiver))

theorem acts_transferBalance {sender receiver : Address} {value : U256} (hs : s.WellFormed D)
    (hv : value ≤ balanceOf (s.view sender)) (hk : s.Known receiver) :
    Acts D (transferBalance sender receiver value) s
      (transferred s.m_accountStartNonce s.view sender receiver value) := by
  obtain ⟨t, hrun, hm, ht⟩ := acts_subBalance hs hv
  have hk' : t.Known receiver := by
    intro hno
    rw [hm.startNonce]
    have h := (ht receiver).eq_none_iff.mp hno
    rw [Function.update_apply] at h
    split at h
    case isTrue hr =>
      rw [← hr] at h
      exact hk (Option.map_eq_none_iff.mp h)
    case isFalse => exact hk h
  have h := acts_addBalance hm.wellFormed hk' value
  rw [hm.startNonce] at h
  obtain ⟨u, hrun', hm', hu⟩ := h
  exact ⟨u, (run_bind_ok hrun _).trans hrun', hm.trans hm', ht.update (respects_credited _ _) hu⟩

theorem acts_setBalance (hs : s.WellFormed D) (hk : s.Known a) (value : U256) :
    Acts D (setBalance a value) s (Function.update s.view a
      (credited s.m_accountStartNonce (value - balanceOf (s.view a)) (s.view a))) := by
  refine Acts.of_reads (reads_balance hs a) (respects_credited _ _) fun t ht hq => ?_
  have hk' : t.Known a := by
    intro hno
    rw [hq.startNonce]
    exact hk ((hq.views a).eq_none_iff.mp hno)
  have h := acts_addBalance ht hk' (value - balanceOf (s.view a))
  rwa [hq.startNonce] at h

end State
end Aleth.Ethereum
