import Aleth.Ethereum.StateJournal

/-! What the observers of a state answer.

Each answers from the view of the account (`Reads`): reading may fill the cache
or evict from it, and nothing of that shows. -/
namespace Aleth.Ethereum
open Devcore Throwing
variable [Sha3]

/-! ### Answers, of a view -/

def balanceOf (o : Option AccountView) : U256 := o.elim 0 (·.balance)

def nonceOf (startNonce : U256) (o : Option AccountView) : U256 := o.elim startNonce (·.nonce)

def storageOf (o : Option AccountView) (k : U256) : U256 := o.elim 0 (·.storage k)

def originalOf (db : StateDB) (o : Option AccountView) (k : U256) : U256 :=
  o.elim 0 fun v => db.storage v.root k

def codeOf (o : Option AccountView) : Bytes := o.elim [] (·.code)

def codeHashOf (o : Option AccountView) : H256 := o.elim EmptySHA3 (·.codeHash)

def isEmptyView (v : AccountView) : Bool := v.nonce = 0 ∧ v.balance = 0 ∧ v.codeHash = EmptySHA3

namespace State
variable {s t : State} {a : Address} {D : Address → U256 → Prop} {α β : Type}

/-- The computation gives the value, and nothing that shows has changed. -/
def Reads (D : Address → U256 → Prop) (x : StateM α) (s : State) (v : α) : Prop :=
  ∃ t, x.run s = (.ok v, t) ∧ t.WellFormed D ∧ Quiet D s t

theorem Reads.pure (hs : s.WellFormed D) (v : α) : Reads D (pure v) s v :=
  ⟨s, rfl, hs, Quiet.refl s⟩

theorem Reads.bind {x : StateM α} {f : α → StateM β} {v : α} {w : β} (hx : Reads D x s v)
    (hf : ∀ t, t.WellFormed D → Quiet D s t → Reads D (f v) t w) : Reads D (x >>= f) s w := by
  obtain ⟨t, hrun, ht, hq⟩ := hx
  obtain ⟨u, hrun', hu, hq'⟩ := hf t ht hq
  exact ⟨u, (run_bind_ok hrun f).trans hrun', hu, hq.trans hq'⟩

theorem reads_account (hs : s.WellFormed D) (a : Address) : Reads D (account a) s (s.peek a) :=
  ⟨s.load a, run_account s a, (load_spec hs a).1, (load_spec hs a).2.1⟩

/-- An observer of one account: what it makes of the account is what it makes of the view. -/
theorem reads_of_account (hs : s.WellFormed D) {f : Option Account → StateM α}
    {g : Option AccountView → α}
    (hf : ∀ t, t.WellFormed D → Quiet D s t → t.m_cache.find a = s.peek a →
      Reads D (f (s.peek a)) t (g ((s.peek a).map (Account.view t.m_db)))) :
    Reads D (account a >>= f) s (g (s.view a)) := by
  obtain ⟨ht, hq, hfind⟩ := load_spec hs a
  obtain ⟨u, hrun, hu, hq'⟩ := hf (s.load a) ht hq hfind
  refine ⟨u, (run_bind_ok (run_account s a) f).trans ?_, hu, hq.trans hq'⟩
  rw [hrun, hq.db]
  rfl

theorem reads_addressInUse (hs : s.WellFormed D) (a : Address) :
    Reads D (addressInUse a) s (s.view a).isSome := by
  refine reads_of_account (g := Option.isSome) hs fun t ht _ _ => ?_
  rw [Option.isSome_map]
  exact Reads.pure ht _

theorem reads_balance (hs : s.WellFormed D) (a : Address) :
    Reads D (balance a) s (balanceOf (s.view a)) := by
  refine reads_of_account (g := balanceOf) hs fun t ht _ _ => ?_
  cases s.peek a with
  | none => exact Reads.pure ht _
  | some account => exact Reads.pure ht _

theorem reads_getNonce (hs : s.WellFormed D) (a : Address) :
    Reads D (getNonce a) s (nonceOf s.m_accountStartNonce (s.view a)) := by
  refine reads_of_account (g := nonceOf s.m_accountStartNonce) hs fun t ht hq _ => ?_
  cases s.peek a with
  | none =>
    refine ⟨t, ?_, ht, Quiet.refl t⟩
    show (Except.ok t.m_accountStartNonce, t) = _
    rw [hq.startNonce]
    rfl
  | some account => exact Reads.pure ht _

theorem reads_addressHasCode (hs : s.WellFormed D) (a : Address) :
    Reads D (addressHasCode a) s (codeHashOf (s.view a) ≠ EmptySHA3) := by
  refine reads_of_account (g := fun o => decide (codeHashOf o ≠ EmptySHA3)) hs fun t ht _ _ => ?_
  cases s.peek a with
  | none =>
    have hno : decide (codeHashOf none ≠ EmptySHA3) = false := decide_eq_false fun h => h rfl
    rw [Option.map_none, hno]
    exact Reads.pure ht _
  | some account => exact Reads.pure ht _

theorem reads_accountNonemptyAndExisting (hs : s.WellFormed D) (a : Address) :
    Reads D (accountNonemptyAndExisting a) s ((s.view a).any fun v => !isEmptyView v) := by
  refine reads_of_account (g := fun o => o.any fun v => !isEmptyView v) hs fun t ht _ _ => ?_
  cases s.peek a with
  | none => exact Reads.pure ht _
  | some account => exact Reads.pure ht _

theorem reads_codeHash (hs : s.WellFormed D) (a : Address) :
    Reads D (codeHash a) s (codeHashOf (s.view a)) := by
  refine reads_of_account (g := codeHashOf) hs fun t ht _ _ => ?_
  cases s.peek a with
  | none => exact Reads.pure ht _
  | some account => exact Reads.pure ht _

/-! ### Reads that are kept -/

/-- A change of an account in the cache that does not show. -/
theorem quiet_modifyAccount {account : Account} {f : Account → Account}
    (hs : s.WellFormed D) (hf : s.m_cache.find a = some account)
    (hc : (f account).Coherent s.m_db) (hview : (f account).view s.m_db = account.view s.m_db)
    (hd : (f account).isDirty = true ∨ (f account).isDirty = account.isDirty) :
    (s.modifyAccount a f).WellFormed D ∧ Quiet D s (s.modifyAccount a f) := by
  have hentry := entry_of_find hf
  refine ⟨hs.modifyAccount (by rwa [hentry]) ?_, rfl, rfl, rfl, fun b => Similar.of_eq ?_,
    fun b hb => dirty_modifyAccount f |>.mpr ?_⟩
  · rw [hentry]
    cases hfd : (f account).isDirty with
    | true => exact Or.inl rfl
    | false =>
      refine Or.inr ?_
      rw [hview]
      refine hs.clean a account hf ?_
      rcases hd with hd | hd
      · rw [hd] at hfd
        cases hfd
      · rw [← hd, hfd]
  · rw [view_modifyAccount, hentry]
    split
    case isTrue hb => rw [hb, view_of_find hf, hview]
    case isFalse => rfl
  · split
    case isTrue he =>
      subst he
      obtain ⟨account', hf', hd'⟩ := hb
      rw [hf] at hf'
      cases hf'
      rw [hentry]
      rcases hd with hd | hd
      · exact hd
      · rw [hd, hd']
    case isFalse => exact hb

/-- Keeping an account that only differs in what it has read. -/
theorem reads_keep {account account' : Account} (hs : s.WellFormed D)
    (hf : s.m_cache.find a = some account) (hc : account'.Coherent s.m_db)
    (hview : account'.view s.m_db = account.view s.m_db)
    (hd : account'.isDirty = account.isDirty) (v : α) :
    Reads D (do modify (modifyAccount a fun _ => account'); return v) s v := by
  obtain ⟨hw, hq⟩ := quiet_modifyAccount (f := fun _ => account') hs hf hc hview (Or.inr hd)
  exact ⟨_, rfl, hw, hq⟩

theorem originalStorageValue_snd {account : Account} {db : StateDB} (h : account.Coherent db)
    (k : U256) : (account.originalStorageValue k db).2.Coherent db ∧
      (account.originalStorageValue k db).2.view db = account.view db ∧
      (account.originalStorageValue k db).2.isDirty = account.isDirty := by
  unfold Account.originalStorageValue
  cases account.m_storageOriginal.find k with
  | some value => exact ⟨h, rfl, rfl⟩
  | none =>
    refine ⟨⟨fun k' v hk => ?_, h.code⟩, rfl, rfl⟩
    rw [show (account.m_storageOriginal.insert k _).find k' = _ from
      SortedMap.find_insert _ _ _ _] at hk
    split at hk
    case isTrue he =>
      cases hk
      rw [he]
      rfl
    case isFalse => exact h.original k' v hk

theorem storageValue_snd {account : Account} {db : StateDB} (h : account.Coherent db) (k : U256) :
    (account.storageValue k db).2.Coherent db ∧
      (account.storageValue k db).2.view db = account.view db ∧
      (account.storageValue k db).2.isDirty = account.isDirty := by
  unfold Account.storageValue
  cases account.m_storageOverlay.find k with
  | some value => exact ⟨h, rfl, rfl⟩
  | none => exact originalStorageValue_snd h k

theorem reads_storage (hs : s.WellFormed D) (a : Address) (k : U256) :
    Reads D (storage a k) s (storageOf (s.view a) k) := by
  refine reads_of_account (g := fun o => storageOf o k) hs fun t ht _ hfind => ?_
  cases hp : s.peek a with
  | none => exact Reads.pure ht _
  | some account =>
    rw [hp] at hfind
    have hc := ht.coherent a account hfind
    obtain ⟨hc', hv, hd⟩ := storageValue_snd hc k
    have hvalue : storageOf ((some account).map (Account.view t.m_db)) k =
        (account.storageValue k t.m_db).1 := (Account.storageValue_fst hc k).symm
    rw [hvalue]
    exact reads_keep ht hfind hc' hv hd _

theorem reads_originalStorageValue (hs : s.WellFormed D) (a : Address) (k : U256) :
    Reads D (originalStorageValue a k) s (originalOf s.m_db (s.view a) k) := by
  refine reads_of_account (g := fun o => originalOf s.m_db o k) hs fun t ht hq hfind => ?_
  cases hp : s.peek a with
  | none => exact Reads.pure ht _
  | some account =>
    rw [hp] at hfind
    have hc := ht.coherent a account hfind
    obtain ⟨hc', hv, hd⟩ := originalStorageValue_snd hc k
    have hvalue : originalOf s.m_db ((some account).map (Account.view t.m_db)) k =
        (account.originalStorageValue k t.m_db).1 := by
      rw [Account.originalStorageValue_fst hc k, ← hq.db]
      rfl
    rw [hvalue]
    exact reads_keep ht hfind hc' hv hd _

theorem codeIn_noteCode {account : Account} {db : StateDB} (h : account.m_codeCache = []) :
    (account.noteCode (db.code account.m_codeHash)).codeIn db = account.codeIn db := by
  unfold Account.codeIn Account.noteCode
  rw [h]
  dsimp only
  split
  · rfl
  · rw [if_pos rfl, ite_eq_left_iff]
    exact fun _ => rfl

theorem reads_code (hs : s.WellFormed D) (a : Address) :
    Reads D (code a) s (codeOf (s.view a)) := by
  refine reads_of_account (g := codeOf) hs fun t ht _ hfind => ?_
  cases hp : s.peek a with
  | none => exact Reads.pure ht _
  | some account =>
    rw [hp] at hfind
    have hc := ht.coherent a account hfind
    have hcode := hc.code
    show Reads D _ t (account.codeIn t.m_db)
    unfold Account.codeIn at hcode ⊢
    dsimp only
    by_cases hempty : account.m_codeHash = EmptySHA3
    · rw [if_pos hempty, if_pos hempty]
      exact Reads.pure ht _
    · rw [if_neg hempty, if_neg hempty]
      rw [if_neg hempty] at hcode
      by_cases hcache : account.m_codeCache = []
      · rw [if_pos hcache] at hcode
        rw [if_pos hcache, if_pos hcache]
        obtain ⟨hw, hq⟩ := quiet_modifyAccount (f := (·.noteCode (t.m_db.code account.m_codeHash)))
          ht hfind ⟨hc.original, by rw [codeIn_noteCode hcache]; exact hc.code⟩
          (by unfold Account.view; rw [codeIn_noteCode hcache]; rfl) (Or.inr rfl)
        refine ⟨_, ?_, hw, hq⟩
        rw [run_bind_ok (run_get t), if_neg (not_not.mpr hcode)]
        rfl
      · rw [if_neg hcache, if_neg hcache]
        exact Reads.pure ht _

end State
end Aleth.Ethereum
