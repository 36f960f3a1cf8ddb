import Aleth.Ethereum.StateMutators

/-! Writes of storage and code, and what all mutators keep.

Two mutators act as they should under a condition only: `clearStorage`, whose
undo throws away what was written over the trie, and `setCode`, which does not
mark the account as changed. The others keep the ways back whether they return
or throw (`Keeps`). -/
namespace Aleth.Ethereum
open Devcore Throwing
variable [Sha3]

namespace State
variable {s t u s₀ : State} {a b : Address} {e : Change} {es : List Change}
  {D : Address → U256 → Prop}

/-! ### Storage and code -/

theorem view_load (hs : s.WellFormed D) (a : Address) : (s.load a).view a = s.view a := by
  rw [view_eq_map, load_peek hs, (load_spec hs a).2.1.db]
  rfl

/-- Reading a slot of an account that exists leaves the account in the cache. -/
theorem cached_storage (hs : s.WellFormed D) (hv : s.view a ≠ none) (k : U256) :
    ∃ t account, (storage a k).run s = (.ok (storageOf (s.view a) k), t) ∧ t.WellFormed D ∧
      Quiet D s t ∧ t.m_cache.find a = some account ∧ t.view a = s.view a := by
  obtain ⟨t, hrun, ht, hq⟩ := reads_storage hs a k
  obtain ⟨hw, hql, hfind⟩ := load_spec hs a
  have hview := view_load hs a
  cases hp : s.peek a with
  | none => exact (hv (by rw [view_eq_map, hp]; rfl)).elim
  | some account =>
    rw [hp] at hfind
    have hrun' := hrun
    rw [storage, run_bind_ok (run_account s a), hp] at hrun'
    have ht' : (s.load a).modifyAccount a (fun _ => (account.storageValue k (s.load a).m_db).2) =
        t := congrArg Prod.snd hrun'
    have hc := storageValue_snd (hw.coherent a account hfind) k
    refine ⟨t, (account.storageValue k (s.load a).m_db).2, hrun, ht, hq, ?_, ?_⟩
    · rw [← ht']
      exact (find_modifyAccount _).trans (if_pos rfl)
    · rw [← hview, ← ht', view_of_find hfind]
      exact (view_modifyAccount _).trans ((if_pos rfl).trans (congrArg some hc.2.1))

def stored (k v : U256) : Option AccountView → Option AccountView :=
  Option.map fun w => {w with storage := Function.update w.storage k v}

omit [Sha3] in
theorem respects_stored (k v : U256) : Respects (stored k v) := by
  rintro K o o' (⟨rfl, rfl⟩ | ⟨w, st, rfl, rfl, hst⟩)
  · exact Similar.refl _ _
  · refine Or.inr ⟨_, Function.update st k v, rfl, rfl, fun k' hk => ?_⟩
    show _ = Function.update w.storage k v k'
    rw [Function.update_apply, Function.update_apply, hst k' hk]

theorem coherent_setStorage {account : Account} {db : StateDB} (h : account.Coherent db)
    (k v : U256) : (account.setStorage k v).Coherent db := ⟨h.original, h.code⟩

theorem reverts_setStorage {account : Account} (hs : s.WellFormed D)
    (hf : s.m_cache.find a = some account) (k v : U256) :
    Reverts (fun _ => False) s a account (·.setStorage k v)
      (.storage a k (account.storageIn s.m_db k)) where
  found := hf
  coherent := coherent_setStorage (hs.coherent a account hf) k v
  dirty := rfl
  address := rfl
  keeps := rfl
  effect := by
    refine Similar.of_eq ?_
    rw [view_setStorage]
    refine congrArg some ?_
    apply AccountView.ext <;> try rfl
    show Function.update (Function.update (account.storageIn s.m_db) k v) k _ = _
    rw [Function.update_idem]
    exact Function.update_eq_self k _

theorem acts_setStorage (hs : s.WellFormed D) (hv : s.view a ≠ none) (k v : U256) :
    Acts D (setStorage a k v) s (Function.update s.view a (stored k v (s.view a))) := by
  obtain ⟨t, account, hrun, ht, hq, hf, hview⟩ := cached_storage hs hv k
  rw [view_of_find hf] at hview
  have hold : storageOf (s.view a) k = account.storageIn t.m_db k := by
    rw [← hview]
    rfl
  have h := (reverts_setStorage ht hf k v).acts ht fun k hk => hk.elim
  have hnew : some ((account.setStorage k v).view t.m_db) = stored k v (t.view a) := by
    rw [view_of_find hf, view_setStorage]
    rfl
  rw [hnew] at h
  obtain ⟨u, hrun', hm, hu⟩ := Acts.after (hq.moves ht) hq.shows (respects_stored k v) h
  rw [hold] at hrun
  exact ⟨u, (run_bind_ok hrun _).trans hrun', hm, hu⟩

/-- What clearing the storage leaves: an empty trie, without writes. -/
def cleared : Option AccountView → Option AccountView :=
  Option.map fun w => if w.root = EmptyTrie then w
    else {w with root := EmptyTrie, storage := fun _ => 0}

theorem view_clearStorage (account : Account) (db : StateDB) :
    account.clearStorage.view db =
      {account.view db with root := EmptyTrie, storage := fun _ => 0} := by
  unfold Account.clearStorage
  rw [view_setStorageRoot]
  apply AccountView.ext <;> try rfl
  funext k
  exact db.storage_empty k

/-- Undone, the storage is that of the trie: writes over it are lost. -/
theorem reverts_clearStorage {account : Account} (hs : s.WellFormed D)
    (hf : s.m_cache.find a = some account) :
    Reverts (fun k => account.storageIn s.m_db k ≠ account.original s.m_db k) s a account
      Account.clearStorage (.storageRoot a account.m_storageRoot) where
  found := hf
  coherent := ⟨fun k v hk => (by cases hk), (hs.coherent a account hf).code⟩
  dirty := rfl
  address := rfl
  keeps := rfl
  effect := by
    refine Or.inr ⟨account.view s.m_db, s.m_db.storage account.m_storageRoot, rfl, rfl,
      fun k hk => ?_⟩
    exact (not_not.mp hk).symm

theorem run_clearStorage_of_empty {account : Account} (hf : s.m_cache.find a = some account)
    (h : account.m_storageRoot = EmptyTrie) :
    (clearStorage a).run s = (.ok (), s.modifyAccount a id) := by
  refine (run_modify _ s).trans ?_
  rw [entry_of_find hf]
  dsimp only
  rw [if_pos h]

theorem run_clearStorage {account : Account} (hf : s.m_cache.find a = some account)
    (h : account.m_storageRoot ≠ EmptyTrie) :
    (clearStorage a).run s =
      (.ok (), s.change a Account.clearStorage (.storageRoot a account.m_storageRoot)) := by
  refine (run_modify _ s).trans ?_
  rw [entry_of_find hf]
  dsimp only
  rw [if_neg h]
  refine congrArg (Prod.mk _) ?_
  refine (modifyAccount_modifyAccount (s.log _) a id _).trans ?_
  rfl

/-- Clearing the storage of an account in the cache; what its writes had changed must not count. -/
theorem acts_clearStorage {account : Account} (hs : s.WellFormed D)
    (hf : s.m_cache.find a = some account)
    (hK : ∀ k, account.storageIn s.m_db k ≠ account.original s.m_db k → D a k) :
    Acts D (clearStorage a) s (Function.update s.view a (cleared (s.view a))) := by
  have hview := view_of_find hf
  by_cases h : account.m_storageRoot = EmptyTrie
  · obtain ⟨hw, hq⟩ := quiet_modifyAccount (f := id) hs hf (hs.coherent a account hf) rfl
      (Or.inr rfl)
    refine ⟨_, run_clearStorage_of_empty hf h, hq.moves hw, fun b => ?_⟩
    refine Similar.trans (Similar.of_eq ?_) (hq.views b)
    rw [Function.update_apply]
    split
    case isTrue hb =>
      rw [hb, hview]
      exact congrArg some (if_pos h).symm
    case isFalse => rfl
  · obtain ⟨t, hrun, hm, ht⟩ := (reverts_clearStorage hs hf).acts hs hK
    refine ⟨t, (run_clearStorage hf h).trans hrun, hm, ?_⟩
    have hnew : cleared (s.view a) = some (account.clearStorage.view s.m_db) := by
      rw [hview, view_clearStorage]
      exact congrArg some (if_neg h)
    rwa [hnew]

def coded (code : Bytes) : Option AccountView → Option AccountView :=
  Option.map fun w => { w with
    codeHash := sha3 code
    code := if sha3 code = EmptySHA3 then [] else code }

theorem respects_coded (code : Bytes) : Respects (coded code) := by
  rintro K o o' (⟨rfl, rfl⟩ | ⟨w, st, rfl, rfl, hst⟩)
  · exact Similar.refl _ _
  · exact Or.inr ⟨_, st, rfl, rfl, hst⟩

omit [Sha3] in
theorem codeOf_similar {K : U256 → Prop} {o o' : Option AccountView} (h : Similar K o o') :
    codeOf o' = codeOf o := by
  rcases h with ⟨rfl, rfl⟩ | ⟨v, st, rfl, rfl, _⟩
  · rfl
  · rfl

/-- `setCode` does not mark the account as changed, so it has to be marked already. -/
theorem reverts_setCode {account : Account} (hs : s.WellFormed D)
    (hf : s.m_cache.find a = some account) (hd : account.isDirty = true) (code : Bytes) :
    Reverts (fun _ => False) s a account (·.setCode code) (.code a (account.codeIn s.m_db)) where
  found := hf
  coherent := coherent_setCode (hs.coherent a account hf) code
  dirty := hd
  address := rfl
  keeps := rfl
  effect := by
    refine Similar.of_eq ?_
    have hcode := (hs.coherent a account hf).code
    rw [view_setCode]
    refine congrArg some ?_
    apply AccountView.ext <;> try rfl
    · exact hcode
    · show (if sha3 (account.codeIn s.m_db) = EmptySHA3 then [] else account.codeIn s.m_db) =
        account.codeIn s.m_db
      rw [hcode, ite_eq_right_iff]
      intro hempty
      unfold Account.codeIn
      rw [if_pos hempty]

theorem acts_setCode (hs : s.WellFormed D) (hd : s.Dirty a) (newCode : Bytes) :
    Acts D (setCode a newCode) s (Function.update s.view a (coded newCode (s.view a))) := by
  obtain ⟨t, hrun, ht, hq⟩ := reads_code hs a
  obtain ⟨account, hf, hdt⟩ := hq.dirty a hd
  have hview := view_of_find hf
  have hold : codeOf (s.view a) = account.codeIn t.m_db := by
    rw [← codeOf_similar (hq.views a), hview]
    rfl
  have h := (reverts_setCode ht hf hdt newCode).acts ht fun k hk => hk.elim
  have hnew : some ((account.setCode newCode).view t.m_db) = coded newCode (t.view a) := by
    rw [hview, view_setCode]
    rfl
  rw [hnew] at h
  obtain ⟨u, hrun', hm, hu⟩ := Acts.after (hq.moves ht) hq.shows (respects_coded newCode) h
  rw [hold] at hrun
  exact ⟨u, (run_bind_ok hrun _).trans hrun', hm, hu⟩

/-! ### Whether or not they throw -/

/-- The ways back are kept, by what the computation does before it returns or throws. -/
def Keeps {α : Type} (D : Address → U256 → Prop) (x : StateM α) (s : State) : Prop :=
  Moves D s (x.run s).2

theorem Acts.keeps {x : StateM Unit} {w : Address → Option AccountView} (h : Acts D x s w) :
    Keeps D x s := by
  obtain ⟨t, hrun, hm, _⟩ := h
  unfold Keeps
  rw [hrun]
  exact hm

theorem Fails.keeps {α : Type} {x : StateM α} (h : Fails D x s) : Keeps D x s := by
  obtain ⟨e, t, hrun, hm⟩ := h
  unfold Keeps
  rw [hrun]
  exact hm

theorem Reads.keeps {α : Type} {x : StateM α} {v : α} (h : Reads D x s v) : Keeps D x s := by
  obtain ⟨t, hrun, ht, hq⟩ := h
  unfold Keeps
  rw [hrun]
  exact hq.moves ht

theorem Keeps.bind {α β : Type} {x : StateM α} {f : α → StateM β} (hx : Keeps D x s)
    (hf : ∀ v t, x.run s = (.ok v, t) → t.WellFormed D → Keeps D (f v) t) :
    Keeps D (x >>= f) s := by
  unfold Keeps at hx ⊢
  rw [run_bind]
  cases hr : x.run s with
  | mk r t =>
    rw [hr] at hx
    cases r with
    | ok v => exact hx.trans (hf v t hr hx.wellFormed)
    | error e => exact hx

theorem not_known (h : ¬ s.Known a) : s.view a = none ∧ s.m_accountStartNonce = Invalid256 := by
  rwa [Known, Classical.not_imp, not_not] at h

theorem fails_requireAccountStartNonce (h : s.m_accountStartNonce = Invalid256) :
    requireAccountStartNonce.run s = (.error .invalidAccountStartNonce, s) :=
  (run_bind_ok (run_get s) _).trans (by rw [if_pos h]; rfl)

theorem keeps_addBalance (hs : s.WellFormed D) (a : Address) (amount : U256) :
    Keeps D (addBalance a amount) s := by
  by_cases hk : s.Known a
  · exact (acts_addBalance hs hk amount).keeps
  · obtain ⟨hno, hstart⟩ := not_known hk
    exact (fails_addBalance hs hno hstart amount).keeps

theorem keeps_subBalance (hs : s.WellFormed D) (a : Address) (value : U256) :
    Keeps D (subBalance a value) s := by
  rcases le_or_gt value (balanceOf (s.view a)) with hv | hv
  · exact (acts_subBalance hs hv).keeps
  · exact (fails_subBalance hs hv).keeps

theorem keeps_transferBalance (hs : s.WellFormed D) (sender receiver : Address) (value : U256) :
    Keeps D (transferBalance sender receiver value) s :=
  (keeps_subBalance hs sender value).bind fun _ _ _ ht => keeps_addBalance ht receiver value

theorem keeps_setBalance (hs : s.WellFormed D) (a : Address) (value : U256) :
    Keeps D (setBalance a value) s :=
  (reads_balance hs a).keeps.bind fun _ _ _ ht => keeps_addBalance ht a _

theorem keeps_incNonce (hs : s.WellFormed D) (a : Address) : Keeps D (incNonce a) s := by
  by_cases hk : s.Known a
  · exact (acts_incNonce hs hk).keeps
  · obtain ⟨hno, hstart⟩ := not_known hk
    obtain ⟨ht, hq, _⟩ := load_spec hs a
    have hfail : Fails D (incNonce a) s := by
      refine ⟨.invalidAccountStartNonce, s.load a, (run_bind_ok (run_account s a) _).trans ?_,
        hq.moves ht⟩
      rw [show s.peek a = none from Option.map_eq_none_iff.mp hno]
      exact run_bind_error (fails_requireAccountStartNonce (hq.startNonce.trans hstart)) _
    exact hfail.keeps

theorem keeps_createContract (hs : s.WellFormed D) (hno : s.view a = none) :
    Keeps D (createContract a) s := by
  by_cases hk : s.Known a
  · exact (acts_createContract hs hno hk).keeps
  · obtain ⟨_, hstart⟩ := not_known hk
    have hfail : Fails D (createContract a) s :=
      ⟨_, s, run_bind_error (fails_requireAccountStartNonce hstart) _, Moves.refl hs⟩
    exact hfail.keeps

end State
end Aleth.Ethereum
