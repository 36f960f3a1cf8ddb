import Aleth.Ethereum.State

/-! What a state says about its accounts, whatever is in its cache.

`State.view` is what can be observed of every account. A state is `WellFormed`
when its caches tell the truth: accounts that are not marked as changed are
those of the database. Reading an account changes the cache, and no view
(`load_spec`). All this is up to a set `D` of storage slots that do not count:
no slots where everything is at stake, all of them where storage is not. -/
namespace Aleth.Ethereum
open Devcore Throwing
variable [Sha3]

/-- The account of the database. -/
def StateDB.view (db : StateDB) (a : Address) : Option AccountView :=
  (db.account a).map fun stored => (Account.ofStored stored).view db

/-- The same account but for the slots in `K`. -/
def Similar (K : U256 → Prop) (o o' : Option AccountView) : Prop :=
  (o = none ∧ o' = none) ∨
    ∃ v st, o = some v ∧ o' = some {v with storage := st} ∧ ∀ k, ¬ K k → st k = v.storage k

omit [Sha3] in
theorem Similar.refl (K : U256 → Prop) (o : Option AccountView) : Similar K o o := by
  cases o with
  | none => exact Or.inl ⟨rfl, rfl⟩
  | some v => exact Or.inr ⟨v, v.storage, rfl, rfl, fun _ _ => rfl⟩

omit [Sha3] in
theorem Similar.of_eq {K : U256 → Prop} {o o' : Option AccountView} (h : o' = o) :
    Similar K o o' := h ▸ Similar.refl K o

omit [Sha3] in
theorem Similar.eq {o o' : Option AccountView} {K : U256 → Prop} (h : Similar K o o')
    (hK : ∀ k, ¬ K k) : o' = o := by
  rcases h with ⟨rfl, rfl⟩ | ⟨v, st, rfl, rfl, hst⟩
  · rfl
  · rw [show st = v.storage from funext fun k => hst k (hK k)]

omit [Sha3] in
theorem Similar.symm {K : U256 → Prop} {o o' : Option AccountView} (h : Similar K o o') :
    Similar K o' o := by
  rcases h with ⟨ho, ho'⟩ | ⟨v, st, ho, ho', hst⟩
  · exact Or.inl ⟨ho', ho⟩
  · exact Or.inr ⟨_, v.storage, ho', ho, fun k hk => (hst k hk).symm⟩

omit [Sha3] in
theorem Similar.trans {K : U256 → Prop} {o₁ o₂ o₃ : Option AccountView} (h₁ : Similar K o₁ o₂)
    (h₂ : Similar K o₂ o₃) : Similar K o₁ o₃ := by
  rcases h₁ with ⟨rfl, rfl⟩ | ⟨v, st, rfl, rfl, hst⟩
  · exact h₂
  · rcases h₂ with ⟨h, _⟩ | ⟨w, st', hw, rfl, hst'⟩
    · cases h
    · cases hw
      exact Or.inr ⟨v, st', rfl, rfl, fun k hk => (hst' k hk).trans (hst k hk)⟩

omit [Sha3] in
theorem Similar.mono {K L : U256 → Prop} {o o' : Option AccountView} (h : Similar K o o')
    (hKL : ∀ k, K k → L k) : Similar L o o' := by
  rcases h with ⟨ho, ho'⟩ | ⟨v, st, ho, ho', hst⟩
  · exact Or.inl ⟨ho, ho'⟩
  · exact Or.inr ⟨v, st, ho, ho', fun k hk => hst k fun hk' => hk (hKL k hk')⟩

omit [Sha3] in
theorem Similar.eq_none_iff {K : U256 → Prop} {o o' : Option AccountView} (h : Similar K o o') :
    o' = none ↔ o = none := by
  rcases h with ⟨ho, ho'⟩ | ⟨v, st, ho, ho', _⟩
  · exact ⟨fun _ => ho, fun _ => ho'⟩
  · constructor
    · intro h
      rw [ho'] at h
      cases h
    · intro h
      rw [ho] at h
      cases h

namespace State
variable {s t u : State} {a b : Address} {D : Address → U256 → Prop}

/-- The state after `account`. -/
def load (s : State) (a : Address) : State := ((account a).run s).2

def view (s : State) (a : Address) : Option AccountView := (s.peek a).map (Account.view s.m_db)

/-- The account is in the cache and stays there: it counts as changed. -/
def Dirty (s : State) (a : Address) : Prop :=
  ∃ account, s.m_cache.find a = some account ∧ account.isDirty = true

structure WellFormed (D : Address → U256 → Prop) (s : State) : Prop where
  nonExisting : ∀ a ∈ s.m_nonExistingAccountsCache, s.m_db.account a = none
  coherent : ∀ a account, s.m_cache.find a = some account → account.Coherent s.m_db
  clean : ∀ a account, s.m_cache.find a = some account → account.isDirty = false →
    Similar (D a) (s.m_db.view a) (some (account.view s.m_db))

/-- Nothing that can be observed has changed, and no change is forgotten. -/
structure Quiet (D : Address → U256 → Prop) (s t : State) : Prop where
  db : t.m_db = s.m_db
  startNonce : t.m_accountStartNonce = s.m_accountStartNonce
  log : t.m_changeLog = s.m_changeLog
  views : ∀ a, Similar (D a) (s.view a) (t.view a)
  dirty : ∀ a, s.Dirty a → t.Dirty a

theorem Quiet.refl (s : State) : Quiet D s s :=
  ⟨rfl, rfl, rfl, fun _ => Similar.refl _ _, fun _ h => h⟩

theorem Quiet.trans (hst : Quiet D s t) (htu : Quiet D t u) : Quiet D s u where
  db := htu.db.trans hst.db
  startNonce := htu.startNonce.trans hst.startNonce
  log := htu.log.trans hst.log
  views a := (hst.views a).trans (htu.views a)
  dirty a h := htu.dirty a (hst.dirty a h)

/-! ### Accounts in the cache -/

theorem peek_of_find {account : Account} (h : s.m_cache.find a = some account) :
    s.peek a = some account := by
  unfold peek
  rw [h]

theorem view_of_find {account : Account} (h : s.m_cache.find a = some account) :
    s.view a = some (account.view s.m_db) := by
  rw [view, peek_of_find h]
  rfl

/-- Outside the cache an account is that of the database. -/
theorem view_of_find_none (hs : s.WellFormed D) (h : s.m_cache.find a = none) :
    s.view a = s.m_db.view a := by
  unfold view peek StateDB.view
  rw [h]
  dsimp only
  split
  case isTrue hin => rw [hs.nonExisting a hin]; rfl
  case isFalse => rw [Option.map_map]; rfl

/-- So it is in the cache, while it has not been changed. -/
theorem view_of_not_dirty (hs : s.WellFormed D) (h : ¬ s.Dirty a) :
    Similar (D a) (s.m_db.view a) (s.view a) := by
  cases hf : s.m_cache.find a with
  | none => exact Similar.of_eq (view_of_find_none hs hf)
  | some account =>
    rw [view_of_find hf]
    refine hs.clean a account hf ?_
    cases hd : account.isDirty with
    | false => rfl
    | true => exact (h ⟨account, hf, hd⟩).elim

theorem Dirty.view (h : s.Dirty a) : ∃ v, s.view a = some v := by
  obtain ⟨account, hf, _⟩ := h
  exact ⟨_, view_of_find hf⟩

theorem entry_of_find {account : Account} (h : s.m_cache.find a = some account) :
    s.entry a = account := by
  rw [entry, h]
  rfl

theorem find_modifyAccount (f : Account → Account) :
    (s.modifyAccount a f).m_cache.find b =
      if b = a then some (f (s.entry a)) else s.m_cache.find b := by
  rw [modifyAccount, SortedMap.find_insert]

theorem view_modifyAccount (f : Account → Account) :
    (s.modifyAccount a f).view b =
      if b = a then some ((f (s.entry a)).view s.m_db) else s.view b := by
  have hf := find_modifyAccount (s := s) (a := a) (b := b) f
  split
  case isTrue he =>
    rw [if_pos he] at hf
    exact view_of_find hf
  case isFalse he =>
    rw [if_neg he] at hf
    unfold State.view peek
    rw [hf]
    rfl

theorem dirty_modifyAccount (f : Account → Account) :
    (s.modifyAccount a f).Dirty b ↔
      if b = a then (f (s.entry a)).isDirty = true else s.Dirty b := by
  unfold Dirty
  rw [find_modifyAccount]
  split
  case isTrue => simp
  case isFalse => rfl

theorem WellFormed.modifyAccount (hs : s.WellFormed D) {f : Account → Account}
    (hc : (f (s.entry a)).Coherent s.m_db)
    (hd : (f (s.entry a)).isDirty = true ∨
      Similar (D a) (s.m_db.view a) (some ((f (s.entry a)).view s.m_db))) :
    (s.modifyAccount a f).WellFormed D where
  nonExisting := hs.nonExisting
  coherent b account hb := by
    rw [find_modifyAccount] at hb
    split at hb
    · cases hb
      exact hc
    · exact hs.coherent b account hb
  clean b account hb hclean := by
    rw [find_modifyAccount] at hb
    split at hb
    case isTrue he =>
      cases hb
      rcases hd with hdirty | hview
      · rw [hdirty] at hclean
        cases hclean
      · rw [he]
        exact hview
    case isFalse => exact hs.clean b account hb hclean

theorem coherent_entry (hs : s.WellFormed D) (h : s.Dirty a) : (s.entry a).Coherent s.m_db := by
  obtain ⟨account, hf, _⟩ := h
  rw [entry_of_find hf]
  exact hs.coherent a account hf

/-! ### Reading accounts -/

theorem coherent_ofStored (db : StateDB) {stored : StoredAccount} (h : db.account a = some stored) :
    (Account.ofStored stored).Coherent db where
  original k v hk := by cases hk
  code := by
    show sha3 (if stored.codeHash = EmptySHA3 then [] else db.code stored.codeHash) =
      stored.codeHash
    split
    case isTrue he => exact he.symm
    case isFalse he => exact db.code_hash a stored h he

/-- `m_cache.erase(address)`. -/
def uncache (s : State) (a : Address) : State := {s with m_cache := s.m_cache.erase a}

theorem WellFormed.uncache (hs : s.WellFormed D) (a : Address) : (s.uncache a).WellFormed D where
  nonExisting := hs.nonExisting
  coherent b account hb := by
    rw [State.uncache, SortedMap.find_erase] at hb
    split at hb
    · cases hb
    · exact hs.coherent b account hb
  clean b account hb := by
    rw [State.uncache, SortedMap.find_erase] at hb
    split at hb
    · cases hb
    · exact hs.clean b account hb

theorem view_uncache (hs : s.WellFormed D) :
    (s.uncache a).view b = if b = a then s.m_db.view a else s.view b := by
  have hf : (s.uncache a).m_cache.find b = if b = a then none else s.m_cache.find b :=
    SortedMap.find_erase _ _ _
  split
  case isTrue he =>
    subst he
    rw [if_pos rfl] at hf
    exact view_of_find_none (hs.uncache b) hf
  case isFalse he =>
    rw [if_neg he] at hf
    unfold State.view peek
    rw [hf]
    rfl

theorem dirty_uncache : (s.uncache a).Dirty b ↔ b ≠ a ∧ s.Dirty b := by
  unfold Dirty uncache
  dsimp only
  rw [SortedMap.find_erase]
  split
  case isTrue he => simp [he]
  case isFalse he => simp [he]

/-- An account that has not been changed can leave the cache. -/
theorem quiet_uncache (hs : s.WellFormed D) (h : ¬ s.Dirty a) : Quiet D s (s.uncache a) where
  db := rfl
  startNonce := rfl
  log := rfl
  views b := by
    rw [view_uncache hs]
    split
    case isTrue he =>
      rw [he]
      exact (view_of_not_dirty hs h).symm
    case isFalse => exact Similar.refl _ _
  dirty b hb := dirty_uncache.mpr ⟨fun he => h (he ▸ hb), hb⟩

/-- The account list and the engine are the cache's own. -/
theorem evict_spec (hs : s.WellFormed D) : s.evict.WellFormed D ∧ Quiet D s s.evict := by
  unfold evict
  dsimp only
  split
  case h_2 =>
    exact ⟨⟨hs.nonExisting, hs.coherent, hs.clean⟩, rfl, rfl, rfl, fun _ => Similar.refl _ _,
      fun _ h => h⟩
  case h_1 addr account hf =>
    split
    case isFalse =>
      exact ⟨⟨hs.nonExisting, hs.coherent, hs.clean⟩, rfl, rfl, rfl, fun _ => Similar.refl _ _,
      fun _ h => h⟩
    case isTrue hclean =>
      have hd : ¬ s.Dirty (s.m_unchangedCacheEntries.getD
          (s.engine 0 % s.m_unchangedCacheEntries.length) 0) := by
        intro hd
        obtain ⟨account', hf', hd'⟩ := hd
        rw [hf] at hf'
        cases hf'
        rw [hd'] at hclean
        cases hclean
      have hw := hs.uncache (s.m_unchangedCacheEntries.getD
          (s.engine 0 % s.m_unchangedCacheEntries.length) 0)
      have hq := quiet_uncache hs hd
      exact ⟨⟨hw.nonExisting, hw.coherent, hw.clean⟩, rfl, rfl, rfl, hq.views, hq.dirty⟩

theorem clearCacheIfTooLarge_spec (hs : s.WellFormed D) :
    s.clearCacheIfTooLarge.WellFormed D ∧ Quiet D s s.clearCacheIfTooLarge := by
  unfold clearCacheIfTooLarge
  generalize s.m_unchangedCacheEntries.length - 1000 = n
  induction n generalizing s with
  | zero => exact ⟨hs, Quiet.refl s⟩
  | succ n ih =>
    obtain ⟨hw, hq⟩ := evict_spec hs
    obtain ⟨hw', hq'⟩ := ih hw
    rw [Function.iterate_succ_apply]
    exact ⟨hw', hq.trans hq'⟩

/-- Evictions leave the cache without the accounts it did not have. -/
theorem find_clearCacheIfTooLarge (h : s.m_cache.find a = none) :
    s.clearCacheIfTooLarge.m_cache.find a = none := by
  unfold clearCacheIfTooLarge
  generalize s.m_unchangedCacheEntries.length - 1000 = n
  induction n generalizing s with
  | zero => exact h
  | succ n ih =>
    rw [Function.iterate_succ_apply]
    refine ih ?_
    unfold evict
    dsimp only
    split
    case h_2 => exact h
    case h_1 =>
      split
      case isFalse => exact h
      case isTrue =>
        show (s.m_cache.erase _).find a = none
        rw [SortedMap.find_erase, h, ite_self]

/-- `account` answers with what there is, and what it does to the cache does not show. -/
theorem run_account (s : State) (a : Address) :
    (account a).run s = (.ok (s.peek a), s.load a) := by
  have hfst : ((account a).run s).1 = .ok (s.peek a) := by
    unfold account peek
    rw [run_bind_ok (run_get s)]
    cases s.m_cache.find a with
    | some account => rfl
    | none =>
      dsimp only
      split
      case isTrue => rfl
      case isFalse =>
        cases s.m_db.account a with
        | none => rfl
        | some stored => rfl
  exact Prod.ext hfst rfl

theorem noteNonExisting_spec (hs : s.WellFormed D) (hf : s.m_cache.find a = none)
    (hdb : s.m_db.account a = none) : (s.noteNonExisting a).WellFormed D ∧
      Quiet D s (s.noteNonExisting a) ∧ (s.noteNonExisting a).m_cache.find a = none := by
  have hw : (s.noteNonExisting a).WellFormed D := by
    refine ⟨fun b hb => ?_, hs.coherent, hs.clean⟩
    rcases List.mem_cons.mp hb with rfl | hb
    · exact hdb
    · exact hs.nonExisting b hb
  refine ⟨hw, ⟨rfl, rfl, rfl, fun b => ?_, fun _ h => h⟩, hf⟩
  have hb : (s.noteNonExisting a).m_cache.find b = s.m_cache.find b := rfl
  cases hc : s.m_cache.find b with
  | some account =>
    exact Similar.of_eq ((view_of_find (hb.trans hc)).trans (view_of_find hc).symm)
  | none =>
    exact Similar.of_eq ((view_of_find_none hw (hb.trans hc)).trans (view_of_find_none hs hc).symm)

theorem noteStored_spec (hs : s.WellFormed D) (hf : s.m_cache.find a = none)
    {stored : StoredAccount} (hdb : s.m_db.account a = some stored) :
    (s.noteStored a stored).WellFormed D ∧ Quiet D s (s.noteStored a stored) ∧
      (s.noteStored a stored).m_cache.find a = some (.ofStored stored) := by
  have hview : s.m_db.view a = some ((Account.ofStored stored).view s.m_db) := by
    rw [StateDB.view, hdb]
    rfl
  have hput := hs.modifyAccount (a := a) (f := fun _ => .ofStored stored)
    (coherent_ofStored s.m_db hdb) (Or.inr (Similar.of_eq hview.symm))
  have hfind := find_modifyAccount (s := s) (a := a) (b := a) fun _ => .ofStored stored
  rw [if_pos rfl] at hfind
  refine ⟨⟨hput.nonExisting, hput.coherent, hput.clean⟩, ⟨rfl, rfl, rfl, fun b => ?_,
    fun b hb => ?_⟩, hfind⟩
  · have hv := view_modifyAccount (s := s) (a := a) (b := b) fun _ => .ofStored stored
    refine Similar.of_eq (hv.trans ?_)
    split
    case isTrue he => rw [he, view_of_find_none hs hf, hview]
    case isFalse => rfl
  · have hd := dirty_modifyAccount (s := s) (a := a) (b := b) fun _ => .ofStored stored
    refine hd.mpr ?_
    split
    case isTrue he =>
      obtain ⟨account, hfa, _⟩ := hb
      rw [he, hf] at hfa
      cases hfa
    case isFalse => exact hb

theorem load_spec (hs : s.WellFormed D) (a : Address) :
    (s.load a).WellFormed D ∧ Quiet D s (s.load a) ∧ (s.load a).m_cache.find a = s.peek a := by
  unfold load account peek
  rw [run_bind_ok (run_get s)]
  cases hf : s.m_cache.find a with
  | some account => exact ⟨hs, Quiet.refl s, hf⟩
  | none =>
    dsimp only
    split
    case isTrue => exact ⟨hs, Quiet.refl s, hf⟩
    case isFalse hno =>
      cases hdb : s.m_db.account a with
      | none => exact noteNonExisting_spec hs hf hdb
      | some stored =>
        obtain ⟨hw, hq⟩ := clearCacheIfTooLarge_spec hs
        have hdb' : s.clearCacheIfTooLarge.m_db.account a = some stored := by rw [hq.db, hdb]
        obtain ⟨hw', hq', hf'⟩ := noteStored_spec hw (find_clearCacheIfTooLarge hf) hdb'
        exact ⟨hw', hq.trans hq', hf'⟩

theorem load_peek (hs : s.WellFormed D) (a : Address) : (s.load a).peek a = s.peek a := by
  obtain ⟨_, hq, hf⟩ := load_spec hs a
  cases hp : s.peek a with
  | some account =>
    rw [hp] at hf
    exact peek_of_find hf
  | none =>
    have hv := hq.views a
    rw [view, view, hp] at hv
    rcases hv with ⟨_, hv⟩ | ⟨v, st, hv, _⟩
    · exact Option.map_eq_none_iff.mp hv
    · cases hv

end State
end Aleth.Ethereum
