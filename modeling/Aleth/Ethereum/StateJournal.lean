import Aleth.Ethereum.StateView

/-! The changelog as a journal.

`Back D s₀ s` says that undoing what was logged since `s₀` leads from `s` to the
views of `s₀`. The changes are undone where their accounts are in the cache and
marked as changed (`Valid`), so that nothing is evicted meanwhile. Undoing a
change of storage root throws away all writes to the account's slots; that does
no harm to the slots that are set back afterwards (`covered`), and `Agree` says
that two states are equal but for these. -/
namespace Aleth.Ethereum
open Devcore Throwing
variable [Sha3]

/-- What undoing the change makes of its account. -/
def Change.effect (db : StateDB) (v : AccountView) : Change → Option AccountView
  | .storage _ key value => some {v with storage := Function.update v.storage key value}
  | .storageRoot _ value => some {v with root := value, storage := db.storage value}
  | .balance _ value => some {v with balance := v.balance + (0 - value)}
  | .nonce _ value => some {v with nonce := value}
  | .create a => db.view a
  | .code _ oldCode => some { v with
    codeHash := sha3 oldCode
    code := if sha3 oldCode = EmptySHA3 then [] else oldCode }
  | .touch _ => some v

/-- Undone, the account may leave the cache. -/
def Change.releases : Change → Bool
  | .create _ => true
  | .touch _ => true
  | _ => false

namespace State
variable {s t u s₀ : State} {a b : Address} {e : Change} {es : List Change}
  {D : Address → U256 → Prop}

/-- The slots of the account that the changes set back. -/
def covered (es : List Change) (a : Address) (k : U256) : Prop := ∃ v, Change.storage a k v ∈ es

/-- The slots that need not be equal now: those of `D`, and those that the changes set back. -/
def loose (D : Address → U256 → Prop) (es : List Change) (a : Address) (k : U256) : Prop :=
  D a k ∨ covered es a k

structure Agree (D : Address → U256 → Prop) (es : List Change) (s t : State) : Prop where
  db : t.m_db = s.m_db
  startNonce : t.m_accountStartNonce = s.m_accountStartNonce
  views : ∀ a, Similar (loose D es a) (s.view a) (t.view a)
  dirty : ∀ a, s.Dirty a → t.Dirty a

omit [Sha3] in
theorem covered_nil (a : Address) (k : U256) : ¬ covered [] a k := fun h => by
  obtain ⟨_, h⟩ := h
  cases h

theorem Agree.similar (h : Agree D [] s t) (a : Address) : Similar (D a) (s.view a) (t.view a) :=
  (h.views a).mono fun k hk => hk.resolve_right (covered_nil a k)

theorem Agree.trans (h₁ : Agree D es s t) (h₂ : Agree D es t u) : Agree D es s u where
  db := h₂.db.trans h₁.db
  startNonce := h₂.startNonce.trans h₁.startNonce
  views a := (h₁.views a).trans (h₂.views a)
  dirty a h := h₂.dirty a (h₁.dirty a h)

theorem Agree.of_nil (h : Agree D [] s t) (es : List Change) : Agree D es s t where
  db := h.db
  startNonce := h.startNonce
  views a := (h.similar a).mono fun _ hk => Or.inl hk
  dirty := h.dirty

theorem Quiet.agree (h : Quiet D s t) (es : List Change) : Agree D es s t where
  db := h.db
  startNonce := h.startNonce
  views a := (h.views a).mono fun _ hk => Or.inl hk
  dirty := h.dirty

/-! ### Undoing one change -/

@[simp] theorem undo_db (s : State) (e : Change) : (s.undo e).m_db = s.m_db := by
  cases e <;> rfl

@[simp] theorem undo_startNonce (s : State) (e : Change) :
    (s.undo e).m_accountStartNonce = s.m_accountStartNonce := by
  cases e <;> rfl

theorem view_setCode (account : Account) (code : Bytes) (db : StateDB) :
    (account.setCode code).view db = { account.view db with
      codeHash := sha3 code
      code := if sha3 code = EmptySHA3 then [] else code } := by
  apply AccountView.ext <;> try rfl
  show (if sha3 code = EmptySHA3 then [] else if code = [] then _ else code) = _
  by_cases hc : code = []
  · subst hc
    rw [if_pos (show sha3 [] = EmptySHA3 from rfl), if_pos (show sha3 [] = EmptySHA3 from rfl)]
  · rw [if_neg hc]

theorem view_setStorage (account : Account) (k v : U256) (db : StateDB) :
    (account.setStorage k v).view db = { account.view db with
      storage := Function.update (account.storageIn db) k v } := by
  apply AccountView.ext <;> try rfl
  funext k'
  show ((account.m_storageOverlay.insert k v).find k').getD _ =
    Function.update (account.storageIn db) k v k'
  rw [SortedMap.find_insert, Function.update_apply]
  split
  · rfl
  · rfl

theorem view_setStorageRoot (account : Account) (root : H256) (db : StateDB) :
    (account.setStorageRoot root).view db =
      {account.view db with root := root, storage := db.storage root} := rfl

/-- Undoing changes the account of the entry only. -/
theorem view_undo (hs : s.WellFormed D) (he : s.Dirty e.address) {v : AccountView}
    (hv : s.view e.address = some v) :
    (s.undo e).view b = if b = e.address then e.effect s.m_db v else s.view b := by
  obtain ⟨account, hf, _⟩ := he
  have hentry := entry_of_find hf
  rw [view_of_find hf] at hv
  cases hv
  cases e with
  | storage a key value =>
    refine (view_modifyAccount _).trans ?_
    rw [show s.entry a = account from hentry, view_setStorage]
    rfl
  | storageRoot a value =>
    refine (view_modifyAccount _).trans ?_
    rw [show s.entry a = account from hentry]
    rfl
  | balance a value =>
    refine (view_modifyAccount _).trans ?_
    rw [show s.entry a = account from hentry]
    rfl
  | nonce a value =>
    refine (view_modifyAccount _).trans ?_
    rw [show s.entry a = account from hentry]
    rfl
  | create a => exact view_uncache hs
  | code a oldCode =>
    refine (view_modifyAccount _).trans ?_
    rw [show s.entry a = account from hentry, view_setCode]
    rfl
  | touch a =>
    have hview : (s.undo (.touch a)).view b = (s.modifyAccount a Account.untouch).view b := rfl
    rw [hview, view_modifyAccount, show s.entry a = account from hentry]
    rfl

theorem dirty_undo (he : s.Dirty e.address) :
    (s.undo e).Dirty b ↔ s.Dirty b ∧ (e.releases = true → b ≠ e.address) := by
  obtain ⟨account, hf, hd⟩ := id he
  have hentry := entry_of_find hf
  have hset : ∀ f : Account → Account, (f account).isDirty = true →
      ((s.modifyAccount e.address f).Dirty b ↔ s.Dirty b) := by
    intro f hfd
    rw [dirty_modifyAccount, hentry]
    split
    case isTrue hb => rw [hb]; exact ⟨fun _ => he, fun _ => hfd⟩
    case isFalse => rfl
  cases e with
  | storage a key value => exact (hset _ rfl).trans (by simp [Change.releases])
  | storageRoot a value => exact (hset _ rfl).trans (by simp [Change.releases])
  | balance a value => exact (hset _ rfl).trans (by simp [Change.releases])
  | nonce a value => exact (hset _ rfl).trans (by simp [Change.releases])
  | create a =>
    refine dirty_uncache.trans ?_
    simp [Change.releases, Change.address, and_comm]
  | code a oldCode => exact (hset _ hd).trans (by simp [Change.releases])
  | touch a =>
    have hdirty : (s.undo (.touch a)).Dirty b ↔ (s.modifyAccount a Account.untouch).Dirty b :=
      Iff.rfl
    rw [hdirty, dirty_modifyAccount]
    by_cases hb : b = a
    · simp [hb, Change.releases, Change.address, Account.untouch, Account.isDirty]
    · simp [hb, Change.releases, Change.address]

theorem coherent_setCode {account : Account} {db : StateDB} (h : account.Coherent db)
    (code : Bytes) : (account.setCode code).Coherent db where
  original := h.original
  code := by
    have hview := congrArg AccountView.code (view_setCode account code db)
    rw [show (account.setCode code).codeIn db = _ from hview]
    show sha3 (if sha3 code = EmptySHA3 then [] else code) = sha3 code
    split
    case isTrue he => exact he.symm
    case isFalse => rfl

/-! ### Undoing many -/

/-- The change can be undone: its account is marked as changed, and, where the mark will be taken
away, otherwise as the database has it. -/
structure ValidEntry (D : Address → U256 → Prop) (s : State) (e : Change) : Prop where
  dirty : s.Dirty e.address
  touch : ∀ a, e = .touch a → Similar (D a) (s.m_db.view a) (s.view a)

def Valid (D : Address → U256 → Prop) : State → List Change → Prop
  | _, [] => True
  | s, e :: es => s.ValidEntry D e ∧ Valid D (s.undo e) es

theorem WellFormed.undo (hs : s.WellFormed D) (he : s.ValidEntry D e) : (s.undo e).WellFormed D := by
  obtain ⟨account, hf, hd⟩ := he.dirty
  have hc := hs.coherent _ account hf
  have hentry := entry_of_find hf
  have hset : ∀ f : Account → Account, (f account).Coherent s.m_db → (f account).isDirty = true →
      (s.modifyAccount e.address f).WellFormed D := by
    intro f hcf hdf
    refine hs.modifyAccount ?_ (Or.inl ?_)
    · rwa [hentry]
    · rwa [hentry]
  cases e with
  | storage a key value => exact hset (·.setStorage key value) ⟨hc.original, hc.code⟩ rfl
  | storageRoot a value =>
    refine hset (·.setStorageRoot value) ⟨fun k v hk => ?_, hc.code⟩ rfl
    cases hk
  | balance a value => exact hset (·.addBalance (0 - value)) ⟨hc.original, hc.code⟩ rfl
  | nonce a value => exact hset (·.setNonce value) ⟨hc.original, hc.code⟩ rfl
  | create a => exact hs.uncache a
  | code a oldCode => exact hset (·.setCode oldCode) (coherent_setCode hc oldCode) hd
  | touch a =>
    have h : (s.entry a).untouch = account.untouch := by
      rw [show s.entry a = account from hentry]
    have hview := he.touch a rfl
    rw [view_of_find (show s.m_cache.find a = some account from hf)] at hview
    have hw := hs.modifyAccount (a := a) (f := Account.untouch)
      (by rw [h]; exact ⟨hc.original, hc.code⟩) (Or.inr (by rw [h]; exact hview))
    exact ⟨hw.nonExisting, hw.coherent, hw.clean⟩

theorem WellFormed.undoAll (hs : s.WellFormed D) (he : s.Valid D es) : (s.undoAll es).WellFormed D := by
  induction es generalizing s with
  | nil => exact hs
  | cons e es ih => exact ih (hs.undo he.1) he.2

/-- What is not marked as changed is not mentioned. -/
theorem Valid.address_ne (hv : s.Valid D es) (h : ¬ s.Dirty a) : ∀ e ∈ es, e.address ≠ a := by
  induction es generalizing s with
  | nil => exact fun e he => by cases he
  | cons e es ih =>
    intro e' he'
    have hne : e.address ≠ a := fun h' => h (h' ▸ hv.1.dirty)
    rcases List.mem_cons.mp he' with rfl | he'
    · exact hne
    · exact ih hv.2 (fun hd => h ((dirty_undo hv.1.dirty).mp hd).1) e' he'

theorem Valid.not_covered (hv : s.Valid D es) (h : ¬ s.Dirty a) (k : U256) : ¬ covered es a k := by
  intro hk
  obtain ⟨v, hmem⟩ := hk
  exact hv.address_ne h _ hmem rfl

omit [Sha3] in
theorem loose_cons {k : U256} (h : loose D (e :: es) a k) :
    loose D es a k ∨ ∃ v, e = .storage a k v := by
  rcases h with h | ⟨v, hv⟩
  · exact Or.inl (Or.inl h)
  · rcases List.mem_cons.mp hv with he | he
    · exact Or.inr ⟨v, he.symm⟩
    · exact Or.inl (Or.inr ⟨v, he⟩)

/-- The slot that is set back need not be equal before. -/
theorem similar_effect {db : StateDB} {v : AccountView} {st : U256 → U256}
    (hst : ∀ k, ¬ loose D (e :: es) e.address k → st k = v.storage k) :
    Similar (loose D es e.address) (e.effect db v) (e.effect db {v with storage := st}) := by
  have hrest : (∀ a k x, e ≠ .storage a k x) → ∀ k, ¬ loose D es e.address k →
      st k = v.storage k := by
    intro hne k hk
    refine hst k fun hcov => ?_
    rcases loose_cons hcov with hcov | ⟨x, hx⟩
    · exact hk hcov
    · exact hne _ _ _ hx
  cases e with
  | storage a key value =>
    refine Or.inr ⟨_, _, rfl, rfl, fun k hk => ?_⟩
    show Function.update st key value k = Function.update v.storage key value k
    rw [Function.update_apply, Function.update_apply]
    split
    case isTrue => rfl
    case isFalse hne =>
      refine hst k fun hcov => ?_
      rcases loose_cons hcov with hcov | ⟨x, hx⟩
      · exact hk hcov
      · cases hx
        exact hne rfl
  | storageRoot a value => exact Similar.refl _ _
  | create a => exact Similar.refl _ _
  | balance a value => exact Or.inr ⟨_, st, rfl, rfl, hrest (by simp)⟩
  | nonce a value => exact Or.inr ⟨_, st, rfl, rfl, hrest (by simp)⟩
  | code a oldCode => exact Or.inr ⟨_, st, rfl, rfl, hrest (by simp)⟩
  | touch a => exact Or.inr ⟨v, st, rfl, rfl, hrest (by simp)⟩

/-- What undoing the first change leaves to the others. -/
theorem Agree.undo (h : Agree D (e :: es) s t) (hs : s.WellFormed D) (ht : t.WellFormed D)
    (hd : s.Dirty e.address) : Agree D es (s.undo e) (t.undo e) where
  db := by rw [undo_db, undo_db, h.db]
  startNonce := by rw [undo_startNonce, undo_startNonce, h.startNonce]
  views b := by
    obtain ⟨v, hv⟩ := hd.view
    rcases h.views e.address with ⟨hno, _⟩ | ⟨w, st, hw, hw', hst⟩
    · rw [hno] at hv
      cases hv
    · rw [hv] at hw
      cases hw
      rw [view_undo hs hd hv, view_undo ht (h.dirty _ hd) hw', h.db]
      split
      case isTrue hb =>
        rw [hb]
        exact similar_effect hst
      case isFalse hb =>
        refine (h.views b).mono fun k hk => ?_
        rcases loose_cons hk with hcov | ⟨x, hx⟩
        · exact hcov
        · rw [hx] at hb
          exact (hb rfl).elim
  dirty b hb := by
    obtain ⟨hb, hrel⟩ := (dirty_undo hd).mp hb
    exact (dirty_undo (h.dirty _ hd)).mpr ⟨h.dirty b hb, hrel⟩

theorem Agree.validEntry (h : Agree D (e :: es) s t) (hv : s.Valid D (e :: es)) :
    t.ValidEntry D e where
  dirty := h.dirty _ hv.1.dirty
  touch a he := by
    subst he
    have hclean : ¬ (s.undo (.touch a)).Dirty a := fun hd =>
      ((dirty_undo hv.1.dirty).mp hd).2 rfl rfl
    have hviews := (h.views a).mono (L := D a) fun k hk => by
      rcases loose_cons hk with (hin | hcov) | ⟨x, hx⟩
      · exact hin
      · exact (hv.2.not_covered hclean k hcov).elim
      · cases hx
    rw [h.db]
    exact (hv.1.touch a rfl).trans hviews

/-- States that agree but for what the changes set back agree once these are undone. -/
theorem Agree.undoAll (h : Agree D es s t) (hs : s.WellFormed D) (ht : t.WellFormed D)
    (hv : s.Valid D es) : t.Valid D es ∧ Agree D [] (s.undoAll es) (t.undoAll es) := by
  induction es generalizing s t with
  | nil => exact ⟨trivial, h⟩
  | cons e es ih =>
    have hentry := h.validEntry hv
    obtain ⟨hvalid, hagree⟩ := ih (h.undo hs ht hv.1.dirty) (hs.undo hv.1) (ht.undo hentry) hv.2
    exact ⟨⟨hentry, hvalid⟩, hagree⟩

/-! ### Since a savepoint -/

/-- Undoing what was logged since `s₀` gives what `s₀` was. -/
structure Back (D : Address → U256 → Prop) (s₀ s : State) : Prop where
  wellFormed : s.WellFormed D
  undone : ∃ es, s.m_changeLog = es ++ s₀.m_changeLog ∧ s.Valid D es ∧ Agree D [] s₀ (s.undoAll es)

theorem Back.refl (hs : s.WellFormed D) : Back D s s :=
  ⟨hs, [], rfl, trivial, (Quiet.refl s).agree []⟩

/-- The changes since `s₀`. -/
def since (s₀ s : State) : List Change :=
  s.m_changeLog.take (s.m_changeLog.length - s₀.m_changeLog.length)

theorem since_eq (h : s.m_changeLog = es ++ s₀.m_changeLog) : since s₀ s = es := by
  rw [since, h, List.length_append, Nat.add_sub_cancel, List.take_left]

theorem Back.of_agree (h : Back D s₀ s) (ht : t.WellFormed D) (hlog : t.m_changeLog = s.m_changeLog)
    (ha : Agree D (since s₀ s) s t) : Back D s₀ t := by
  obtain ⟨es, hes, hv, hundo⟩ := h.undone
  rw [since_eq hes] at ha
  obtain ⟨hvalid, hagree⟩ := ha.undoAll h.wellFormed ht hv
  exact ⟨ht, es, hlog.trans hes, hvalid, hundo.trans hagree⟩

/-- Reads. -/
theorem Back.quiet (h : Back D s₀ s) (ht : t.WellFormed D) (hq : Quiet D s t) : Back D s₀ t :=
  h.of_agree ht hq.log (hq.agree _)

/-- A change that was logged, and is undone first. -/
theorem Back.logged (h : Back D s₀ s) (ht : t.WellFormed D) (hlog : t.m_changeLog = e :: s.m_changeLog)
    (he : t.ValidEntry D e) (ha : Agree D (since s₀ s) s (t.undo e)) : Back D s₀ t := by
  obtain ⟨es, hes, hv, hundo⟩ := h.undone
  rw [since_eq hes] at ha
  obtain ⟨hvalid, hagree⟩ := ha.undoAll h.wellFormed (ht.undo he) hv
  exact ⟨ht, e :: es, by rw [hlog, hes]; rfl, ⟨he, hvalid⟩, hundo.trans hagree⟩

/-- `rollback` leads back. -/
theorem Back.rollback (h : Back D s₀ s) :
    (rollback s₀.savepoint s).WellFormed D ∧
      (rollback s₀.savepoint s).m_changeLog = s₀.m_changeLog ∧
      Agree D [] s₀ (rollback s₀.savepoint s) := by
  obtain ⟨es, hes, hv, hundo⟩ := h.undone
  have hw := h.wellFormed.undoAll hv
  have htake : s.m_changeLog.take (s.m_changeLog.length - s₀.savepoint) = es := since_eq hes
  have hdrop : s.m_changeLog.drop (s.m_changeLog.length - s₀.savepoint) = s₀.m_changeLog := by
    rw [savepoint, hes, List.length_append, Nat.add_sub_cancel, List.drop_left]
  unfold State.rollback
  dsimp only
  rw [htake, hdrop]
  exact ⟨⟨hw.nonExisting, hw.coherent, hw.clean⟩, rfl,
    ⟨hundo.db, hundo.startNonce, hundo.views, hundo.dirty⟩⟩

end State
end Aleth.Ethereum
