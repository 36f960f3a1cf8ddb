import Aleth.Ethereum.StateWrites
import Aleth.Structure.Runs

/-! Rolling back.

Mutators are called one after another; a call that throws leaves what it had
written before (`perform`). After calls that meet `Restorable`, `rollback` makes
every observer answer what it answered at the savepoint (`rollback_answers`). -/
namespace Aleth.Ethereum
open Devcore Throwing
variable [Sha3]

/-- A call of a mutator. -/
inductive Mutation where
  | addBalance (id : Address) (amount : U256)
  | subBalance (a : Address) (value : U256)
  | setBalance (a : Address) (value : U256)
  | transferBalance (sender receiver : Address) (value : U256)
  | incNonce (a : Address)
  | setNonce (a : Address) (newNonce : U256)
  | setStorage (contract : Address) (key value : U256)
  | clearStorage (contract : Address)
  | setCode (a : Address) (code : Bytes)
  | createContract (a : Address)

def Mutation.call : Mutation → StateM Unit
  | .addBalance id amount => State.addBalance id amount
  | .subBalance a value => State.subBalance a value
  | .setBalance a value => State.setBalance a value
  | .transferBalance sender receiver value => State.transferBalance sender receiver value
  | .incNonce a => State.incNonce a
  | .setNonce a newNonce => State.setNonce a newNonce
  | .setStorage contract key value => State.setStorage contract key value
  | .clearStorage contract => State.clearStorage contract
  | .setCode a code => State.setCode a code
  | .createContract a => State.createContract a

namespace State
variable {s t s₀ : State} {a : Address} {D : Address → U256 → Prop}

/-- The state after the call, whether it returns or throws. -/
def perform (s : State) (m : Mutation) : State := (m.call.run s).2

/-- Storage and code are written on accounts that exist, contracts made where there is none. -/
def Admitted (s : State) : Mutation → Prop
  | .setStorage contract _ _ => (s.view contract).isSome
  | .clearStorage contract => (s.view contract).isSome
  | .setCode a _ => (s.view a).isSome
  | .createContract a => (s.view a).isNone
  | _ => True

instance (s : State) : (m : Mutation) → Decidable (s.Admitted m)
  | .setStorage contract _ _ => inferInstanceAs (Decidable ((s.view contract).isSome = true))
  | .clearStorage contract => inferInstanceAs (Decidable ((s.view contract).isSome = true))
  | .setCode a _ => inferInstanceAs (Decidable ((s.view a).isSome = true))
  | .createContract a => inferInstanceAs (Decidable ((s.view a).isNone = true))
  | .addBalance _ _ | .subBalance _ _ | .setBalance _ _ | .transferBalance _ _ _ | .incNonce _
  | .setNonce _ _ => isTrue trivial

/-- The storage of the account can be cleared: it is in the cache, and what was written over its
trie was logged since the savepoint. -/
def Clearable (D : Address → U256 → Prop) (s₀ s : State) (a : Address) : Prop :=
  ∃ account, s.m_cache.find a = some account ∧ (account.m_storageRoot = EmptyTrie ∨
    ∀ k, account.storageIn s.m_db k ≠ account.original s.m_db k → loose D (since s₀ s) a k)

/-- What the call needs for its undo to lead back to `s₀`. -/
def Restorable (D : Address → U256 → Prop) (s₀ s : State) : Mutation → Prop
  | .clearStorage contract => Clearable D s₀ s contract
  | .setCode a _ => s.Dirty a
  | _ => True

/-- Every observer answers the same. -/
structure Answers (s t : State) : Prop where
  balance : ∀ a, ((balance a).run t).1 = ((balance a).run s).1
  getNonce : ∀ a, ((getNonce a).run t).1 = ((getNonce a).run s).1
  storage : ∀ a key, ((storage a key).run t).1 = ((storage a key).run s).1
  code : ∀ a, ((code a).run t).1 = ((code a).run s).1
  codeHash : ∀ a, ((codeHash a).run t).1 = ((codeHash a).run s).1
  addressInUse : ∀ a, ((addressInUse a).run t).1 = ((addressInUse a).run s).1

theorem Reads.fst {α : Type} {x : StateM α} {v : α} (h : Reads D x s v) :
    (x.run s).1 = .ok v := by
  obtain ⟨t, hrun, _⟩ := h
  rw [hrun]

/-- Observers answer from the views. -/
theorem answers_of_view (hs : s.WellFormed D) (ht : t.WellFormed D) (hview : t.view = s.view)
    (hstart : t.m_accountStartNonce = s.m_accountStartNonce) : Answers s t where
  balance a := by rw [(reads_balance hs a).fst, (reads_balance ht a).fst, hview]
  getNonce a := by rw [(reads_getNonce hs a).fst, (reads_getNonce ht a).fst, hview, hstart]
  storage a key := by rw [(reads_storage hs a key).fst, (reads_storage ht a key).fst, hview]
  code a := by rw [(reads_code hs a).fst, (reads_code ht a).fst, hview]
  codeHash a := by rw [(reads_codeHash hs a).fst, (reads_codeHash ht a).fst, hview]
  addressInUse a := by rw [(reads_addressInUse hs a).fst, (reads_addressInUse ht a).fst, hview]

/-- Clearing the storage keeps the way back to `s₀`. -/
theorem Back.clearStorage (hb : Back D s₀ s) (hc : Clearable D s₀ s a) :
    Back D s₀ ((clearStorage a).run s).2 := by
  obtain ⟨account, hf, h | h⟩ := hc
  · obtain ⟨hw, hq⟩ := quiet_modifyAccount (f := id) hb.wellFormed hf
      (hb.wellFormed.coherent a account hf) rfl (Or.inr rfl)
    rw [run_clearStorage_of_empty hf h]
    exact hb.quiet hw hq
  · by_cases hroot : account.m_storageRoot = EmptyTrie
    · obtain ⟨hw, hq⟩ := quiet_modifyAccount (f := id) hb.wellFormed hf
        (hb.wellFormed.coherent a account hf) rfl (Or.inr rfl)
      rw [run_clearStorage_of_empty hf hroot]
      exact hb.quiet hw hq
    · rw [run_clearStorage hf hroot]
      exact (reverts_clearStorage hb.wellFormed hf).back hb h

/-- One call keeps the way back. -/
theorem Back.perform (hb : Back D s₀ s) {m : Mutation} (ha : s.Admitted m)
    (hr : Restorable D s₀ s m) : Back D s₀ (s.perform m) := by
  have hs := hb.wellFormed
  cases m with
  | addBalance id amount => exact (keeps_addBalance hs id amount).back s₀ hb
  | subBalance a value => exact (keeps_subBalance hs a value).back s₀ hb
  | setBalance a value => exact (keeps_setBalance hs a value).back s₀ hb
  | transferBalance sender receiver value =>
    exact (keeps_transferBalance hs sender receiver value).back s₀ hb
  | incNonce a => exact (keeps_incNonce hs a).back s₀ hb
  | setNonce a newNonce => exact (acts_setNonce hs a newNonce).keeps.back s₀ hb
  | setStorage contract key value => exact (acts_setStorage hs (Option.isSome_iff_ne_none.mp ha) key value).keeps.back s₀ hb
  | clearStorage contract => exact hb.clearStorage hr
  | setCode a code => exact (acts_setCode hs hr code).keeps.back s₀ hb
  | createContract a => exact (keeps_createContract hs (Option.isNone_iff_eq_none.mp ha)).back s₀ hb

/-- No slot is left out. -/
def nowhere : Address → U256 → Prop := fun _ _ => False

theorem rollback_answers (s₀ : State) (ms : List Mutation) (hs : s₀.WellFormed nowhere)
    (ha : Runs.Along perform Admitted s₀ ms)
    (hr : Runs.Along perform (Restorable nowhere s₀) s₀ ms) :
    Answers s₀ (rollback s₀.savepoint (ms.foldl perform s₀)) := by
  have hb : Back nowhere s₀ (ms.foldl perform s₀) :=
    (ha.and hr).foldl (P := Back nowhere s₀) (fun hb h => hb.perform h.1 h.2) (Back.refl hs)
  obtain ⟨hw, _, hagree⟩ := hb.rollback
  refine answers_of_view hs hw (funext fun a => ?_) hagree.startNonce
  exact (hagree.similar a).eq fun k hk => hk

theorem wellFormed_initial (db : StateDB) (startNonce : U256) (engine : ℕ → ℕ) :
    WellFormed D ⟨db, .empty, [], [], startNonce, [], engine⟩ where
  nonExisting a ha := by cases ha
  coherent a account ha := by cases ha
  clean a account ha := by cases ha

end State
end Aleth.Ethereum

/-! ### Samples -/
namespace Aleth.Ethereum.State
open Devcore Throwing

/-- Keccak-256 on the strings that are hashed below: none, and the empty trie's node. -/
@[reducible] def stateSha3 : Sha3 where
  sha3 b := H256.alignRight (toBigEndian 32
    (if b = [] then 0xc5d2460186f7233c927e7db2dcc703c0e500b653ca82273b7bfad8045d85a470
      else if b = [0x80] then 0x56e81f171bcc55a6ff8345e692c0f86e5b48e01b996cadc001622fb5e363b421
      else 0))

attribute [local instance] stateSha3

/-- The root of a storage trie with 7 at slot 2. -/
def sampleRoot : H256 := H256.alignRight (toBigEndian 32
  0xb011199f93fd3dbdc70585cfd188e54fe531bd5eca7ed20beca173fd8df33803)

theorem sampleRoot_ne : EmptyTrie ≠ sampleRoot := by decide +kernel

/-- One account, with that storage and no code. -/
def sampleDB : StateDB where
  account a := if a = 1 then some ⟨0, 10, sampleRoot, EmptySHA3⟩ else none
  storage root k := if root = sampleRoot ∧ k = 2 then 7 else 0
  code _ := []
  storage_empty k := if_neg fun h => sampleRoot_ne h.1
  code_hash a s ha hs := by
    split at ha
    · cases ha
      exact (hs rfl).elim
    · cases ha

def sampleState : State := ⟨sampleDB, .empty, [], [], 0, [], fun _ => 0⟩

/-- A slot is written after the savepoint, then the storage is cleared, and more besides. -/
def sampleCalls : List Mutation :=
  [.setStorage 1 1 5, .setBalance 1 20, .clearStorage 1, .setCode 1 [], .transferBalance 1 2 3,
    .incNonce 2, .createContract 3, .subBalance 4 1]

/-- The account of the sample with the slot written and the balance set. -/
def sampleAccount : Account :=
  { m_isAlive := true, m_balance := 20, m_storageRoot := sampleRoot
    m_storageOverlay := .insert .empty 1 5, m_storageOriginal := .insert .empty 1 0 }

theorem clearable_sample :
    Clearable nowhere sampleState ((sampleCalls.take 2).foldl perform sampleState) 1 := by
  refine ⟨sampleAccount, by decide +kernel, Or.inr fun k hk => Or.inr ?_⟩
  have hk1 : k = 1 := by
    by_contra hne
    apply hk
    show ((SortedMap.insert .empty 1 5).find k).getD _ = _
    rw [SortedMap.find_insert, if_neg hne]
    rfl
  subst hk1
  exact ⟨0, by decide +kernel⟩

theorem rollback_answers_sample :
    Answers sampleState
      (rollback sampleState.savepoint (sampleCalls.foldl perform sampleState)) :=
  rollback_answers sampleState sampleCalls (wellFormed_initial _ _ _) (by decide +kernel)
    ⟨trivial, trivial, clearable_sample, ⟨_, rfl, by decide +kernel⟩, trivial, trivial, trivial,
      trivial, trivial⟩

/-- A slot written before the savepoint is lost when clearing the storage is undone. -/
theorem clearStorage_not_undone :
    let s₀ := sampleState.perform (.setStorage 1 1 5)
    Runs.Along perform Admitted s₀ [.clearStorage 1] ∧
      ¬ Answers s₀ (rollback s₀.savepoint ([.clearStorage 1].foldl perform s₀)) := by
  refine ⟨by decide +kernel, fun h => ?_⟩
  have hslot := h.storage 1 1
  revert hslot
  decide +kernel

end Aleth.Ethereum.State
