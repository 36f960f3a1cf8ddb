import Aleth.Ethereum.Levels
import Mathlib.Algebra.BigOperators.Group.Finset.Basic
import Mathlib.Algebra.Order.BigOperators.Group.Finset
import Mathlib.Data.FinEnum

/-! The ether of all accounts.

Transfers between accounts keep the sum of all balances, also where sender and
receiver are the same; the destruction of an account can only lose ether. While
the sum is below `2 ^ 256` no balance wraps. So the frames of executives spend
what there is, and make nothing (`course_spends`). -/
namespace Aleth.Ethereum
open Devcore Throwing Evm

/-! ### Sums of balances -/

def total (w : Address → Option AccountView) : ℕ := ∑ a, (balanceOf (w a)).toNat

section Total
variable {w w' : Address → Option AccountView} {a : Address} {value : U256}

theorem total_congr (h : ∀ a, balanceOf (w' a) = balanceOf (w a)) : total w' = total w :=
  Finset.sum_congr rfl fun a _ => congrArg BitVec.toNat (h a)

/-- An account that is replaced adds what it has, less what was there. -/
theorem total_update (w : Address → Option AccountView) (a : Address) (o : Option AccountView) :
    total (Function.update w a o) + (balanceOf (w a)).toNat = total w + (balanceOf o).toNat := by
  have hbalance : (fun b => (balanceOf (Function.update w a o b)).toNat) =
      Function.update (fun b => (balanceOf (w b)).toNat) a (balanceOf o).toNat := by
    funext b
    by_cases hb : b = a
    · rw [hb, Function.update_self, Function.update_self]
    · rw [Function.update_of_ne hb, Function.update_of_ne hb]
  have hrest := Finset.add_sum_erase Finset.univ (fun b => (balanceOf (w b)).toNat)
    (Finset.mem_univ a)
  have hsum : total (Function.update w a o) = (balanceOf o).toNat +
      ∑ b ∈ Finset.univ.erase a, (balanceOf (w b)).toNat := by
    unfold total
    rw [hbalance, Finset.sum_update_of_mem (Finset.mem_univ a), Finset.sdiff_singleton_eq_erase]
  unfold total at hsum ⊢
  omega

theorem balance_le_total (w : Address → Option AccountView) (a : Address) :
    (balanceOf (w a)).toNat ≤ total w :=
  Finset.single_le_sum (f := fun a => (balanceOf (w a)).toNat) (fun _ _ => Nat.zero_le _)
    (Finset.mem_univ a)

/-- Of one account alone. -/
theorem total_single (a : Address) (o : Option AccountView) :
    total (Function.update (fun _ => none) a o) < 2 ^ 256 := by
  have hsum := total_update (fun _ => none) a o
  have hnone : total (fun _ => none) = 0 := by
    unfold total
    exact Finset.sum_eq_zero fun _ _ => rfl
  have hlt := (balanceOf o).isLt
  omega

theorem balanceOf_debited {o : Option AccountView} (h : value ≤ balanceOf o) :
    (balanceOf (State.debited value o)).toNat = (balanceOf o).toNat - value.toNat := by
  cases o with
  | none => exact (Nat.zero_sub _).symm
  | some v => exact BitVec.toNat_sub_of_le h

theorem total_debited (h : value ≤ balanceOf (w a)) :
    total (Function.update w a (State.debited value (w a))) + value.toNat = total w := by
  have hsum := total_update w a (State.debited value (w a))
  have hbalance := balanceOf_debited h
  have hle : value.toNat ≤ (balanceOf (w a)).toNat := h
  omega

variable [Sha3] {startNonce : U256}

theorem balanceOf_credited (o : Option AccountView) :
    balanceOf (State.credited startNonce value o) = balanceOf o + value := by
  cases o with
  | none => exact (BitVec.zero_add value).symm
  | some v => rfl

/-- No balance wraps. -/
theorem total_credited (h : total w + value.toNat < 2 ^ 256) :
    total (Function.update w a (State.credited startNonce value (w a))) =
      total w + value.toNat := by
  have hsum := total_update w a (State.credited startNonce value (w a))
  have hle := balance_le_total w a
  rw [balanceOf_credited, BitVec.toNat_add, Nat.mod_eq_of_lt (by omega)] at hsum
  omega

/-- What is sent is received. -/
theorem total_transferred {sender receiver : Address} (hv : value ≤ balanceOf (w sender))
    (h : total w < 2 ^ 256) :
    total (State.transferred startNonce w sender receiver value) = total w := by
  have hsent := total_debited hv
  rw [State.transferred, total_credited (by omega)]
  exact hsent

/-- The ether of a destroyed account is received, or lost with the account. -/
theorem total_destroyed (dying receiver : Address) :
    total (State.destroyed startNonce w dying receiver) ≤ total w := by
  have hgiven := total_update w receiver
    (State.credited startNonce (balanceOf (w dying)) (w receiver))
  rw [balanceOf_credited] at hgiven
  have hsum : (balanceOf (w receiver) + balanceOf (w dying)).toNat ≤
      (balanceOf (w receiver)).toNat + (balanceOf (w dying)).toNat := by
    rw [BitVec.toNat_add]
    exact Nat.mod_le ..
  unfold State.destroyed
  dsimp only
  generalize hw' : Function.update w receiver
    (State.credited startNonce (balanceOf (w dying)) (w receiver)) = w' at hgiven ⊢
  have htaken := total_update w' dying
    (State.credited startNonce (0 - balanceOf (w' dying)) (w' dying))
  rw [balanceOf_credited] at htaken
  have hnothing : (balanceOf (w' dying) + (0 - balanceOf (w' dying))).toNat = 0 := by
    rw [add_sub_cancel]
    rfl
  rw [hnothing] at htaken
  by_cases hself : dying = receiver
  · have hheld : balanceOf (w' dying) = balanceOf (w receiver) + balanceOf (w dying) := by
      rw [← hw', hself, Function.update_self, balanceOf_credited]
    have hnat := congrArg BitVec.toNat hheld
    omega
  · have hheld : balanceOf (w' dying) = balanceOf (w dying) := by
      rw [← hw', Function.update_of_ne hself]
    have hnat := congrArg BitVec.toNat hheld
    omega

end Total

/-! ### Frames -/

/-- What a frame does to the ether: none is made, and none is lost where nothing is destroyed.
Refunds are not taken back, unless storage is paid for by what changes on the whole. -/
structure Spends [Sha3] (env : Env) (f g : Frame) : Prop where
  le : total f.1.view < 2 ^ 256 → total g.1.view ≤ total f.1.view
  suicides : f.2.suicides ⊆ g.2.suicides
  keeps : total f.1.view < 2 ^ 256 → g.2.suicides = ∅ → total g.1.view = total f.1.view
  refunds : env.m_sealEngine.evmSchedule.eip1283Mode = false → f.2.refunds ≤ g.2.refunds

/-- All slots. -/
def everywhere : Address → U256 → Prop := fun _ _ => True

variable [Sha3]

theorem Spends.of_eq {env : Env} {s t : State} (u : SubState)
    (h : total s.view < 2 ^ 256 → total t.view = total s.view) : Spends env (s, u) (t, u) :=
  ⟨fun hs => (h hs).le, Finset.Subset.refl _, fun hs _ => h hs, fun _ => le_rfl⟩

theorem course_spends (env : Env) : Course env everywhere false (Spends env) where
  trans h₁ h₂ := by
    refine ⟨fun hf => (h₂.le ((h₁.le hf).trans_lt hf)).trans (h₁.le hf),
      h₁.suicides.trans h₂.suicides, fun hf hnone => ?_,
      fun hmode => (h₁.refunds hmode).trans (h₂.refunds hmode)⟩
    have hmiddle := Finset.subset_empty.mp (hnone ▸ h₂.suicides)
    exact (h₂.keeps ((h₁.le hf).trans_lt hf) hnone).trans (h₁.keeps hf hmiddle)
  agree u h := .of_eq u fun _ => total_congr fun a => balanceOf_similar (h.similar a)
  transfer u _ hv _ h := by
    refine .of_eq u fun hs => ?_
    rw [total_congr fun a => balanceOf_similar (h a)]
    exact total_transferred hv hs
  write u _ h := .of_eq u fun _ => total_congr h
  destroy {s t dying receiver} u _ h := by
    refine ⟨fun _ => ?_, Finset.subset_insert .., fun _ hnone => ?_, fun _ => le_rfl⟩
    · rw [total_congr fun a => balanceOf_similar (h a)]
      exact total_destroyed ..
    · exact absurd hnone (Finset.insert_ne_empty dying u.suicides)
  note _ hsuicides hrefunds := by
    refine ⟨fun _ => le_rfl, hsuicides.symm.subset, fun _ _ => rfl, fun hmode => ?_⟩
    exact hrefunds.resolve_right (by simp [hmode])
  frame {s t v} u h := by
    refine ⟨h.le, Finset.subset_union_left, fun hs hnone => ?_, fun hmode => ?_⟩
    · exact h.keeps hs (Finset.union_eq_empty.mp hnone).2
    · exact le_add_of_nonneg_right (h.refunds hmode)
  clears _ _ _ := trivial

end Aleth.Ethereum
