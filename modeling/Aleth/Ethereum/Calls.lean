import Aleth.Ethereum.Transactions

/-! What calls and creations leave behind.

One that fails leaves nothing but the count of its creator, on whatever level it
is. One that is static leaves nothing at all, storage included, whatever is
called further: `course_stays` is the course of static frames. -/
namespace Aleth.Ethereum
open Devcore Throwing Evm

section Calls
variable [Sha3] {D : Address → U256 → Prop} {R : Frame → Frame → Prop} {env : Env}
  {ext : Evm.ExtVM} {f g : Frame}

/-! ### Calls that fail -/

theorem Counted.seen {c : Prop} [Decidable c] {sender : Address} {s s₀ : State}
    (h : Counted D R c sender s s₀) (a : Address) :
    seen s.m_accountStartNonce (s₀.view a) =
      (seen s.m_accountStartNonce (s.view a)).count (a = sender ∧ c) := by
  by_cases hc : c
  · rw [seen_similar (h.shows_ hc a), seen_counted]
    simp [Seen.count, hc]
  · rw [seen_similar ((h.quiet hc).views a), Seen.count_neg _ fun h => hc h.2]

theorem Called.seen {c : Prop} [Decidable c] {sender : Address} {gas : ℕ} {status : StatusCode}
    {left : U256} (h : Called D R c sender f gas status left g) (hfailed : status ≠ .success) :
    g.2 = f.2 ∧ ∀ a, seen f.1.m_accountStartNonce (g.1.view a) =
      (seen f.1.m_accountStartNonce (f.1.view a)).count (a = sender ∧ c) := by
  obtain ⟨hsub, s₀, hcounted, hinert⟩ := h.failed hfailed
  refine ⟨hsub, fun a => ?_⟩
  have hnonce : s₀.m_accountStartNonce = f.1.m_accountStartNonce :=
    hcounted.walks.forth.moves.startNonce
  rw [← hcounted.seen, ← hnonce]
  exact hinert.seen a

/-- Nothing at all is changed. -/
structure Stays (f g : Frame) : Prop where
  sub : g.2 = f.2
  startNonce : g.1.m_accountStartNonce = f.1.m_accountStartNonce
  inert : State.Inert State.nowhere f.1 g.1

theorem course_stays (env : Env) : Course env State.nowhere true Stays where
  trans h₁ h₂ := ⟨h₂.sub.trans h₁.sub, h₂.startNonce.trans h₁.startNonce,
    h₁.inert.trans h₁.startNonce h₂.inert⟩
  agree _ h := ⟨rfl, h.startNonce, h.inert⟩
  transfer _ hm hv hstatic h := ⟨rfl, hm.startNonce, h.inert hv (hstatic rfl)⟩
  write _ hno := Bool.noConfusion hno
  destroy _ hno := Bool.noConfusion hno
  note hno := Bool.noConfusion hno
  frame u h := by
    obtain ⟨hsub, hstart, hinert⟩ := h
    exact ⟨(congrArg u.add hsub).trans (SubState.add_empty u), hstart, hinert⟩
  clears hno := Bool.noConfusion hno

theorem State.Inert.same {s t : State} (h : State.Inert State.nowhere s t) (a : Address) :
    codeOf (t.view a) = codeOf (s.view a) ∧
      ∀ k, storageOf (t.view a) k = storageOf (s.view a) k := by
  rcases h a with hsame | ⟨hnone, hfresh⟩
  · rw [hsame.eq fun k hk => hk]
    exact ⟨rfl, fun _ => rfl⟩
  · rw [hfresh.eq fun k hk => hk, hnone]
    exact ⟨rfl, fun _ => rfl⟩

end Calls
end Aleth.Ethereum

/-! ### Samples -/
namespace Aleth.Ethereum
open Devcore Throwing Evm

attribute [local instance] State.stateSha3

/-- A frame of the first account. -/
def sampleExt : Evm.ExtVM where
  envInfo := sampleEnv.m_envInfo
  myAddress := 1
  caller := 1
  origin := 1
  value := 0
  gasPrice := 0
  data := .empty
  code := .empty
  depth := 0
  isCreate := false
  staticCall := false

/-- A contract is called that costs more than there is. -/
def sampleCall : CallParameters where
  senderAddress := 1
  codeAddress := 4
  receiveAddress := 4
  valueTransfer := 3
  apparentValue := 3
  gas := 100
  data := [0]

end Aleth.Ethereum
