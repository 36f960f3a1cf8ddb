import Mathlib.Order.Defs.LinearOrder
import Mathlib.Data.Nat.Init
import Mathlib.Tactic.Common

/-! While loops.

`run` goes round a loop as long as the condition holds and the fuel lasts.
`Ends` is what the loop is without the fuel: it comes to a state where the
condition fails, with any fuel from some number on. `ends_of_variant` is the
rule for it: an invariant, and a number that every turn makes smaller. -/
namespace Loops
variable {σ : Type} (cond : σ → Bool) (body : σ → σ)

def run : (fuel : ℕ) → σ → Option σ
  | 0, _ => none
  | fuel + 1, s => if cond s then run fuel (body s) else some s

/-- The loop ends in a state. -/
def Ends (s s' : σ) : Prop := ∃ n, ∀ fuel, n ≤ fuel → run cond body fuel s = some s'

variable {cond body} {s s₁ s₂ : σ}

theorem run_of_not (h : cond s = false) (fuel : ℕ) : run cond body (fuel + 1) s = some s := by
  rw [run, if_neg (Bool.eq_false_iff.mp h)]

theorem run_of_cond (h : cond s = true) (fuel : ℕ) :
    run cond body (fuel + 1) s = run cond body fuel (body s) := by
  rw [run, if_pos h]

theorem Ends.refl (h : cond s = false) : Ends cond body s s := by
  refine ⟨1, fun fuel hle => ?_⟩
  rw [← Nat.sub_add_cancel hle]
  exact run_of_not h _

theorem Ends.turn (h : cond s = true) (hs : Ends cond body (body s) s₁) : Ends cond body s s₁ := by
  obtain ⟨n, hn⟩ := hs
  refine ⟨n + 1, fun fuel hle => ?_⟩
  rw [← Nat.sub_add_cancel (Nat.le_of_add_left_le hle), run_of_cond h]
  exact hn _ (by omega)

theorem Ends.unique (h₁ : Ends cond body s s₁) (h₂ : Ends cond body s s₂) : s₁ = s₂ := by
  obtain ⟨n₁, hn₁⟩ := h₁
  obtain ⟨n₂, hn₂⟩ := h₂
  have hsame := (hn₁ (n₁ + n₂) (Nat.le_add_right _ _)).symm.trans
    (hn₂ (n₁ + n₂) (Nat.le_add_left _ _))
  exact Option.some.inj hsame

/-- The number bounds the turns, so that fuel above it is enough. -/
theorem run_of_variant {I : σ → Prop} (variant : σ → ℕ)
    (hbody : ∀ s, I s → cond s = true → I (body s) ∧ variant (body s) < variant s) (h : I s) :
    ∃ s', (∀ fuel, variant s < fuel → run cond body fuel s = some s') ∧ I s' ∧
      cond s' = false := by
  induction hn : variant s using Nat.strongRecOn generalizing s with
  | ind n ih =>
    subst hn
    cases hc : cond s with
    | false =>
      refine ⟨s, fun fuel hfuel => ?_, h, hc⟩
      rw [← Nat.sub_add_cancel (Nat.one_le_of_lt hfuel)]
      exact run_of_not hc _
    | true =>
      obtain ⟨hI, hlt⟩ := hbody s h hc
      obtain ⟨s', hruns, hI', hc'⟩ := ih _ hlt hI rfl
      refine ⟨s', fun fuel hfuel => ?_, hI', hc'⟩
      rw [← Nat.sub_add_cancel (Nat.one_le_of_lt hfuel), run_of_cond hc]
      exact hruns _ (by omega)

/-- **A loop that keeps an invariant and makes a number smaller ends with the invariant.** -/
theorem ends_of_variant {I : σ → Prop} (variant : σ → ℕ)
    (hbody : ∀ s, I s → cond s = true → I (body s) ∧ variant (body s) < variant s) (h : I s) :
    ∃ s', Ends cond body s s' ∧ I s' ∧ cond s' = false := by
  obtain ⟨s', hruns, hI, hc⟩ := run_of_variant variant hbody h
  exact ⟨s', ⟨variant s + 1, fun fuel hle => hruns fuel hle⟩, hI, hc⟩

end Loops
