import Mathlib

/-! Counted references as a resource.

A store counts the references to each of its entries. A computation that is
handed the references `a` and leaves the references `b` in their place
exchanges one for the other, whoever else holds references (`frame`). Counters
that do not go below zero are exact as long as only held references are
given up. -/
namespace Counting
variable {ι : Type}

/-- From counters `m` to counters `m'`, the references `a` are given up and `b` taken, wherever
the counter covers what is given up. -/
def Exchanges (m m' a b : ι → ℕ) : Prop := ∀ i, a i ≤ m i → m' i + a i = m i + b i

variable {m m' m'' a b c : ι → ℕ}

theorem Exchanges.refl (m a : ι → ℕ) : Exchanges m m a a := fun _ _ => rfl

theorem Exchanges.trans (h₁ : Exchanges m m' a b) (h₂ : Exchanges m' m'' b c) :
    Exchanges m m'' a c := by
  intro i ha
  have hab := h₁ i ha
  have hbc := h₂ i (by omega)
  omega

/-- What others hold stays theirs. -/
theorem Exchanges.frame (h : Exchanges m m' a b) (f : ι → ℕ) :
    Exchanges m m' (a + f) (b + f) := by
  intro i ha
  have := h i (le_trans (Nat.le_add_right _ _) ha)
  simp only [Pi.add_apply]
  omega

theorem Exchanges.congr {a' b' : ι → ℕ} (h : Exchanges m m' a b) (ha : a' = a) (hb : b' = b) :
    Exchanges m m' a' b' := by
  rwa [ha, hb]

/-- One reference given up. -/
theorem Exchanges.release (h : ∀ i, m' i = m i - a i) : Exchanges m m' a 0 := by
  intro i ha
  have := h i
  simp only [Pi.zero_apply]
  omega

/-- One reference taken. -/
theorem Exchanges.acquire (h : ∀ i, m' i = m i + b i) : Exchanges m m' 0 b := by
  intro i _
  have := h i
  simp only [Pi.zero_apply]
  omega

end Counting
