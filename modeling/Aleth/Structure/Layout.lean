import Mathlib.Data.List.Pairwise
import Mathlib.Data.Nat.ModEq
import Mathlib.Tactic.Common

/-! Consecutive ranges of numbers.

Items with sizes are laid out one after another from a base (`starts`). On the
line the ranges are in order and tile what they cover (`starts_pairwise`,
`exists_of_lt_total`). Where numbers wrap around at a modulus, an item occupies
the residues of its range (`Occupies`): two items then share a number exactly
when the sizes add up to more than the modulus (`apart_iff`). -/
namespace Layout
variable {α : Type} (size : α → ℕ)

def total (l : List α) : ℕ := (l.map size).sum

@[simp] theorem total_nil : total size [] = 0 := rfl

@[simp] theorem total_cons (a : α) (l : List α) : total size (a :: l) = size a + total size l := rfl

/-- Every item with the number its range starts at. -/
def starts : (base : ℕ) → List α → List (α × ℕ)
  | _, [] => []
  | base, a :: l => (a, base) :: starts (base + size a) l

variable {size}

theorem starts_map_fst (base : ℕ) (l : List α) : (starts size base l).map Prod.fst = l := by
  induction l generalizing base with
  | nil => rfl
  | cons a l ih => simp [starts, ih]

theorem mem_starts {base : ℕ} {l : List α} {x : α × ℕ} (h : x ∈ starts size base l) :
    x.1 ∈ l ∧ base ≤ x.2 ∧ x.2 + size x.1 ≤ base + total size l := by
  induction l generalizing base with
  | nil => cases h
  | cons a l ih =>
    rcases List.mem_cons.mp h with rfl | h
    · exact ⟨List.mem_cons_self, Nat.le_refl _, by simp only [total_cons]; omega⟩
    · obtain ⟨hm, hlo, hhi⟩ := ih h
      exact ⟨List.mem_cons_of_mem _ hm, by omega, by simp only [total_cons]; omega⟩

theorem starts_pairwise (base : ℕ) (l : List α) :
    (starts size base l).Pairwise (fun x y => x.2 + size x.1 ≤ y.2) := by
  induction l generalizing base with
  | nil => exact List.Pairwise.nil
  | cons a l ih => exact List.pairwise_cons.mpr ⟨fun y hy => (mem_starts hy).2.1, ih _⟩

/-- Every number covered lies in some range. -/
theorem exists_of_lt_total {base p : ℕ} {l : List α} (hlo : base ≤ p)
    (hhi : p < base + total size l) :
    ∃ x ∈ starts size base l, x.2 ≤ p ∧ p < x.2 + size x.1 := by
  induction l generalizing base with
  | nil => simp at hhi; omega
  | cons a l ih =>
    by_cases hp : p < base + size a
    · exact ⟨(a, base), List.mem_cons_self, hlo, hp⟩
    · have hlo' : base + size a ≤ p := not_lt.mp hp
      have hhi' : p < base + size a + total size l := by
        simp only [total_cons] at hhi
        omega
      obtain ⟨x, hx, hr⟩ := ih hlo' hhi'
      exact ⟨x, List.mem_cons_of_mem _ hx, hr⟩

theorem eq_of_covers {base p : ℕ} {l : List α} {x y : α × ℕ} (hx : x ∈ starts size base l)
    (hy : y ∈ starts size base l) (hxp : x.2 ≤ p ∧ p < x.2 + size x.1)
    (hyp : y.2 ≤ p ∧ p < y.2 + size y.1) : x = y := by
  by_contra hne
  have hsym : Std.Symm fun x y : α × ℕ => x.2 + size x.1 ≤ y.2 ∨ y.2 + size y.1 ≤ x.2 :=
    ⟨fun _ _ => Or.symm⟩
  have hpw : (starts size base l).Pairwise
      (fun x y => x.2 + size x.1 ≤ y.2 ∨ y.2 + size y.1 ≤ x.2) :=
    (starts_pairwise base l).imp Or.inl
  have := hpw.forall hx hy hne
  omega

theorem starts_congr {size' : α → ℕ} {base : ℕ} {l : List α} (h : ∀ a ∈ l, size a = size' a) :
    starts size base l = starts size' base l := by
  induction l generalizing base with
  | nil => rfl
  | cons a l ih =>
    rw [starts, starts, h a List.mem_cons_self, ih fun b hb => h b (List.mem_cons_of_mem _ hb)]

theorem total_congr {size' : α → ℕ} {l : List α} (h : ∀ a ∈ l, size a = size' a) :
    total size l = total size' l := congrArg List.sum (List.map_congr_left h)

theorem total_le_of_sublist {l l' : List α} (h : List.Sublist l l') :
    total size l ≤ total size l' := by
  induction h with
  | slnil => exact Nat.le_refl _
  | cons a _ ih => exact ih.trans (Nat.le_add_left _ _)
  | cons_cons a _ ih => exact Nat.add_le_add_left ih _

theorem exists_start {base : ℕ} {l : List α} {a : α} (h : a ∈ l) :
    ∃ n, (a, n) ∈ starts size base l := by
  rw [← @starts_map_fst _ size base l] at h
  obtain ⟨x, hx, rfl⟩ := List.mem_map.mp h
  exact ⟨x.2, hx⟩

/-! ### Around a circle -/

/-- The item's range contains the number, where numbers wrap around at `n`. -/
def Occupies (size : α → ℕ) (n : ℕ) (x : α × ℕ) (t : ℕ) : Prop :=
  ∃ k < size x.1, t = (x.2 + k) % n

/-- Two ranges have no number in common. -/
def Apart (size : α → ℕ) (n : ℕ) (x y : α × ℕ) : Prop :=
  ∀ t, Occupies size n x t → ¬Occupies size n y t

instance (n : ℕ) : Std.Symm (Apart size n) := ⟨fun _ _ h t hy hx => h t hx hy⟩

/-- Numbers with one residue that lie less than a turn apart are equal. -/
theorem eq_of_mod_eq {n p q : ℕ} (h : p % n = q % n) (hpq : p ≤ q) (hlt : q < p + n) : p = q := by
  have hd : n ∣ q - p := (Nat.modEq_iff_dvd' hpq).mp h
  have h0 : q - p = 0 := Nat.eq_zero_of_dvd_of_lt hd (by omega)
  omega

theorem apart_of_total_le {n base : ℕ} {l : List α} (h : total size l ≤ n) :
    (starts size base l).Pairwise (Apart size n) := by
  apply (starts_pairwise base l).imp_of_mem
  rintro x y hx hy hxy t ⟨i, hi, rfl⟩ ⟨j, hj, he⟩
  obtain ⟨-, hxlo, -⟩ := mem_starts hx
  obtain ⟨-, -, hyhi⟩ := mem_starts hy
  have := eq_of_mod_eq he (by omega) (by omega)
  omega

/-- Once around, the range of some later item meets the range of the first. -/
theorem total_le_of_apart {n base : ℕ} {l : List α} (hsize : ∀ a ∈ l, size a < n)
    (h : (starts size base l).Pairwise (Apart size n)) : total size l ≤ n := by
  by_contra hgt
  obtain ⟨x, hx, hxlo, hxhi⟩ := @exists_of_lt_total _ size base base l (Nat.le_refl _) (by omega)
  obtain ⟨y, hy, hylo, hyhi⟩ := @exists_of_lt_total _ size base (base + n) l (by omega) (by omega)
  have hxb := (mem_starts hx).2.1
  have hox : Occupies size n x (base % n) := ⟨0, by omega, by congr 1; omega⟩
  have hoy : Occupies size n y (base % n) :=
    ⟨base + n - y.2, by omega, by rw [Nat.add_sub_cancel' hylo, Nat.add_mod_right]⟩
  have hne : x ≠ y := by
    rintro rfl
    have := hsize x.1 (mem_starts hx).1
    omega
  exact h.forall hx hy hne _ hox hoy

theorem apart_iff {n base : ℕ} {l : List α} (hsize : ∀ a ∈ l, size a < n) :
    (starts size base l).Pairwise (Apart size n) ↔ total size l ≤ n :=
  ⟨total_le_of_apart hsize, apart_of_total_le⟩

end Layout
