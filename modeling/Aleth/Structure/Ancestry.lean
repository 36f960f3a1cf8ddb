import Mathlib

/-! Trees given by parent links and heights.

Only the nodes in a set closed under parents are looked at; what the links of
the other nodes are does not matter. Two nodes share their ancestors up to a
height, `fork`, and none above it. -/
namespace Ancestry
variable {α : Type}

/-- The ancestor of `x` at height `n`. -/
def ancestor (parent : α → α) (height : α → ℕ) (x : α) (n : ℕ) : α := parent^[height x - n] x

/-- The nodes from `x` down to, and without, its ancestor at height `n`. -/
def path (parent : α → α) (height : α → ℕ) (x : α) (n : ℕ) : List α :=
  (List.range (height x - n)).map fun i => parent^[i] x

/-- Every node of `K` is the root or one above its parent, which is in `K`. -/
structure Rooted (parent : α → α) (height : α → ℕ) (K : α → Prop) (root : α) : Prop where
  root_mem : K root
  root_height : height root = 0
  up : ∀ x, K x → x ≠ root → K (parent x) ∧ height x = height (parent x) + 1

variable {parent : α → α} {height : α → ℕ} {K : α → Prop} {root : α}

theorem Rooted.eq_root (h : Rooted parent height K root) {x : α} (hx : K x) (h0 : height x = 0) :
    x = root := by
  by_contra hne
  have := (h.up x hx hne).2
  omega

theorem Rooted.iterate (h : Rooted parent height K root) {x : α} (hx : K x) {n : ℕ}
    (hn : n ≤ height x) : K (parent^[n] x) ∧ height (parent^[n] x) = height x - n := by
  induction n with
  | zero => exact ⟨hx, rfl⟩
  | succ n ih =>
    obtain ⟨hmem, hheight⟩ := ih (by omega)
    have hne : parent^[n] x ≠ root := by
      intro he
      rw [he, h.root_height] at hheight
      omega
    obtain ⟨hup, hsucc⟩ := h.up _ hmem hne
    rw [Function.iterate_succ_apply']
    exact ⟨hup, by omega⟩

theorem Rooted.mem_ancestor (h : Rooted parent height K root) {x : α} (hx : K x) (n : ℕ) :
    K (ancestor parent height x n) := (h.iterate hx (Nat.sub_le _ _)).1

theorem Rooted.height_ancestor (h : Rooted parent height K root) {x : α} (hx : K x) {n : ℕ}
    (hn : n ≤ height x) : height (ancestor parent height x n) = n := by
  have := (h.iterate hx (Nat.sub_le (height x) n)).2
  rw [ancestor]
  omega

theorem ancestor_self (x : α) : ancestor parent height x (height x) = x := by
  rw [ancestor, Nat.sub_self, Function.iterate_zero_apply]

theorem Rooted.ancestor_ancestor (h : Rooted parent height K root) {x : α} (hx : K x) {n m : ℕ}
    (hnm : n ≤ m) (hm : m ≤ height x) :
    ancestor parent height (ancestor parent height x m) n = ancestor parent height x n := by
  have hh := h.height_ancestor hx hm
  rw [ancestor, hh, ancestor, ancestor, ← Function.iterate_add_apply]
  congr 1
  omega

theorem parent_ancestor {x : α} {n : ℕ} (hn : n < height x) :
    parent (ancestor parent height x (n + 1)) = ancestor parent height x n := by
  rw [ancestor, ancestor, ← Function.iterate_succ_apply' parent]
  congr 1
  omega

theorem Rooted.ancestor_parent (h : Rooted parent height K root) {x : α} (hx : K x)
    (hne : x ≠ root) {n : ℕ} (hn : n ≤ height (parent x)) :
    ancestor parent height x n = ancestor parent height (parent x) n := by
  have hh := (h.up x hx hne).2
  rw [ancestor, ancestor, ← Function.iterate_succ_apply parent]
  congr 1
  omega

/-- Links and heights outside `K` do not matter. -/
theorem Rooted.iterate_congr (h : Rooted parent height K root) {parent' : α → α}
    (hp : ∀ x, K x → x ≠ root → parent' x = parent x) {x : α} (hx : K x) {i : ℕ}
    (hi : i ≤ height x) : parent'^[i] x = parent^[i] x := by
  induction i with
  | zero => rfl
  | succ i ih =>
    obtain ⟨hmem, hheight⟩ := h.iterate hx (show i ≤ height x by omega)
    have hne : parent^[i] x ≠ root := by
      intro he
      rw [he, h.root_height] at hheight
      omega
    rw [Function.iterate_succ_apply', Function.iterate_succ_apply', ih (by omega)]
    exact hp _ hmem hne

theorem Rooted.ancestor_congr (h : Rooted parent height K root) {parent' : α → α} {height' : α → ℕ}
    (hp : ∀ x, K x → x ≠ root → parent' x = parent x) (hh : ∀ x, K x → height' x = height x) {x : α}
    (hx : K x) (n : ℕ) : ancestor parent' height' x n = ancestor parent height x n := by
  rw [ancestor, hh x hx]
  exact h.iterate_congr hp hx (Nat.sub_le _ _)

theorem Rooted.agree_below (h : Rooted parent height K root) {x y : α} (hx : K x) (hy : K y)
    {j k : ℕ} (hjk : j ≤ k) (hkx : k ≤ height x) (hky : k ≤ height y)
    (he : ancestor parent height x k = ancestor parent height y k) :
    ancestor parent height x j = ancestor parent height y j := by
  rw [← h.ancestor_ancestor hx hjk hkx, he, h.ancestor_ancestor hy hjk hky]

/-! ### Where two nodes part -/

section Fork
variable [DecidableEq α]

/-- The greatest height at which `x` and `y` have the same ancestor. -/
def fork (parent : α → α) (height : α → ℕ) (x y : α) : ℕ :=
  Nat.findGreatest (fun k => ancestor parent height x k = ancestor parent height y k)
    (min (height x) (height y))

theorem fork_le_left (x y : α) : fork parent height x y ≤ height x :=
  (Nat.findGreatest_le _).trans (min_le_left _ _)

theorem fork_le_right (x y : α) : fork parent height x y ≤ height y :=
  (Nat.findGreatest_le _).trans (min_le_right _ _)

theorem Rooted.ancestor_fork (h : Rooted parent height K root) {x y : α} (hx : K x) (hy : K y) :
    ancestor parent height x (fork parent height x y) =
      ancestor parent height y (fork parent height x y) := by
  have h0 : ancestor parent height x 0 = ancestor parent height y 0 := by
    rw [h.eq_root (h.mem_ancestor hx 0) (h.height_ancestor hx (Nat.zero_le _)),
      h.eq_root (h.mem_ancestor hy 0) (h.height_ancestor hy (Nat.zero_le _))]
  exact Nat.findGreatest_spec
    (P := fun k => ancestor parent height x k = ancestor parent height y k) (Nat.zero_le _) h0

/-- Links and heights outside `K` do not matter. -/
theorem Rooted.fork_congr (h : Rooted parent height K root) {parent' : α → α} {height' : α → ℕ}
    (hp : ∀ x, K x → x ≠ root → parent' x = parent x) (hh : ∀ x, K x → height' x = height x)
    {x y : α} (hx : K x) (hy : K y) : fork parent' height' x y = fork parent height x y := by
  have hsame : ∀ k, ancestor parent' height' x k = ancestor parent' height' y k ↔
      ancestor parent height x k = ancestor parent height y k := by
    intro k
    rw [h.ancestor_congr hp hh hx, h.ancestor_congr hp hh hy]
  rw [fork, fork, hh x hx, hh y hy]
  simp only [hsame]

theorem apart_above_fork {x y : α} {k : ℕ} (hk : fork parent height x y < k)
    (hkx : k ≤ height x) (hky : k ≤ height y) :
    ancestor parent height x k ≠ ancestor parent height y k :=
  Nat.findGreatest_is_greatest hk (le_min hkx hky)

theorem Rooted.agree_iff (h : Rooted parent height K root) {x y : α} (hx : K x) (hy : K y) {k : ℕ}
    (hkx : k ≤ height x) (hky : k ≤ height y) :
    ancestor parent height x k = ancestor parent height y k ↔ k ≤ fork parent height x y := by
  constructor
  · intro he
    by_contra hk
    exact apart_above_fork (by omega) hkx hky he
  · intro hk
    exact h.agree_below hx hy hk (fork_le_left x y) (fork_le_right x y) (h.ancestor_fork hx hy)

end Fork

/-! ### Paths -/

theorem mem_path {x a : α} {n : ℕ} :
    a ∈ path parent height x n ↔ ∃ k, n < k ∧ k ≤ height x ∧ ancestor parent height x k = a := by
  rw [path, List.mem_map]
  constructor
  · rintro ⟨i, hi, rfl⟩
    rw [List.mem_range] at hi
    refine ⟨height x - i, by omega, by omega, ?_⟩
    rw [ancestor, Nat.sub_sub_self (by omega)]
  · rintro ⟨k, hn, hk, rfl⟩
    exact ⟨height x - k, List.mem_range.mpr (by omega), rfl⟩

theorem Rooted.not_mem_path (h : Rooted parent height K root) {x : α} (hx : K x) (n : ℕ) :
    ancestor parent height x n ∉ path parent height x n := by
  intro hmem
  obtain ⟨k, hn, hk, he⟩ := mem_path.mp hmem
  have h₁ := h.height_ancestor hx hk
  rw [he, h.height_ancestor hx (by omega)] at h₁
  omega

theorem path_self (x : α) : path parent height x (height x) = [] := by
  rw [path, Nat.sub_self]
  rfl

theorem Rooted.path_cons (h : Rooted parent height K root) {x : α} (hx : K x) (hne : x ≠ root)
    {n : ℕ} (hn : n < height x) :
    path parent height x n = x :: path parent height (parent x) n := by
  have hh := (h.up x hx hne).2
  rw [path, path, show height x - n = height (parent x) - n + 1 by omega, List.range_succ_eq_map,
    List.map_cons, List.map_map]
  congr 1

theorem Rooted.path_congr (h : Rooted parent height K root) {parent' : α → α} {height' : α → ℕ}
    (hp : ∀ x, K x → x ≠ root → parent' x = parent x) (hh : ∀ x, K x → height' x = height x) {x : α}
    (hx : K x) (n : ℕ) : path parent' height' x n = path parent height x n := by
  rw [path, path, hh x hx]
  apply List.map_congr_left
  intro i hi
  rw [List.mem_range] at hi
  exact h.iterate_congr hp hx (by omega)

theorem Rooted.mem_of_mem_path (h : Rooted parent height K root) {x a : α} (hx : K x) {n : ℕ}
    (ha : a ∈ path parent height x n) : K a ∧ n < height a ∧ height a ≤ height x := by
  obtain ⟨k, hn, hk, rfl⟩ := mem_path.mp ha
  rw [h.height_ancestor hx hk]
  exact ⟨h.mem_ancestor hx k, hn, hk⟩

theorem path_eq_append (x : α) {n m : ℕ} (hnm : n ≤ m) (hm : m ≤ height x)
    (hh : height (ancestor parent height x m) = m) :
    path parent height x n =
      path parent height x m ++ path parent height (ancestor parent height x m) n := by
  have hlen : height x - n = height x - m + (m - n) := by omega
  rw [path, path, path, hh, hlen, List.range_add, List.map_append, List.map_map]
  congr 1
  apply List.map_congr_left
  intro i _
  show parent^[height x - m + i] x = parent^[i] (parent^[height x - m] x)
  rw [Nat.add_comm, Function.iterate_add_apply]

end Ancestry
