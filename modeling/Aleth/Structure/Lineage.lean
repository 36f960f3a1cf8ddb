import Mathlib

/-! Lists in which parents come before their children.

An entry is a name and the name of its parent. `Grounded known l`: the parent of
each entry is known, or is an earlier entry. `Descends l origin`: from an
origin the entries lead down to the name. -/
namespace Lineage
variable {α : Type} [DecidableEq α]

def Grounded : Finset α → List (α × α) → Prop
  | _, [] => True
  | known, b :: l => b.2 ∈ known ∧ Grounded (insert b.1 known) l

variable {known known' : Finset α} {l : List (α × α)}

theorem Grounded.mono (hl : Grounded known l) (h : known ⊆ known') : Grounded known' l := by
  induction l generalizing known known' with
  | nil => exact trivial
  | cons b l ih => exact ⟨h hl.1, ih hl.2 (Finset.insert_subset_insert _ h)⟩

theorem grounded_append (l₁ l₂ : List (α × α)) :
    Grounded known (l₁ ++ l₂) ↔
      Grounded known l₁ ∧ Grounded (known ∪ (l₁.map Prod.fst).toFinset) l₂ := by
  induction l₁ generalizing known with
  | nil => simp [Grounded]
  | cons b l₁ ih =>
    have hset : insert b.1 known ∪ (l₁.map Prod.fst).toFinset =
        known ∪ ((b :: l₁).map Prod.fst).toFinset := by
      rw [List.map_cons, List.toFinset_cons, Finset.union_insert, Finset.insert_union]
    rw [List.cons_append, Grounded, Grounded, ih, hset, and_assoc]

/-- A block whose parent is known or listed goes behind the others. -/
theorem Grounded.snoc (hl : Grounded known l) {x parent : α}
    (h : parent ∈ known ∨ parent ∈ l.map Prod.fst) : Grounded known (l ++ [(x, parent)]) := by
  refine (grounded_append l _).mpr ⟨hl, ?_, trivial⟩
  rw [Finset.mem_union, List.mem_toFinset]
  exact h

/-- So do several, which need not come before each other. -/
theorem Grounded.append_children (hl : Grounded known l) {parent : α} (l' : List α)
    (h : parent ∈ known ∨ parent ∈ l.map Prod.fst) :
    Grounded known (l ++ l'.map fun x => (x, parent)) := by
  induction l' generalizing l with
  | nil => simpa using hl
  | cons x l' ih =>
    have hgrown := ih (hl.snoc h (x := x)) (by rw [List.map_append, List.mem_append]; tauto)
    simpa using hgrown

theorem Grounded.parent (hl : Grounded known l) {pre post : List (α × α)} {b : α × α}
    (h : l = pre ++ b :: post) : b.2 ∈ known ∨ b.2 ∈ pre.map Prod.fst := by
  rw [h, grounded_append] at hl
  have hb := hl.2.1
  rwa [Finset.mem_union, List.mem_toFinset] at hb

/-! ### Descendants -/

inductive Descends (l : List (α × α)) (origin : Finset α) : α → Prop where
  | child {x parent : α} (h : (x, parent) ∈ l) (hparent : parent ∈ origin) : Descends l origin x
  | step {x parent : α} (h : (x, parent) ∈ l) (hparent : Descends l origin parent) :
      Descends l origin x

/-- A set that has the origins and all children of its elements has the descendants. -/
theorem Descends.mem_of_closed {origin : Finset α} {S : α → Prop} (horigin : ∀ x ∈ origin, S x)
    (hclosed : ∀ b ∈ l, S b.2 → S b.1) {x : α} (hx : Descends l origin x) : S x := by
  induction hx with
  | child h hparent => exact hclosed _ h (horigin _ hparent)
  | step h _ ih => exact hclosed _ h ih

end Lineage
