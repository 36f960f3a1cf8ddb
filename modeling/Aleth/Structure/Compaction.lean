import Mathlib.Data.List.Basic
import Mathlib.Tactic.Common

/-! Compacting a list in place while the predicate looks at the list.

`remove_if` moves every element it keeps to the front. Between the kept
elements and the ones not yet examined lies a gap: elements that were removed,
and elements that have been moved away and left something behind (`moved`). A
predicate that searches the list being compacted sees all three parts
(`compact`). What it leaves is read off with an invariant of the three parts
(`compact_induction`); where the predicate answers as a fixed one does, the
result is what a filter gives (`compact_eq_filter`). -/
namespace Compaction
variable {α : Type} (moved : α → α) (pred : List α → α → Bool)

/-- The gap after the element in front of the rest was moved over it. -/
def shift (gap : List α) (x : α) : List α := if gap = [] then [] else gap.tail ++ [moved x]

/-- The loop of `remove_if`. -/
def compact : (kept gap rest : List α) → List α
  | kept, _, [] => kept
  | kept, gap, x :: rest =>
    if pred (kept ++ gap ++ x :: rest) x then compact kept (gap ++ [x]) rest
    else compact (kept ++ [x]) (shift moved gap x) rest

/-- `erase(remove_if(begin, end, pred), end)`. -/
def removeIf (l : List α) : List α := compact moved pred [] [] l

variable {moved pred}

theorem mem_shift {gap : List α} {x y : α} (h : y ∈ shift moved gap x) :
    y ∈ gap ∨ y = moved x := by
  unfold shift at h
  split at h
  · cases h
  · rcases List.mem_append.mp h with h | h
    · exact .inl (List.mem_of_mem_tail h)
    · exact .inr (List.mem_singleton.mp h)

/-- What every step of the loop keeps holds of the parts it ends with. -/
theorem compact_induction {P : List α → List α → List α → Prop}
    (hdrop : ∀ {kept gap x rest}, P kept gap (x :: rest) →
      pred (kept ++ gap ++ x :: rest) x = true → P kept (gap ++ [x]) rest)
    (hkeep : ∀ {kept gap x rest}, P kept gap (x :: rest) →
      pred (kept ++ gap ++ x :: rest) x = false → P (kept ++ [x]) (shift moved gap x) rest)
    {kept gap rest : List α} (h : P kept gap rest) :
    ∃ gap', P (compact moved pred kept gap rest) gap' [] := by
  induction rest generalizing kept gap with
  | nil => exact ⟨gap, h⟩
  | cons x rest ih =>
    unfold compact
    split
    case isTrue hp => exact ih (hdrop h hp)
    case isFalse hp => exact ih (hkeep h (Bool.not_eq_true _ ▸ hp))

/-- The elements left are elements of the list, in their order. -/
theorem removeIf_sublist (l : List α) : List.Sublist (removeIf moved pred l) l := by
  obtain ⟨gap, h⟩ := @compact_induction _ moved pred
    (fun kept _ rest => List.Sublist (kept ++ rest) l)
    (fun {kept gap x rest} h _ =>
      List.Sublist.trans (List.Sublist.append_left (List.sublist_cons_self x rest) kept) h)
    (fun {kept gap x rest} h _ => by rwa [List.append_assoc]) [] [] l (List.Sublist.refl l)
  rwa [List.append_nil] at h

/-- The parts of a loop that has done so far what a filter does. -/
def Filtered (q : α → Bool) (moved : α → α) (l kept gap rest : List α) : Prop :=
  ∃ done, l = done ++ rest ∧ kept = done.filter q ∧
    ∀ y ∈ gap, y ∈ done ∨ ∃ z ∈ kept, y = moved z

/-- Where the predicate, asked about the next element, answers as `q` does, the loop filters. -/
theorem removeIf_eq_filter {q : α → Bool} {l : List α}
    (h : ∀ {kept gap x rest}, Filtered q moved l kept gap (x :: rest) →
      pred (kept ++ gap ++ x :: rest) x = !q x) :
    removeIf moved pred l = l.filter q := by
  have hdrop : ∀ {kept gap x rest}, Filtered q moved l kept gap (x :: rest) →
      pred (kept ++ gap ++ x :: rest) x = true → Filtered q moved l kept (gap ++ [x]) rest := by
    rintro kept gap x rest ⟨done, hl, hkept, hgap⟩ hp
    have hq : q x = false := by
      rw [h ⟨done, hl, hkept, hgap⟩] at hp
      simpa using hp
    refine ⟨done ++ [x], by simp [hl], by simp [hkept, List.filter_append, hq], fun y hy => ?_⟩
    rcases List.mem_append.mp hy with hy | hy
    · exact (hgap y hy).imp_left (List.mem_append_left _)
    · exact .inl (List.mem_append_right _ hy)
  have hkeep : ∀ {kept gap x rest}, Filtered q moved l kept gap (x :: rest) →
      pred (kept ++ gap ++ x :: rest) x = false →
      Filtered q moved l (kept ++ [x]) (shift moved gap x) rest := by
    rintro kept gap x rest ⟨done, hl, hkept, hgap⟩ hp
    have hq : q x = true := by
      rw [h ⟨done, hl, hkept, hgap⟩] at hp
      simpa using hp
    refine ⟨done ++ [x], by simp [hl], by simp [hkept, List.filter_append, hq], fun y hy => ?_⟩
    rcases mem_shift hy with hy | rfl
    · rcases hgap y hy with hy | ⟨z, hz, rfl⟩
      · exact .inl (List.mem_append_left _ hy)
      · exact .inr ⟨z, List.mem_append_left _ hz, rfl⟩
    · exact .inr ⟨x, List.mem_append_right _ (List.mem_singleton_self x), rfl⟩
  obtain ⟨gap, done, hl, hkept, -⟩ := @compact_induction _ moved pred _ hdrop hkeep [] [] l
    ⟨[], rfl, rfl, by simp⟩
  rw [List.append_nil] at hl
  rw [removeIf, hkept, hl]

end Compaction
