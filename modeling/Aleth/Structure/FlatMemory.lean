import Mathlib.Data.List.GetD
import Mathlib.Order.Defs.LinearOrder
import Mathlib.Order.Nat

/-! Memory without an end.

A list stands for the function that gives its elements, and a default behind its
end. Growing the list by the default changes nothing, and a range that is put into
the list is written into the function, there and nowhere else. -/
namespace Aleth
variable {α : Type} (d : α)

/-- The memory that a list stands for. -/
def flat (l : List α) : ℕ → α := fun i => l.getD i d

namespace Flat
variable {d} {f : ℕ → α} {l data : List α} {offset size i : ℕ}

/-- What is in a range. -/
def read (f : ℕ → α) (offset size : ℕ) : List α := (List.range size).map fun j => f (offset + j)

/-- The memory with a range written. -/
def write (f : ℕ → α) (offset : ℕ) (data : List α) : ℕ → α :=
  fun i => if offset ≤ i then data.getD (i - offset) (f i) else f i

@[simp] theorem length_read : (read f offset size).length = size := by simp [read]

@[simp] theorem write_nil : write f offset [] = f := by
  funext i
  simp [write]

theorem write_of_lt (h : i < offset) : write f offset data i = f i := if_neg (not_le.mpr h)

theorem write_of_le (h : offset + data.length ≤ i) : write f offset data i = f i := by
  unfold write
  rw [if_pos (by omega), List.getD_eq_default _ _ (by omega)]

theorem write_getElem (h : i < data.length) : write f offset data (offset + i) = data[i] := by
  unfold write
  rw [if_pos (Nat.le_add_right ..), Nat.add_sub_cancel_left, List.getD_eq_getElem _ _ h]

/-- What was written is read. -/
theorem read_of_write : read (write f offset data) offset data.length = data := by
  apply List.ext_getElem
  · exact length_read
  · intro i hi hdata
    simp only [read, List.getElem_map, List.getElem_range]
    exact write_getElem hdata

/-- Elsewhere nothing is written. -/
theorem read_of_write_apart {offset' : ℕ}
    (h : data = [] ∨ offset' + size ≤ offset ∨ offset + data.length ≤ offset') :
    read (write f offset data) offset' size = read f offset' size := by
  apply List.map_congr_left
  intro i hi
  have hlt := List.mem_range.mp hi
  rcases h with rfl | h | h
  · rw [write_nil]
  · exact write_of_lt (by omega)
  · exact write_of_le (by omega)

/-! ### Lists as memory -/

@[simp] theorem flat_nil : flat d [] = fun _ => d := by
  funext i
  exact List.getD_nil ..

/-- Growing by the default changes nothing. -/
theorem flat_append_replicate (n : ℕ) : flat d (l ++ List.replicate n d) = flat d l := by
  funext i
  unfold flat
  rcases lt_or_ge i l.length with hlt | hge
  · rw [List.getD_append _ _ _ _ hlt]
  · rw [List.getD_append_right _ _ _ _ hge, List.getD_eq_default _ _ hge,
      List.getD_eq_getElem?_getD]
    exact List.getElem?_getD_replicate_default_eq ..

/-- A range in place of what was there. -/
theorem flat_overwrite (h : offset ≤ l.length) :
    flat d (l.take offset ++ data ++ l.drop (offset + data.length)) =
      write (flat d l) offset data := by
  funext i
  have htake : (l.take offset).length = offset := List.length_take_of_le h
  simp only [flat, write]
  rcases lt_or_ge i offset with hlt | hge
  · rw [if_neg (not_le.mpr hlt), List.append_assoc,
      List.getD_append _ _ _ _ (htake.symm ▸ hlt)]
    rw [List.getD_eq_getElem _ _ (by omega), List.getD_eq_getElem _ _ (by omega)]
    exact List.getElem_take
  · rw [if_pos hge, List.append_assoc, List.getD_append_right _ _ _ _ (htake.trans_le hge), htake]
    rcases lt_or_ge (i - offset) data.length with hdata | hdata
    · rw [List.getD_append _ _ _ _ hdata, List.getD_eq_getElem _ _ hdata,
        List.getD_eq_getElem _ _ hdata]
    · rw [List.getD_append_right _ _ _ _ hdata, List.getD_eq_default _ _ hdata]
      simp only [List.getD_eq_getElem?_getD, List.getElem?_drop]
      congr 2
      omega

theorem read_flat (h : offset + size ≤ l.length) :
    read (flat d l) offset size = (l.drop offset).take size := by
  apply List.ext_getElem
  · rw [length_read, List.length_take, List.length_drop]
    omega
  · intro i hi _
    have hlt : i < size := hi.trans_eq length_read
    simp only [read, List.getElem_map, List.getElem_range, List.getElem_take, List.getElem_drop]
    exact List.getD_eq_getElem _ _ (by omega)

end Flat
end Aleth
