import Mathlib

/-! Messages on their way from a coder with a state.

`Ahead` says which messages are still on the way: encoding them one after
another takes the coder from the state where the reader is to the one where the
writer is, and what comes out is what is on the way. Writing adds a message at
the end, reading takes the first one away. -/
namespace Channel
variable {H M A : Type} {emit : H → M → H × List A} {h h' : H} {m : M} {ms : List M}
  {wire : List A}

inductive Ahead (emit : H → M → H × List A) : H → H → List M → List A → Prop
  | nil (h : H) : Ahead emit h h [] []
  | cons {h h' : H} {m : M} {ms : List M} {wire : List A}
    (tail : Ahead emit (emit h m).1 h' ms wire) :
    Ahead emit h h' (m :: ms) ((emit h m).2 ++ wire)

namespace Ahead

/-- One more message is written. -/
theorem snoc (ha : Ahead emit h h' ms wire) (m : M) :
    Ahead emit h (emit h' m).1 (ms ++ [m]) (wire ++ (emit h' m).2) := by
  induction ha with
  | nil h =>
    have hone := Ahead.cons (@Ahead.nil _ _ _ emit (emit h m).1)
    rw [List.append_nil] at hone
    exact hone
  | cons tail ih =>
    rw [List.append_assoc]
    exact .cons ih

/-- The first message is what the reader gets next, and it leaves the others. -/
theorem head (ha : Ahead emit h h' (m :: ms) wire) :
    ∃ rest, wire = (emit h m).2 ++ rest ∧ Ahead emit (emit h m).1 h' ms rest := by
  cases ha with
  | cons tail => exact ⟨_, rfl, tail⟩

theorem eq_nil (ha : Ahead emit h h' [] wire) : wire = [] := by
  cases ha with
  | nil => rfl

end Ahead
end Channel
