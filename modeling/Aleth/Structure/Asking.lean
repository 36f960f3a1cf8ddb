import Mathlib.Tactic.Common

/-! Computations that ask questions.

A program that calls out through an interface is a tree: it is done, or it asks
a question and goes on with the answer. A `Machine` is such a program with a
state of its own and exceptions; `under` is where it comes to when its questions
are answered in a given way. `Meets` is the condition for that: one on the value
and the state it ends in, one on what it throws and the state it throws it in.
The rules for it take a machine apart in the order it runs. -/

inductive Asking (Q : Type) (R : Q → Type) (α : Type) where
  | done (a : α)
  | ask (q : Q) (next : R q → Asking Q R α)

namespace Asking
variable {Q : Type} {R : Q → Type} {α β : Type}

protected def bind : Asking Q R α → (α → Asking Q R β) → Asking Q R β
  | .done a, f => f a
  | .ask q next, f => .ask q fun r => (next r).bind f

/-- What the computation comes to with its questions answered. -/
def under (answer : (q : Q) → R q) : Asking Q R α → α
  | .done a => a
  | .ask q next => (next (answer q)).under answer

theorem under_bind (answer : (q : Q) → R q) (x : Asking Q R α) (f : α → Asking Q R β) :
    (x.bind f).under answer = (f (x.under answer)).under answer := by
  induction x with
  | done a => rfl
  | ask q next ih => exact ih (answer q)

end Asking

/-- A computation on a state `μ` of its own, with exceptions `ε`, that asks questions. -/
def Machine (Q : Type) (R : Q → Type) (μ ε α : Type) := μ → Asking Q R (Except ε α × μ)

namespace Machine
variable {Q : Type} {R : Q → Type} {μ ε α β : Type}

protected def pure (a : α) : Machine Q R μ ε α := fun m => .done (.ok a, m)

protected def bind (x : Machine Q R μ ε α) (f : α → Machine Q R μ ε β) : Machine Q R μ ε β :=
  fun m => (x m).bind fun
    | (.ok a, m') => f a m'
    | (.error e, m') => .done (.error e, m')

instance : Monad (Machine Q R μ ε) where
  pure := Machine.pure
  bind := Machine.bind

def throw (e : ε) : Machine Q R μ ε α := fun m => .done (.error e, m)

def get : Machine Q R μ ε μ := fun m => .done (.ok m, m)

def modify (f : μ → μ) : Machine Q R μ ε Unit := fun m => .done (.ok (), f m)

def ask (q : Q) : Machine Q R μ ε (R q) := fun m => .ask q fun r => .done (.ok r, m)

/-- Where the machine comes to with its questions answered. -/
def under (answer : (q : Q) → R q) (x : Machine Q R μ ε α) (m : μ) : Except ε α × μ :=
  (x m).under answer

/-- With its questions answered the machine ends as `P` says, or throws as `E` says. -/
structure Meets (answer : (q : Q) → R q) (P : α → μ → Prop) (E : ε → μ → Prop)
    (x : Machine Q R μ ε α) (m : μ) : Prop where
  comes : match x.under answer m with
    | (.ok a, m') => P a m'
    | (.error e, m') => E e m'

section Meets
variable {answer : (q : Q) → R q} {P : α → μ → Prop} {E : ε → μ → Prop} {m : μ}

@[simp] theorem meets_pure (a : α) :
    Meets answer P E (pure a : Machine Q R μ ε α) m ↔ P a m := ⟨fun h => h.comes, fun h => ⟨h⟩⟩

@[simp] theorem meets_throw (e : ε) :
    Meets answer P E (throw e : Machine Q R μ ε α) m ↔ E e m := ⟨fun h => h.comes, fun h => ⟨h⟩⟩

@[simp] theorem meets_get {P : μ → μ → Prop} :
    Meets answer P E (get : Machine Q R μ ε μ) m ↔ P m m := ⟨fun h => h.comes, fun h => ⟨h⟩⟩

@[simp] theorem meets_modify (f : μ → μ) {P : Unit → μ → Prop} :
    Meets answer P E (modify f : Machine Q R μ ε Unit) m ↔ P () (f m) :=
  ⟨fun h => h.comes, fun h => ⟨h⟩⟩

@[simp] theorem meets_ask (q : Q) {P : R q → μ → Prop} :
    Meets answer P E (ask q : Machine Q R μ ε (R q)) m ↔ P (answer q) m :=
  ⟨fun h => h.comes, fun h => ⟨h⟩⟩

theorem under_bind (x : Machine Q R μ ε α) (f : α → Machine Q R μ ε β) :
    (x >>= f).under answer m = match x.under answer m with
      | (.ok a, m') => (f a).under answer m'
      | (.error e, m') => (.error e, m') := by
  show ((x m).bind _).under answer = _
  rw [Asking.under_bind]
  show _ = match (x m).under answer with | (.ok a, m') => _ | (.error e, m') => _
  rcases (x m).under answer with ⟨_ | a, m'⟩
  · rfl
  · rfl

@[simp] theorem under_pure (a : α) :
    (pure a : Machine Q R μ ε α).under answer m = (.ok a, m) := rfl

@[simp] theorem under_throw (e : ε) :
    (throw e : Machine Q R μ ε α).under answer m = (.error e, m) := rfl

@[simp] theorem under_get : (get : Machine Q R μ ε μ).under answer m = (.ok m, m) := rfl

@[simp] theorem under_modify (f : μ → μ) :
    (modify f : Machine Q R μ ε Unit).under answer m = (.ok (), f m) := rfl

@[simp] theorem under_ite {c : Prop} [Decidable c] (x y : Machine Q R μ ε α) :
    (if c then x else y).under answer m = if c then x.under answer m else y.under answer m := by
  split
  · rfl
  · rfl

theorem under_bind_ok {x : Machine Q R μ ε α} {a : α} {m' : μ}
    (h : x.under answer m = (.ok a, m')) (f : α → Machine Q R μ ε β) :
    (x >>= f).under answer m = (f a).under answer m' := by
  rw [under_bind, h]

theorem under_bind_error {x : Machine Q R μ ε α} {e : ε} {m' : μ}
    (h : x.under answer m = (.error e, m')) (f : α → Machine Q R μ ε β) :
    (x >>= f).under answer m = (.error e, m') := by
  rw [under_bind, h]

theorem meets_bind (x : Machine Q R μ ε α) (f : α → Machine Q R μ ε β) {P : β → μ → Prop} :
    Meets answer P E (x >>= f) m ↔ Meets answer (fun a => Meets answer P E (f a)) E x m := by
  have hrun : (x >>= f).under answer m = _ := under_bind x f
  cases hx : x.under answer m with
  | mk r m' =>
    rw [hx] at hrun
    refine ⟨fun h => ⟨?_⟩, fun h => ⟨?_⟩⟩
    · have hcomes := h.comes
      rw [hrun] at hcomes
      rw [hx]
      cases r with
      | ok a => exact ⟨hcomes⟩
      | error e => exact hcomes
    · have hcomes := h.comes
      rw [hx] at hcomes
      rw [hrun]
      cases r with
      | ok a => exact hcomes.comes
      | error e => exact hcomes

theorem Meets.pure {a : α} (h : P a m) : Meets answer P E (pure a) m := ⟨h⟩

theorem Meets.throw {e : ε} (h : E e m) : Meets answer P E (throw e) m := ⟨h⟩

theorem Meets.get {P : μ → μ → Prop} (h : P m m) : Meets answer P E get m := ⟨h⟩

theorem Meets.modify {f : μ → μ} {P : Unit → μ → Prop} (h : P () (f m)) :
    Meets answer P E (modify f) m := ⟨h⟩

theorem Meets.ask {q : Q} {P : R q → μ → Prop} (h : P (answer q) m) :
    Meets answer P E (ask q) m := ⟨h⟩

theorem Meets.bind {x : Machine Q R μ ε α} {f : α → Machine Q R μ ε β} {P : β → μ → Prop}
    (h : Meets answer (fun a => Meets answer P E (f a)) E x m) : Meets answer P E (x >>= f) m :=
  (meets_bind x f).mpr h

theorem meets_ite {c : Prop} [Decidable c] {x y : Machine Q R μ ε α} :
    Meets answer P E (if c then x else y) m ↔
      if c then Meets answer P E x m else Meets answer P E y m := by
  split
  · exact Iff.rfl
  · exact Iff.rfl

/-- What a machine that meets its conditions comes to. -/
theorem Meets.ok {x : Machine Q R μ ε α} {a : α} {m' : μ} (h : Meets answer P E x m)
    (hrun : x.under answer m = (.ok a, m')) : P a m' := by
  have hcomes := h.comes
  rwa [hrun] at hcomes

theorem Meets.mono {x : Machine Q R μ ε α} {P' : α → μ → Prop} {E' : ε → μ → Prop}
    (h : Meets answer P E x m) (hok : ∀ a m', P a m' → P' a m')
    (herror : ∀ e m', E e m' → E' e m') : Meets answer P' E' x m := by
  have hcomes := h.comes
  refine ⟨?_⟩
  rcases hrun : x.under answer m with ⟨e | a, m'⟩
  · rw [hrun] at hcomes
    exact herror e m' hcomes
  · rw [hrun] at hcomes
    exact hok a m' hcomes

theorem Meets.and {x : Machine Q R μ ε α} {P' : α → μ → Prop} {E' : ε → μ → Prop}
    (h : Meets answer P E x m) (h' : Meets answer P' E' x m) :
    Meets answer (fun a m' => P a m' ∧ P' a m') (fun e m' => E e m' ∧ E' e m') x m := by
  have hcomes := h.comes
  have hcomes' := h'.comes
  refine ⟨?_⟩
  rcases hrun : x.under answer m with ⟨e | a, m'⟩
  · rw [hrun] at hcomes hcomes'
    exact ⟨hcomes, hcomes'⟩
  · rw [hrun] at hcomes hcomes'
    exact ⟨hcomes, hcomes'⟩

theorem meets_any (x : Machine Q R μ ε α) (m : μ) :
    Meets answer (fun _ _ => True) (fun _ _ => True) x m := by
  refine ⟨?_⟩
  rcases x.under answer m with ⟨_ | a, m'⟩
  · trivial
  · trivial

end Meets
end Machine
