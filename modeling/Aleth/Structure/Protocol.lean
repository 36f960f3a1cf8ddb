import Aleth.Structure.Asking
import Aleth.Structure.Throwing
import Mathlib.Logic.Function.Basic

/-! Questions that follow a protocol, and worlds that answer them.

A protocol says what may be asked in a phase, and which phase an answer leads to. A
program follows it whatever it is told (`Follows`); parts that ask nothing are
`Mute`. A handler answers from a state of its own, which the question may change,
or throws. A handler that answers what may be asked, and keeps an invariant, sees
every such program to its end (`Asking.Follows.handle`). Where everything that changes the
world is asked last, a function would have given the same answers
(`Asking.Follows.answered`), so that what is known of fixed answers holds of the
handler. -/

structure Protocol (Q : Type) (R : Q → Type) where
  Phase : Type
  may : Phase → Q → Prop
  after : Phase → (q : Q) → R q → Phase

namespace Asking
variable {Q : Type} {R : Q → Type} {σ δ α β : Type}

/-- The questions are answered by the handler. -/
def handle (h : (q : Q) → Throwing σ δ (R q)) : Asking Q R α → Throwing σ δ α
  | .done a => pure a
  | .ask q next => h q >>= fun r => (next r).handle h

/-- Asked in the phase, the questions follow the protocol, and the result is as `P` says. -/
def Follows (p : Protocol Q R) (P : α → p.Phase → Prop) : p.Phase → Asking Q R α → Prop
  | k, .done a => P a k
  | k, .ask q next => p.may k q ∧ ∀ r, (next r).Follows p P (p.after k q r)

section Follows
variable {p : Protocol Q R} {P : α → p.Phase → Prop} {k : p.Phase} {x : Asking Q R α}

theorem Follows.mono {P' : α → p.Phase → Prop} (h : x.Follows p P k)
    (hP : ∀ a k', P a k' → P' a k') : x.Follows p P' k := by
  induction x generalizing k with
  | done a => exact hP a k h
  | ask q next ih => exact ⟨h.1, fun r => ih r (h.2 r)⟩

theorem Follows.bind {f : α → Asking Q R β} {P' : β → p.Phase → Prop}
    (h : x.Follows p (fun a k' => (f a).Follows p P' k') k) : (x.bind f).Follows p P' k := by
  induction x generalizing k with
  | done a => exact h
  | ask q next ih => exact ⟨h.1, fun r => ih r (h.2 r)⟩

/-- A program that may ask nothing is done. -/
theorem Follows.done (h : x.Follows p P k) (hk : ∀ q, ¬p.may k q) : ∃ a, x = .done a ∧ P a k := by
  cases x with
  | done a => exact ⟨a, rfl, h⟩
  | ask q next => exact absurd h.1 (hk q)

variable {h : (q : Q) → Throwing σ δ (R q)} {I : p.Phase → σ → Prop} {s : σ}

/-- A handler that answers what may be asked answers every question. -/
theorem Follows.handle (hx : x.Follows p P k) (hs : I k s)
    (hI : ∀ k q s, I k s → p.may k q →
      ∃ r t, (h q).run s = (.ok r, t) ∧ I (p.after k q r) t) :
    ∃ a t k', (x.handle h).run s = (.ok a, t) ∧ P a k' ∧ I k' t := by
  induction x generalizing k s with
  | done a => exact ⟨a, s, k, rfl, hx, hs⟩
  | ask q next ih =>
    obtain ⟨r, t, hrun, ht⟩ := hI k q s hs hx.1
    obtain ⟨a, u, k', hrest, hP, hu⟩ := ih r (hx.2 r) ht
    exact ⟨a, u, k', (Throwing.run_bind_ok hrun _).trans hrest, hP, hu⟩

/-- Where every answer but the last is that of a function, so are all of them. -/
theorem Follows.answered {last : Q → Prop} {base : (q : Q) → R q} {fine : (q : Q) → R q → Prop}
    (hbase : ∀ q, fine q (base q)) (hx : x.Follows p P k) (hs : I k s)
    (hI : ∀ k q s, I k s → p.may k q → ∃ r t, (h q).run s = (.ok r, t) ∧ I (p.after k q r) t ∧
      (¬last q → r = base q) ∧ (last q → fine q r ∧ ∀ q', ¬p.may (p.after k q r) q')) :
    ∃ answer t k', (∀ q, fine q (answer q)) ∧ (∀ q, ¬last q → answer q = base q) ∧
      (x.handle h).run s = (.ok (x.under answer), t) ∧ I k' t := by
  classical
  induction x generalizing k s with
  | done a => exact ⟨base, s, k, hbase, fun _ _ => rfl, rfl, hs⟩
  | ask q next ih =>
    obtain ⟨r, t, hrun, ht, hsame, hlast⟩ := hI k q s hs hx.1
    by_cases hq : last q
    · obtain ⟨hfine, hnone⟩ := hlast hq
      obtain ⟨a, hdone, -⟩ := (hx.2 r).done hnone
      refine ⟨Function.update base q r, t, p.after k q r, fun q' => ?_, fun q' hq' => ?_, ?_, ht⟩
      · by_cases hqq : q' = q
        · subst hqq
          rw [Function.update_self]
          exact hfine
        · rw [Function.update_of_ne hqq]
          exact hbase q'
      · have hqq : q' ≠ q := fun hqq => hq' (hqq.symm ▸ hq)
        exact Function.update_of_ne hqq ..
      · refine (Throwing.run_bind_ok hrun _).trans ?_
        rw [under, Function.update_self, hdone]
        rfl
    · obtain ⟨answer, u, k', hfine, hreads, hrest, hu⟩ := ih r (hx.2 r) ht
      refine ⟨answer, u, k', hfine, hreads, (Throwing.run_bind_ok hrun _).trans ?_, hu⟩
      rw [under, hreads q hq, ← hsame hq]
      exact hrest

end Follows
end Asking

namespace Machine
variable {Q : Type} {R : Q → Type} {μ ε α β : Type}

/-- The machine asks nothing. -/
structure Mute (x : Machine Q R μ ε α) : Prop where
  done : ∀ m, ∃ r, x m = .done r

/-- The machine follows the protocol; where it comes to a value, that is as `P` says. -/
def Follows (p : Protocol Q R) (P : α → μ → p.Phase → Prop) (x : Machine Q R μ ε α) (m : μ)
    (k : p.Phase) : Prop := (x m).Follows p (fun r k' => ∀ a, r.1 = .ok a → P a r.2 k') k

section Mute
variable {x : Machine Q R μ ε α} {f : α → Machine Q R μ ε β}

theorem mute_pure (a : α) : Mute (pure a : Machine Q R μ ε α) :=
  ⟨fun m => ⟨(.ok a, m), rfl⟩⟩

theorem mute_throw (e : ε) : Mute (throw e : Machine Q R μ ε α) :=
  ⟨fun m => ⟨(.error e, m), rfl⟩⟩

theorem mute_get : Mute (get : Machine Q R μ ε μ) := ⟨fun m => ⟨(.ok m, m), rfl⟩⟩

theorem mute_modify (f : μ → μ) : Mute (modify f : Machine Q R μ ε Unit) :=
  ⟨fun m => ⟨(.ok (), f m), rfl⟩⟩

theorem Mute.bind (hx : Mute x) (hf : ∀ a, Mute (f a)) : Mute (x >>= f) := by
  refine ⟨fun m => ?_⟩
  obtain ⟨⟨r, m'⟩, hr⟩ := hx.done m
  have hrun : (x >>= f) m = (x m).bind _ := rfl
  rw [hrun, hr]
  cases r with
  | ok a => exact (hf a).done m'
  | error e => exact ⟨(.error e, m'), rfl⟩

theorem mute_ite {c : Prop} [Decidable c] {y : Machine Q R μ ε α} (hx : Mute x) (hy : Mute y) :
    Mute (if c then x else y) := by
  split
  · exact hx
  · exact hy

end Mute

section Follows
variable {p : Protocol Q R} {m : μ} {k : p.Phase} {x : Machine Q R μ ε α}
  {f : α → Machine Q R μ ε β}

theorem Follows.pure {P : α → μ → p.Phase → Prop} {a : α} (h : P a m k) :
    Follows p P (pure a : Machine Q R μ ε α) m k := by
  intro b hb
  cases hb
  exact h

theorem Follows.throw {P : α → μ → p.Phase → Prop} (e : ε) :
    Follows p P (throw e : Machine Q R μ ε α) m k := by
  intro b hb
  cases hb

theorem Follows.get {P : μ → μ → p.Phase → Prop} (h : P m m k) :
    Follows p P (get : Machine Q R μ ε μ) m k := .pure h

theorem Follows.modify {f : μ → μ} {P : Unit → μ → p.Phase → Prop} (h : P () (f m) k) :
    Follows p P (modify f : Machine Q R μ ε Unit) m k := by
  intro b hb
  cases hb
  exact h

theorem Follows.mono {P P' : α → μ → p.Phase → Prop} (h : Follows p P x m k)
    (hP : ∀ a m' k', P a m' k' → P' a m' k') : Follows p P' x m k :=
  Asking.Follows.mono h fun _ _ h a ha => hP _ _ _ (h a ha)

theorem Follows.ask {q : Q} {P : R q → μ → p.Phase → Prop} (hq : p.may k q)
    (h : ∀ r, P r m (p.after k q r)) : Follows p P (ask q : Machine Q R μ ε (R q)) m k := by
  refine ⟨hq, fun r => ?_⟩
  intro b hb
  cases hb
  exact h r

theorem Follows.bind {P : β → μ → p.Phase → Prop}
    (h : Follows p (fun a m' k' => Follows p P (f a) m' k') x m k) :
    Follows p P (x >>= f) m k := by
  refine Asking.Follows.bind (Asking.Follows.mono h fun r k' hr => ?_)
  rcases r with ⟨e | a, m'⟩
  · intro b hb
    cases hb
  · exact hr a rfl

theorem Follows.of_mute {P : α → μ → p.Phase → Prop} (hx : Mute x) (h : ∀ a m', P a m' k) :
    Follows p P x m k := by
  obtain ⟨r, hr⟩ := hx.done m
  unfold Follows
  rw [hr]
  exact fun a _ => h a r.2

/-- What is asked, is asked behind a part that asks nothing. -/
theorem Follows.after_mute {P : β → μ → p.Phase → Prop} (hx : Mute x)
    (hf : ∀ a m', Follows p P (f a) m' k) : Follows p P (x >>= f) m k :=
  .bind (.of_mute hx hf)

end Follows
end Machine
