import Mathlib.Order.Defs.PartialOrder
import Mathlib.Tactic.Common

/-! Stateful computations that may throw.

An exception keeps the state it was thrown in, as it does in a language where
objects are updated in place: what was written before the throw stays written.
`Grows` is the rule for what only ever increases along a computation, `Sees` the
one for computations that change nothing of what can be observed, such as
reads that fill a cache. -/

/-- A computation on a state `σ` with result `α` and exceptions `ε`. -/
def Throwing (σ ε α : Type) := σ → Except ε α × σ

namespace Throwing
variable {σ ε α β : Type}

def run (x : Throwing σ ε α) (s : σ) : Except ε α × σ := x s

protected def pure (a : α) : Throwing σ ε α := fun s => (.ok a, s)

protected def bind (x : Throwing σ ε α) (f : α → Throwing σ ε β) : Throwing σ ε β := fun s =>
  match x s with
  | (.ok a, s') => f a s'
  | (.error e, s') => (.error e, s')

instance : Monad (Throwing σ ε) where
  pure := Throwing.pure
  bind := Throwing.bind

def throw (e : ε) : Throwing σ ε α := fun s => (.error e, s)

def get : Throwing σ ε σ := fun s => (.ok s, s)

/-- A part of the state. -/
def gets (f : σ → α) : Throwing σ ε α := fun s => (.ok (f s), s)

def modify (f : σ → σ) : Throwing σ ε Unit := fun s => (.ok (), f s)

/-- What a pure check gives: its value, or its exception. -/
def lift (x : Except ε α) : Throwing σ ε α := fun s => (x, s)

/-- The computation with its exceptions renamed. -/
def mapError {ε' : Type} (f : ε → ε') (x : Throwing σ ε α) : Throwing σ ε' α := fun s =>
  ((x s).1.mapError f, (x s).2)

@[simp] theorem run_pure (a : α) (s : σ) : (pure a : Throwing σ ε α).run s = (.ok a, s) := rfl

@[simp] theorem run_throw (e : ε) (s : σ) : (throw e : Throwing σ ε α).run s = (.error e, s) := rfl

@[simp] theorem run_get (s : σ) : (get : Throwing σ ε σ).run s = (.ok s, s) := rfl

@[simp] theorem run_modify (f : σ → σ) (s : σ) :
    (modify f : Throwing σ ε Unit).run s = (.ok (), f s) := rfl

@[simp] theorem run_lift (x : Except ε α) (s : σ) : (lift x : Throwing σ ε α).run s = (x, s) := rfl

@[simp] theorem run_mapError {ε' : Type} (f : ε → ε') (x : Throwing σ ε α) (s : σ) :
    (mapError f x).run s = ((x.run s).1.mapError f, (x.run s).2) := rfl

@[simp] theorem mapError_throw {ε' : Type} (f : ε → ε') (e : ε) :
    mapError f (throw e : Throwing σ ε α) = throw (f e) := rfl

theorem run_bind (x : Throwing σ ε α) (f : α → Throwing σ ε β) (s : σ) :
    (x >>= f).run s = match x.run s with
      | (.ok a, s') => (f a).run s'
      | (.error e, s') => (.error e, s') := rfl

/-- A first step that succeeds. -/
theorem run_bind_ok {x : Throwing σ ε α} {s s' : σ} {a : α} (h : x.run s = (.ok a, s'))
    (f : α → Throwing σ ε β) : (x >>= f).run s = (f a).run s' := by
  rw [run_bind, h]

/-- A first step that throws. -/
theorem run_bind_error {x : Throwing σ ε α} {s s' : σ} {e : ε} (h : x.run s = (.error e, s'))
    (f : α → Throwing σ ε β) : (x >>= f).run s = (.error e, s') := by
  rw [run_bind, h]

/-- A result of which something is known. -/
theorem exists_run_of_map {γ : Type} {x : Throwing σ ε α} {s : σ} {f : α → γ} {c : γ}
    (h : (x.run s).1.toOption.map f = some c) : ∃ a t, x.run s = (.ok a, t) ∧ f a = c := by
  rcases hrun : x.run s with ⟨e | a, t⟩
  · rw [hrun] at h
    cases h
  · rw [hrun] at h
    exact ⟨a, t, rfl, Option.some.inj h⟩

theorem run_fst_of_bind_error {x : Throwing σ ε α} {s : σ} {e : ε} (h : (x.run s).1 = .error e)
    (f : α → Throwing σ ε β) : ((x >>= f).run s).1 = .error e := by
  rw [run_bind]
  cases hx : x.run s with
  | mk r s' =>
    rw [hx] at h
    dsimp only at h
    rw [h]

theorem bind_assoc {γ : Type} (x : Throwing σ ε α) (f : α → Throwing σ ε β)
    (g : β → Throwing σ ε γ) : (x >>= f) >>= g = x >>= fun a => f a >>= g := by
  funext s
  show ((x >>= f) >>= g).run s = (x >>= fun a => f a >>= g).run s
  rw [run_bind, run_bind, run_bind]
  cases x.run s with
  | mk r s' =>
    cases r with
    | ok a => rfl
    | error e => rfl

theorem run_bind_congr {x y : Throwing σ ε α} {s : σ} (h : x.run s = y.run s)
    (f : α → Throwing σ ε β) : (x >>= f).run s = (y >>= f).run s := by
  rw [run_bind, run_bind, h]

theorem mapError_bind {ε' : Type} (f : ε → ε') (x : Throwing σ ε α) (g : α → Throwing σ ε β) :
    mapError f (x >>= g) = mapError f x >>= fun a => mapError f (g a) := by
  funext s
  show (mapError f (x >>= g)).run s = (mapError f x >>= fun a => mapError f (g a)).run s
  rw [run_bind, run_mapError, run_mapError, run_bind]
  rcases x.run s with ⟨_ | a, s'⟩
  · rfl
  · rfl

/-- The computation moves every state along the relation. -/
def Grows (R : σ → σ → Prop) (x : Throwing σ ε α) : Prop := ∀ s, R s (x.run s).2

section Grows
variable {R : σ → σ → Prop}

theorem Grows.pure (hrefl : ∀ s, R s s) (a : α) : Grows R (pure a : Throwing σ ε α) := hrefl

theorem Grows.throw (hrefl : ∀ s, R s s) (e : ε) : Grows R (throw e : Throwing σ ε α) := hrefl

theorem Grows.get (hrefl : ∀ s, R s s) : Grows R (get : Throwing σ ε σ) := hrefl

theorem Grows.lift (hrefl : ∀ s, R s s) (x : Except ε α) :
    Grows R (lift x : Throwing σ ε α) := hrefl

theorem Grows.modify {f : σ → σ} (h : ∀ s, R s (f s)) :
    Grows R (modify f : Throwing σ ε Unit) := h

theorem Grows.bind (htrans : ∀ {a b c}, R a b → R b c → R a c) {x : Throwing σ ε α}
    {f : α → Throwing σ ε β} (hx : Grows R x) (hf : ∀ a, Grows R (f a)) : Grows R (x >>= f) := by
  intro s
  rw [run_bind]
  have h := hx s
  cases hr : x.run s with
  | mk r s' =>
    rw [hr] at h
    cases r with
    | ok a => exact htrans h (hf a s')
    | error e => exact h

end Grows

/-- From states with `P`, the computation does not notice the change `f`, and leaves it there. -/
def Ignores (f : σ → σ) (P : σ → Prop) (x : Throwing σ ε α) : Prop :=
  ∀ s, P s → x.run (f s) = ((x.run s).1, f (x.run s).2)

section Ignores
variable {f : σ → σ} {P : σ → Prop}

theorem Ignores.pure (a : α) : Ignores f P (pure a : Throwing σ ε α) := fun _ _ => rfl

theorem Ignores.throw (e : ε) : Ignores f P (throw e : Throwing σ ε α) := fun _ _ => rfl

theorem Ignores.modify {h : σ → σ} (hh : ∀ s, P s → h (f s) = f (h s)) :
    Ignores f P (modify h : Throwing σ ε Unit) := fun s hs => Prod.ext rfl (hh s hs)

theorem Ignores.bind {x : Throwing σ ε α} {g : α → Throwing σ ε β} (hx : Ignores f P x)
    (hkeep : Grows (fun s s' => P s → P s') x) (hg : ∀ a, Ignores f P (g a)) :
    Ignores f P (x >>= g) := by
  intro s hs
  have hrun := hx s hs
  have hk := hkeep s hs
  rw [run_bind, run_bind, hrun]
  rcases hr : x.run s with ⟨e | a, s'⟩
  · rfl
  · rw [hr] at hk
    exact hg a s' hk

/-- The computation begins by looking at the state. -/
theorem Ignores.get_bind {g : σ → Throwing σ ε α} (hsame : ∀ s, P s → g (f s) = g s)
    (hg : ∀ s, P s → Ignores f P (g s)) : Ignores f P (get >>= g) := by
  intro s hs
  show (g (f s)).run (f s) = _
  rw [hsame s hs]
  exact hg s hs s hs

end Ignores

/-- Wherever `o` is observed the computation gives `r`, and `o` is observed afterwards. -/
def Sees {ω : Type} (obs : σ → ω) (o : ω) (x : Throwing σ ε α) (r : Except ε α) : Prop :=
  ∀ s, obs s = o → (x.run s).1 = r ∧ obs (x.run s).2 = o

section Sees
variable {ω : Type} {obs : σ → ω} {o : ω}

theorem Sees.pure (a : α) : Sees obs o (pure a : Throwing σ ε α) (.ok a) := fun _ h => ⟨rfl, h⟩

theorem Sees.throw (e : ε) : Sees obs o (throw e : Throwing σ ε α) (.error e) :=
  fun _ h => ⟨rfl, h⟩

theorem Sees.bind {x : Throwing σ ε α} {a : α} {f : α → Throwing σ ε β} {r : Except ε β}
    (hx : Sees obs o x (.ok a)) (hf : Sees obs o (f a) r) : Sees obs o (x >>= f) r := by
  intro s hs
  obtain ⟨hr, ho⟩ := hx s hs
  have hrun : x.run s = (.ok a, (x.run s).2) := Prod.ext hr rfl
  rw [run_bind_ok hrun]
  exact hf _ ho

theorem Sees.bind_error {x : Throwing σ ε α} {e : ε} {f : α → Throwing σ ε β}
    (hx : Sees obs o x (.error e)) : Sees obs o (x >>= f) (.error e) := by
  intro s hs
  obtain ⟨hr, ho⟩ := hx s hs
  have hrun : x.run s = (.error e, (x.run s).2) := Prod.ext hr rfl
  rw [run_bind_error hrun]
  exact ⟨rfl, ho⟩

theorem Sees.mapError {ε' : Type} {f : ε → ε'} {x : Throwing σ ε α} {r : Except ε α}
    (hx : Sees obs o x r) : Sees obs o (x.mapError f) (r.mapError f) := by
  intro s hs
  obtain ⟨hr, ho⟩ := hx s hs
  exact ⟨congrArg (Except.mapError f) hr, ho⟩

/-- What a computation that only sees amounts to, from a given state on. -/
theorem Sees.run {x : Throwing σ ε α} {r : Except ε α} (hx : Sees obs o x r) {s : σ}
    (hs : obs s = o) : ∃ s', x.run s = (r, s') ∧ obs s' = o :=
  ⟨(x.run s).2, Prod.ext (hx s hs).1 rfl, (hx s hs).2⟩

end Sees

/-- From states with `P` the computation does not throw, and it keeps `P`. -/
def Succeeds (P : σ → Prop) (x : Throwing σ ε α) : Prop :=
  ∀ s, P s → ∃ a s', x.run s = (.ok a, s') ∧ P s'

section Succeeds
variable {P : σ → Prop}

theorem Succeeds.pure (a : α) : Succeeds P (pure a : Throwing σ ε α) := fun s hs => ⟨a, s, rfl, hs⟩

theorem Succeeds.modify {f : σ → σ} (h : ∀ s, P s → P (f s)) :
    Succeeds P (modify f : Throwing σ ε Unit) := fun s hs => ⟨(), f s, rfl, h s hs⟩

theorem Succeeds.bind {x : Throwing σ ε α} {f : α → Throwing σ ε β} (hx : Succeeds P x)
    (hf : ∀ a, Succeeds P (f a)) : Succeeds P (x >>= f) := by
  intro s hs
  obtain ⟨a, s', hrun, hs'⟩ := hx s hs
  obtain ⟨b, s'', hrun', hs''⟩ := hf a s' hs'
  exact ⟨b, s'', by rw [run_bind_ok hrun, hrun'], hs''⟩

/-- The computation begins by looking at the state. -/
theorem Succeeds.get_bind {g : σ → Throwing σ ε α} (hg : ∀ s, P s → Succeeds P (g s)) :
    Succeeds P (get >>= g) := fun s hs => hg s hs s hs

theorem Succeeds.forM {ι : Type} {l : List ι} {f : ι → Throwing σ ε PUnit}
    (h : ∀ x ∈ l, Succeeds P (f x)) : Succeeds P (l.forM f) := by
  induction l with
  | nil => exact .pure _
  | cons x l ih =>
    exact (h x List.mem_cons_self).bind fun _ => ih fun y hy => h y (List.mem_cons_of_mem _ hy)

end Succeeds

/-- From states with `P` the computation gives a value with `Q`, and it keeps `P`. -/
def Returns (P : σ → Prop) (Q : α → Prop) (x : Throwing σ ε α) : Prop :=
  ∀ s, P s → ∃ a s', x.run s = (.ok a, s') ∧ P s' ∧ Q a

section Returns
variable {P : σ → Prop} {Q : α → Prop}

theorem Returns.pure {a : α} (h : Q a) : Returns P Q (pure a : Throwing σ ε α) :=
  fun s hs => ⟨a, s, rfl, hs, h⟩

theorem Returns.bind {R : β → Prop} {x : Throwing σ ε α} {f : α → Throwing σ ε β}
    (hx : Returns P Q x) (hf : ∀ a, Q a → Returns P R (f a)) : Returns P R (x >>= f) := by
  intro s hs
  obtain ⟨a, s', hrun, hs', ha⟩ := hx s hs
  obtain ⟨b, s'', hrun', hs'', hb⟩ := hf a ha s' hs'
  exact ⟨b, s'', by rw [run_bind_ok hrun, hrun'], hs'', hb⟩

/-- The computation begins by looking at the state. -/
theorem Returns.get_bind {g : σ → Throwing σ ε α} (hg : ∀ s, P s → Returns P Q (g s)) :
    Returns P Q (get >>= g) := fun s hs => hg s hs s hs

theorem Returns.mono {R : α → Prop} {x : Throwing σ ε α} (hx : Returns P Q x)
    (h : ∀ a, Q a → R a) : Returns P R x := by
  intro s hs
  obtain ⟨a, s', hrun, hs', ha⟩ := hx s hs
  exact ⟨a, s', hrun, hs', h a ha⟩

end Returns

/-- From related states the result is the same, and so are the states related that are left. -/
def Indifferent (R : σ → σ → Prop) (x : Throwing σ ε α) : Prop :=
  ∀ s s', R s s' → (x.run s).1 = (x.run s').1 ∧ R (x.run s).2 (x.run s').2

section Indifferent
variable {R : σ → σ → Prop}

theorem Indifferent.pure (a : α) : Indifferent R (pure a : Throwing σ ε α) :=
  fun _ _ h => ⟨rfl, h⟩

theorem Indifferent.lift (x : Except ε α) : Indifferent R (lift x : Throwing σ ε α) :=
  fun _ _ h => ⟨rfl, h⟩

theorem Indifferent.gets {f : σ → α} (h : ∀ s s', R s s' → f s = f s') :
    Indifferent R (gets f : Throwing σ ε α) :=
  fun s s' hs => ⟨congrArg Except.ok (h s s' hs), hs⟩

theorem Indifferent.modify {f : σ → σ} (h : ∀ s s', R s s' → R (f s) (f s')) :
    Indifferent R (modify f : Throwing σ ε Unit) :=
  fun s s' hs => ⟨rfl, h s s' hs⟩

theorem Indifferent.bind {x : Throwing σ ε α} {f : α → Throwing σ ε β} (hx : Indifferent R x)
    (hf : ∀ a, Indifferent R (f a)) : Indifferent R (x >>= f) := by
  intro s s' hs
  obtain ⟨hr, hs'⟩ := hx s s' hs
  rw [run_bind, run_bind]
  cases hx : x.run s with
  | mk r t =>
    cases hx' : x.run s' with
    | mk r' t' =>
      rw [hx, hx'] at hr hs'
      cases hr
      cases r with
      | error e => exact ⟨rfl, hs'⟩
      | ok a => exact hf a t t' hs'

end Indifferent

/-- The computation gives what `P` says, or throws as `E` says. -/
structure Outcome (P : α → σ → Prop) (E : ε → σ → Prop) (x : Throwing σ ε α) (s : σ) : Prop where
  ok : ∀ a t, x.run s = (.ok a, t) → P a t
  error : ∀ e t, x.run s = (.error e, t) → E e t

section Outcome
variable {P : α → σ → Prop} {E : ε → σ → Prop} {s : σ}

theorem Outcome.of_ok {x : Throwing σ ε α} {a : α} {t : σ} (hrun : x.run s = (.ok a, t))
    (h : P a t) : Outcome P E x s := by
  refine ⟨fun b u hb => ?_, fun e u he => ?_⟩
  · rw [hrun] at hb
    cases hb
    exact h
  · rw [hrun] at he
    cases he

theorem Outcome.of_error {x : Throwing σ ε α} {e : ε} {t : σ} (hrun : x.run s = (.error e, t))
    (h : E e t) : Outcome P E x s := by
  refine ⟨fun b u hb => ?_, fun e' u he => ?_⟩
  · rw [hrun] at hb
    cases hb
  · rw [hrun] at he
    cases he
    exact h

theorem Outcome.of_run {x y : Throwing σ ε α} {t : σ} (hrun : x.run s = y.run t)
    (h : Outcome P E y t) : Outcome P E x s :=
  ⟨fun a u ha => h.ok a u (hrun.symm.trans ha), fun e u he => h.error e u (hrun.symm.trans he)⟩

theorem Outcome.pure {a : α} (h : P a s) : Outcome P E (pure a) s := .of_ok rfl h

theorem Outcome.throw {e : ε} (h : E e s) : Outcome P E (throw e) s := .of_error rfl h

theorem Outcome.get {P : σ → σ → Prop} (h : P s s) : Outcome P E get s := .of_ok rfl h

theorem Outcome.modify {P : Unit → σ → Prop} {f : σ → σ} (h : P () (f s)) :
    Outcome P E (modify f) s := .of_ok rfl h

theorem Outcome.mono {P' : α → σ → Prop} {E' : ε → σ → Prop} {x : Throwing σ ε α}
    (h : Outcome P E x s) (hP : ∀ a t, P a t → P' a t) (hE : ∀ e t, E e t → E' e t) :
    Outcome P' E' x s :=
  ⟨fun a t hrun => hP a t (h.ok a t hrun), fun e t hrun => hE e t (h.error e t hrun)⟩

theorem Outcome.and {P' : α → σ → Prop} {E' : ε → σ → Prop} {x : Throwing σ ε α}
    (h : Outcome P E x s) (h' : Outcome P' E' x s) :
    Outcome (fun a t => P a t ∧ P' a t) (fun e t => E e t ∧ E' e t) x s :=
  ⟨fun a t hrun => ⟨h.ok a t hrun, h'.ok a t hrun⟩,
    fun e t hrun => ⟨h.error e t hrun, h'.error e t hrun⟩⟩

theorem Outcome.bind {x : Throwing σ ε α} {f : α → Throwing σ ε β} {P : β → σ → Prop}
    (h : Outcome (fun a t => Outcome P E (f a) t) E x s) : Outcome P E (x >>= f) s := by
  rcases hrun : x.run s with ⟨e | a, t⟩
  · exact .of_error (run_bind_error hrun f) (h.error e t hrun)
  · have hf := h.ok a t hrun
    have hbind := run_bind_ok hrun f
    exact ⟨fun b u hb => hf.ok b u (hbind.symm.trans hb),
      fun e u he => hf.error e u (hbind.symm.trans he)⟩

theorem Outcome.mapError {ε' : Type} {f : ε → ε'} {x : Throwing σ ε α} {E : ε' → σ → Prop}
    (h : Outcome P (fun e t => E (f e) t) x s) : Outcome P E (mapError f x) s := by
  rcases hrun : x.run s with ⟨e | a, t⟩
  · refine .of_error ?_ (h.error e t hrun)
    rw [run_mapError, hrun]
    rfl
  · refine .of_ok ?_ (h.ok a t hrun)
    rw [run_mapError, hrun]
    rfl

theorem Outcome.ite {c : Prop} [Decidable c] {x y : Throwing σ ε α} (hx : c → Outcome P E x s)
    (hy : ¬c → Outcome P E y s) : Outcome P E (if c then x else y) s := by
  split
  case isTrue h => exact hx h
  case isFalse h => exact hy h

/-- A step that is left out unless `c` holds. -/
theorem Outcome.when {c : Prop} [Decidable c] {x : Throwing σ ε PUnit} {y : Throwing σ ε α}
    {Q : σ → Prop} (hx : c → Outcome (fun _ t => Q t) E x s) (hs : ¬c → Q s)
    (hy : ∀ t, Q t → Outcome P E y t) : Outcome P E (if c then x >>= fun _ => y else y) s :=
  .ite (fun h => .bind ((hx h).mono (fun _ t ht => hy t ht) fun _ _ h => h)) fun h => hy s (hs h)

/-- What can throw nothing returns. -/
theorem Outcome.returns {x : Throwing σ ε α} (h : Outcome P (fun _ _ => False) x s) :
    ∃ a t, x.run s = (.ok a, t) ∧ P a t := by
  rcases hrun : x.run s with ⟨e | a, t⟩
  · exact (h.error e t hrun).elim
  · exact ⟨a, t, rfl, h.ok a t hrun⟩

end Outcome
end Throwing
