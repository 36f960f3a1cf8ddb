import Aleth.Structure.Runs
import Mathlib

/-! Worker threads (`Worker.h`, `Worker.cpp`).

Any number of threads start, stop and terminate a worker, whose own thread goes
round its loop meanwhile. A step is an atomic operation on the state or a
section under the lock; a wait gives the lock up, and waking up is a step of its
own.

The worker thread tests for `Killing` before it takes the lock to store
`Started`. A termination between the two is overwritten, and that is the only
way to lose one (`kept_iff`). -/
namespace Aleth.Devcore

/-! ### The code -/

inductive WorkerState where
  | Starting
  | Started
  | Stopping
  | Stopped
  | Killing
deriving DecidableEq

/-- Where a worker thread is; one that has not been made or has ended is nowhere. -/
inductive Place where
  | absent
  /-- At `while (m_state != WorkerState::Killing)`. -/
  | testing
  /-- Before `m_state = WorkerState::Started`. -/
  | tested
  /-- In `startedWorking`. -/
  | starting
  /-- In `workLoop`. -/
  | looping
  /-- Before `m_state.exchange(WorkerState::Stopped)`. -/
  | left
  /-- At `while (m_state == WorkerState::Stopped)`. -/
  | waiting
deriving DecidableEq

/-- What a thread is doing with the worker; `restarted` says whether `startWorking` has been called
since the wait began. -/
inductive Caller where
  | idle
  | startWaiting
  | stopWaiting (restarted : Bool)
  | joining (thread : ℕ)
  | joined
deriving DecidableEq

structure Worker (C : Type) where
  m_state : WorkerState := .Starting
  m_work : Option ℕ := none
  /-- The threads made so far are numbered. -/
  made : ℕ := 0
  places : ℕ → Place := fun _ => .absent
  callers : C → Caller := fun _ => .idle
  /-- `terminate` has set `Killing`, and the worker thread has not left its loop since. -/
  killed : Bool := false

inductive Step (C : Type) where
  | startWorking (c : C)
  | stopWorking (c : C)
  | terminate (c : C)
  /-- A thread that waits wakes up, or goes on after the join. -/
  | resume (c : C)
  | work (thread : ℕ)
  /-- `startedWorking` or `workLoop` throws. -/
  | throws (thread : ℕ)
deriving DecidableEq

def Caller.restart : Caller → Caller
  | .stopWaiting _ => .stopWaiting true
  | k => k

namespace Worker
variable {C : Type} [DecidableEq C]

def setCaller (s : Worker C) (c : C) (k : Caller) : Worker C :=
  {s with callers := Function.update s.callers c k}

/-- A worker thread goes on to another place, with a state. -/
def move (s : Worker C) (t : ℕ) (place : Place) (state : WorkerState) : Worker C :=
  {s with places := Function.update s.places t place, m_state := state}

def startWorking (s : Worker C) (c : C) : Worker C :=
  let s := {s with callers := fun c => (s.callers c).restart}
  let s := match s.m_work with
    | some _ => {s with m_state := if s.m_state = .Stopped then .Starting else s.m_state}
    | none =>
      { s.move s.made .testing .Starting with
        m_work := some s.made
        made := s.made + 1 }
  if s.m_state = .Starting then s.setCaller c .startWaiting else s

def stopWorking (s : Worker C) (c : C) : Worker C :=
  match s.m_work with
  | some _ =>
    if s.m_state = .Started then
      {s with m_state := .Stopping}.setCaller c (.stopWaiting false)
    else s
  | none => s

def terminate (s : Worker C) (c : C) : Worker C :=
  match s.m_work with
  | some t =>
    if s.m_state = .Killing then s
    else {s with m_state := .Killing, killed := true}.setCaller c (.joining t)
  | none => s

def resume (s : Worker C) (c : C) : Worker C :=
  match s.callers c with
  | .idle => s
  | .startWaiting => if s.m_state = .Starting then s else s.setCaller c .idle
  | .stopWaiting _ => if s.m_state = .Stopped then s.setCaller c .idle else s
  | .joining t => if s.places t = .absent then s.setCaller c .joined else s
  | .joined => {s with m_work := none}.setCaller c .idle

def work (s : Worker C) (t : ℕ) : Worker C :=
  match s.places t with
  | .absent => s
  | .testing =>
    if s.m_state = .Killing then {s.move t .absent .Killing with killed := false}
    else s.move t .tested s.m_state
  | .tested => s.move t .starting .Started
  | .starting => s.move t .looping s.m_state
  | .looping => if s.m_state = .Started then s else s.move t .left s.m_state
  | .left =>
    if s.m_state = .Killing ∨ s.m_state = .Starting then s.move t .waiting s.m_state
    else s.move t .waiting .Stopped
  | .waiting => if s.m_state = .Stopped then s else s.move t .testing s.m_state

def throws (s : Worker C) (t : ℕ) : Worker C :=
  if s.places t = .starting ∨ s.places t = .looping then s.move t .left s.m_state else s

/-- A thread makes a call when it is done with the last. -/
def step (s : Worker C) : Step C → Worker C
  | .startWorking c => if s.callers c = .idle then s.startWorking c else s
  | .stopWorking c => if s.callers c = .idle then s.stopWorking c else s
  | .terminate c => if s.callers c = .idle then s.terminate c else s
  | .resume c => s.resume c
  | .work t => s.work t
  | .throws t => s.throws t

/-! ### The specification -/

/-- No termination is lost, there is one worker thread, and a stop that can return has stopped. -/
structure Kept (s : Worker C) : Prop where
  killing : s.killed = true → s.m_state = .Killing
  single : ∀ t t', s.places t ≠ .absent → s.places t' ≠ .absent → t = t'
  stopped : ∀ c, s.callers c = .stopWaiting false → s.m_state = .Stopped → ∀ t,
    s.places t ≠ .looping

/-- `Started` is stored where `terminate` has set `Killing` since the test. -/
def Overwrites (s : Worker C) : Step C → Prop
  | .work t => s.places t = .tested ∧ s.m_state = .Killing
  | _ => False

instance (s : Worker C) : (r : Step C) → Decidable (s.Overwrites r)
  | .work _ => inferInstanceAs (Decidable (_ ∧ _))
  | .startWorking _ | .stopWorking _ | .terminate _ | .resume _ | .throws _ =>
    inferInstanceAs (Decidable False)

end Worker

/-! ### The invariant -/

/-- The states in which the worker thread can be at a place. -/
def Place.Fits : Place → WorkerState → Prop
  | .absent, _ => True
  | .testing, st | .tested, st => st = .Killing ∨ st = .Starting
  | .starting, st | .looping, st | .left, st => st = .Killing ∨ st = .Started ∨ st = .Stopping
  | .waiting, st => st = .Killing ∨ st = .Starting ∨ st = .Stopped

theorem Place.fits_killing (place : Place) : place.Fits .Killing := by
  cases place with
  | absent => trivial
  | testing | tested | starting | looping | left | waiting => exact .inl rfl

/-- In the middle of a termination. -/
def Caller.Terminating (k : Caller) : Prop := k = .joined ∨ ∃ t, k = .joining t

@[simp] theorem Caller.terminating_idle : ¬Caller.idle.Terminating := by
  rintro (h | ⟨_, h⟩) <;> cases h

@[simp] theorem Caller.terminating_startWaiting : ¬Caller.startWaiting.Terminating := by
  rintro (h | ⟨_, h⟩) <;> cases h

@[simp] theorem Caller.terminating_stopWaiting (restarted : Bool) :
    ¬(Caller.stopWaiting restarted).Terminating := by
  rintro (h | ⟨_, h⟩) <;> cases h

theorem Caller.restart_eq {k k' : Caller} (h : k.restart = k') (hk' : k'.Terminating) : k = k' := by
  cases k with
  | stopWaiting restarted =>
    subst h
    exact absurd hk' (Caller.terminating_stopWaiting true)
  | idle | startWaiting | joining _ | joined => exact h

theorem Caller.terminating_restart {k : Caller} (h : k.restart.Terminating) : k.Terminating := by
  rw [Caller.restart_eq rfl h]
  exact h

namespace Worker
variable {C : Type}

structure Sound (s : Worker C) : Prop where
  fresh : ∀ t, s.made ≤ t → s.places t = .absent
  made : ∀ t, s.m_work = some t → t < s.made
  only : ∀ t, s.places t ≠ .absent → s.m_work = some t
  fits : ∀ t, (s.places t).Fits s.m_state
  gone : ∀ t, s.m_work = some t → s.places t = .absent → s.m_state = .Killing
  killed : s.killed = true → s.m_state = .Killing ∧ ∃ t, s.places t ≠ .absent
  noted : ∀ t, s.places t ≠ .absent → s.m_state = .Killing → s.killed = true
  terminating : ∀ c, (s.callers c).Terminating → s.m_work ≠ none ∧ s.m_state = .Killing
  one : ∀ c c', (s.callers c).Terminating → (s.callers c').Terminating → c = c'
  joining : ∀ c t, s.callers c = .joining t → s.m_work = some t
  joined : ∀ c, s.callers c = .joined → ∀ t, s.places t = .absent

theorem Sound.kept {s : Worker C} (h : s.Sound) : s.Kept where
  killing hk := (h.killed hk).1
  single t t' ht ht' := Option.some.inj ((h.only t ht).symm.trans (h.only t' ht'))
  stopped _ _ hs t hl := by
    have hfits := h.fits t
    rw [hl, hs] at hfits
    rcases hfits with hst | hst | hst <;> cases hst

theorem sound_initial : ({} : Worker C).Sound where
  fresh _ _ := rfl
  made _ := nofun
  only _ ht := absurd rfl ht
  fits _ := trivial
  gone _ := nofun
  killed := nofun
  noted _ ht := absurd rfl ht
  terminating _ hc := by rcases hc with hc | ⟨_, hc⟩ <;> cases hc
  one _ _ hc := by rcases hc with hc | ⟨_, hc⟩ <;> cases hc
  joining _ _ := nofun
  joined _ := nofun

/-! ### What a step keeps -/

theorem Sound.restart {s : Worker C} (h : s.Sound) :
    {s with callers := fun c => (s.callers c).restart}.Sound where
  fresh := h.fresh
  made := h.made
  only := h.only
  fits := h.fits
  gone := h.gone
  killed := h.killed
  noted := h.noted
  terminating c hc := h.terminating c (Caller.terminating_restart hc)
  one c c' hc hc' := h.one c c' (Caller.terminating_restart hc) (Caller.terminating_restart hc')
  joining c t hc := h.joining c t (Caller.restart_eq hc (.inr ⟨t, rfl⟩))
  joined c hc := h.joined c (Caller.restart_eq hc (.inl rfl))

/-- Outside a termination nobody is in the middle of one. -/
theorem Sound.not_terminating {s : Worker C} (h : s.Sound) (hs : s.m_state ≠ .Killing) (c : C) :
    ¬(s.callers c).Terminating :=
  fun hc => hs (h.terminating c hc).2

theorem Sound.alive {s : Worker C} (h : s.Sound) (hs : s.m_state ≠ .Killing) {t : ℕ}
    (ht : s.m_work = some t) : s.places t ≠ .absent :=
  fun hgone => hs (h.gone t ht hgone)

theorem Sound.setState {s : Worker C} (h : s.Sound) {st : WorkerState} (hst : st ≠ .Killing)
    (hs : s.m_state ≠ .Killing) (hfits : ∀ t, (s.places t).Fits st) :
    {s with m_state := st}.Sound where
  fresh := h.fresh
  made := h.made
  only := h.only
  fits := hfits
  gone _ ht hgone := absurd hgone (h.alive hs ht)
  killed hk := absurd (h.killed hk).1 hs
  noted _ _ hk := absurd hk hst
  terminating c hc := absurd hc (h.not_terminating hs c)
  one c _ hc := absurd hc (h.not_terminating hs c)
  joining := h.joining
  joined := h.joined

/-- The worker thread stays in being; the other threads do not notice. -/
theorem Sound.move {s : Worker C} (h : s.Sound) {t : ℕ} {place : Place} {st : WorkerState}
    (ht : s.places t ≠ .absent) (hplace : place ≠ .absent) (hfits : place.Fits st)
    (hst : st = .Killing ↔ s.m_state = .Killing) : (s.move t place st).Sound := by
  have hwork : s.m_work = some t := h.only t ht
  have hother : ∀ t', t' ≠ t → s.places t' = .absent := by
    intro t' hne
    by_contra hlive
    exact hne (Option.some.inj ((h.only t' hlive).symm.trans hwork))
  have hself : (s.move t place st).places t = place := Function.update_self ..
  have hrest : ∀ t', t' ≠ t → (s.move t place st).places t' = .absent := fun t' hne =>
    (Function.update_of_ne hne ..).trans (hother t' hne)
  exact {
    fresh := fun t' hle => hrest t' ((h.made t hwork).trans_le hle).ne'
    made := h.made
    only := fun t' hlive => by
      by_contra hne
      exact hlive (hrest t' fun heq => hne (heq ▸ hwork))
    fits := fun t' => by
      by_cases heq : t' = t
      · rw [heq, hself]
        exact hfits
      · rw [hrest t' heq]
        trivial
    gone := fun t' ht' hgone => by
      rw [Option.some.inj (ht'.symm.trans hwork), hself] at hgone
      exact absurd hgone hplace
    killed := fun hk => ⟨hst.mpr (h.killed hk).1, t, by rwa [hself]⟩
    noted := fun _ _ hk => h.noted t ht (hst.mp hk)
    terminating := fun c hc => ⟨(h.terminating c hc).1, hst.mpr (h.terminating c hc).2⟩
    one := h.one
    joining := h.joining
    joined := fun c hc => absurd (h.joined c hc t) ht }

/-- Without a thread nobody terminates it, so a new one can start. -/
theorem Sound.spawn {s : Worker C} (h : s.Sound) (hwork : s.m_work = none) :
    { s.move s.made .testing .Starting with
      m_work := some s.made
      made := s.made + 1 }.Sound := by
  have hnone : ∀ t, s.places t = .absent := by
    intro t
    by_contra hlive
    exact nomatch (h.only t hlive).symm.trans hwork
  have hterm : ∀ c, ¬(s.callers c).Terminating := fun c hc => (h.terminating c hc).1 hwork
  have hrest : ∀ t, t ≠ s.made → Function.update s.places s.made .testing t = .absent :=
    fun t hne => (Function.update_of_ne hne ..).trans (hnone t)
  have hnew : Function.update s.places s.made .testing s.made = .testing := Function.update_self ..
  exact {
    fresh := fun t hle => hrest t (Nat.lt_of_succ_le hle).ne'
    made := fun t ht => by
      cases ht
      exact s.made.lt_succ_self
    only := fun t hlive => by
      by_contra hne
      exact hlive (hrest t fun heq => hne (congrArg some heq.symm))
    fits := fun t => by
      change (Function.update s.places s.made .testing t).Fits .Starting
      by_cases heq : t = s.made
      · rw [heq, hnew]
        exact .inr rfl
      · rw [hrest t heq]
        trivial
    gone := fun t ht hgone => by
      cases ht
      exact nomatch hnew.symm.trans hgone
    killed := fun hk => by
      obtain ⟨-, t, hlive⟩ := h.killed hk
      exact absurd (hnone t) hlive
    noted := fun _ _ => nofun
    terminating := fun c hc => absurd hc (hterm c)
    one := fun c _ hc => absurd hc (hterm c)
    joining := fun c t hc => absurd (.inr ⟨t, hc⟩) (hterm c)
    joined := fun c hc => absurd (.inl hc) (hterm c) }

theorem Sound.restarted {s : Worker C} (h : s.Sound) :
    {s with m_state := if s.m_state = WorkerState.Stopped then .Starting else s.m_state}.Sound := by
  split
  case isFalse => exact h
  case isTrue hs =>
    have hkill : s.m_state ≠ .Killing := by
      rw [hs]
      decide
    refine h.setState (by decide) hkill fun t => ?_
    have hfit := h.fits t
    rw [hs] at hfit
    cases hplace : s.places t with
    | absent => trivial
    | waiting => exact .inr (.inl rfl)
    | testing | tested => exact .inr rfl
    | starting | looping | left =>
      rw [hplace] at hfit
      rcases hfit with hst | hst | hst <;> cases hst

/-- The worker thread ends, and the state stays `Killing`. -/
theorem Sound.leave {s : Worker C} (h : s.Sound) {t : ℕ} (ht : s.places t ≠ .absent) :
    {s.move t .absent .Killing with killed := false}.Sound := by
  have hgone : ∀ t', Function.update s.places t .absent t' = .absent := by
    intro t'
    by_cases heq : t' = t
    · rw [heq, Function.update_self]
    · rw [Function.update_of_ne heq]
      by_contra hlive
      exact heq (Option.some.inj ((h.only t' hlive).symm.trans (h.only t ht)))
  exact {
    fresh := fun t' _ => hgone t'
    made := h.made
    only := fun t' hlive => absurd (hgone t') hlive
    fits := fun _ => Place.fits_killing _
    gone := fun _ _ _ => rfl
    killed := nofun
    noted := fun t' hlive => absurd (hgone t') hlive
    terminating := fun c hc => ⟨(h.terminating c hc).1, rfl⟩
    one := h.one
    joining := h.joining
    joined := fun _ _ => hgone }

theorem Sound.work {s : Worker C} (h : s.Sound) {t : ℕ} (hok : ¬s.Overwrites (.work t)) :
    (s.work t).Sound := by
  have hfits : (s.places t).Fits s.m_state := h.fits t
  unfold Worker.work
  split
  case h_1 => exact h
  case h_2 ht =>
    rw [ht] at hfits
    have hlive : s.places t ≠ .absent := ht ▸ nofun
    split
    case isTrue => exact h.leave hlive
    case isFalse hs => exact h.move hlive nofun hfits Iff.rfl
  case h_3 ht =>
    have hs : s.m_state ≠ .Killing := fun hs => hok ⟨ht, hs⟩
    exact h.move (ht ▸ nofun) nofun (.inr (.inl rfl)) ⟨nofun, fun hk => absurd hk hs⟩
  case h_4 ht =>
    rw [ht] at hfits
    exact h.move (ht ▸ nofun) nofun hfits Iff.rfl
  case h_5 ht =>
    rw [ht] at hfits
    split
    case isTrue => exact h
    case isFalse => exact h.move (ht ▸ nofun) nofun hfits Iff.rfl
  case h_6 ht =>
    have hlive : s.places t ≠ .absent := ht ▸ nofun
    split
    case isTrue hs =>
      have hwaits : Place.waiting.Fits s.m_state := by
        rcases hs with hs | hs
        · exact hs ▸ Place.fits_killing _
        · exact hs ▸ .inr (.inl rfl)
      exact h.move hlive nofun hwaits Iff.rfl
    case isFalse hs =>
      exact h.move hlive nofun (.inr (.inr rfl)) ⟨nofun, fun hk => absurd (.inl hk) hs⟩
  case h_7 ht =>
    rw [ht] at hfits
    split
    case isTrue => exact h
    case isFalse hs =>
      have htests : Place.testing.Fits s.m_state := by
        rcases hfits with hst | hst | hst
        · exact .inl hst
        · exact .inr hst
        · exact absurd hst hs
      exact h.move (ht ▸ nofun) nofun htests Iff.rfl

theorem Sound.throws {s : Worker C} (h : s.Sound) (t : ℕ) : (s.throws t).Sound := by
  unfold Worker.throws
  split
  case isFalse => exact h
  case isTrue ht =>
    have hfits : (s.places t).Fits s.m_state := h.fits t
    rcases ht with ht | ht <;> rw [ht] at hfits <;>
      exact h.move (ht ▸ nofun) nofun hfits Iff.rfl

variable [DecidableEq C]

@[simp] theorem setCaller_self (s : Worker C) (c : C) (k : Caller) :
    (s.setCaller c k).callers c = k :=
  Function.update_self ..

theorem setCaller_of_ne {s : Worker C} {c c' : C} {k : Caller} (hne : c' ≠ c) :
    (s.setCaller c k).callers c' = s.callers c' :=
  Function.update_of_ne hne ..

theorem Sound.setCaller {s : Worker C} (h : s.Sound) (c : C) {k : Caller} (hk : ¬k.Terminating) :
    (s.setCaller c k).Sound := by
  have hold : ∀ c' k', (s.setCaller c k).callers c' = k' → k'.Terminating → s.callers c' = k' := by
    intro c' k' hc' hk'
    by_cases heq : c' = c
    · subst heq
      rw [setCaller_self] at hc'
      exact absurd (hc' ▸ hk') hk
    · rwa [setCaller_of_ne heq] at hc'
  have hterm : ∀ c', ((s.setCaller c k).callers c').Terminating → (s.callers c').Terminating :=
    fun c' hc' => by rwa [hold c' _ rfl hc']
  exact {
    fresh := h.fresh
    made := h.made
    only := h.only
    fits := h.fits
    gone := h.gone
    killed := h.killed
    noted := h.noted
    terminating := fun c' hc' => h.terminating c' (hterm c' hc')
    one := fun c' c'' hc' hc'' => h.one c' c'' (hterm c' hc') (hterm c'' hc'')
    joining := fun c' t hc' => h.joining c' t (hold c' _ hc' (.inr ⟨t, rfl⟩))
    joined := fun c' hc' => h.joined c' (hold c' _ hc' (.inl rfl)) }

theorem Sound.startWorking {s : Worker C} (h : s.Sound) (c : C) : (s.startWorking c).Sound := by
  have hwait : ∀ {s : Worker C}, s.Sound →
      (if s.m_state = .Starting then s.setCaller c .startWaiting else s).Sound := by
    intro s h
    split
    · exact h.setCaller c Caller.terminating_startWaiting
    · exact h
  refine hwait ?_
  split
  case h_1 => exact h.restart.restarted
  case h_2 hwork => exact h.restart.spawn hwork

theorem Sound.stopWorking {s : Worker C} (h : s.Sound) (c : C) : (s.stopWorking c).Sound := by
  unfold Worker.stopWorking
  split
  · split
    case isTrue hs =>
      have hkill : s.m_state ≠ .Killing := by
        rw [hs]
        decide
      have hfits : ∀ t, (s.places t).Fits .Stopping := by
        intro t
        have hfit := h.fits t
        rw [hs] at hfit
        cases hplace : s.places t with
        | absent => trivial
        | starting | looping | left => exact .inr (.inr rfl)
        | testing | tested =>
          rw [hplace] at hfit
          rcases hfit with hst | hst <;> cases hst
        | waiting =>
          rw [hplace] at hfit
          rcases hfit with hst | hst | hst <;> cases hst
      exact (h.setState (by decide) hkill hfits).setCaller c (Caller.terminating_stopWaiting false)
    case isFalse => exact h
  · exact h

theorem Sound.terminate {s : Worker C} (h : s.Sound) (c : C) : (s.terminate c).Sound := by
  unfold Worker.terminate
  split
  case h_2 => exact h
  case h_1 t hwork =>
    split
    case isTrue => exact h
    case isFalse hs =>
      have hlive : s.places t ≠ .absent := h.alive hs hwork
      have honly : ∀ c' k, Function.update s.callers c (.joining t) c' = k → k.Terminating →
          c' = c ∧ k = .joining t := by
        intro c' k hc' hk
        by_cases heq : c' = c
        · subst heq
          rw [Function.update_self] at hc'
          exact ⟨rfl, hc'.symm⟩
        · rw [Function.update_of_ne heq] at hc'
          exact absurd (hc' ▸ hk) (h.not_terminating hs c')
      exact {
        fresh := h.fresh
        made := h.made
        only := h.only
        fits := fun t' => Place.fits_killing _
        gone := fun _ _ _ => rfl
        killed := fun _ => ⟨rfl, t, hlive⟩
        noted := fun _ _ _ => rfl
        terminating := fun _ _ => ⟨fun hnone => (nomatch hnone.symm.trans hwork), rfl⟩
        one := fun c' c'' hc' hc'' =>
          (honly c' _ rfl hc').1.trans (honly c'' _ rfl hc'').1.symm
        joining := fun c' t' hc' => by
          cases (honly c' (.joining t') hc' (.inr ⟨t', rfl⟩)).2
          exact hwork
        joined := fun c' hc' => nomatch (honly c' _ hc' (.inl rfl)).2 }

/-- The termination goes on with the join, and then without the thread. -/
theorem Sound.resume {s : Worker C} (h : s.Sound) (c : C) : (s.resume c).Sound := by
  unfold Worker.resume
  split
  case h_1 => exact h
  case h_2 =>
    split
    case isTrue => exact h
    case isFalse => exact h.setCaller c Caller.terminating_idle
  case h_3 =>
    split
    case isTrue => exact h.setCaller c Caller.terminating_idle
    case isFalse => exact h
  case h_4 t hc =>
    split
    case isFalse => exact h
    case isTrue hgone =>
      have hwork : s.m_work = some t := h.joining c t hc
      have hself : s.m_work ≠ none ∧ s.m_state = .Killing := h.terminating c (.inr ⟨t, hc⟩)
      have hterm : ∀ c', ((s.setCaller c .joined).callers c').Terminating → c' = c := by
        intro c' hc'
        by_contra hne
        rw [setCaller_of_ne hne] at hc'
        exact hne (h.one c' c hc' (.inr ⟨t, hc⟩))
      exact {
        fresh := h.fresh
        made := h.made
        only := h.only
        fits := h.fits
        gone := h.gone
        killed := h.killed
        noted := h.noted
        terminating := fun _ _ => hself
        one := fun c' c'' hc' hc'' => (hterm c' hc').trans (hterm c'' hc'').symm
        joining := fun c' t' hc' => by
          have heq : c' = c := hterm c' (.inr ⟨t', hc'⟩)
          rw [heq, setCaller_self] at hc'
          cases hc'
        joined := fun _ _ t' => by
          by_contra hlive
          rw [← Option.some.inj (hwork.symm.trans (h.only t' hlive))] at hlive
          exact hlive hgone }
  case h_5 hc =>
    have hgone : ∀ t, s.places t = .absent := h.joined c hc
    have hterm : ∀ c', ¬((s.setCaller c .idle).callers c').Terminating := by
      intro c' hc'
      by_cases heq : c' = c
      · rw [heq, setCaller_self] at hc'
        exact Caller.terminating_idle hc'
      · rw [setCaller_of_ne heq] at hc'
        exact heq (h.one c' c hc' (.inl hc))
    exact {
      fresh := h.fresh
      made := fun _ => nofun
      only := fun t hlive => absurd (hgone t) hlive
      fits := h.fits
      gone := fun _ => nofun
      killed := h.killed
      noted := h.noted
      terminating := fun c' hc' => absurd hc' (hterm c')
      one := fun c' _ hc' => absurd hc' (hterm c')
      joining := fun c' t hc' => absurd (.inr ⟨t, hc'⟩) (hterm c')
      joined := fun _ _ => hgone }

theorem Sound.step {s : Worker C} (h : s.Sound) {r : Step C} (hok : ¬s.Overwrites r) :
    (s.step r).Sound := by
  cases r with
  | startWorking c =>
    change (if s.callers c = .idle then s.startWorking c else s).Sound
    split
    · exact h.startWorking c
    · exact h
  | stopWorking c =>
    change (if s.callers c = .idle then s.stopWorking c else s).Sound
    split
    · exact h.stopWorking c
    · exact h
  | terminate c =>
    change (if s.callers c = .idle then s.terminate c else s).Sound
    split
    · exact h.terminate c
    · exact h
  | resume c => exact h.resume c
  | work t => exact h.work hok
  | throws t => exact h.throws t

/-- The termination is lost: the state is `Started` again, and the thread runs. -/
theorem Sound.overwritten {s : Worker C} (h : s.Sound) {r : Step C} (hr : s.Overwrites r) :
    ¬(s.step r).Kept := by
  intro hkept
  cases r with
  | work t =>
    obtain ⟨ht, hs⟩ := hr
    have hkilled : s.killed = true := h.noted t (ht ▸ nofun) hs
    have hnext : s.step (.work t) = s.move t .starting .Started := by
      simp only [Worker.step, Worker.work, ht]
    rw [hnext] at hkept
    exact nomatch hkept.killing hkilled
  | startWorking _ | stopWorking _ | terminate _ | resume _ | throws _ => exact hr

/-! ### Every run -/

/-- **In every run of any number of threads with the worker's, a termination is kept until the
worker thread has left its loop, there is at most one worker thread, and a stop that returns has
stopped, exactly when no `Started` is stored over a `Killing`.** -/
theorem kept_iff (steps : List (Step C)) :
    (∀ pre, pre <+: steps → (pre.foldl step ({} : Worker C)).Kept) ↔
      Runs.Along step (fun s r => ¬s.Overwrites r) {} steps := by
  refine Runs.Along.iff_good (P := Sound) (G := Kept) Sound.kept (fun {s r} h => ?_)
    (fun h hok => h.step hok) sound_initial
  constructor
  · exact fun hkept hr => h.overwritten hr hkept
  · exact fun hok => (h.step hok).kept

/-- One thread starts the worker, which finds that it has not been killed, and another thread
terminates it before it stores `Started`. -/
def killedAfterTest : List (Step Bool) :=
  [.startWorking false, .work 0, .terminate true, .work 0]

theorem killedAfterTest_lost : ¬(killedAfterTest.foldl step {}).Kept := by
  intro h
  have hst : (killedAfterTest.foldl step {}).m_state = .Started := by decide
  have hkilled : (killedAfterTest.foldl step {}).killed = true := by decide
  exact nomatch hst.symm.trans (h.killing hkilled)

end Worker

end Aleth.Devcore
