import Mathlib

/-! Runs of a machine that takes requests.

`Along` is a condition on every request of a run, in the state where it is
made. An invariant that each request keeps under the condition holds after every
beginning of the run. -/
namespace Runs
variable {σ ρ : Type} {step : σ → ρ → σ} {p q : σ → ρ → Prop}

def Along (step : σ → ρ → σ) (p : σ → ρ → Prop) : σ → List ρ → Prop
  | _, [] => True
  | s, r :: l => p s r ∧ Along step p (step s r) l

instance Along.decidable [∀ s r, Decidable (p s r)] :
    (s : σ) → (l : List ρ) → Decidable (Along step p s l)
  | _, [] => isTrue trivial
  | s, r :: l => @instDecidableAnd _ _ _ (Along.decidable (step s r) l)

theorem Along.initial {s : σ} {pre l : List ρ} (hpre : pre <+: l) (h : Along step p s l) :
    Along step p s pre := by
  obtain ⟨suf, rfl⟩ := hpre
  induction pre generalizing s with
  | nil => exact trivial
  | cons r pre ih => exact ⟨h.1, ih h.2⟩

theorem Along.and {s : σ} {l : List ρ} (hp : Along step p s l) (hq : Along step q s l) :
    Along step (fun s r => p s r ∧ q s r) s l := by
  induction l generalizing s with
  | nil => exact trivial
  | cons r l ih => exact ⟨⟨hp.1, hq.1⟩, ih hp.2 hq.2⟩

theorem Along.of_forall {s : σ} {l : List ρ} (h : ∀ s, ∀ r ∈ l, p s r) : Along step p s l := by
  induction l generalizing s with
  | nil => exact trivial
  | cons r l ih =>
    exact ⟨h s r List.mem_cons_self, ih fun s r hr => h s r (List.mem_cons_of_mem _ hr)⟩

theorem Along.congr {s : σ} {l : List ρ} (h : ∀ s r, p s r ↔ q s r) :
    Along step p s l ↔ Along step q s l := by
  induction l generalizing s with
  | nil => exact Iff.rfl
  | cons r l ih => exact and_congr (h s r) ih

/-- What every request keeps, the run keeps. -/
theorem Along.foldl {P : σ → Prop} (hstep : ∀ {s r}, P s → p s r → P (step s r)) {s : σ}
    {l : List ρ} (hl : Along step p s l) (h : P s) : P (l.foldl step s) := by
  induction l generalizing s with
  | nil => exact h
  | cons r l ih => exact ih hl.2 (hstep h hl.1)

/-- Where an invariant holds, and the condition on a request keeps it and says exactly when the
next state is a good one, the condition on the run says exactly when all its states are good. The
requests are of a kind `q`. -/
theorem Along.iff_good_of {P G : σ → Prop} {q : ρ → Prop} (hgood : ∀ {s}, P s → G s)
    (hiff : ∀ {s r}, P s → q r → (G (step s r) ↔ p s r))
    (hkeep : ∀ {s r}, P s → q r → p s r → P (step s r)) {s : σ} {l : List ρ} (hq : ∀ r ∈ l, q r)
    (h : P s) : (∀ pre, pre <+: l → G (pre.foldl step s)) ↔ Along step p s l := by
  induction l generalizing s with
  | nil =>
    refine ⟨fun _ => trivial, fun _ pre hpre => ?_⟩
    rw [List.prefix_nil.mp hpre]
    exact hgood h
  | cons r l ih =>
    obtain ⟨hqr, hql⟩ := List.forall_mem_cons.mp hq
    constructor
    · intro hall
      have hr : p s r := (hiff h hqr).mp (hall [r] ⟨l, rfl⟩)
      refine ⟨hr, (ih hql (hkeep h hqr hr)).mp fun pre hpre => ?_⟩
      exact hall (r :: pre) (List.cons_prefix_cons.mpr ⟨rfl, hpre⟩)
    · rintro ⟨hr, hl⟩ pre hpre
      cases pre with
      | nil => exact hgood h
      | cons r' pre =>
        obtain ⟨rfl, hrest⟩ := List.cons_prefix_cons.mp hpre
        exact (ih hql (hkeep h hqr hr)).mpr hl pre hrest

theorem Along.iff_good {P G : σ → Prop} (hgood : ∀ {s}, P s → G s)
    (hiff : ∀ {s r}, P s → (G (step s r) ↔ p s r)) (hkeep : ∀ {s r}, P s → p s r → P (step s r))
    {s : σ} {l : List ρ} (h : P s) :
    (∀ pre, pre <+: l → G (pre.foldl step s)) ↔ Along step p s l :=
  Along.iff_good_of (P := P) (G := G) (q := fun _ => True) hgood (fun hs _ => hiff hs)
    (fun hs _ hr => hkeep hs hr) (fun _ _ => trivial) h

/-- Where the condition on a request says exactly when the request keeps a property, the condition
on the run says exactly when all its states have it. -/
theorem Along.iff_foldl {P : σ → Prop} (hstep : ∀ {s r}, P s → (P (step s r) ↔ p s r)) {s : σ}
    {l : List ρ} (h : P s) : (∀ pre, pre <+: l → P (pre.foldl step s)) ↔ Along step p s l :=
  Along.iff_good (P := P) (G := P) (fun h => h) hstep (fun h hr => (hstep h).mpr hr) h

end Runs
