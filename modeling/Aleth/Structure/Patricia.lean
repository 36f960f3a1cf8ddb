import Mathlib.Data.List.Basic
import Mathlib.Data.List.FinRange
import Mathlib.Data.Fin.Basic
import Mathlib.Logic.Function.Basic
import Mathlib.Tactic.Common

/-! Patricia trees over an alphabet of `n` letters.

A tree is a finite map from words to values: leaves and extensions swallow a run
of letters at once, branches split on one letter and may hold a value of their
own. `Canonical` says that no run is empty, no extension sits above another
two-item node and every branch really forks. `canonical_ext` is the reason to
ask for it: a canonical tree is determined by the map it denotes, so two
algorithms that keep trees canonical and agree on lookups agree on the trees.
`insert` and `delete` are the two updates, `collapse` and `extend` what restores
canonicity after a deletion. -/
namespace Patricia

inductive Tree (n : Nat) (β : Type) where
  | empty
  | leaf (path : List (Fin n)) (value : β)
  | ext (path : List (Fin n)) (child : Tree n β)
  | branch (children : Fin n → Tree n β) (value : Option β)

namespace Tree
variable {n : Nat} {β : Type}

def lookup : Tree n β → List (Fin n) → Option β
  | empty, _ => none
  | leaf p v, k => if k = p then some v else none
  | ext p t, k => if p <+: k then t.lookup (k.drop p.length) else none
  | branch _ v, [] => v
  | branch c _, a :: k => (c a).lookup k

def isEmpty : Tree n β → Bool
  | empty => true
  | _ => false

def isBranch : Tree n β → Bool
  | branch _ _ => true
  | _ => false

/-- A slot of a branch: a letter's child, or (`none`) the branch's own value. -/
def used (c : Fin n → Tree n β) (v : Option β) : Option (Fin n) → Bool
  | none => v.isSome
  | some a => !(c a).isEmpty

/-- At least two slots are in use. -/
def Forked (c : Fin n → Tree n β) (v : Option β) : Prop :=
  ∃ x y, x ≠ y ∧ used c v x = true ∧ used c v y = true

def Canonical : Tree n β → Prop
  | empty => True
  | leaf _ _ => True
  | ext p t => p ≠ [] ∧ t.isBranch = true ∧ t.Canonical
  | branch c v => (∀ a, (c a).Canonical) ∧ Forked c v

@[simp] theorem lookup_empty (k : List (Fin n)) : (empty : Tree n β).lookup k = none := rfl

@[simp] theorem lookup_leaf (p : List (Fin n)) (v : β) (k : List (Fin n)) :
    (leaf p v).lookup k = if k = p then some v else none := rfl

@[simp] theorem lookup_branch_nil (c : Fin n → Tree n β) (v : Option β) :
    (branch c v).lookup [] = v := rfl

@[simp] theorem lookup_branch_cons (c : Fin n → Tree n β) (v : Option β) (a : Fin n)
    (k : List (Fin n)) : (branch c v).lookup (a :: k) = (c a).lookup k := rfl

theorem lookup_ext (p : List (Fin n)) (t : Tree n β) (k : List (Fin n)) :
    (ext p t).lookup k = if p <+: k then t.lookup (k.drop p.length) else none := rfl

@[simp] theorem lookup_ext_append (p : List (Fin n)) (t : Tree n β) (k : List (Fin n)) :
    (ext p t).lookup (p ++ k) = t.lookup k := by
  rw [lookup_ext, if_pos (List.prefix_append p k), List.drop_left]

theorem prefix_of_lookup_ext {p : List (Fin n)} {t : Tree n β} {k : List (Fin n)} {v : β}
    (h : (ext p t).lookup k = some v) : ∃ r, k = p ++ r ∧ t.lookup r = some v := by
  rw [lookup_ext] at h
  split at h
  case isTrue hp =>
    obtain ⟨r, rfl⟩ := hp
    exact ⟨r, rfl, by rwa [List.drop_left] at h⟩
  case isFalse => cases h

@[simp] theorem isEmpty_empty : (empty : Tree n β).isEmpty = true := rfl
@[simp] theorem isEmpty_leaf (p : List (Fin n)) (v : β) : (leaf p v).isEmpty = false := rfl
@[simp] theorem isEmpty_ext (p : List (Fin n)) (t : Tree n β) : (ext p t).isEmpty = false := rfl
@[simp] theorem isEmpty_branch (c : Fin n → Tree n β) (v : Option β) :
    (branch c v).isEmpty = false := rfl

theorem eq_empty_of_isEmpty {t : Tree n β} (h : t.isEmpty = true) : t = empty := by
  cases t <;> first | rfl | cases h

theorem isEmpty_of_isBranch {t : Tree n β} (h : t.isBranch = true) : t.isEmpty = false := by
  cases t <;> first | rfl | cases h

/-! ### A canonical tree is determined by its lookups -/

/-- A used slot of a canonical branch carries a key that starts with the slot's letter. -/
theorem exists_key_of_used {c : Fin n → Tree n β} {v : Option β}
    (hc : ∀ a, (c a).isEmpty = false → ∃ k w, (c a).lookup k = some w) {x : Option (Fin n)}
    (hx : used c v x = true) : ∃ k w, (branch c v).lookup k = some w ∧ k.head? = x := by
  cases x with
  | none =>
    obtain ⟨w, hw⟩ := Option.isSome_iff_exists.mp hx
    exact ⟨[], w, hw, rfl⟩
  | some a =>
    have hne : (c a).isEmpty = false := by simpa [used] using hx
    obtain ⟨k, w, hk⟩ := hc a hne
    exact ⟨a :: k, w, hk, rfl⟩

/-- A canonical tree other than the empty one holds a key. -/
theorem exists_lookup {t : Tree n β} (ht : t.Canonical) (hne : t.isEmpty = false) :
    ∃ k v, t.lookup k = some v := by
  induction t with
  | empty => cases hne
  | leaf p v => exact ⟨p, v, by simp⟩
  | ext p t ih =>
    obtain ⟨k, v, hk⟩ := ih ht.2.2 (isEmpty_of_isBranch ht.2.1)
    exact ⟨p ++ k, v, by simpa using hk⟩
  | branch c v ih =>
    obtain ⟨x, _, _, hx, _⟩ := ht.2
    obtain ⟨k, w, hk, _⟩ := exists_key_of_used (fun a ha => ih a (ht.1 a) ha) hx
    exact ⟨k, w, hk⟩

/-- The keys of `f` share the word `q` and no longer one: two of them go on
differently after it. -/
def Diverges (f : List (Fin n) → Option β) (q : List (Fin n)) : Prop :=
  (∀ k v, f k = some v → q <+: k) ∧
    ∃ k₁ k₂ v₁ v₂, f (q ++ k₁) = some v₁ ∧ f (q ++ k₂) = some v₂ ∧ k₁.head? ≠ k₂.head?

theorem diverges_branch {c : Fin n → Tree n β} {v : Option β} (h : (branch c v).Canonical) :
    Diverges (branch c v).lookup [] := by
  refine ⟨fun k _ _ => List.nil_prefix, ?_⟩
  obtain ⟨x, y, hxy, hx, hy⟩ := h.2
  have hc : ∀ a, (c a).isEmpty = false → ∃ k w, (c a).lookup k = some w :=
    fun a ha => exists_lookup (h.1 a) ha
  obtain ⟨k₁, v₁, h₁, e₁⟩ := exists_key_of_used hc hx
  obtain ⟨k₂, v₂, h₂, e₂⟩ := exists_key_of_used hc hy
  exact ⟨k₁, k₂, v₁, v₂, h₁, h₂, by rw [e₁, e₂]; exact hxy⟩

theorem diverges_ext {p : List (Fin n)} {t : Tree n β} (h : (ext p t).Canonical) :
    Diverges (ext p t).lookup p := by
  obtain ⟨_, hb, ht⟩ := h
  refine ⟨fun k v hk => ?_, ?_⟩
  · obtain ⟨r, rfl, _⟩ := prefix_of_lookup_ext hk
    exact List.prefix_append p r
  · cases t with
    | branch c w =>
      obtain ⟨_, k₁, k₂, v₁, v₂, h₁, h₂, hne⟩ := diverges_branch ht
      exact ⟨k₁, k₂, v₁, v₂, by simpa using h₁, by simpa using h₂, hne⟩
    | _ => cases hb

/-- A shorter point of divergence is not passed by all keys. -/
theorem Diverges.not_longer {f : List (Fin n) → Option β} {q : List (Fin n)} (h : Diverges f q)
    {a : Fin n} {r : List (Fin n)} (hall : ∀ k v, f k = some v → q ++ a :: r <+: k) : False := by
  obtain ⟨_, k₁, k₂, v₁, v₂, h₁, h₂, hne⟩ := h
  have hhead : ∀ k v, f (q ++ k) = some v → k.head? = some a := by
    intro k v hk
    obtain ⟨s, hs⟩ := hall _ _ hk
    rw [List.append_assoc] at hs
    have := List.append_cancel_left hs
    rw [← this]
    rfl
  exact hne (by rw [hhead _ _ h₁, hhead _ _ h₂])

theorem Diverges.unique {f : List (Fin n) → Option β} {p q : List (Fin n)} (hp : Diverges f p)
    (hq : Diverges f q) : p = q := by
  obtain ⟨k, _, v, _, hk, _, _⟩ := hp.2
  have hcomp := List.prefix_or_prefix_of_prefix (List.prefix_append p k) (hq.1 _ _ hk)
  rcases hcomp with ⟨r, rfl⟩ | ⟨r, rfl⟩
  · cases r with
    | nil => simp
    | cons a r => exact (hp.not_longer hq.1).elim
  · cases r with
    | nil => simp
    | cons a r => exact (hq.not_longer hp.1).elim

/-- A leaf holds one key, so its keys do not diverge. -/
theorem not_diverges_leaf (p : List (Fin n)) (v : β) (q : List (Fin n)) :
    ¬ Diverges (leaf p v).lookup q := by
  rintro ⟨_, k₁, k₂, v₁, v₂, h₁, h₂, hne⟩
  have e₁ : q ++ k₁ = p := by by_contra hc; simp [hc] at h₁
  have e₂ : q ++ k₂ = p := by by_contra hc; simp [hc] at h₂
  exact hne (by rw [List.append_cancel_left (e₁.trans e₂.symm)])

theorem not_diverges_empty (q : List (Fin n)) :
    ¬ Diverges (empty : Tree n β).lookup q := by
  rintro ⟨_, k₁, _, v₁, _, h₁, _⟩
  cases h₁

theorem eq_empty_of_lookup {t : Tree n β} (ht : t.Canonical) (h : ∀ k, t.lookup k = none) :
    t = empty := by
  cases he : t.isEmpty
  · obtain ⟨k, v, hk⟩ := exists_lookup ht he
    rw [h k] at hk
    cases hk
  · exact eq_empty_of_isEmpty he

/-- Canonical trees with the same lookups are the same tree. -/
theorem canonical_ext {t s : Tree n β} (ht : t.Canonical) (hs : s.Canonical)
    (h : ∀ k, t.lookup k = s.lookup k) : t = s := by
  induction t generalizing s with
  | empty => exact (eq_empty_of_lookup hs fun k => (h k).symm).symm
  | leaf p v =>
    have hf : (leaf p v).lookup = s.lookup := funext h
    cases s with
    | empty => simpa using h p
    | leaf q w =>
      have hp := h p
      simp only [lookup_leaf, if_true] at hp
      split at hp
      case isTrue e => cases hp; rw [e]
      case isFalse => cases hp
    | ext q s => exact (not_diverges_leaf p v q (hf ▸ diverges_ext hs)).elim
    | branch c w => exact (not_diverges_leaf p v [] (hf ▸ diverges_branch hs)).elim
  | ext p t ih =>
    have hf : (ext p t).lookup = s.lookup := funext h
    cases s with
    | empty => exact (not_diverges_empty p (hf ▸ diverges_ext ht)).elim
    | leaf q w => exact (not_diverges_leaf q w p (hf ▸ diverges_ext ht)).elim
    | ext q s =>
      have hpq : p = q := (hf ▸ diverges_ext ht : Diverges (ext q s).lookup p).unique
        (diverges_ext hs)
      subst hpq
      rw [ih ht.2.2 hs.2.2 fun k => by simpa using h (p ++ k)]
    | branch c w =>
      have hp : p = [] := (hf ▸ diverges_ext ht : Diverges (branch c w).lookup p).unique
        (diverges_branch hs)
      exact (ht.1 hp).elim
  | branch c v ih =>
    have hf : (branch c v).lookup = s.lookup := funext h
    cases s with
    | empty => exact (not_diverges_empty [] (hf ▸ diverges_branch ht)).elim
    | leaf q w => exact (not_diverges_leaf q w [] (hf ▸ diverges_branch ht)).elim
    | ext q s =>
      have hq : [] = q := (hf ▸ diverges_branch ht : Diverges (ext q s).lookup []).unique
        (diverges_ext hs)
      exact (hs.1 hq.symm).elim
    | branch d w =>
      have hv : v = w := by simpa using h []
      have hc : c = d := funext fun a => ih a (ht.1 a) (hs.1 a) fun k => by simpa using h (a :: k)
      rw [hv, hc]

/-! ### Common prefixes -/

/-- The number of letters two words share at their start. -/
def shared : List (Fin n) → List (Fin n) → Nat
  | a :: p, b :: q => if a = b then shared p q + 1 else 0
  | _, _ => 0

theorem shared_self_append (p k : List (Fin n)) : shared (p ++ k) p = p.length := by
  induction p with
  | nil => cases k <;> rfl
  | cons a p ih => simp [shared, ih]

theorem shared_le_left (p q : List (Fin n)) : shared p q ≤ p.length := by
  induction p generalizing q with
  | nil => simp [shared]
  | cons a p ih =>
    cases q with
    | nil => simp [shared]
    | cons b q =>
      simp only [shared]
      split
      · simpa using ih q
      · simp

theorem shared_comm (p q : List (Fin n)) : shared p q = shared q p := by
  induction p generalizing q with
  | nil => cases q <;> rfl
  | cons a p ih =>
    cases q with
    | nil => rfl
    | cons b q =>
      by_cases h : a = b
      · simp [shared, h, ih]
      · simp [shared, h, Ne.symm h]

theorem shared_le_right (p q : List (Fin n)) : shared p q ≤ q.length := by
  rw [shared_comm]
  exact shared_le_left q p

theorem shared_append (q r r' : List (Fin n)) : shared (q ++ r) (q ++ r') = q.length + shared r r' := by
  induction q with
  | nil => simp
  | cons a q ih => simp only [List.cons_append, shared, if_true, ih, List.length_cons]; omega

theorem shared_eq_zero_of_head {r r' : List (Fin n)} (h : r.head? ≠ r'.head?) : shared r r' = 0 := by
  cases r with
  | nil => rfl
  | cons a r =>
    cases r' with
    | nil => rfl
    | cons b r' =>
      have : a ≠ b := fun e => h (by simp [e])
      simp [shared, this]

theorem shared_mono {p p' q q' : List (Fin n)} (hp : p <+: p') (hq : q <+: q') :
    shared p q ≤ shared p' q' := by
  induction p generalizing p' q q' with
  | nil => simp [shared]
  | cons a p ih =>
    obtain ⟨x, rfl⟩ := hp
    obtain ⟨y, rfl⟩ := hq
    cases q with
    | nil => simp [shared]
    | cons b q =>
      simp only [List.cons_append, shared]
      split
      · exact Nat.succ_le_succ (ih (List.prefix_append _ _) (List.prefix_append _ _))
      · exact le_refl 0

theorem take_shared (p q : List (Fin n)) : p.take (shared p q) = q.take (shared p q) := by
  induction p generalizing q with
  | nil => simp [shared]
  | cons a p ih =>
    cases q with
    | nil => simp [shared]
    | cons b q =>
      by_cases h : a = b
      · simp [shared, h, ih]
      · simp [shared, h]

theorem shared_eq_length_iff {p k : List (Fin n)} : shared k p = p.length ↔ p <+: k := by
  constructor
  · intro h
    have := take_shared k p
    rw [h, List.take_length] at this
    rw [← this]
    exact List.take_prefix _ _
  · rintro ⟨r, rfl⟩
    exact shared_self_append p r

/-- What follows the common prefix begins differently. -/
theorem head_drop_shared (p q : List (Fin n)) {a b : Fin n} {p' q' : List (Fin n)}
    (hp : p.drop (shared p q) = a :: p') (hq : q.drop (shared p q) = b :: q') : a ≠ b := by
  induction p generalizing q with
  | nil => simp at hp
  | cons x p ih =>
    cases q with
    | nil => simp at hq
    | cons y q =>
      by_cases h : x = y
      · simp only [shared, h, if_true, List.drop_succ_cons] at hp hq
        exact ih q hp hq
      · simp only [shared, h, if_false, List.drop_zero, List.cons.injEq] at hp hq
        rw [← hp.1, ← hq.1]
        exact h

/-! ### Insertion -/

/-- The children of a branch all of whose slots but one are empty. -/
def only (a : Fin n) (t : Tree n β) : Fin n → Tree n β := Function.update (fun _ => empty) a t

/-- A tree below a run of letters, without an extension for the empty run. -/
def prepend (p : List (Fin n)) (t : Tree n β) : Tree n β := if p = [] then t else ext p t

/-- A leaf, as a branch on its first letter. -/
def splitLeaf : List (Fin n) → β → (Fin n → Tree n β) × Option β
  | [], v => (fun _ => empty, some v)
  | a :: p, v => (only a (leaf p v), none)

/-- An extension, as a branch on its first letter. -/
def splitExt : List (Fin n) → Tree n β → (Fin n → Tree n β) × Option β
  | [], _ => (fun _ => empty, none)
  | a :: p, t => (only a (prepend p t), none)

/-- A new key in a branch whose slot for it is free. -/
def fork (b : (Fin n → Tree n β) × Option β) : List (Fin n) → β → Tree n β
  | [], v => branch b.1 (some v)
  | a :: k, v => branch (Function.update b.1 a (leaf k v)) b.2

def insert : Tree n β → List (Fin n) → β → Tree n β
  | empty, k, v => leaf k v
  | leaf p w, k, v =>
    if k = p then leaf p v
    else prepend (p.take (shared k p)) (fork (splitLeaf (p.drop (shared k p)) w) (k.drop (shared k p)) v)
  | ext p t, k, v =>
    if p <+: k then ext p (t.insert (k.drop p.length) v)
    else prepend (p.take (shared k p)) (fork (splitExt (p.drop (shared k p)) t) (k.drop (shared k p)) v)
  | branch c _, [], v => branch c (some v)
  | branch c w, a :: k, v => branch (Function.update c a ((c a).insert k v)) w

/-! A leaf and an extension both are a path and what is below it. -/

/-- The tree is a leaf or an extension, and `path` its path. -/
def isStem : Tree n β → Bool
  | leaf _ _ => true
  | ext _ _ => true
  | _ => false

def path : Tree n β → List (Fin n)
  | leaf p _ => p
  | ext p _ => p
  | _ => []

def withPath (q : List (Fin n)) : Tree n β → Tree n β
  | leaf _ v => leaf q v
  | ext _ t => ext q t
  | t => t

/-- A leaf or an extension, as a branch on its first letter. -/
def split : Tree n β → (Fin n → Tree n β) × Option β
  | leaf p v => splitLeaf p v
  | ext p t => splitExt p t
  | _ => (fun _ => empty, none)

/-- The key leaves the path of a leaf or an extension. -/
def Parts (k : List (Fin n)) : Tree n β → Prop
  | leaf p _ => k ≠ p
  | ext p _ => ¬ p <+: k
  | _ => False

theorem insert_of_parts {t : Tree n β} {k : List (Fin n)} (h : t.Parts k) (v : β) :
    t.insert k v = prepend (t.path.take (shared k t.path))
      (fork (t.withPath (t.path.drop (shared k t.path))).split (k.drop (shared k t.path)) v) := by
  cases t with
  | leaf p w => rw [insert, if_neg h]; rfl
  | ext p t => rw [insert, if_neg h]; rfl
  | _ => exact h.elim

theorem isStem_of_parts {t : Tree n β} {k : List (Fin n)} (h : t.Parts k) : t.isStem = true := by
  cases t <;> first | rfl | exact h.elim

@[simp] theorem isStem_withPath (t : Tree n β) (q : List (Fin n)) :
    (t.withPath q).isStem = t.isStem := by
  cases t <;> rfl

@[simp] theorem path_withPath {t : Tree n β} (ht : t.isStem = true) (q : List (Fin n)) :
    (t.withPath q).path = q := by
  cases t <;> first | rfl | cases ht

theorem fork_eq_insert {b : (Fin n → Tree n β) × Option β} {k : List (Fin n)} (v : β)
    (hb : ∀ a k', k = a :: k' → b.1 a = empty) : fork b k v = (branch b.1 b.2).insert k v := by
  cases k with
  | nil => rfl
  | cons a k => simp only [fork, insert, hb a k rfl]

theorem lookup_prepend (p : List (Fin n)) (t : Tree n β) (k : List (Fin n)) :
    (prepend p t).lookup k = (ext p t).lookup k := by
  unfold prepend
  split
  case isTrue h => rw [h, lookup_ext, if_pos List.nil_prefix]; rfl
  case isFalse => rfl

theorem splitLeaf_lookup (p : List (Fin n)) (w : β) (k : List (Fin n)) :
    (branch (splitLeaf p w).1 (splitLeaf p w).2).lookup k = (leaf p w).lookup k := by
  cases p with
  | nil => cases k <;> simp [splitLeaf]
  | cons a p =>
    cases k with
    | nil => simp [splitLeaf]
    | cons b k =>
      by_cases h : b = a
      · subst h; simp [splitLeaf, only]
      · simp [splitLeaf, only, h]

theorem splitExt_lookup {p : List (Fin n)} (hp : p ≠ []) (t : Tree n β) (k : List (Fin n)) :
    (branch (splitExt p t).1 (splitExt p t).2).lookup k = (ext p t).lookup k := by
  cases p with
  | nil => exact (hp rfl).elim
  | cons a p =>
    cases k with
    | nil => simp [splitExt, lookup_ext]
    | cons b k =>
      by_cases h : b = a
      · subst h
        simp [splitExt, only, lookup_prepend, lookup_ext]
      · simp [splitExt, only, h, lookup_ext, Ne.symm h]

/-- A key put into a branch whose slot for it is free. -/
theorem lookup_fork {b : (Fin n → Tree n β) × Option β} {k : List (Fin n)} (v : β)
    (hb : ∀ a k', k = a :: k' → b.1 a = empty) (k' : List (Fin n)) :
    (fork b k v).lookup k' = if k' = k then some v else (branch b.1 b.2).lookup k' := by
  cases k with
  | nil => cases k' <;> simp [fork]
  | cons a k =>
    cases k' with
    | nil => simp [fork]
    | cons x k' =>
      by_cases h : x = a
      · subst h; simp [fork, hb _ _ rfl]
      · simp [fork, h]

/-- Two words that part after their common prefix land in different slots. -/
theorem splitLeaf_free (k p : List (Fin n)) (w : β) (a : Fin n) (k' : List (Fin n))
    (hk : k.drop (shared k p) = a :: k') : (splitLeaf (p.drop (shared k p)) w).1 a = empty := by
  cases hp : p.drop (shared k p) with
  | nil => rfl
  | cons b p' => simp [splitLeaf, only, head_drop_shared k p hk hp]

theorem splitExt_free (k p : List (Fin n)) (t : Tree n β) (a : Fin n) (k' : List (Fin n))
    (hk : k.drop (shared k p) = a :: k') : (splitExt (p.drop (shared k p)) t).1 a = empty := by
  cases hp : p.drop (shared k p) with
  | nil => rfl
  | cons b p' => simp [splitExt, only, head_drop_shared k p hk hp]

theorem drop_shared_ne_nil {k p : List (Fin n)} (h : ¬ p <+: k) : p.drop (shared k p) ≠ [] := by
  intro hd
  have hle := List.drop_eq_nil_iff.mp hd
  have := shared_le_right k p
  exact h (shared_eq_length_iff.mp (by omega))

theorem eq_shared_append (k p : List (Fin n)) :
    k = p.take (shared k p) ++ k.drop (shared k p) := by
  rw [← take_shared k p, List.take_append_drop]

theorem shared_drop_shared (k p : List (Fin n)) :
    shared (k.drop (shared k p)) (p.drop (shared k p)) = 0 := by
  cases hk : k.drop (shared k p) with
  | nil => rfl
  | cons a k' =>
    cases hp : p.drop (shared k p) with
    | nil => rfl
    | cons b p' => simp [shared, head_drop_shared k p hk hp]

/-- Below the shared letters the rest of the key still leaves the rest of the path. -/
theorem parts_withPath {t : Tree n β} {k : List (Fin n)} (h : t.Parts k) :
    (t.withPath (t.path.drop (shared k t.path))).Parts (k.drop (shared k t.path)) := by
  cases t with
  | leaf p w =>
    intro heq
    refine h ?_
    calc k = p.take (shared k p) ++ k.drop (shared k p) := eq_shared_append k p
      _ = p.take (shared k p) ++ p.drop (shared k p) := congrArg _ heq
      _ = p := List.take_append_drop _ _
  | ext p t =>
    intro hpre
    obtain ⟨r, hr⟩ : p.drop (shared k p) <+: k.drop (shared k p) := hpre
    refine h ⟨r, ?_⟩
    calc p ++ r = p.take (shared k p) ++ (p.drop (shared k p) ++ r) := by
          rw [← List.append_assoc, List.take_append_drop]
      _ = p.take (shared k p) ++ k.drop (shared k p) := by rw [hr]
      _ = k := (eq_shared_append k p).symm
  | _ => exact h.elim

theorem split_free {t : Tree n β} {k : List (Fin n)} (h : t.Parts k)
    (hs : shared k t.path = 0) {a : Fin n} {k' : List (Fin n)} (hk : k = a :: k') :
    t.split.1 a = empty := by
  cases t with
  | leaf p w =>
    have := splitLeaf_free k p w a k'
    rw [show shared k p = 0 from hs] at this
    exact this hk
  | ext p t =>
    have := splitExt_free k p t a k'
    rw [show shared k p = 0 from hs] at this
    exact this hk
  | _ => exact h.elim

/-- What insertion below the common prefix means for the whole words. -/
theorem lookup_below_shared (k p k' : List (Fin n)) (t s : Tree n β) (v : β)
    (ht : ∀ r, t.lookup r = if r = k.drop (shared k p) then some v else s.lookup r) :
    (prepend (p.take (shared k p)) t).lookup k' =
      if k' = k then some v else (ext (p.take (shared k p)) s).lookup k' := by
  have hk : k = p.take (shared k p) ++ k.drop (shared k p) := by
    rw [← take_shared, List.take_append_drop]
  rw [lookup_prepend]
  by_cases hp : p.take (shared k p) <+: k'
  · obtain ⟨r, rfl⟩ := hp
    rw [lookup_ext_append, lookup_ext_append, ht]
    have : (p.take (shared k p) ++ r = k) ↔ r = k.drop (shared k p) := by
      constructor
      · intro e
        exact List.append_cancel_left (e.trans hk)
      · intro e
        rw [e]
        exact hk.symm
    simp only [this]
  · have hne : k' ≠ k := fun e => hp (by rw [e]; exact ⟨_, hk.symm⟩)
    rw [lookup_ext, if_neg hp, if_neg hne, lookup_ext, if_neg hp]

theorem lookup_ext_take_drop (p : List (Fin n)) (i : Nat) (t s : Tree n β) (k : List (Fin n))
    (hs : ∀ r, s.lookup r = (ext (p.drop i) t).lookup r) :
    (ext (p.take i) s).lookup k = (ext p t).lookup k := by
  by_cases hp : p.take i <+: k
  · obtain ⟨r, rfl⟩ := hp
    rw [lookup_ext_append, hs, lookup_ext, lookup_ext]
    have hiff : (p.drop i <+: r) ↔ (p <+: p.take i ++ r) := by
      constructor
      · rintro ⟨x, rfl⟩
        exact ⟨x, by rw [← List.append_assoc, List.take_append_drop]⟩
      · rintro ⟨x, hx⟩
        refine ⟨x, ?_⟩
        apply @List.append_cancel_left _ (p.take i)
        rw [← List.append_assoc, List.take_append_drop, hx]
    by_cases hd : p.drop i <+: r
    · rw [if_pos hd, if_pos (hiff.mp hd)]
      congr 1
      obtain ⟨x, rfl⟩ := hd
      rw [List.drop_left, ← List.append_assoc, List.take_append_drop, List.drop_left]
    · rw [if_neg hd, if_neg fun h => hd (hiff.mpr h)]
  · have hnp : ¬ p <+: k := fun h => hp ((List.take_prefix i p).trans h)
    rw [lookup_ext, if_neg hp, lookup_ext, if_neg hnp]

theorem lookup_leaf_take_drop (p : List (Fin n)) (i : Nat) (w : β) (s : Tree n β)
    (k : List (Fin n)) (hs : ∀ r, s.lookup r = (leaf (p.drop i) w).lookup r) :
    (ext (p.take i) s).lookup k = (leaf p w).lookup k := by
  by_cases hp : p.take i <+: k
  · obtain ⟨r, rfl⟩ := hp
    rw [lookup_ext_append, hs, lookup_leaf, lookup_leaf]
    have : (r = p.drop i) ↔ (p.take i ++ r = p) := by
      constructor
      · rintro rfl
        exact List.take_append_drop i p
      · intro e
        exact List.append_cancel_left (e.trans (List.take_append_drop i p).symm)
    simp only [this]
  · have hne : k ≠ p := fun e => hp (e ▸ List.take_prefix i p)
    rw [lookup_ext, if_neg hp, lookup_leaf, if_neg hne]

/-- Insertion is an update of the map. -/
theorem lookup_insert (t : Tree n β) (k : List (Fin n)) (v : β) (k' : List (Fin n)) :
    (t.insert k v).lookup k' = if k' = k then some v else t.lookup k' := by
  induction t generalizing k k' with
  | empty => rfl
  | leaf p w =>
    rw [insert]
    split
    case isTrue h => subst h; by_cases hk : k' = k <;> simp [hk]
    case isFalse h =>
      rw [lookup_below_shared k p k' _ _ v (lookup_fork v (splitLeaf_free k p w)),
        lookup_leaf_take_drop p _ w _ k' (splitLeaf_lookup _ w)]
  | ext p t ih =>
    rw [insert]
    split
    case isTrue h =>
      obtain ⟨r, rfl⟩ := h
      rw [List.drop_left]
      by_cases hp : p <+: k'
      · obtain ⟨r', rfl⟩ := hp
        rw [lookup_ext_append, lookup_ext_append, ih]
        simp only [List.append_cancel_left_eq]
      · have hne : k' ≠ p ++ r := fun e => hp (e ▸ List.prefix_append p r)
        rw [lookup_ext, if_neg hp, if_neg hne, lookup_ext, if_neg hp]
    case isFalse h =>
      rw [lookup_below_shared k p k' _ _ v (lookup_fork v (splitExt_free k p t)),
        lookup_ext_take_drop p _ t _ k' (splitExt_lookup (drop_shared_ne_nil h) t)]
  | branch c w ih =>
    cases k with
    | nil => cases k' <;> simp [insert]
    | cons a k =>
      cases k' with
      | nil => simp [insert]
      | cons x k' =>
        by_cases h : x = a
        · subst h; simp [insert, ih]
        · simp [insert, h]

theorem isBranch_fork (b : (Fin n → Tree n β) × Option β) (k : List (Fin n)) (v : β) :
    (fork b k v).isBranch = true := by
  cases k <;> rfl

theorem isBranch_insert_of_isBranch {t : Tree n β} (ht : t.isBranch = true) (k : List (Fin n))
    (v : β) : (t.insert k v).isBranch = true := by
  cases t with
  | branch c w => cases k <;> rfl
  | _ => cases ht

theorem canonical_prepend {p : List (Fin n)} {t : Tree n β} (ht : t.Canonical)
    (hb : t.isBranch = true) : (prepend p t).Canonical := by
  unfold prepend
  split
  · exact ht
  · exact ⟨‹_›, hb, ht⟩

@[simp] theorem isEmpty_prepend (p : List (Fin n)) (t : Tree n β) (ht : t.isEmpty = false) :
    (prepend p t).isEmpty = false := by
  unfold prepend
  split
  · exact ht
  · rfl

@[simp] theorem isEmpty_insert (t : Tree n β) (k : List (Fin n)) (v : β) :
    (t.insert k v).isEmpty = false := by
  cases t with
  | empty => rfl
  | leaf p w =>
    rw [insert]
    split
    · rfl
    · exact isEmpty_prepend _ _ (isEmpty_of_isBranch (isBranch_fork _ _ _))
  | ext p t =>
    rw [insert]
    split
    · rfl
    · exact isEmpty_prepend _ _ (isEmpty_of_isBranch (isBranch_fork _ _ _))
  | branch c w => cases k <;> rfl

/-- A slot that is in use, all of whose slots hold canonical trees: what a split node is. -/
theorem canonical_fork {b : (Fin n → Tree n β) × Option β} {k : List (Fin n)} (v : β)
    (hc : ∀ a, (b.1 a).Canonical) {x : Option (Fin n)} (hx : used b.1 b.2 x = true)
    (hne : x ≠ k.head?) : (fork b k v).Canonical := by
  cases k with
  | nil =>
    refine ⟨hc, x, none, hne, ?_, rfl⟩
    cases x with
    | none => exact (hne rfl).elim
    | some a => exact hx
  | cons a k =>
    refine ⟨fun a' => ?_, x, some a, hne, ?_, by simp [used]⟩
    · by_cases h : a' = a
      · subst h; simp [Canonical]
      · simpa [h] using hc a'
    · cases x with
      | none => exact hx
      | some y =>
        have : y ≠ a := fun e => hne (by rw [e]; rfl)
        simpa [used, this] using hx

/-- The used slot of a split leaf. -/
theorem used_splitLeaf (p : List (Fin n)) (w : β) :
    used (splitLeaf p w).1 (splitLeaf p w).2 p.head? = true := by
  cases p <;> simp [splitLeaf, used, only]

theorem canonical_splitLeaf (p : List (Fin n)) (w : β) (a : Fin n) :
    ((splitLeaf p w).1 a).Canonical := by
  cases p with
  | nil => trivial
  | cons b p =>
    by_cases h : a = b
    · subst h; simp [splitLeaf, only, Canonical]
    · simp [splitLeaf, only, h, Canonical]

theorem used_splitExt {p : List (Fin n)} (hp : p ≠ []) {t : Tree n β} (ht : t.isBranch = true) :
    used (splitExt p t).1 (splitExt p t).2 p.head? = true := by
  cases p with
  | nil => exact (hp rfl).elim
  | cons a p => simp [splitExt, used, only, isEmpty_of_isBranch ht]

theorem canonical_splitExt (p : List (Fin n)) {t : Tree n β} (ht : t.Canonical)
    (hb : t.isBranch = true) (a : Fin n) : ((splitExt p t).1 a).Canonical := by
  cases p with
  | nil => trivial
  | cons b p =>
    by_cases h : a = b
    · subst h; simpa [splitExt, only] using canonical_prepend ht hb
    · simp [splitExt, only, h, Canonical]

/-- Past the common prefix, two different words have different heads. -/
theorem head_drop_ne {k p : List (Fin n)} (h : k ≠ p) :
    (p.drop (shared k p)).head? ≠ (k.drop (shared k p)).head? := by
  cases hk : k.drop (shared k p) with
  | nil =>
    cases hp : p.drop (shared k p) with
    | nil =>
      have ek := List.take_append_drop (shared k p) k
      have ep := List.take_append_drop (shared k p) p
      rw [hk] at ek
      rw [hp, ← take_shared k p] at ep
      exact (h (ek.symm.trans ep)).elim
    | cons b p' => simp
  | cons a k' =>
    cases hp : p.drop (shared k p) with
    | nil => simp
    | cons b p' => simpa using (head_drop_shared k p hk hp).symm

theorem canonical_insert {t : Tree n β} (ht : t.Canonical) (k : List (Fin n)) (v : β) :
    (t.insert k v).Canonical := by
  induction t generalizing k with
  | empty => trivial
  | leaf p w =>
    rw [insert]
    split
    case isTrue => trivial
    case isFalse h =>
      exact canonical_prepend (canonical_fork v (canonical_splitLeaf _ w) (used_splitLeaf _ w)
        (head_drop_ne h)) (isBranch_fork _ _ _)
  | ext p t ih =>
    obtain ⟨hp, hb, ht⟩ := ht
    rw [insert]
    split
    case isTrue => exact ⟨hp, isBranch_insert_of_isBranch hb _ v, ih ht _⟩
    case isFalse h =>
      have hkp : k ≠ p := fun e => h (e ▸ List.prefix_rfl)
      exact canonical_prepend (canonical_fork v (canonical_splitExt _ ht hb)
        (used_splitExt (drop_shared_ne_nil h) hb) (head_drop_ne hkp)) (isBranch_fork _ _ _)
  | branch c w ih =>
    obtain ⟨hc, x, y, hxy, hx, hy⟩ := ht
    cases k with
    | nil =>
      refine ⟨hc, x, y, hxy, ?_, ?_⟩
      · cases x <;> first | rfl | exact hx
      · cases y <;> first | rfl | exact hy
    | cons a k =>
      -- a slot in use stays in use: the updated one holds the insertion's result
      have hkeep : ∀ z, used c w z = true →
          used (Function.update c a ((c a).insert k v)) w z = true := by
        intro z hz
        cases z with
        | none => exact hz
        | some b =>
          by_cases h : b = a
          · subst h; simp [used]
          · simpa [used, h] using hz
      refine ⟨fun b => ?_, x, y, hxy, hkeep x hx, hkeep y hy⟩
      by_cases h : b = a
      · subst h; simpa using ih b (hc b) k
      · simpa [h] using hc b

/-! ### Deletion -/

/-- The slots of a branch, letters first. -/
def slots (n : Nat) : List (Option (Fin n)) := (List.finRange n).map some ++ [none]

theorem mem_slots (x : Option (Fin n)) : x ∈ slots n := by
  cases x <;> simp [slots]

theorem nodup_slots : (slots n).Nodup := by
  unfold slots
  refine List.Nodup.append ((List.nodup_finRange n).map (Option.some_injective _)) (by simp) ?_
  simp [List.Disjoint]

/-- The only element of a list with the property, when there is exactly one. -/
def unique {σ : Type} (l : List σ) (f : σ → Bool) : Option σ :=
  match l.filter f with
  | [x] => some x
  | _ => none

theorem unique_eq_some {σ : Type} {l : List σ} {f : σ → Bool} {x : σ} (h : unique l f = some x) :
    x ∈ l ∧ f x = true ∧ ∀ y ∈ l, f y = true → y = x := by
  unfold unique at h
  split at h
  case h_1 z hz =>
    cases h
    have hmem : ∀ y, y ∈ l.filter f ↔ y = x := by simp [hz]
    have hx := List.mem_filter.mp ((hmem x).mpr rfl)
    exact ⟨hx.1, hx.2, fun y hy hf => (hmem y).mp (List.mem_filter.mpr ⟨hy, hf⟩)⟩
  case h_2 => cases h

theorem unique_eq_none {σ : Type} {l : List σ} {f : σ → Bool} (hl : l.Nodup)
    (h : unique l f = none) {x : σ} (hx : x ∈ l) (hfx : f x = true) :
    ∃ y ∈ l, y ≠ x ∧ f y = true := by
  by_contra hno
  have hall : ∀ y ∈ l.filter f, y = x := by
    intro y hy
    by_contra hne
    exact hno ⟨y, (List.mem_filter.mp hy).1, hne, (List.mem_filter.mp hy).2⟩
  have hf : l.filter f = [x] := by
    have hmem := List.mem_filter.mpr ⟨hx, hfx⟩
    have hnd := hl.filter f
    cases hl' : l.filter f with
    | nil => rw [hl'] at hmem; cases hmem
    | cons y r =>
      rw [hl'] at hall hnd
      cases r with
      | nil => rw [hall y (by simp)]
      | cons z r =>
        have : y = z := (hall y (by simp)).trans (hall z (by simp)).symm
        simp [this] at hnd
  rw [unique, hf] at h
  cases h

theorem unique_of {σ : Type} {l : List σ} {f : σ → Bool} (hl : l.Nodup) {x : σ} (hx : x ∈ l)
    (hfx : f x = true) (h : ∀ y ∈ l, f y = true → y = x) : unique l f = some x := by
  cases hu : unique l f with
  | some z =>
    obtain ⟨hz, hfz, _⟩ := unique_eq_some hu
    rw [h z hz hfz]
  | none =>
    obtain ⟨y, hy, hne, hfy⟩ := unique_eq_none hl hu hx hfx
    exact (hne (h y hy hfy)).elim

theorem unique_map {σ τ : Type} (l : List σ) (g : σ → τ) (f : τ → Bool) :
    unique (l.map g) f = (unique l (f ∘ g)).map g := by
  unfold unique
  rw [List.filter_map]
  cases l.filter (f ∘ g) with
  | nil => rfl
  | cons x r => cases r <;> rfl

/-- A run of letters above a tree, merged with the run the tree starts with. -/
def extend (p : List (Fin n)) : Tree n β → Tree n β
  | leaf q v => leaf (p ++ q) v
  | ext q t => ext (p ++ q) t
  | t => ext p t

/-- A branch, or what it shrinks to when only one slot is in use. -/
def collapse (c : Fin n → Tree n β) (v : Option β) : Tree n β :=
  match unique (slots n) (used c v), v with
  | some (some a), _ => extend [a] (c a)
  | some none, some w => leaf [] w
  | _, _ => branch c v

theorem collapse_none {c : Fin n → Tree n β} {v : Option β} (hu : unique (slots n) (used c v) = none) :
    collapse c v = branch c v := by
  unfold collapse
  rw [hu]

theorem collapse_child {c : Fin n → Tree n β} {v : Option β} {a : Fin n}
    (hu : unique (slots n) (used c v) = some (some a)) : collapse c v = extend [a] (c a) := by
  unfold collapse
  rw [hu]

theorem collapse_value {c : Fin n → Tree n β} {w : β}
    (hu : unique (slots n) (used c (some w)) = some none) : collapse c (some w) = leaf [] w := by
  unfold collapse
  rw [hu]

/-- The tree without a key, or `none` if it does not hold the key. -/
def delete : Tree n β → List (Fin n) → Option (Tree n β)
  | empty, _ => none
  | leaf p _, k => if k = p then some empty else none
  | ext p t, k => if p <+: k then (t.delete (k.drop p.length)).map (extend p) else none
  | branch c (some _), [] => some (collapse c none)
  | branch _ none, [] => none
  | branch c w, a :: k => ((c a).delete k).map fun t => collapse (Function.update c a t) w

theorem delete_branch_cons (c : Fin n → Tree n β) (v : Option β) (a : Fin n) (k : List (Fin n)) :
    (branch c v).delete (a :: k) =
      ((c a).delete k).map fun t => collapse (Function.update c a t) v := by
  rw [delete]

theorem lookup_extend {t : Tree n β} (ht : t.isEmpty = false) (p k : List (Fin n)) :
    (extend p t).lookup k = (ext p t).lookup k := by
  have hsplit (q : List (Fin n)) (s : Tree n β) :
      (ext (p ++ q) s).lookup k = (ext p (ext q s)).lookup k := by
    have := lookup_ext_take_drop (p ++ q) p.length s (ext q s) k fun r => by rw [List.drop_left]
    rw [List.take_left] at this
    exact this.symm
  cases t with
  | empty => cases ht
  | leaf q v =>
    have := lookup_leaf_take_drop (p ++ q) p.length v (leaf q v) k fun r => by rw [List.drop_left]
    rw [List.take_left] at this
    exact this.symm
  | ext q s => exact hsplit q s
  | branch c v => rfl

theorem canonical_extend {t : Tree n β} (ht : t.Canonical) (hne : t.isEmpty = false)
    {p : List (Fin n)} (hp : p ≠ []) : (extend p t).Canonical := by
  cases t with
  | empty => cases hne
  | leaf q v => trivial
  | ext q s => exact ⟨by simp [hp], ht.2.1, ht.2.2⟩
  | branch c v => exact ⟨hp, rfl, ht⟩

@[simp] theorem isEmpty_extend (p : List (Fin n)) (t : Tree n β) : (extend p t).isEmpty = false := by
  cases t <;> rfl

theorem lookup_single (c : Fin n → Tree n β) (v : Option β) {a : Fin n}
    (hu : ∀ y, used c v y = true → y = some a) (k : List (Fin n)) :
    (ext [a] (c a)).lookup k = (branch c v).lookup k := by
  have hv : v = none := by
    cases v with
    | none => rfl
    | some w => cases hu none rfl
  cases k with
  | nil => simp [lookup_ext, hv]
  | cons b k =>
    by_cases h : a = b
    · subst h; simp [lookup_ext]
    · have hb : (c b).isEmpty = true := by
        cases he : (c b).isEmpty
        · have := hu (some b) (by simp [used, he])
          exact (h (Option.some.inj this).symm).elim
        · rfl
      simp [lookup_ext, h, eq_empty_of_isEmpty hb]

theorem lookup_value_only (c : Fin n → Tree n β) (w : β)
    (hu : ∀ y, used c (some w) y = true → y = none) (k : List (Fin n)) :
    (leaf [] w).lookup k = (branch c (some w)).lookup k := by
  cases k with
  | nil => rfl
  | cons b k =>
    have hb : (c b).isEmpty = true := by
      cases he : (c b).isEmpty
      · cases hu (some b) (by simp [used, he])
      · rfl
    simp [eq_empty_of_isEmpty hb]

theorem lookup_collapse (c : Fin n → Tree n β) (v : Option β) (k : List (Fin n)) :
    (collapse c v).lookup k = (branch c v).lookup k := by
  unfold collapse
  split
  case h_1 a h =>
    obtain ⟨_, ha, hu⟩ := unique_eq_some h
    rw [lookup_extend (by simpa [used] using ha)]
    exact lookup_single c _ (fun y hy => hu y (mem_slots y) hy) k
  case h_2 w h =>
    obtain ⟨_, _, hu⟩ := unique_eq_some h
    exact lookup_value_only c w (fun y hy => hu y (mem_slots y) hy) k
  case h_3 => rfl

@[simp] theorem isEmpty_collapse (c : Fin n → Tree n β) (v : Option β) :
    (collapse c v).isEmpty = false := by
  unfold collapse
  split <;> simp

/-- One slot in use is enough for `collapse` to give a canonical tree. -/
theorem canonical_collapse {c : Fin n → Tree n β} {v : Option β} (hc : ∀ a, (c a).Canonical)
    {x : Option (Fin n)} (hx : used c v x = true) : (collapse c v).Canonical := by
  cases hu : unique (slots n) (used c v) with
  | none =>
    obtain ⟨y, _, hne, hy⟩ := unique_eq_none nodup_slots hu (mem_slots x) hx
    simp only [collapse, hu]
    exact ⟨hc, y, x, hne, hy, hx⟩
  | some z =>
    have hz := (unique_eq_some hu).2.1
    cases z with
    | some a =>
      simp only [collapse, hu]
      exact canonical_extend (hc a) (by simpa [used] using hz) (by simp)
    | none =>
      cases v with
      | some w => simp only [collapse, hu]; trivial
      | none => cases hz

theorem delete_eq_none {t : Tree n β} {k : List (Fin n)} :
    t.delete k = none ↔ t.lookup k = none := by
  induction t generalizing k with
  | empty => simp [delete]
  | leaf p v => by_cases h : k = p <;> simp [delete, h]
  | ext p t ih =>
    rw [delete, lookup_ext]
    split
    · rw [Option.map_eq_none_iff]
      exact ih
    · simp
  | branch c v ih =>
    cases k with
    | nil => cases v <;> simp [delete]
    | cons a k =>
      rw [delete_branch_cons, Option.map_eq_none_iff]
      exact ih a

/-- Deletion below a branch or an extension leaves something there. -/
theorem isEmpty_delete_of_isBranch {t t' : Tree n β} {k : List (Fin n)} (ht : t.isBranch = true)
    (h : t.delete k = some t') : t'.isEmpty = false := by
  cases t with
  | branch c v =>
    cases k with
    | nil =>
      cases v with
      | none => cases h
      | some w => cases h; simp
    | cons a k =>
      rw [delete_branch_cons] at h
      obtain ⟨s, _, rfl⟩ := Option.map_eq_some_iff.mp h
      simp
  | _ => cases ht

/-- Only a leaf vanishes. -/
theorem eq_leaf_of_delete {t t' : Tree n β} {k : List (Fin n)} (h : t.delete k = some t')
    (he : t'.isEmpty = true) : ∃ v, t = leaf k v := by
  cases t with
  | empty => cases h
  | leaf p v =>
    by_cases hk : k = p
    · exact ⟨v, by rw [hk]⟩
    · simp [delete, hk] at h
  | ext p t =>
    rw [delete] at h
    split at h
    case isTrue =>
      obtain ⟨s, _, rfl⟩ := Option.map_eq_some_iff.mp h
      simp at he
    case isFalse => cases h
  | branch c v =>
    rw [isEmpty_delete_of_isBranch (t := branch c v) rfl h] at he
    cases he

/-- Deletion is the removal of a key from the map. -/
theorem lookup_delete {t t' : Tree n β} {k : List (Fin n)} (ht : t.Canonical)
    (h : t.delete k = some t') (k' : List (Fin n)) :
    t'.lookup k' = if k' = k then none else t.lookup k' := by
  induction t generalizing t' k k' with
  | empty => cases h
  | leaf p v =>
    by_cases e : k = p
    · subst e
      simp only [delete, if_true, Option.some.injEq] at h
      subst h
      by_cases hk : k' = k <;> simp [hk]
    · simp [delete, e] at h
  | ext p t ih =>
    rw [delete] at h
    split at h
    case isFalse => cases h
    case isTrue hp =>
      obtain ⟨s, hs, rfl⟩ := Option.map_eq_some_iff.mp h
      obtain ⟨r, rfl⟩ := hp
      rw [List.drop_left] at hs
      rw [lookup_extend (isEmpty_delete_of_isBranch ht.2.1 hs)]
      by_cases hp' : p <+: k'
      · obtain ⟨r', rfl⟩ := hp'
        rw [lookup_ext_append, lookup_ext_append, ih ht.2.2 hs]
        simp only [List.append_cancel_left_eq]
      · rw [lookup_ext, if_neg hp', lookup_ext, if_neg hp', ite_self]
  | branch c v ih =>
    cases k with
    | nil =>
      cases v with
      | none => cases h
      | some w =>
        cases h
        rw [lookup_collapse]
        cases k' <;> simp
    | cons a k =>
      rw [delete_branch_cons] at h
      obtain ⟨s, hs, rfl⟩ := Option.map_eq_some_iff.mp h
      rw [lookup_collapse]
      cases k' with
      | nil => simp
      | cons x k' =>
        by_cases hx : x = a
        · subst hx; simp [ih x (ht.1 x) hs]
        · simp [hx]

theorem canonical_delete {t t' : Tree n β} {k : List (Fin n)} (ht : t.Canonical)
    (h : t.delete k = some t') : t'.Canonical := by
  induction t generalizing t' k with
  | empty => cases h
  | leaf p v =>
    by_cases e : k = p
    · simp only [delete, e, if_true, Option.some.injEq] at h
      subst h
      trivial
    · simp [delete, e] at h
  | ext p t ih =>
    rw [delete] at h
    split at h
    case isFalse => cases h
    case isTrue hp =>
      obtain ⟨s, hs, rfl⟩ := Option.map_eq_some_iff.mp h
      exact canonical_extend (ih ht.2.2 hs) (isEmpty_delete_of_isBranch ht.2.1 hs) ht.1
  | branch c v ih =>
    obtain ⟨hc, x, y, hxy, hx, hy⟩ := ht
    cases k with
    | nil =>
      cases v with
      | none => cases h
      | some w =>
        cases h
        -- of the two used slots one is not the value's
        have : ∃ z, used c none z = true := by
          cases x with
          | some a => exact ⟨some a, hx⟩
          | none =>
            cases y with
            | some b => exact ⟨some b, hy⟩
            | none => exact (hxy rfl).elim
        obtain ⟨z, hz⟩ := this
        exact canonical_collapse hc hz
    | cons a k =>
      rw [delete_branch_cons] at h
      obtain ⟨s, hs, rfl⟩ := Option.map_eq_some_iff.mp h
      -- of the two used slots one is not the updated child's
      have hkeep : ∀ z, z ≠ some a → used c v z = true →
          used (Function.update c a s) v z = true := by
        intro z hz hu
        cases z with
        | none => exact hu
        | some b =>
          have hb : b ≠ a := fun e => hz (by rw [e])
          simpa [used, hb] using hu
      have : ∃ z, used (Function.update c a s) v z = true := by
        by_cases hxa : x = some a
        · exact ⟨y, hkeep y (fun e => hxy (hxa.trans e.symm)) hy⟩
        · exact ⟨x, hkeep x hxa hx⟩
      obtain ⟨z, hz⟩ := this
      refine canonical_collapse (fun b => ?_) hz
      by_cases hb : b = a
      · subst hb; simpa using ih b (hc b) hs
      · simpa [hb] using hc b

end Tree
end Patricia
