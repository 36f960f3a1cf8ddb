import Aleth.Structure.Patricia
import Mathlib.Order.Lattice
import Mathlib.Data.List.Lex
import Mathlib.Data.List.FinRange
import Mathlib.Tactic.Common

/-! The entries of a Patricia tree in the order of their keys.

`entries` lists them: a branch has its own value first, then its children letter
by letter. The list is strictly sorted (`sorted_entries`) and holds what `lookup`
finds (`mem_entries`). `entriesFrom` leaves out the keys before a given one, and
has an equation for each kind of node, which says what a search does there: a run
of letters is entered, dropped or taken whole. -/
namespace Patricia.Tree
variable {n : Nat} {β : Type}

/-- Entries below a run of letters. -/
def under (p : List (Fin n)) (es : List (List (Fin n) × β)) : List (List (Fin n) × β) :=
  es.map fun e => (p ++ e.1, e.2)

@[simp] theorem under_nil (es : List (List (Fin n) × β)) : under [] es = es := by
  simp [under]

@[simp] theorem under_under (p q : List (Fin n)) (es : List (List (Fin n) × β)) :
    under p (under q es) = under (p ++ q) es := by
  simp [under]

@[simp] theorem under_empty (p : List (Fin n)) : under p ([] : List (List (Fin n) × β)) = [] := rfl

@[simp] theorem under_append (p : List (Fin n)) (es es' : List (List (Fin n) × β)) :
    under p (es ++ es') = under p es ++ under p es' := List.map_append

@[simp] theorem under_cons (p : List (Fin n)) (e : List (Fin n) × β)
    (es : List (List (Fin n) × β)) : under p (e :: es) = (p ++ e.1, e.2) :: under p es := rfl

theorem mem_under {p k : List (Fin n)} {v : β} {es : List (List (Fin n) × β)} :
    (k, v) ∈ under p es ↔ ∃ r, k = p ++ r ∧ (r, v) ∈ es := by
  simp only [under, List.mem_map, Prod.mk.injEq, Prod.exists]
  constructor
  · rintro ⟨r, w, he, rfl, rfl⟩
    exact ⟨r, rfl, he⟩
  · rintro ⟨r, rfl, he⟩
    exact ⟨r, v, he, rfl, rfl⟩

/-- The children of some letters, one after the other. -/
def across (f : Fin n → List (List (Fin n) × β)) (as : List (Fin n)) :
    List (List (Fin n) × β) := as.flatMap fun a => under [a] (f a)

@[simp] theorem across_nil (f : Fin n → List (List (Fin n) × β)) : across f [] = [] := rfl

@[simp] theorem across_cons (f : Fin n → List (List (Fin n) × β)) (a : Fin n) (as : List (Fin n)) :
    across f (a :: as) = under [a] (f a) ++ across f as := List.flatMap_cons

theorem mem_across {f : Fin n → List (List (Fin n) × β)} {as : List (Fin n)}
    {e : List (Fin n) × β} :
    e ∈ across f as ↔ ∃ a ∈ as, ∃ r, e.1 = a :: r ∧ (r, e.2) ∈ f a := by
  obtain ⟨k, v⟩ := e
  simp only [across, List.mem_flatMap, mem_under, List.singleton_append]

/-- The value of a branch, under the empty key. -/
def own : Option β → List (List (Fin n) × β)
  | none => []
  | some v => [([], v)]

def entries : Tree n β → List (List (Fin n) × β)
  | empty => []
  | leaf p v => [(p, v)]
  | ext p t => under p (entries t)
  | branch c v => own v ++ across (fun a => entries (c a)) (List.finRange n)

theorem mem_entries {t : Tree n β} {k : List (Fin n)} {v : β} :
    (k, v) ∈ t.entries ↔ t.lookup k = some v := by
  induction t generalizing k with
  | empty => simp [entries]
  | leaf p w =>
    rw [entries, lookup_leaf, List.mem_singleton, Prod.mk.injEq]
    constructor
    · rintro ⟨rfl, rfl⟩
      exact if_pos rfl
    · intro h
      split at h
      case isTrue hk => exact ⟨hk, (Option.some.inj h).symm⟩
      case isFalse => cases h
  | ext p t ih =>
    rw [entries, mem_under]
    constructor
    · rintro ⟨r, rfl, hr⟩
      rw [lookup_ext_append]
      exact ih.mp hr
    · intro h
      obtain ⟨r, rfl, hr⟩ := prefix_of_lookup_ext h
      exact ⟨r, rfl, ih.mpr hr⟩
  | branch c w ih =>
    rw [entries, List.mem_append, mem_across]
    cases k with
    | nil =>
      rw [lookup_branch_nil]
      cases w with
      | none => simp [own]
      | some w => simp [own, eq_comm]
    | cons a k =>
      rw [lookup_branch_cons, ← ih a]
      constructor
      · rintro (h | ⟨b, _, r, he, hr⟩)
        · cases w with
          | none => cases h
          | some w => simp [own] at h
        · cases he
          exact hr
      · exact fun h => .inr ⟨a, List.mem_finRange a, k, rfl, h⟩

/-! ### Order -/

theorem append_lt_append_iff (p : List (Fin n)) {k k' : List (Fin n)} :
    p ++ k < p ++ k' ↔ k < k' := by
  induction p with
  | nil => rfl
  | cons a p ih => simp [ih]

theorem append_le_append_iff (p : List (Fin n)) {k k' : List (Fin n)} :
    p ++ k ≤ p ++ k' ↔ k ≤ k' := by
  rw [← not_lt, ← not_lt, append_lt_append_iff]

theorem sorted_under {es : List (List (Fin n) × β)} (h : es.Pairwise (fun e e' => e.1 < e'.1))
    (p : List (Fin n)) : (under p es).Pairwise (fun e e' => e.1 < e'.1) :=
  List.pairwise_map.mpr (h.imp fun he => (append_lt_append_iff p).mpr he)

theorem sorted_across {f : Fin n → List (List (Fin n) × β)}
    (hf : ∀ a, (f a).Pairwise (fun e e' => e.1 < e'.1)) {as : List (Fin n)}
    (has : as.Pairwise (· < ·)) : (across f as).Pairwise (fun e e' => e.1 < e'.1) := by
  induction as with
  | nil => exact List.Pairwise.nil
  | cons a as ih =>
    obtain ⟨ha, has⟩ := List.pairwise_cons.mp has
    rw [across_cons, List.pairwise_append]
    refine ⟨sorted_under (hf a) [a], ih has, fun e he e' he' => ?_⟩
    obtain ⟨r, hr, _⟩ := mem_under.mp he
    obtain ⟨b, hb, r', hr', _⟩ := mem_across.mp he'
    rw [hr, hr']
    exact List.cons_lt_cons_iff.mpr (.inl (ha b hb))

theorem sorted_entries (t : Tree n β) : t.entries.Pairwise (fun e e' => e.1 < e'.1) := by
  induction t with
  | empty => exact List.Pairwise.nil
  | leaf p v => exact List.pairwise_singleton _ _
  | ext p t ih => exact sorted_under ih p
  | branch c v ih =>
    rw [entries, List.pairwise_append]
    refine ⟨?_, sorted_across ih (List.pairwise_lt_finRange n), fun e he e' he' => ?_⟩
    · cases v with
      | none => exact List.Pairwise.nil
      | some v => exact List.pairwise_singleton _ _
    · obtain ⟨a, _, r, hr, _⟩ := mem_across.mp he'
      cases v with
      | none => cases he
      | some v =>
        rw [List.mem_singleton.mp he, hr]
        exact List.nil_lt_cons a r

/-! ### Entries from a key on -/

/-- The entries whose keys are not before `k`. -/
def notBefore (k : List (Fin n)) (es : List (List (Fin n) × β)) : List (List (Fin n) × β) :=
  es.filter fun e => k ≤ e.1

theorem notBefore_eq_self {k : List (Fin n)} {es : List (List (Fin n) × β)}
    (h : ∀ e ∈ es, k ≤ e.1) : notBefore k es = es :=
  List.filter_eq_self.mpr fun e he => decide_eq_true (h e he)

theorem notBefore_eq_nil {k : List (Fin n)} {es : List (List (Fin n) × β)}
    (h : ∀ e ∈ es, e.1 < k) : notBefore k es = [] :=
  List.filter_eq_nil_iff.mpr fun e he hk => not_lt.mpr (of_decide_eq_true hk) (h e he)

@[simp] theorem notBefore_nil (es : List (List (Fin n) × β)) : notBefore [] es = es :=
  notBefore_eq_self fun e _ => not_lt.mp (List.not_lt_nil e.1)

theorem notBefore_append (k : List (Fin n)) (es es' : List (List (Fin n) × β)) :
    notBefore k (es ++ es') = notBefore k es ++ notBefore k es' := List.filter_append ..

theorem notBefore_under (p k : List (Fin n)) (es : List (List (Fin n) × β)) :
    notBefore (p ++ k) (under p es) = under p (notBefore k es) := by
  unfold notBefore under
  rw [List.filter_map]
  congr 1
  refine List.filter_congr fun e _ => ?_
  simp only [Function.comp_apply, append_le_append_iff]

/-- A run of letters that the key starts with is entered. -/
theorem notBefore_under_of_prefix {p k : List (Fin n)} (h : p <+: k)
    (es : List (List (Fin n) × β)) :
    notBefore k (under p es) = under p (notBefore (k.drop p.length) es) := by
  obtain ⟨r, rfl⟩ := h
  rw [notBefore_under, List.drop_left]

theorem lt_append_of_lt {p k : List (Fin n)} (h : k < p) (r : List (Fin n)) : k < p ++ r := by
  have hp : p ≤ p ++ r := by
    have := (append_le_append_iff p).mpr (not_lt.mp (List.not_lt_nil r))
    rwa [List.append_nil] at this
  exact lt_of_lt_of_le h hp

theorem append_lt_of_lt {p k : List (Fin n)} (h : p < k) (hp : ¬p <+: k) (r : List (Fin n)) :
    p ++ r < k := by
  induction p generalizing k with
  | nil => exact absurd (List.nil_prefix) hp
  | cons a p ih =>
    cases k with
    | nil => exact absurd h (List.not_lt_nil _)
    | cons b k =>
      rw [List.cons_append, List.cons_lt_cons_iff]
      rcases List.cons_lt_cons_iff.mp h with hab | ⟨rfl, hpk⟩
      · exact .inl hab
      · exact .inr ⟨rfl, ih hpk fun hpre => hp (List.cons_prefix_cons.mpr ⟨rfl, hpre⟩)⟩

/-- A run of letters behind the key is taken whole. -/
theorem notBefore_under_of_lt {p k : List (Fin n)} (h : k < p) (es : List (List (Fin n) × β)) :
    notBefore k (under p es) = under p es := by
  refine notBefore_eq_self fun e he => ?_
  obtain ⟨r, hr, _⟩ := mem_under.mp he
  rw [hr]
  exact (lt_append_of_lt h r).le

/-- A run of letters before the key is dropped. -/
theorem notBefore_under_of_gt {p k : List (Fin n)} (h : ¬k < p) (hp : ¬p <+: k)
    (es : List (List (Fin n) × β)) : notBefore k (under p es) = [] := by
  refine notBefore_eq_nil fun e he => ?_
  obtain ⟨r, hr, _⟩ := mem_under.mp he
  rw [hr]
  refine append_lt_of_lt (lt_of_le_of_ne (not_lt.mp h) ?_) hp r
  rintro rfl
  exact hp List.prefix_rfl

/-- What is left of a search key below a run of letters; `none` when all keys there are before. -/
def narrowed (p k : List (Fin n)) : Option (List (Fin n)) :=
  if p <+: k then some (k.drop p.length) else if k < p then some [] else none

theorem notBefore_under_narrowed (p k : List (Fin n)) (es : List (List (Fin n) × β)) :
    notBefore k (under p es) = match narrowed p k with
      | some k' => under p (notBefore k' es)
      | none => [] := by
  unfold narrowed
  by_cases hp : p <+: k
  · rw [if_pos hp]
    exact notBefore_under_of_prefix hp es
  · rw [if_neg hp]
    by_cases hk : k < p
    · rw [if_pos hk]
      dsimp only
      rw [notBefore_nil, notBefore_under_of_lt hk]
    · rw [if_neg hk]
      exact notBefore_under_of_gt hk hp es

/-- The entries of the children from number `i` on, the first of them from `k` on. -/
def onward (c : Fin n → Tree n β) (i : ℕ) (k : List (Fin n)) : List (List (Fin n) × β) :=
  if h : i < n then
    under [⟨i, h⟩] (notBefore k (c ⟨i, h⟩).entries) ++
      across (fun a => (c a).entries) ((List.finRange n).drop (i + 1))
  else []

theorem drop_finRange {i : ℕ} (h : i < n) :
    (List.finRange n).drop i = ⟨i, h⟩ :: (List.finRange n).drop (i + 1) := by
  rw [List.drop_eq_getElem_cons (by simpa using h)]
  simp

theorem across_drop (c : Fin n → Tree n β) (i : ℕ) :
    across (fun a => (c a).entries) ((List.finRange n).drop i) = onward c i [] := by
  unfold onward
  split
  case isTrue h => rw [drop_finRange h, across_cons, notBefore_nil]
  case isFalse h => rw [List.drop_eq_nil_of_le (by simpa using h), across_nil]

theorem onward_of_lt (c : Fin n → Tree n β) (a : Fin n) (k : List (Fin n)) :
    onward c a k = under [a] (notBefore k (c a).entries) ++ onward c (a + 1) [] := by
  unfold onward
  rw [dif_pos a.isLt, across_drop]
  rfl

theorem onward_of_ge {i : ℕ} (h : n ≤ i) (c : Fin n → Tree n β) (k : List (Fin n)) :
    onward c i k = [] := dif_neg (not_lt.mpr h)

theorem entries_branch (c : Fin n → Tree n β) (v : Option β) :
    (branch c v).entries = own v ++ onward c 0 [] := by
  rw [← across_drop]
  rfl

/-- A search passes the value of a branch and the children before its letter. -/
theorem notBefore_branch (c : Fin n → Tree n β) (v : Option β) (a : Fin n) (k : List (Fin n)) :
    notBefore (a :: k) (branch c v).entries = onward c a k := by
  have hsplit : (List.finRange n) = (List.finRange n).take a ++
      a :: (List.finRange n).drop (a + 1) := by
    rw [← drop_finRange a.isLt, List.take_append_drop]
  have hsorted := List.pairwise_lt_finRange n
  rw [hsplit, List.pairwise_append, List.pairwise_cons] at hsorted
  obtain ⟨_, ⟨hafter, _⟩, hbefore⟩ := hsorted
  have hown : notBefore (a :: k) (own v) = [] := by
    refine notBefore_eq_nil fun e he => ?_
    cases v with
    | none => cases he
    | some v => rw [List.mem_singleton.mp he]; exact List.nil_lt_cons a k
  rw [entries, hsplit, notBefore_append, hown, List.nil_append, across, List.flatMap_append,
    notBefore_append, ← across, ← across, across_cons, notBefore_append]
  have hfirst : notBefore (a :: k) (across (fun a => (c a).entries) ((List.finRange n).take a)) =
      [] := by
    refine notBefore_eq_nil fun e he => ?_
    obtain ⟨b, hb, r, hr, _⟩ := mem_across.mp he
    rw [hr]
    exact List.cons_lt_cons_iff.mpr (.inl (hbefore b hb a List.mem_cons_self))
  have hlast : notBefore (a :: k) (across (fun a => (c a).entries)
      ((List.finRange n).drop (a + 1))) = onward c (a + 1) [] := by
    rw [← across_drop]
    refine notBefore_eq_self fun e he => ?_
    obtain ⟨b, hb, r, hr, _⟩ := mem_across.mp he
    rw [hr]
    exact (List.cons_lt_cons_iff.mpr (.inl (hafter b hb))).le
  have hmiddle : notBefore (a :: k) (under [a] (c a).entries) =
      under [a] (notBefore k (c a).entries) := notBefore_under [a] k _
  rw [hfirst, hlast, hmiddle, onward_of_lt, List.nil_append]

end Patricia.Tree
