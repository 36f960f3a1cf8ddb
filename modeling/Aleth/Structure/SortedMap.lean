import Mathlib.Order.Lattice
import Mathlib.Data.List.Basic
import Mathlib.Data.List.Lex
import Mathlib.Data.List.Nodup
import Mathlib.Tactic.Common

/-! Ordered maps: association lists sorted strictly by key.

This is what an iteration over a tree-based ordered map sees. The order is a
field, so a map is determined by its lookups (`SortedMap.ext_find`). -/

structure SortedMap (κ β : Type) [LinearOrder κ] where
  entries : List (κ × β)
  sorted : entries.Pairwise (fun a b => a.1 < b.1)
deriving DecidableEq

namespace SortedMap
variable {κ β : Type} [LinearOrder κ]

def findList (k : κ) : List (κ × β) → Option β
  | [] => none
  | (a, v) :: l => if k = a then some v else findList k l

def insertList (k : κ) (v : β) : List (κ × β) → List (κ × β)
  | [] => [(k, v)]
  | (a, w) :: l =>
    if k < a then (k, v) :: (a, w) :: l
    else if k = a then (k, v) :: l
    else (a, w) :: insertList k v l

def eraseList (k : κ) : List (κ × β) → List (κ × β)
  | [] => []
  | (a, w) :: l => if k = a then l else (a, w) :: eraseList k l

theorem mem_insertList {k : κ} {v : β} {l : List (κ × β)} {e : κ × β}
    (h : e ∈ insertList k v l) : e = (k, v) ∨ e ∈ l := by
  induction l with
  | nil => simpa [insertList] using h
  | cons x l ih =>
    obtain ⟨a, w⟩ := x
    simp only [insertList] at h
    split at h
    · simpa using h
    · split at h
      · rcases List.mem_cons.mp h with h | h
        · exact .inl h
        · exact .inr (List.mem_cons_of_mem _ h)
      · rcases List.mem_cons.mp h with h | h
        · exact .inr (h ▸ List.mem_cons_self ..)
        · rcases ih h with h | h
          · exact .inl h
          · exact .inr (List.mem_cons_of_mem _ h)

theorem sorted_insertList (k : κ) (v : β) {l : List (κ × β)}
    (hl : l.Pairwise (fun a b => a.1 < b.1)) :
    (insertList k v l).Pairwise (fun a b => a.1 < b.1) := by
  induction l with
  | nil => simp [insertList]
  | cons x l ih =>
    obtain ⟨a, w⟩ := x
    obtain ⟨ha, hl'⟩ := List.pairwise_cons.mp hl
    simp only [insertList]
    split
    case isTrue h =>
      refine List.pairwise_cons.mpr ⟨fun e he => ?_, hl⟩
      rcases List.mem_cons.mp he with rfl | he
      · exact h
      · exact h.trans (ha e he)
    case isFalse h =>
      split
      case isTrue e =>
        subst e
        exact List.pairwise_cons.mpr ⟨ha, hl'⟩
      case isFalse hne =>
        refine List.pairwise_cons.mpr ⟨fun e he => ?_, ih hl'⟩
        rcases mem_insertList he with rfl | he
        · exact lt_of_le_of_ne (not_lt.mp h) (Ne.symm hne)
        · exact ha e he

theorem eraseList_sublist (k : κ) (l : List (κ × β)) : List.Sublist (eraseList k l) l := by
  induction l with
  | nil => exact List.Sublist.refl _
  | cons x l ih =>
    obtain ⟨a, w⟩ := x
    simp only [eraseList]
    split
    · exact List.sublist_cons_self _ _
    · exact ih.cons_cons _

def empty : SortedMap κ β := ⟨[], List.Pairwise.nil⟩

def find (m : SortedMap κ β) (k : κ) : Option β := findList k m.entries

def insert (m : SortedMap κ β) (k : κ) (v : β) : SortedMap κ β :=
  ⟨insertList k v m.entries, sorted_insertList k v m.sorted⟩

def erase (m : SortedMap κ β) (k : κ) : SortedMap κ β :=
  ⟨eraseList k m.entries, m.sorted.sublist (eraseList_sublist k m.entries)⟩

@[simp] theorem find_empty (k : κ) : (empty : SortedMap κ β).find k = none := rfl

theorem findList_eq_none_of_lt {k : κ} {l : List (κ × β)} (h : ∀ e ∈ l, k < e.1) :
    findList k l = none := by
  induction l with
  | nil => rfl
  | cons x l ih =>
    obtain ⟨a, w⟩ := x
    have : k ≠ a := (h (a, w) (List.mem_cons_self ..)).ne
    simp only [findList, this, if_false]
    exact ih fun e he => h e (List.mem_cons_of_mem _ he)

@[simp] theorem find_insert (m : SortedMap κ β) (k : κ) (v : β) (k' : κ) :
    (m.insert k v).find k' = if k' = k then some v else m.find k' := by
  obtain ⟨l, hl⟩ := m
  unfold insert find
  simp only
  clear hl
  induction l with
  | nil => rfl
  | cons x l ih =>
    obtain ⟨a, w⟩ := x
    simp only [insertList]
    split
    · rfl
    · split
      case isTrue e =>
        subst e
        by_cases h : k' = k <;> simp [findList, h]
      case isFalse hne =>
        simp only [findList, ih]
        by_cases h : k' = a
        · subst h; simp [Ne.symm hne]
        · simp [h]

@[simp] theorem find_erase (m : SortedMap κ β) (k k' : κ) :
    (m.erase k).find k' = if k' = k then none else m.find k' := by
  obtain ⟨l, hl⟩ := m
  unfold erase find
  simp only
  induction l with
  | nil => simp [eraseList, findList]
  | cons x l ih =>
    obtain ⟨a, w⟩ := x
    obtain ⟨ha, hl⟩ := List.pairwise_cons.mp hl
    simp only [eraseList]
    split
    case isTrue e =>
      subst e
      by_cases h : k' = k
      · subst h
        rw [if_pos rfl]
        exact findList_eq_none_of_lt ha
      · simp [findList, h]
    case isFalse hne =>
      simp only [findList, ih hl]
      by_cases h : k' = a
      · subst h; simp [Ne.symm hne]
      · simp [h]

theorem find_eq_some_iff {m : SortedMap κ β} {k : κ} {v : β} :
    m.find k = some v ↔ (k, v) ∈ m.entries := by
  obtain ⟨l, hl⟩ := m
  unfold find
  simp only
  induction l with
  | nil => simp [findList]
  | cons x l ih =>
    obtain ⟨a, w⟩ := x
    obtain ⟨ha, hl⟩ := List.pairwise_cons.mp hl
    simp only [findList]
    by_cases h : k = a
    · subst h
      have hno : (k, v) ∉ l := fun hm => (lt_irrefl k (ha (k, v) hm)).elim
      simp [hno, eq_comm]
    · simp [h, ih hl]

/-- Where the elements with a property come first, `takeWhile` collects them all. -/
theorem takeWhile_eq_filter {α : Type} {p : α → Bool} {l : List α}
    (h : l.Pairwise (fun x y => p y = true → p x = true)) : l.takeWhile p = l.filter p := by
  induction l with
  | nil => rfl
  | cons x l ih =>
    obtain ⟨hx, hl⟩ := List.pairwise_cons.mp h
    cases hp : p x with
    | true => rw [List.takeWhile_cons_of_pos hp, List.filter_cons_of_pos hp, ih hl]
    | false =>
      rw [List.takeWhile_cons_of_neg (by simp [hp]), List.filter_cons_of_neg (by simp [hp])]
      refine (List.filter_eq_nil_iff.mpr fun y hy hpy => ?_).symm
      rw [hx y hy hpy] at hp
      cases hp

theorem dropWhile_eq_filter {α : Type} {p : α → Bool} {l : List α}
    (h : l.Pairwise (fun x y => p y = true → p x = true)) :
    l.dropWhile p = l.filter (fun x => !p x) := by
  induction l with
  | nil => rfl
  | cons x l ih =>
    obtain ⟨hx, hl⟩ := List.pairwise_cons.mp h
    cases hp : p x with
    | true => rw [List.dropWhile_cons_of_pos hp, List.filter_cons_of_neg (by simp [hp]), ih hl]
    | false =>
      rw [List.dropWhile_cons_of_neg (by simp [hp])]
      refine (List.filter_eq_self.mpr fun y hy => ?_).symm
      rcases List.mem_cons.mp hy with rfl | hy
      · simp [hp]
      · cases hpy : p y with
        | false => rfl
        | true => rw [hx y hy hpy] at hp; cases hp

/-- Two strictly sorted lists with the same elements are equal. -/
theorem entries_ext {l₁ l₂ : List (κ × β)} (h₁ : l₁.Pairwise (fun a b => a.1 < b.1))
    (h₂ : l₂.Pairwise (fun a b => a.1 < b.1)) (h : ∀ e, e ∈ l₁ ↔ e ∈ l₂) : l₁ = l₂ := by
  have hirr : ∀ {l : List (κ × β)}, l.Pairwise (fun a b => a.1 < b.1) → l.Nodup := by
    intro l hl
    refine List.Pairwise.imp ?_ hl
    rintro a b hab rfl
    exact lt_irrefl _ hab
  refine @List.Perm.eq_of_pairwise _ (fun a b : κ × β => a.1 < b.1) _ _ ?_ h₁ h₂
    ((List.perm_ext_iff_of_nodup (hirr h₁) (hirr h₂)).mpr h)
  intro a b _ _ hab hba
  exact (lt_asymm hab hba).elim

/-- A map is determined by its lookups. -/
theorem ext_find {m₁ m₂ : SortedMap κ β} (h : ∀ k, m₁.find k = m₂.find k) : m₁ = m₂ := by
  have : m₁.entries = m₂.entries := by
    refine entries_ext m₁.sorted m₂.sorted fun e => ?_
    rw [← find_eq_some_iff (k := e.1) (v := e.2), ← find_eq_some_iff (k := e.1) (v := e.2), h]
  cases m₁; cases m₂
  cases this
  rfl

theorem keys_nodup (m : SortedMap κ β) : (m.entries.map Prod.fst).Nodup := by
  refine List.pairwise_map.mpr (m.sorted.imp ?_)
  intro a b hab e
  rw [e] at hab
  exact lt_irrefl _ hab

theorem entries_nodup (m : SortedMap κ β) : m.entries.Nodup := List.Nodup.of_map _ m.keys_nodup

theorem insert_perm {m : SortedMap κ β} {k : κ} (h : m.find k = none) (v : β) :
    (m.insert k v).entries.Perm ((k, v) :: m.entries) := by
  have hk : (k, v) ∉ m.entries := fun hm => by
    rw [find_eq_some_iff.mpr hm] at h
    cases h
  refine (List.perm_ext_iff_of_nodup (entries_nodup _)
    (List.nodup_cons.mpr ⟨hk, m.entries_nodup⟩)).mpr fun e => ?_
  obtain ⟨a, w⟩ := e
  rw [← find_eq_some_iff, find_insert, List.mem_cons, ← find_eq_some_iff, Prod.mk.injEq]
  by_cases ha : a = k
  · rw [if_pos ha, ha, h]
    simp [eq_comm]
  · simp [ha]

theorem erase_perm {m : SortedMap κ β} {k : κ} {v : β} (h : m.find k = some v) :
    m.entries.Perm ((k, v) :: (m.erase k).entries) := by
  have hk : (k, v) ∉ (m.erase k).entries := fun hm => by
    have hf := find_eq_some_iff.mpr hm
    rw [find_erase, if_pos rfl] at hf
    cases hf
  refine (List.perm_ext_iff_of_nodup m.entries_nodup
    (List.nodup_cons.mpr ⟨hk, entries_nodup _⟩)).mpr fun e => ?_
  obtain ⟨a, w⟩ := e
  rw [← find_eq_some_iff, List.mem_cons, ← find_eq_some_iff, find_erase, Prod.mk.injEq]
  by_cases ha : a = k
  · rw [if_pos ha, ha, h]
    simp [eq_comm]
  · simp [ha]

theorem erase_of_find_none {m : SortedMap κ β} {k : κ} (h : m.find k = none) : m.erase k = m := by
  refine ext_find fun k' => ?_
  rw [find_erase]
  split
  case isTrue e => rw [e, h]
  case isFalse => rfl

theorem length_insert_le (m : SortedMap κ β) (k : κ) (v : β) :
    (m.insert k v).entries.length ≤ m.entries.length + 1 := by
  show (insertList k v m.entries).length ≤ m.entries.length + 1
  induction m.entries with
  | nil => exact le_refl 1
  | cons x l ih =>
    unfold insertList
    split
    · exact le_refl _
    · split
      · exact Nat.le_succ _
      · exact Nat.succ_le_succ ih

/-! ### Inserting what is new -/

/-- `std::map::insert`: a key that is there keeps its value. -/
def insertNew (m : SortedMap κ β) (k : κ) (v : β) : SortedMap κ β :=
  if (m.find k).isSome then m else m.insert k v

/-- The insertion of a range. -/
def insertAll (m : SortedMap κ β) (l : List (κ × β)) : SortedMap κ β :=
  l.foldl (fun m e => m.insertNew e.1 e.2) m

theorem find_insertNew (m : SortedMap κ β) (k : κ) (v : β) (k' : κ) :
    (m.insertNew k v).find k' = (m.find k').or (if k' = k then some v else none) := by
  unfold insertNew
  split
  case isTrue h =>
    by_cases hk : k' = k
    · subst hk
      obtain ⟨w, hw⟩ := Option.isSome_iff_exists.mp h
      rw [hw, Option.some_or]
    · rw [if_neg hk, Option.or_none]
  case isFalse h =>
    rw [find_insert]
    by_cases hk : k' = k
    · subst hk
      rw [if_pos rfl, if_pos rfl, Option.not_isSome_iff_eq_none.mp h, Option.none_or]
    · rw [if_neg hk, if_neg hk, Option.or_none]

/-- What the map has, or what the range has first. -/
theorem find_insertAll (m : SortedMap κ β) (l : List (κ × β)) (k : κ) :
    (m.insertAll l).find k = (m.find k).or (findList k l) := by
  induction l generalizing m with
  | nil => exact (Option.or_none).symm
  | cons e l ih =>
    obtain ⟨a, v⟩ := e
    have hor : (if k = a then some v else none).or (findList k l) = findList k ((a, v) :: l) := by
      rw [findList]
      split
      · rfl
      · exact Option.none_or
    show ((m.insertNew a v).insertAll l).find k = _
    rw [ih, find_insertNew, Option.or_assoc, hor]

theorem insertAll_sorted {l : List (κ × β)} (h : l.Pairwise (fun a b => a.1 < b.1)) :
    empty.insertAll l = ⟨l, h⟩ := by
  refine ext_find fun k => ?_
  rw [find_insertAll, find_empty, Option.none_or]
  rfl

theorem findList_eq_none_iff {k : κ} {l : List (κ × β)} :
    findList k l = none ↔ ∀ e ∈ l, e.1 ≠ k := by
  induction l with
  | nil => simp [findList]
  | cons e l ih =>
    unfold findList
    by_cases hk : k = e.1
    · simp [hk]
    · simp [hk, ih, Ne.symm hk]

/-- Nothing is new. -/
theorem insertAll_known {m : SortedMap κ β} {l : List (κ × β)}
    (h : ∀ e ∈ l, (m.find e.1).isSome) : m.insertAll l = m := by
  refine ext_find fun k => ?_
  rw [find_insertAll]
  cases hk : m.find k with
  | some v => rfl
  | none =>
    rw [Option.none_or, findList_eq_none_iff]
    intro e he hek
    have hsome := h e he
    rw [hek, hk] at hsome
    cases hsome

theorem mem_of_findList {k : κ} {v : β} {l : List (κ × β)} (h : findList k l = some v) :
    (k, v) ∈ l := by
  induction l with
  | nil => cases h
  | cons e l ih =>
    rw [findList] at h
    split at h
    · obtain rfl := Option.some.inj h
      exact List.mem_cons.mpr (.inl (Prod.ext ‹k = e.1› rfl))
    · exact List.mem_cons_of_mem _ (ih h)

/-- Where a key has one value, that is found. -/
theorem findList_of_mem {k : κ} {v : β} {l : List (κ × β)} (h : (k, v) ∈ l)
    (hone : ∀ w, (k, w) ∈ l → w = v) : findList k l = some v := by
  cases hf : findList k l with
  | none => exact absurd rfl (findList_eq_none_iff.mp hf (k, v) h)
  | some w => rw [hone w (mem_of_findList hf)]

/-- Two maps that agree, put together. -/
theorem mem_insertAll {m l : SortedMap κ β}
    (h : ∀ k v w, (k, v) ∈ m.entries → (k, w) ∈ l.entries → v = w) {k : κ} {v : β} :
    (k, v) ∈ (m.insertAll l.entries).entries ↔ (k, v) ∈ m.entries ∨ (k, v) ∈ l.entries := by
  rw [← find_eq_some_iff, find_insertAll, ← find_eq_some_iff, ← find_eq_some_iff,
    show findList k l.entries = l.find k from rfl]
  cases hm : m.find k with
  | none => simp
  | some w =>
    rw [Option.some_or]
    constructor
    · exact .inl
    · rintro (hw | hl)
      · exact hw
      · rw [h k w v (find_eq_some_iff.mp hm) (find_eq_some_iff.mp hl)]

theorem entries_insert_last {m : SortedMap κ β} {k : κ} (h : ∀ e ∈ m.entries, e.1 < k) (v : β) :
    (m.insert k v).entries = m.entries ++ [(k, v)] := by
  have hlist : ∀ l : List (κ × β), (∀ e ∈ l, e.1 < k) → insertList k v l = l ++ [(k, v)] := by
    intro l hl
    induction l with
    | nil => rfl
    | cons e l ih =>
      have he : e.1 < k := hl e List.mem_cons_self
      rw [insertList, if_neg (not_lt.mpr he.le), if_neg (ne_of_gt he),
        ih fun x hx => hl x (List.mem_cons_of_mem _ hx)]
      rfl
  exact hlist m.entries h

theorem insertAll_append (m : SortedMap κ β) (l l' : List (κ × β)) :
    m.insertAll (l ++ l') = (m.insertAll l).insertAll l' := List.foldl_append

/-! ### Changing the values -/

variable {γ : Type}

def mapVals (f : κ → β → γ) (m : SortedMap κ β) : SortedMap κ γ :=
  ⟨m.entries.map fun e => (e.1, f e.1 e.2), List.pairwise_map.mpr m.sorted⟩

@[simp] theorem find_mapVals (f : κ → β → γ) (m : SortedMap κ β) (k : κ) :
    (m.mapVals f).find k = (m.find k).map (f k) := by
  obtain ⟨l, hl⟩ := m
  unfold mapVals find
  dsimp only
  clear hl
  induction l with
  | nil => rfl
  | cons e l ih =>
    rw [List.map_cons, findList, findList, ih]
    split
    case isTrue h =>
      subst h
      rfl
    case isFalse => rfl

end SortedMap
