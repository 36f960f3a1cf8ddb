import Aleth.Structure.SortedMap
import Mathlib.Order.Interval.Set.Basic
import Mathlib.Data.Set.Card

/-! Sets as maps of intervals.

An ordered map from the beginning of an interval to its end stands for a set:
the union of the half-open intervals (`elements`). It does so in one way when
the intervals are not empty and no two of them meet or touch (`Separated`).
`Separated.absorb` is the rule for putting an interval in, with the intervals
it meets or touches taken out. -/
namespace Intervals

section Order
variable {κ : Type} [LinearOrder κ]

def elements (m : SortedMap κ κ) : Set κ := {x | ∃ a b, m.find a = some b ∧ x ∈ Set.Ico a b}

structure Separated (m : SortedMap κ κ) : Prop where
  proper : ∀ a b, m.find a = some b → a < b
  apart : ∀ a b c d, m.find a = some b → m.find c = some d → a < c → b < c

theorem elements_empty : elements (SortedMap.empty : SortedMap κ κ) = ∅ := by
  refine Set.eq_empty_of_forall_notMem fun x hx => ?_
  obtain ⟨a, b, h, -⟩ := hx
  rw [SortedMap.find_empty] at h
  cases h

theorem separated_empty : Separated (SortedMap.empty : SortedMap κ κ) where
  proper a b h := by
    rw [SortedMap.find_empty] at h
    cases h
  apart a b c d h := by
    rw [SortedMap.find_empty] at h
    cases h

variable {m m' : SortedMap κ κ}

/-- A map of intervals that are not empty has an element in each. -/
theorem Separated.elements_eq_empty_iff (h : Separated m) : elements m = ∅ ↔ m.entries = [] := by
  constructor
  · intro he
    refine List.eq_nil_iff_forall_not_mem.mpr fun e hmem => ?_
    have hf := SortedMap.find_eq_some_iff.mpr hmem
    exact Set.notMem_empty e.1 (he ▸ ⟨e.1, e.2, hf, le_refl _, h.proper _ _ hf⟩)
  · intro he
    refine Set.eq_empty_of_forall_notMem fun x hx => ?_
    obtain ⟨a, b, hf, -⟩ := hx
    have hmem := SortedMap.find_eq_some_iff.mp hf
    rw [he] at hmem
    cases hmem

/-- An interval inside is a subset of the whole. -/
theorem bounds_of_subset {a b lo hi : κ} (h : Separated m) (hsub : elements m ⊆ Set.Ico lo hi)
    (hf : m.find a = some b) : lo ≤ a ∧ b ≤ hi := by
  have hab := h.proper a b hf
  have ha := hsub ⟨a, b, hf, le_refl a, hab⟩
  refine ⟨ha.1, not_lt.mp fun hlt => ?_⟩
  -- the bound itself would be an element
  have hhi := hsub ⟨a, b, hf, ha.2.le, hlt⟩
  exact lt_irrefl _ hhi.2

/-! ### Searching -/

/-- `std::map::upper_bound`: the first entry after a key. -/
def upperBound (m : SortedMap κ κ) (x : κ) : Option (κ × κ) := m.entries.find? (x < ·.1)

/-- The entry before the upper bound, if there is one. -/
def lastUpTo (m : SortedMap κ κ) (x : κ) : Option (κ × κ) :=
  (m.entries.filter (·.1 ≤ x)).getLast?

theorem upperBound_eq_none {x : κ} (h : upperBound m x = none) {a b : κ}
    (hf : m.find a = some b) : a ≤ x := by
  have := List.find?_eq_none.mp h (a, b) (SortedMap.find_eq_some_iff.mp hf)
  simpa using this

theorem upperBound_eq_some {x c d : κ} (h : upperBound m x = some (c, d)) :
    m.find c = some d ∧ x < c ∧ ∀ a b, m.find a = some b → x < a → c ≤ a := by
  obtain ⟨hc, pre, post, hl, hpre⟩ := List.find?_eq_some_iff_append.mp h
  have hsorted := m.sorted
  rw [hl] at hsorted
  refine ⟨SortedMap.find_eq_some_iff.mpr (by rw [hl]; simp), by simpa using hc, ?_⟩
  intro a b hf hxa
  have hmem := SortedMap.find_eq_some_iff.mp hf
  rw [hl] at hmem
  rcases List.mem_append.mp hmem with hmem | hmem
  · have := hpre _ hmem
    simp only [Bool.not_eq_true', decide_eq_false_iff_not, not_lt] at this
    exact absurd this (by simpa using hxa)
  · rcases List.mem_cons.mp hmem with heq | hmem
    · rw [Prod.mk.injEq] at heq
      exact heq.1.ge
    · exact ((List.pairwise_cons.mp (List.pairwise_append.mp hsorted).2.1).1 _ hmem).le

theorem lastUpTo_eq_none {x : κ} (h : lastUpTo m x = none) {a b : κ}
    (hf : m.find a = some b) : x < a := by
  have hnil := List.getLast?_eq_none_iff.mp h
  have := List.filter_eq_nil_iff.mp hnil (a, b) (SortedMap.find_eq_some_iff.mp hf)
  simpa using this

theorem lastUpTo_eq_some {x c d : κ} (h : lastUpTo m x = some (c, d)) :
    m.find c = some d ∧ c ≤ x ∧ ∀ a b, m.find a = some b → a ≤ x → a ≤ c := by
  obtain ⟨pre, hl⟩ := List.getLast?_eq_some_iff.mp h
  have hmem : (c, d) ∈ m.entries.filter (·.1 ≤ x) := by
    rw [hl]
    exact List.mem_append_right _ (List.mem_singleton.mpr rfl)
  obtain ⟨hcd, hcx⟩ := List.mem_filter.mp hmem
  refine ⟨SortedMap.find_eq_some_iff.mpr hcd, by simpa using hcx, ?_⟩
  intro a b hf hax
  have hab : (a, b) ∈ m.entries.filter (·.1 ≤ x) :=
    List.mem_filter.mpr ⟨SortedMap.find_eq_some_iff.mp hf, by simpa using hax⟩
  have hsorted := m.sorted.sublist (List.filter_sublist (p := fun e => decide (e.1 ≤ x)))
  rw [hl] at hab hsorted
  rcases List.mem_append.mp hab with hab | hab
  · exact ((List.pairwise_append.mp hsorted).2.2 _ hab _ (List.mem_singleton.mpr rfl)).le
  · exact (congrArg Prod.fst (List.mem_singleton.mp hab)).le

/-- An element is in the interval before its upper bound. -/
theorem mem_elements_iff {x : κ} (h : Separated m) :
    x ∈ elements m ↔ ∃ a b, lastUpTo m x = some (a, b) ∧ x < b := by
  constructor
  · rintro ⟨a, b, hf, hax, hxb⟩
    cases hl : lastUpTo m x with
    | none => exact absurd (lastUpTo_eq_none hl hf) (not_lt.mpr hax)
    | some e =>
      obtain ⟨hfe, hex, hlast⟩ := lastUpTo_eq_some (c := e.1) (d := e.2) hl
      refine ⟨e.1, e.2, rfl, ?_⟩
      rcases (hlast a b hf hax).lt_or_eq with hlt | heq
      · exact absurd (h.apart a b _ _ hf hfe hlt) (not_lt.mpr (hex.trans hxb.le))
      · rw [heq, hfe, Option.some_inj] at hf
        rw [hf]
        exact hxb
  · rintro ⟨a, b, hl, hxb⟩
    obtain ⟨hf, hax, -⟩ := lastUpTo_eq_some hl
    exact ⟨a, b, hf, hax, hxb⟩

/-! ### Putting an interval in -/

/-- An interval is put in, and only intervals inside it are taken out. -/
structure Absorbs (m m' : SortedMap κ κ) (a b : κ) : Prop where
  put : m'.find a = some b
  old : ∀ c d, m'.find c = some d → c ≠ a → m.find c = some d ∧ (d < a ∨ b < c)
  kept : ∀ c d, m.find c = some d → m'.find c = some d ∨ a ≤ c ∧ d ≤ b

theorem Absorbs.separated {a b : κ} (h : Absorbs m m' a b) (hm : Separated m) (hab : a < b) :
    Separated m' where
  proper c d hf := by
    by_cases hc : c = a
    · rw [hc, h.put, Option.some_inj] at hf
      rw [hc, ← hf]
      exact hab
    · exact hm.proper c d (h.old c d hf hc).1
  apart c d e f hcd hef hlt := by
    by_cases hc : c = a
    · have he : e ≠ a := fun he => (hc.trans he.symm ▸ hlt).false
      rw [hc, h.put, Option.some_inj] at hcd
      obtain ⟨hf, hfa | hbe⟩ := h.old e f hef he
      · exact absurd (hm.proper e f hf) (not_lt.mpr (hfa.le.trans (hc ▸ hlt).le))
      · exact hcd ▸ hbe
    · obtain ⟨hf, hda | hbc⟩ := h.old c d hcd hc
      · by_cases he : e = a
        · exact he ▸ hda
        · exact hm.apart c d e f hf (h.old e f hef he).1 hlt
      · have he : e ≠ a := fun he => (he ▸ hab.trans (hbc.trans hlt)).false
        exact hm.apart c d e f hf (h.old e f hef he).1 hlt

theorem Absorbs.elements_eq {a b : κ} (h : Absorbs m m' a b) :
    elements m' = elements m ∪ Set.Ico a b := by
  ext x
  constructor
  · rintro ⟨c, d, hf, hx⟩
    by_cases hc : c = a
    · rw [hc, h.put, Option.some_inj] at hf
      rw [hc, ← hf] at hx
      exact .inr hx
    · exact .inl ⟨c, d, (h.old c d hf hc).1, hx⟩
  · rintro (⟨c, d, hf, hx⟩ | hx)
    · rcases h.kept c d hf with hf | ⟨hac, hdb⟩
      · exact ⟨c, d, hf, hx⟩
      · exact ⟨a, b, h.put, hac.trans hx.1, hx.2.trans_le hdb⟩
    · exact ⟨a, b, h.put, hx⟩

/-- Nothing but the interval is changed. -/
theorem absorbs_insert {a b : κ} (hapart : ∀ c d, m.find c = some d → c ≠ a → d < a ∨ b < c)
    (hover : ∀ d, m.find a = some d → d ≤ b) : Absorbs m (m.insert a b) a b where
  put := by rw [SortedMap.find_insert, if_pos rfl]
  old c d hf hc := by
    rw [SortedMap.find_insert, if_neg hc] at hf
    exact ⟨hf, hapart c d hf hc⟩
  kept c d hf := by
    by_cases hc : c = a
    · rw [hc] at hf
      exact .inr ⟨hc.ge, hover d hf⟩
    · exact .inl (by rw [SortedMap.find_insert, if_neg hc, hf])

/-- The interval takes in one that ends where it ends. -/
theorem absorbs_insert_erase {a b e : κ} (hae : a < e) (he : m.find e = some b)
    (hapart : ∀ c d, m.find c = some d → c ≠ a → c ≠ e → d < a ∨ b < c)
    (hover : ∀ d, m.find a = some d → d ≤ b) : Absorbs m ((m.insert a b).erase e) a b where
  put := by rw [SortedMap.find_erase, if_neg hae.ne, SortedMap.find_insert, if_pos rfl]
  old c d hf hc := by
    rw [SortedMap.find_erase] at hf
    split at hf
    · cases hf
    · rename_i hce
      rw [SortedMap.find_insert, if_neg hc] at hf
      exact ⟨hf, hapart c d hf hc hce⟩
  kept c d hf := by
    by_cases hc : c = a
    · rw [hc] at hf
      exact .inr ⟨hc.ge, hover d hf⟩
    · by_cases hce : c = e
      · rw [hce, he, Option.some_inj] at hf
        exact .inr ⟨hce ▸ hae.le, hf.ge⟩
      · exact .inl (by
          rw [SortedMap.find_erase, if_neg hce, SortedMap.find_insert, if_neg hc, hf])

end Order

/-! ### Intervals of numbers -/

section Numbers
variable {m : SortedMap ℕ ℕ}

/-- The elements one by one, in the order of the intervals. -/
def numbers (l : List (ℕ × ℕ)) : List ℕ := l.flatMap fun r => List.range' r.1 (r.2 - r.1)

theorem numbers_cons (r : ℕ × ℕ) (l : List (ℕ × ℕ)) :
    numbers (r :: l) = List.range' r.1 (r.2 - r.1) ++ numbers l := List.flatMap_cons

theorem numbers_append (l l' : List (ℕ × ℕ)) : numbers (l ++ l') = numbers l ++ numbers l' :=
  List.flatMap_append

theorem mem_numbers {l : List (ℕ × ℕ)} {x : ℕ} :
    x ∈ numbers l ↔ ∃ r ∈ l, x ∈ Set.Ico r.1 r.2 := by
  unfold numbers
  simp only [List.mem_flatMap, List.mem_range'_1, Set.mem_Ico]
  refine exists_congr fun r => and_congr_right fun _ => ?_
  omega

theorem mem_numbers_entries {x : ℕ} : x ∈ numbers m.entries ↔ x ∈ elements m := by
  rw [mem_numbers]
  constructor
  · rintro ⟨r, hr, hx⟩
    exact ⟨r.1, r.2, SortedMap.find_eq_some_iff.mpr hr, hx⟩
  · rintro ⟨a, b, hf, hx⟩
    exact ⟨(a, b), SortedMap.find_eq_some_iff.mp hf, hx⟩

theorem Separated.pairwise (h : Separated m) : m.entries.Pairwise (fun r s => r.2 < s.1) := by
  refine m.sorted.imp_of_mem fun {r s} hr hs hlt => ?_
  exact h.apart _ _ _ _ (SortedMap.find_eq_some_iff.mpr hr) (SortedMap.find_eq_some_iff.mpr hs) hlt

theorem numbers_sorted {l : List (ℕ × ℕ)} (hl : l.Pairwise (fun r s => r.2 < s.1)) :
    (numbers l).Pairwise (· < ·) := by
  induction l with
  | nil => exact .nil
  | cons r l ih =>
    obtain ⟨hr, hl⟩ := List.pairwise_cons.mp hl
    rw [numbers_cons]
    refine List.pairwise_append.mpr ⟨List.pairwise_lt_range', ih hl, fun x hx y hy => ?_⟩
    obtain ⟨s, hs, hy⟩ := mem_numbers.mp hy
    have hrs := hr s hs
    have hsy := hy.1
    rw [List.mem_range'_1] at hx
    omega

/-- The number of elements is the sum of the lengths. -/
theorem ncard_elements (h : Separated m) : (elements m).ncard = (numbers m.entries).length := by
  have hset : elements m = ↑(numbers m.entries).toFinset := by
    ext x
    rw [List.coe_toFinset]
    exact mem_numbers_entries.symm
  rw [hset, Set.ncard_coe_finset, List.toFinset_card_of_nodup]
  exact (numbers_sorted h.pairwise).imp fun hlt => hlt.ne

theorem mem_take_range' {a k n x : ℕ} :
    x ∈ (List.range' a k).take n ↔ a ≤ x ∧ x < a + min n k := by
  rcases le_total k n with h | h
  · rw [List.take_range'_of_length_le h, List.mem_range'_1, Nat.min_eq_right h]
  · rw [List.take_range'_of_length_ge h, List.mem_range'_1, Nat.min_eq_left h]

/-- In an increasing list, what comes before an element is what is less. -/
theorem mem_take_iff {l : List ℕ} (hl : l.Pairwise (· < ·)) {n x : ℕ} :
    x ∈ l.take n ↔ x ∈ l ∧ {y | y ∈ l ∧ y < x}.ncard < n := by
  have hncard : ∀ k : List ℕ, k.Pairwise (· < ·) →
      {y | y ∈ k ∧ y < x}.ncard = (k.filter (· < x)).length := by
    intro k hk
    have hset : {y | y ∈ k ∧ y < x} = ↑(k.filter (· < x)).toFinset := by
      ext y
      simp
    rw [hset, Set.ncard_coe_finset, List.toFinset_card_of_nodup]
    exact (hk.imp fun hlt => hlt.ne).sublist List.filter_sublist
  rw [hncard l hl]
  induction l generalizing n with
  | nil => simp
  | cons y l ih =>
    obtain ⟨hy, hl⟩ := List.pairwise_cons.mp hl
    cases n with
    | zero => simp
    | succ n =>
      have hl' : x ∈ l.take n ↔ x ∈ l ∧ (l.filter (· < x)).length < n := ih hl
      rw [List.take_succ_cons, List.mem_cons, hl', List.mem_cons]
      by_cases hxy : x = y
      · have hnone : l.filter (· < x) = [] :=
          List.filter_eq_nil_iff.mpr fun z hz => by
            have := hy z hz
            simp only [decide_eq_true_eq]
            omega
        simp [hxy, hxy ▸ hnone]
      · simp only [hxy, false_or]
        refine and_congr_right fun hx => ?_
        rw [List.filter_cons_of_pos (by simpa using hy x hx), List.length_cons,
          Nat.add_lt_add_iff_right]

end Numbers
end Intervals
