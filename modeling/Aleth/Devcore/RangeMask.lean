import Aleth.Structure.Intervals
import Aleth.Structure.Loops
import Mathlib.Order.Bounds.Basic
import Mathlib.Order.Lattice.Nat

/-! `RangeMask`.

A set of numbers inside a ground range, kept as a map from the beginning of a
range to its end. The numbers are `unsigned`, so that additions wrap at `2^32`.
The map is in the only form the set has (`WellFormed`), and each operation is
one on sets, on the conditions of `Call.Exact`: a subtraction must not enlarge
the ground range, and the end of a range in `lowest` must not wrap
(`exact_iff`). -/
namespace Aleth.Devcore
open Intervals

/-- `std::pair<unsigned, unsigned>`: the interval without its end. -/
abbrev Range := ℕ × ℕ

def addUnsigned (x y : ℕ) : ℕ := (x + y) % 2 ^ 32

def subUnsigned (x y : ℕ) : ℕ := (x + 2 ^ 32 - y) % 2 ^ 32

structure RangeMask where
  m_all : Range
  m_ranges : SortedMap ℕ ℕ
deriving DecidableEq

namespace RangeMask

/-- `RangeMask(unsigned _begin, unsigned _end)`; `RangeMask()` is `make 0 0`. -/
def make (_begin _end : ℕ) : RangeMask := ⟨(_begin, _end), SortedMap.empty⟩

/-- The variables of the loop of `unionWith`; `stopped` stands for `break`. -/
structure Union where
  i : ℕ
  m_ranges : SortedMap ℕ ℕ
  stopped : Bool := false

namespace Union
variable (_m : Range) (s : Union)

def more : Bool := !s.stopped && s.i < _m.2

/-- `i` is before the first range, or between two ranges with a distance to the lower one. -/
def apart : Union :=
  match upperBound s.m_ranges s.i with
  | none => {s with m_ranges := s.m_ranges.insert s.i _m.2, stopped := true}
  | some rangeAfter =>
    if _m.2 < rangeAfter.1 then
      {s with m_ranges := s.m_ranges.insert s.i _m.2, stopped := true}
    else if rangeAfter.1 = s.i then
      {s with i := rangeAfter.2}
    else
      {s with
        i := rangeAfter.2
        m_ranges := (s.m_ranges.insert s.i rangeAfter.2).erase rangeAfter.1}

/-- The range before `i` ends with `i`. -/
def touching (it : Range) : Union :=
  match upperBound s.m_ranges s.i with
  | none => {s with m_ranges := s.m_ranges.insert it.1 _m.2, stopped := true}
  | some rangeAfter =>
    if _m.2 < rangeAfter.1 then
      {s with m_ranges := s.m_ranges.insert it.1 _m.2, stopped := true}
    else
      {s with
        i := rangeAfter.2
        m_ranges := (s.m_ranges.insert it.1 rangeAfter.2).erase rangeAfter.1}

def turn : Union :=
  match lastUpTo s.m_ranges s.i with
  | none => s.apart _m
  | some it =>
    if it.2 < s.i then s.apart _m
    else if it.2 = s.i then s.touching _m it
    else {s with i := it.2}

end Union

/-- Every turn of the loop moves `i` on, so that it ends within the fuel (`unionWith_eq`). -/
def unionWith (m : RangeMask) (_m : Range) : Option RangeMask :=
  (Loops.run (Union.more _m) (Union.turn _m) (_m.2 + 2) ⟨_m.1, m.m_ranges, false⟩).map
    fun s => ⟨m.m_all, s.m_ranges⟩

/-- `unionWith(unsigned)`. -/
def unionWithOne (m : RangeMask) (_i : ℕ) : Option RangeMask :=
  m.unionWith (_i, addUnsigned _i 1)

/-- The smallest range with both ground ranges in it. -/
def hull (m _m : RangeMask) : Range := (min _m.m_all.1 m.m_all.1, max _m.m_all.2 m.m_all.2)

/-- `unionWith(RangeMask)`. -/
def unionWithMask (m _m : RangeMask) : Option RangeMask :=
  _m.m_ranges.entries.foldlM unionWith ⟨m.hull _m, m.m_ranges⟩

/-- One turn of the loop of `inverted`, with the map and `last`. -/
def invertTurn (s : SortedMap ℕ ℕ × ℕ) (i : Range) : SortedMap ℕ ℕ × ℕ :=
  (if i.1 ≠ s.2 then s.1.insert s.2 i.1 else s.1, i.2)

def inverted (m : RangeMask) : RangeMask :=
  let s := m.m_ranges.entries.foldl invertTurn (SortedMap.empty, m.m_all.1)
  ⟨m.m_all, if s.2 ≠ m.m_all.2 then s.1.insert s.2 m.m_all.2 else s.1⟩

/-- `operator-` with a range. -/
def minus (m : RangeMask) (_m : Range) : Option RangeMask :=
  (m.inverted.unionWith _m).map inverted

def minusOne (m : RangeMask) (_i : ℕ) : Option RangeMask :=
  (m.inverted.unionWithOne _i).map inverted

def minusMask (m _m : RangeMask) : Option RangeMask :=
  (m.inverted.unionWithMask _m).map inverted

/-- `m -= m`: the argument is inverted with the mask, as it is the same object. -/
def minusSelf (m : RangeMask) : Option RangeMask :=
  (m.inverted.unionWithMask m.inverted).map inverted

/-- The loop of `lowest`, with what is in the new mask. -/
def lowestFrom : List Range → (_items : ℕ) → SortedMap ℕ ℕ → SortedMap ℕ ℕ
  | [], _, ret => ret
  | i :: l, _items, ret =>
    if _items = 0 then ret
    else
      let stop := min (addUnsigned i.1 _items) i.2
      lowestFrom l (subUnsigned _items (subUnsigned stop i.1)) (ret.insert i.1 stop)

def lowest (m : RangeMask) (_items : ℕ) : RangeMask :=
  ⟨m.m_all, lowestFrom m.m_ranges.entries _items SortedMap.empty⟩

def clear (m : RangeMask) : RangeMask := {m with m_ranges := SortedMap.empty}

def reset (_ : RangeMask) : RangeMask := ⟨(0, 0), SortedMap.empty⟩

def extendAll (m : RangeMask) (_i : ℕ) : RangeMask :=
  {m with m_all := (min m.m_all.1 _i, max m.m_all.2 (addUnsigned _i 1))}

def contains (m : RangeMask) (_i : ℕ) : Bool :=
  match lastUpTo m.m_ranges _i with
  | none => false
  | some it => _i < it.2

def empty (m : RangeMask) : Bool := m.m_ranges.entries.isEmpty

def size (m : RangeMask) : ℕ := m.m_ranges.entries.foldl (fun c r => c + subUnsigned r.2 r.1) 0

def firstOut (m : RangeMask) : ℕ := (m.m_ranges.find m.m_all.1).getD m.m_all.1

def lastIn (m : RangeMask) : ℕ :=
  match m.m_ranges.entries.getLast? with
  | none => m.m_all.1
  | some r => subUnsigned r.2 1

def next (m : RangeMask) (_t : ℕ) : ℕ :=
  let _t := addUnsigned _t 1
  let after := match upperBound m.m_ranges _t with
    | none => m.m_all.2
    | some u => u.1
  match lastUpTo m.m_ranges _t with
  | none => after
  | some it => if it.1 ≤ _t ∧ _t < it.2 then _t else after

/-- The value of `begin()`. -/
def begin (m : RangeMask) : ℕ :=
  match m.m_ranges.entries with
  | [] => m.m_all.2
  | r :: _ => r.1

/-- An iteration, with what it has come to and the numbers it has passed. -/
structure Iteration where
  m_value : ℕ
  passed : List ℕ := []

/-- The iterator is not `end()`. -/
def Iteration.more (m : RangeMask) (s : Iteration) : Bool := s.m_value ≠ m.m_all.2

def Iteration.advance (m : RangeMask) (s : Iteration) : Iteration :=
  ⟨m.next s.m_value, s.passed ++ [s.m_value]⟩

/-- The map is the form of a set of numbers in the ground range, which is a range. -/
structure WellFormed (m : RangeMask) : Prop where
  separated : Separated m.m_ranges
  inside : elements m.m_ranges ⊆ Set.Ico m.m_all.1 m.m_all.2
  ground : m.m_all.1 ≤ m.m_all.2
  fits : m.m_all.2 < 2 ^ 32

/-- A range of the map, in the order and the bounds it has. -/
theorem WellFormed.of_mem {m : RangeMask} (hm : m.WellFormed) {r : Range}
    (hr : r ∈ m.m_ranges.entries) :
    r.1 < r.2 ∧ m.m_all.1 ≤ r.1 ∧ r.2 ≤ m.m_all.2 ∧ r.2 < 2 ^ 32 := by
  have hf := SortedMap.find_eq_some_iff.mpr hr
  have hbounds := bounds_of_subset hm.separated hm.inside hf
  exact ⟨hm.separated.proper _ _ hf, hbounds.1, hbounds.2, hbounds.2.trans_lt hm.fits⟩

theorem WellFormed.empty_iff {m : RangeMask} (hm : m.WellFormed) :
    m.empty = true ↔ elements m.m_ranges = ∅ := by
  rw [hm.separated.elements_eq_empty_iff, empty, List.isEmpty_iff]

/-! ### The loop of `unionWith` -/

namespace Union
variable {_m : Range} {s : Union}

/-- What the rest of the loop has to add. -/
def pending (_m : Range) (s : Union) : Set ℕ := if s.stopped then ∅ else Set.Ico s.i _m.2

/-- What a turn leaves as it is: nothing is lost and nothing is added. -/
structure Turned (_m : Range) (s s' : Union) : Prop where
  separated : Separated s'.m_ranges
  same : elements s'.m_ranges ∪ s'.pending _m = elements s.m_ranges ∪ Set.Ico s.i _m.2
  onward : s'.stopped = true ∨ s.i < s'.i

/-- The new range reaches to its end: the loop stops. -/
theorem turned_stop {a : ℕ} (hs : Separated s.m_ranges) (hai : a ≤ s.i) (hi : s.i < _m.2)
    (hin : ∀ x, a ≤ x → x < s.i → x ∈ elements s.m_ranges)
    (h : Absorbs s.m_ranges (s.m_ranges.insert a _m.2) a _m.2) :
    Turned _m s {s with m_ranges := s.m_ranges.insert a _m.2, stopped := true} where
  separated := h.separated hs (hai.trans_lt hi)
  onward := .inl rfl
  same := by
    show elements (s.m_ranges.insert a _m.2) ∪ ∅ = _
    rw [h.elements_eq, Set.union_empty]
    ext x
    simp only [Set.mem_union, Set.mem_Ico]
    have hx := hin x
    grind

/-- The new range reaches to the next one, and takes it in. -/
theorem turned_merge {a c d : ℕ} (hs : Separated s.m_ranges) (hstop : s.stopped = false)
    (hai : a ≤ s.i) (hic : s.i < c) (hcm : c ≤ _m.2) (hcd : s.m_ranges.find c = some d)
    (hin : ∀ x, a ≤ x → x < s.i → x ∈ elements s.m_ranges)
    (h : Absorbs s.m_ranges ((s.m_ranges.insert a d).erase c) a d) :
    Turned _m s {s with i := d, m_ranges := (s.m_ranges.insert a d).erase c} where
  separated := h.separated hs (hai.trans_lt (hic.trans (hs.proper c d hcd)))
  onward := .inr (hic.trans (hs.proper c d hcd))
  same := by
    have hlt := hs.proper c d hcd
    show elements ((s.m_ranges.insert a d).erase c) ∪ (if s.stopped then ∅ else Set.Ico d _m.2) = _
    rw [h.elements_eq, hstop, if_neg Bool.false_ne_true]
    ext x
    have hnext : c ≤ x → x < d → x ∈ elements s.m_ranges := fun hcx hxd => ⟨c, d, hcd, hcx, hxd⟩
    have hx := hin x
    simp only [Set.mem_union, Set.mem_Ico]
    grind

/-- No range meets `i` or ends with it. -/
theorem apart_turned (hs : Separated s.m_ranges) (hstop : s.stopped = false) (hi : s.i < _m.2)
    (hlow : ∀ a b, s.m_ranges.find a = some b → a ≤ s.i → b < s.i) :
    Turned _m s (s.apart _m) := by
  have hnone : ∀ d, s.m_ranges.find s.i = some d → d ≤ _m.2 := fun d hf =>
    absurd (hs.proper _ _ hf) (not_lt.mpr (hlow _ _ hf le_rfl).le)
  have hin : ∀ x, s.i ≤ x → x < s.i → x ∈ elements s.m_ranges := fun x h₁ h₂ =>
    absurd h₁ (not_le.mpr h₂)
  unfold apart
  split
  case h_1 hu =>
    refine turned_stop hs le_rfl hi hin (absorbs_insert (fun c d hf _ => .inl ?_) hnone)
    exact hlow c d hf (upperBound_eq_none hu hf)
  case h_2 rangeAfter hu =>
    obtain ⟨hf, hlt, hleast⟩ := upperBound_eq_some (c := rangeAfter.1) (d := rangeAfter.2) hu
    split
    case isTrue hfar =>
      refine turned_stop hs le_rfl hi hin (absorbs_insert (fun c d hcd _ => ?_) hnone)
      rcases le_or_gt c s.i with hc | hc
      · exact .inl (hlow c d hcd hc)
      · exact .inr (hfar.trans_le (hleast c d hcd hc))
    case isFalse hnear =>
      rw [if_neg hlt.ne']
      refine turned_merge hs hstop le_rfl hlt (not_lt.mp hnear) hf hin
        (absorbs_insert_erase hlt hf (fun c d hcd hci hce => ?_) fun d hd => ?_)
      · rcases le_or_gt c s.i with hc | hc
        · exact .inl (hlow c d hcd hc)
        · exact .inr (hs.apart _ _ _ _ hf hcd (lt_of_le_of_ne (hleast c d hcd hc) (Ne.symm hce)))
      · exact absurd (hs.proper _ _ hd) (not_lt.mpr (hlow _ _ hd le_rfl).le)

/-- A range ends with `i`. -/
theorem touching_turned (hs : Separated s.m_ranges) (hstop : s.stopped = false) (hi : s.i < _m.2)
    {a : ℕ} (hf : s.m_ranges.find a = some s.i) (hai : a ≤ s.i)
    (hlast : ∀ c d, s.m_ranges.find c = some d → c ≤ s.i → c ≤ a) :
    Turned _m s (s.touching _m (a, s.i)) := by
  have hin : ∀ x, a ≤ x → x < s.i → x ∈ elements s.m_ranges := fun x hax hxi =>
    ⟨a, s.i, hf, hax, hxi⟩
  have hlow : ∀ c d, s.m_ranges.find c = some d → c ≠ a → c ≤ s.i → d < a := fun c d hcd hca hc =>
    hs.apart _ _ _ _ hcd hf (lt_of_le_of_ne (hlast c d hcd hc) hca)
  have hover : ∀ {b}, s.i ≤ b → ∀ d, s.m_ranges.find a = some d → d ≤ b := fun hb d hd => by
    rw [hf, Option.some_inj] at hd
    exact hd ▸ hb
  unfold touching
  split
  case h_1 hu =>
    refine turned_stop hs hai hi hin (absorbs_insert (fun c d hcd hca => .inl ?_) (hover hi.le))
    exact hlow c d hcd hca (upperBound_eq_none hu hcd)
  case h_2 rangeAfter hu =>
    obtain ⟨hfa, hlt, hleast⟩ := upperBound_eq_some (c := rangeAfter.1) (d := rangeAfter.2) hu
    split
    case isTrue hfar =>
      refine turned_stop hs hai hi hin (absorbs_insert (fun c d hcd hca => ?_) (hover hi.le))
      rcases le_or_gt c s.i with hc | hc
      · exact .inl (hlow c d hcd hca hc)
      · exact .inr (hfar.trans_le (hleast c d hcd hc))
    case isFalse hnear =>
      refine turned_merge hs hstop hai hlt (not_lt.mp hnear) hfa hin
        (absorbs_insert_erase (hai.trans_lt hlt) hfa (fun c d hcd hca hce => ?_) (hover ?_))
      · rcases le_or_gt c s.i with hc | hc
        · exact .inl (hlow c d hcd hca hc)
        · exact .inr (hs.apart _ _ _ _ hfa hcd (lt_of_le_of_ne (hleast c d hcd hc) (Ne.symm hce)))
      · exact (hlt.trans (hs.proper _ _ hfa)).le

/-- One turn of the loop. -/
theorem turn_turned (hs : Separated s.m_ranges) (hstop : s.stopped = false) (hi : s.i < _m.2) :
    Turned _m s (s.turn _m) := by
  unfold turn
  split
  case h_1 hl =>
    refine apart_turned hs hstop hi fun a b hf hai => ?_
    exact absurd hai (not_le.mpr (lastUpTo_eq_none hl hf))
  case h_2 it hl =>
    obtain ⟨a, b⟩ := it
    obtain ⟨hf, hai, hlast⟩ := lastUpTo_eq_some hl
    split
    case isTrue hlow =>
      refine apart_turned hs hstop hi fun c d hcd hc => ?_
      rcases (hlast c d hcd hc).lt_or_eq with hlt | heq
      · exact (hs.apart _ _ _ _ hcd hf hlt).trans_le hai
      · rw [heq, hf, Option.some_inj] at hcd
        exact hcd ▸ hlow
    case isFalse hnot =>
      split
      case isTrue heq =>
        subst heq
        exact touching_turned hs hstop hi hf hai hlast
      case isFalse hne =>
        -- `i` is inside of a range, and goes to its end
        have hib : s.i < b := lt_of_le_of_ne (not_lt.mp hnot) (Ne.symm hne)
        refine ⟨hs, ?_, .inr hib⟩
        show elements s.m_ranges ∪ (if s.stopped then ∅ else Set.Ico b _m.2) = _
        rw [hstop, if_neg Bool.false_ne_true]
        ext x
        have hx : a ≤ x → x < b → x ∈ elements s.m_ranges := fun hax hxb => ⟨a, b, hf, hax, hxb⟩
        simp only [Set.mem_union, Set.mem_Ico]
        grind

end Union

section Operations
variable {m other : RangeMask}

/-- **The loop of `unionWith` ends, and adds the numbers of the range.** -/
theorem unionWith_eq (hm : Separated m.m_ranges) (_m : Range) :
    ∃ m', m.unionWith _m = some m' ∧ m'.m_all = m.m_all ∧ Separated m'.m_ranges ∧
      elements m'.m_ranges = elements m.m_ranges ∪ Set.Ico _m.1 _m.2 := by
  let I : Union → Prop := fun s => Separated s.m_ranges ∧
    elements s.m_ranges ∪ s.pending _m = elements m.m_ranges ∪ Set.Ico _m.1 _m.2
  let left : Union → ℕ := fun s => if s.stopped then 0 else _m.2 - s.i + 1
  have hbody : ∀ s, I s → s.more _m = true → I (s.turn _m) ∧ left (s.turn _m) < left s := by
    intro s hI hmore
    simp only [Union.more, Bool.and_eq_true, Bool.not_eq_true', decide_eq_true_eq] at hmore
    obtain ⟨hstop, hi⟩ := hmore
    have ht := Union.turn_turned hI.1 hstop hi
    have hpending : s.pending _m = Set.Ico s.i _m.2 := by
      rw [Union.pending, hstop, if_neg Bool.false_ne_true]
    refine ⟨⟨ht.separated, ?_⟩, ?_⟩
    · rw [ht.same, ← hpending]
      exact hI.2
    · show (if (s.turn _m).stopped then 0 else _m.2 - (s.turn _m).i + 1) <
        if s.stopped then 0 else _m.2 - s.i + 1
      rw [hstop, if_neg Bool.false_ne_true]
      rcases ht.onward with h | h
      · rw [if_pos h]
        omega
      · split <;> omega
  have hinit : I ⟨_m.1, m.m_ranges, false⟩ := by
    refine ⟨hm, ?_⟩
    rw [Union.pending, if_neg Bool.false_ne_true]
  obtain ⟨s, hruns, ⟨hsep, hset⟩, hdone⟩ := Loops.run_of_variant left hbody hinit
  have hfuel : left ⟨_m.1, m.m_ranges, false⟩ < _m.2 + 2 := by
    show (if false = true then 0 else _m.2 - _m.1 + 1) < _m.2 + 2
    rw [if_neg Bool.false_ne_true]
    omega
  refine ⟨⟨m.m_all, s.m_ranges⟩, ?_, rfl, hsep, ?_⟩
  · rw [unionWith, hruns _ hfuel]
    rfl
  · -- where the loop is done, nothing is left to add
    have hempty : s.pending _m = ∅ := by
      unfold Union.pending
      split
      · rfl
      · rename_i hstop
        simp only [Union.more, Bool.and_eq_false_iff, Bool.not_eq_false',
          decide_eq_false_iff_not] at hdone
        exact Set.Ico_eq_empty (hdone.resolve_left hstop)
    rw [hempty, Set.union_empty] at hset
    exact hset

theorem unionWithAll_eq (l : List Range) (hm : Separated m.m_ranges) :
    ∃ m', l.foldlM unionWith m = some m' ∧ m'.m_all = m.m_all ∧ Separated m'.m_ranges ∧
      ∀ x, x ∈ elements m'.m_ranges ↔ x ∈ elements m.m_ranges ∨ x ∈ numbers l := by
  induction l generalizing m with
  | nil => exact ⟨m, rfl, rfl, hm, fun x => (or_iff_left List.not_mem_nil).symm⟩
  | cons r l ih =>
    obtain ⟨m₁, h₁, hall₁, hsep₁, hset₁⟩ := unionWith_eq hm r
    obtain ⟨m₂, h₂, hall₂, hsep₂, hset₂⟩ := ih hsep₁
    refine ⟨m₂, ?_, hall₂.trans hall₁, hsep₂, fun x => ?_⟩
    · rw [List.foldlM_cons, h₁]
      exact h₂
    · rw [hset₂, hset₁, numbers_cons, List.mem_append, List.mem_range'_1, Set.mem_union,
        Set.mem_Ico, or_assoc]
      refine or_congr_right (or_congr_left ?_)
      omega

theorem unionWithMask_eq (hm : Separated m.m_ranges) (other : RangeMask) :
    ∃ m', m.unionWithMask other = some m' ∧ m'.m_all = m.hull other ∧ Separated m'.m_ranges ∧
      elements m'.m_ranges = elements m.m_ranges ∪ elements other.m_ranges := by
  obtain ⟨m', h, hall, hsep, hset⟩ := unionWithAll_eq (m := ⟨m.hull other, m.m_ranges⟩)
    other.m_ranges.entries hm
  refine ⟨m', h, hall, hsep, ?_⟩
  ext x
  rw [hset, mem_numbers_entries]
  rfl

/-! ### The complement -/

/-- What the loop of `inverted` makes of a list: the gaps before the ranges are in the map. -/
structure Gaps (l : List Range) (ret : SortedMap ℕ ℕ) (last : ℕ) (s : SortedMap ℕ ℕ × ℕ) :
    Prop where
  separated : Separated s.1
  ends : ∀ a b, s.1.find a = some b → b < s.2
  mem : ∀ x, x ∈ elements s.1 ↔ x ∈ elements ret ∨ last ≤ x ∧ x < s.2 ∧ x ∉ numbers l
  onward : last ≤ s.2
  above : ∀ r ∈ l, r.2 ≤ s.2
  stop : s.2 = last ∨ ∃ r ∈ l, s.2 = r.2

theorem invertTurn_gaps {ret : SortedMap ℕ ℕ} {last : ℕ} (hret : Separated ret)
    (hends : ∀ a b, ret.find a = some b → b < last) {r : Range} (hr : r.1 < r.2)
    (hle : last ≤ r.1) : Gaps [r] ret last (invertTurn (ret, last) r) := by
  have hone : ∀ x, x ∈ numbers [r] ↔ r.1 ≤ x ∧ x < r.2 := fun x => by
    rw [mem_numbers]
    simp
  unfold invertTurn
  split
  case isTrue hne =>
    have hnew : last < r.1 := lt_of_le_of_ne hle (Ne.symm hne)
    have habsorbs : Absorbs ret (ret.insert last r.1) last r.1 :=
      absorbs_insert (fun c d hf _ => .inl (hends c d hf)) fun d hf => by
        have := hends _ _ hf
        omega
    refine ⟨habsorbs.separated hret hnew, fun a b hf => ?_, fun x => ?_, hle.trans hr.le, ?_,
      .inr ⟨r, List.mem_cons_self, rfl⟩⟩
    · rw [SortedMap.find_insert] at hf
      split at hf
      · rw [Option.some_inj] at hf
        exact hf ▸ hr
      · exact (hends a b hf).trans (hnew.trans hr)
    · show x ∈ elements (ret.insert last r.1) ↔ _ ∨ last ≤ x ∧ x < r.2 ∧ _
      rw [habsorbs.elements_eq, hone, Set.mem_union, Set.mem_Ico]
      refine or_congr_right ?_
      omega
    · intro s hs
      exact (congrArg Prod.snd (List.mem_singleton.mp hs)).le
  case isFalse heq =>
    rw [ne_eq, not_not] at heq
    replace heq : r.1 = last := heq
    refine ⟨hret, fun a b hf => (hends a b hf).trans (heq ▸ hr), fun x => ?_, hle.trans hr.le, ?_,
      .inr ⟨r, List.mem_cons_self, rfl⟩⟩
    · refine (or_iff_left fun h => h.2.2 ((hone x).mpr ⟨heq ▸ h.1, h.2.1⟩)).symm
    · intro s hs
      exact (congrArg Prod.snd (List.mem_singleton.mp hs)).le

/-- The whole loop, a turn at a time. -/
theorem foldl_invertTurn {l : List Range} (hl : l.Pairwise (fun r s => r.2 < s.1))
    (hproper : ∀ r ∈ l, r.1 < r.2) {ret : SortedMap ℕ ℕ} {last : ℕ} (hret : Separated ret)
    (hends : ∀ a b, ret.find a = some b → b < last) (hstart : ∀ r ∈ l, last ≤ r.1) :
    Gaps l ret last (l.foldl invertTurn (ret, last)) := by
  induction l generalizing ret last with
  | nil =>
    refine ⟨hret, hends, fun x => ?_, le_rfl, fun r hr => absurd hr List.not_mem_nil, .inl rfl⟩
    exact (or_iff_left fun h => absurd h.1 (not_le.mpr h.2.1)).symm
  | cons r l ih =>
    obtain ⟨hr, hl⟩ := List.pairwise_cons.mp hl
    have hturn := invertTurn_gaps hret hends (hproper r List.mem_cons_self)
      (hstart r List.mem_cons_self)
    have hrest := ih hl (fun s hs => hproper s (List.mem_cons_of_mem _ hs)) hturn.separated
      hturn.ends fun s hs => (hr s hs).le
    rw [List.foldl_cons]
    generalize l.foldl invertTurn (invertTurn (ret, last) r) = s at hrest
    have hend : r.2 ≤ s.2 := hrest.onward
    refine ⟨hrest.separated, hrest.ends, fun x => ?_, hturn.onward.trans hend, ?_, ?_⟩
    · -- the ranges that come later are after this one
      have hlate : x ∈ numbers l → r.2 < x := fun hx => by
        obtain ⟨t, ht, hx⟩ := mem_numbers.mp hx
        exact (hr t ht).trans_le hx.1
      have hone : x ∈ numbers [r] ↔ r.1 ≤ x ∧ x < r.2 := by
        rw [mem_numbers]
        simp
      have hsplit : x ∈ numbers (r :: l) ↔ x ∈ numbers [r] ∨ x ∈ numbers l := by
        rw [← List.mem_append, ← numbers_append, List.singleton_append]
      rw [hrest.mem, hturn.mem, hsplit, hone]
      have hle := hstart r List.mem_cons_self
      have hlt := hproper r List.mem_cons_self
      show (_ ∨ last ≤ x ∧ x < r.2 ∧ _) ∨ r.2 ≤ x ∧ x < s.2 ∧ _ ↔ _
      grind
    · intro t ht
      rcases List.mem_cons.mp ht with rfl | ht
      · exact hend
      · exact hrest.above t ht
    · rcases hrest.stop with h | ⟨t, ht, h⟩
      · exact .inr ⟨r, List.mem_cons_self, h⟩
      · exact .inr ⟨t, List.mem_cons_of_mem _ ht, h⟩

@[simp] theorem inverted_all (m : RangeMask) : m.inverted.m_all = m.m_all := rfl

/-- **`inverted` is the complement in the ground range.** -/
theorem inverted_eq (hm : m.WellFormed) :
    m.inverted.WellFormed ∧
      elements m.inverted.m_ranges = Set.Ico m.m_all.1 m.m_all.2 \ elements m.m_ranges := by
  have hgaps := foldl_invertTurn hm.separated.pairwise (fun r hr => (hm.of_mem hr).1)
    separated_empty (fun a b hf => by rw [SortedMap.find_empty] at hf; cases hf)
    fun r hr => (hm.of_mem hr).2.1
  have hset : Separated m.inverted.m_ranges ∧
      elements m.inverted.m_ranges = Set.Ico m.m_all.1 m.m_all.2 \ elements m.m_ranges := by
    unfold inverted
    generalize m.m_ranges.entries.foldl invertTurn (SortedMap.empty, m.m_all.1) = s at hgaps
    have hle : s.2 ≤ m.m_all.2 := by
      rcases hgaps.stop with h | ⟨r, hr, h⟩
      · exact h ▸ hm.ground
      · exact h ▸ (hm.of_mem hr).2.2.1
    have hover : ∀ x, x ∈ elements m.m_ranges → x < s.2 := fun x hx => by
      obtain ⟨a, b, hf, hx⟩ := hx
      exact hx.2.trans_le (hgaps.above _ (SortedMap.find_eq_some_iff.mp hf))
    have hmem := hgaps.mem
    simp only [mem_numbers_entries, elements_empty, Set.mem_empty_iff_false, false_or] at hmem
    have hge := hgaps.onward
    show Separated (if s.2 ≠ m.m_all.2 then s.1.insert s.2 m.m_all.2 else s.1) ∧
      elements (if s.2 ≠ m.m_all.2 then s.1.insert s.2 m.m_all.2 else s.1) = _
    split
    case isTrue hne =>
      have habsorbs : Absorbs s.1 (s.1.insert s.2 m.m_all.2) s.2 m.m_all.2 :=
        absorbs_insert (fun c d hf _ => .inl (hgaps.ends c d hf)) fun d hf => by
          have := hgaps.ends _ _ hf
          omega
      refine ⟨habsorbs.separated hgaps.separated (lt_of_le_of_ne hle hne), ?_⟩
      rw [habsorbs.elements_eq]
      ext x
      have hx := hover x
      simp only [Set.mem_union, Set.mem_sdiff, Set.mem_Ico, hmem]
      grind
    case isFalse heq =>
      rw [ne_eq, not_not] at heq
      refine ⟨hgaps.separated, ?_⟩
      ext x
      simp only [Set.mem_sdiff, Set.mem_Ico, hmem, heq, and_assoc]
  refine ⟨⟨hset.1, ?_, hm.ground, hm.fits⟩, hset.2⟩
  rw [hset.2]
  exact Set.sdiff_subset

/-! ### The smallest elements -/

/-- The end of no new range wraps, as the loop goes over a list. -/
def NoWrap : List Range → ℕ → Prop
  | [], _ => True
  | r :: l, _items => _items = 0 ∨ r.1 + _items < 2 ^ 32 ∧ NoWrap l (_items - (r.2 - r.1))

theorem noWrap_iff {l : List Range} {_items : ℕ} :
    NoWrap l _items ↔ ∀ pre r post, l = pre ++ r :: post → (numbers pre).length < _items →
      r.1 + (_items - (numbers pre).length) < 2 ^ 32 := by
  induction l generalizing _items with
  | nil =>
    refine ⟨fun _ pre r post h => ?_, fun _ => trivial⟩
    exact absurd h (List.append_ne_nil_of_right_ne_nil _ (List.cons_ne_nil _ _)).symm
  | cons r l ih =>
    have hlen : ∀ pre, (numbers (r :: pre)).length = r.2 - r.1 + (numbers pre).length := by
      intro pre
      rw [numbers_cons, List.length_append, List.length_range']
    constructor
    · rintro (h | ⟨hr, hl⟩) pre s post heq hlt
      · omega
      · cases pre with
        | nil =>
          obtain ⟨rfl, rfl⟩ := List.cons.inj heq
          exact hr
        | cons r' pre =>
          obtain ⟨rfl, rfl⟩ := List.cons.inj heq
          rw [hlen] at hlt ⊢
          have := ih.mp hl pre s post rfl (by omega)
          omega
    · intro h
      by_cases hz : _items = 0
      · exact .inl hz
      · refine .inr ⟨h [] r l rfl (Nat.pos_of_ne_zero hz), ih.mpr fun pre s post heq hlt => ?_⟩
        have := h (r :: pre) s post (by rw [heq]; rfl) (by rw [hlen]; omega)
        rw [hlen] at this
        omega

theorem sub_of_le {x y : ℕ} (hx : x < 2 ^ 32) (hy : y ≤ x) : subUnsigned x y = x - y := by
  unfold subUnsigned
  omega

/-- What is left to take after a range. -/
theorem sub_taken {r : Range} (hr : r.1 < r.2) {_items : ℕ} (hfits : r.1 + _items < 2 ^ 32) :
    subUnsigned _items (subUnsigned (min (addUnsigned r.1 _items) r.2) r.1) =
      _items - (r.2 - r.1) := by
  have hadd : addUnsigned r.1 _items = r.1 + _items := Nat.mod_eq_of_lt hfits
  have htaken : subUnsigned (min (r.1 + _items) r.2) r.1 = min (r.1 + _items) r.2 - r.1 :=
    sub_of_le (by omega) (by omega)
  rw [hadd, htaken, sub_of_le (by omega) (by omega)]
  omega

/-- The loop of `lowest` where nothing wraps. -/
theorem lowestFrom_eq {l : List Range} (hl : l.Pairwise (fun r s => r.2 < s.1))
    (hproper : ∀ r ∈ l, r.1 < r.2) {_items : ℕ} (hwrap : NoWrap l _items)
    {ret : SortedMap ℕ ℕ} (hret : Separated ret)
    (hends : ∀ r ∈ l, ∀ a b, ret.find a = some b → b < r.1) :
    Separated (lowestFrom l _items ret) ∧ ∀ x, x ∈ elements (lowestFrom l _items ret) ↔
      x ∈ elements ret ∨ x ∈ (numbers l).take _items := by
  induction l generalizing _items ret with
  | nil => exact ⟨hret, fun x => (or_iff_left (by simp [numbers])).symm⟩
  | cons r l ih =>
    obtain ⟨hr, hl⟩ := List.pairwise_cons.mp hl
    have hlt := hproper r List.mem_cons_self
    rw [lowestFrom]
    split
    case isTrue hz => exact ⟨hret, fun x => (or_iff_left (by simp [hz])).symm⟩
    case isFalse hz =>
      obtain ⟨hfits, hwrap⟩ := hwrap.resolve_left hz
      have hadd : addUnsigned r.1 _items = r.1 + _items := Nat.mod_eq_of_lt hfits
      have hleft := sub_taken hlt hfits
      rw [hadd] at hleft ⊢
      have hstop : r.1 < min (r.1 + _items) r.2 := by omega
      have habsorbs : Absorbs ret (ret.insert r.1 (min (r.1 + _items) r.2)) r.1
          (min (r.1 + _items) r.2) :=
        absorbs_insert (fun c d hf _ => .inl (hends r List.mem_cons_self c d hf)) fun d hf => by
          have := hends r List.mem_cons_self _ _ hf
          omega
      have hends' : ∀ s ∈ l, ∀ a b,
          (ret.insert r.1 (min (r.1 + _items) r.2)).find a = some b → b < s.1 := by
        intro s hs a b hf
        have hrs := hr s hs
        rw [SortedMap.find_insert] at hf
        split at hf
        · rw [Option.some_inj] at hf
          omega
        · exact hends s (List.mem_cons_of_mem _ hs) a b hf
      obtain ⟨hsep, hmem⟩ := ih hl (fun s hs => hproper s (List.mem_cons_of_mem _ hs))
        hwrap (habsorbs.separated hret hstop) hends'
      simp only [hleft]
      refine ⟨hsep, fun x => ?_⟩
      rw [hmem, habsorbs.elements_eq, numbers_cons, List.take_append, List.length_range',
        List.mem_append, mem_take_range', Set.mem_union, Set.mem_Ico, or_assoc]
      refine or_congr_right (or_congr_left ?_)
      omega

/-- What the loop has put in stays, as every beginning comes once. -/
theorem lowestFrom_find {l : List Range} {_items : ℕ} {ret : SortedMap ℕ ℕ} {a : ℕ}
    (ha : ∀ r ∈ l, r.1 ≠ a) : (lowestFrom l _items ret).find a = ret.find a := by
  induction l generalizing _items ret with
  | nil => rfl
  | cons r l ih =>
    rw [lowestFrom]
    split
    · rfl
    · have hne : a ≠ r.1 := (ha r List.mem_cons_self).symm
      simp only [ih fun s hs => ha s (List.mem_cons_of_mem _ hs), SortedMap.find_insert,
        if_neg hne]

/-- A range whose end wraps is there, and is not one. -/
theorem lowestFrom_wrap {l : List Range} (hl : l.Pairwise (fun r s => r.2 < s.1))
    (hproper : ∀ r ∈ l, r.1 < r.2 ∧ r.2 < 2 ^ 32) {_items : ℕ} (hitems : _items < 2 ^ 32)
    (hwrap : ¬NoWrap l _items) (ret : SortedMap ℕ ℕ) : ¬Separated (lowestFrom l _items ret) := by
  induction l generalizing _items ret with
  | nil => exact absurd trivial hwrap
  | cons r l ih =>
    obtain ⟨hr, hl⟩ := List.pairwise_cons.mp hl
    obtain ⟨hlt, hend⟩ := hproper r List.mem_cons_self
    have hz : _items ≠ 0 := fun hz => hwrap (.inl hz)
    rw [lowestFrom, if_neg hz]
    by_cases hfits : r.1 + _items < 2 ^ 32
    · simp only [sub_taken hlt hfits]
      refine ih hl (fun s hs => hproper s (List.mem_cons_of_mem _ hs)) (by omega) (fun h => ?_) _
      exact hwrap (.inr ⟨hfits, h⟩)
    · intro hsep
      have hadd : addUnsigned r.1 _items < r.1 := by
        unfold addUnsigned
        omega
      have hlater : ∀ s ∈ l, s.1 ≠ r.1 := fun s hs => by
        have := hr s hs
        omega
      have hfind : (lowestFrom l (subUnsigned _items
          (subUnsigned (min (addUnsigned r.1 _items) r.2) r.1))
          (ret.insert r.1 (min (addUnsigned r.1 _items) r.2))).find r.1 = _ :=
        lowestFrom_find hlater
      rw [SortedMap.find_insert, if_pos rfl] at hfind
      have := hsep.proper _ _ hfind
      omega

/-- The elements before a range are the ones of the ranges before it. -/
theorem ncard_before (hm : Separated m.m_ranges) {pre post : List Range} {r : Range}
    (h : m.m_ranges.entries = pre ++ r :: post) :
    (elements m.m_ranges ∩ Set.Iio r.1).ncard = (numbers pre).length := by
  have hpw := hm.pairwise
  rw [h] at hpw
  obtain ⟨hpre, hpost, hcross⟩ := List.pairwise_append.mp hpw
  have hset : elements m.m_ranges ∩ Set.Iio r.1 = ↑(numbers pre).toFinset := by
    ext x
    rw [List.coe_toFinset, Set.mem_inter_iff, ← mem_numbers_entries, h, numbers_append,
      List.mem_append, Set.mem_Iio]
    constructor
    · rintro ⟨hx | hx, hlt⟩
      · exact hx
      · obtain ⟨s, hs, hsx⟩ := mem_numbers.mp hx
        rcases List.mem_cons.mp hs with heq | hs
        · exact absurd hlt (not_lt.mpr (heq ▸ hsx.1))
        · have hrs := (List.pairwise_cons.mp hpost).1 s hs
          have hmem : (r.1, r.2) ∈ m.m_ranges.entries := by rw [h]; simp
          have hproper := hm.proper _ _ (SortedMap.find_eq_some_iff.mpr hmem)
          have := hsx.1
          omega
    · intro hx
      obtain ⟨s, hs, hsx⟩ := mem_numbers.mp hx
      have := hcross s hs r List.mem_cons_self
      exact ⟨.inl hx, hsx.2.trans this⟩
  rw [hset, Set.ncard_coe_finset, List.toFinset_card_of_nodup]
  exact (numbers_sorted hpre).imp fun hlt => hlt.ne

/-- No range that `lowest` begins with elements to take is so far up that its end wraps. -/
def Unwrapped (m : RangeMask) (_items : ℕ) : Prop :=
  ∀ a b, m.m_ranges.find a = some b → (elements m.m_ranges ∩ Set.Iio a).ncard < _items →
    a + (_items - (elements m.m_ranges ∩ Set.Iio a).ncard) < 2 ^ 32

theorem noWrap_entries_iff (hm : Separated m.m_ranges) {_items : ℕ} :
    NoWrap m.m_ranges.entries _items ↔ m.Unwrapped _items := by
  rw [noWrap_iff]
  constructor
  · intro h a b hf
    obtain ⟨pre, post, heq⟩ := List.append_of_mem (SortedMap.find_eq_some_iff.mp hf)
    rw [ncard_before (r := (a, b)) hm heq]
    exact h pre (a, b) post heq
  · intro h pre r post heq
    rw [← ncard_before hm heq]
    exact h r.1 r.2 (SortedMap.find_eq_some_iff.mpr (by rw [heq]; simp))

/-- **`lowest` has the smallest elements exactly where no end wraps.** -/
theorem lowest_iff (hm : m.WellFormed) {_items : ℕ} (hitems : _items < 2 ^ 32) :
    (m.lowest _items).WellFormed ∧ elements (m.lowest _items).m_ranges =
        {x | x ∈ elements m.m_ranges ∧ (elements m.m_ranges ∩ Set.Iio x).ncard < _items} ↔
      m.Unwrapped _items := by
  have hproper : ∀ r ∈ m.m_ranges.entries, r.1 < r.2 ∧ r.2 < 2 ^ 32 := fun r hr =>
    ⟨(hm.of_mem hr).1, (hm.of_mem hr).2.2.2⟩
  rw [← noWrap_entries_iff hm.separated]
  constructor
  · intro h
    by_contra hwrap
    exact lowestFrom_wrap hm.separated.pairwise hproper hitems hwrap _ h.1.separated
  · intro hwrap
    obtain ⟨hsep, hmem⟩ := lowestFrom_eq hm.separated.pairwise (fun r hr => (hproper r hr).1) hwrap
      separated_empty fun r _ a b hf => by
        rw [SortedMap.find_empty] at hf
        cases hf
    have hset : elements (m.lowest _items).m_ranges =
        {x | x ∈ elements m.m_ranges ∧ (elements m.m_ranges ∩ Set.Iio x).ncard < _items} := by
      ext x
      refine (hmem x).trans ?_
      rw [elements_empty, mem_take_iff (numbers_sorted hm.separated.pairwise)]
      simp only [mem_numbers_entries, Set.mem_empty_iff_false, false_or]
      rfl
    refine ⟨⟨hsep, ?_, hm.ground, hm.fits⟩, hset⟩
    rw [hset]
    exact fun x hx => hm.inside hx.1

/-! ### Reading -/

theorem contains_iff (hm : m.WellFormed) (_i : ℕ) :
    m.contains _i = true ↔ _i ∈ elements m.m_ranges := by
  rw [mem_elements_iff hm.separated]
  unfold contains
  split
  case h_1 h => simp [h]
  case h_2 it h =>
    rw [decide_eq_true_eq]
    refine ⟨fun hlt => ⟨it.1, it.2, h, hlt⟩, ?_⟩
    rintro ⟨a, b, hab, hlt⟩
    rw [h, Option.some_inj] at hab
    rw [hab]
    exact hlt

theorem size_eq (hm : m.WellFormed) : m.size = (elements m.m_ranges).ncard := by
  have hproper : ∀ r ∈ m.m_ranges.entries, r.1 < r.2 ∧ r.2 < 2 ^ 32 := fun r hr =>
    ⟨(hm.of_mem hr).1, (hm.of_mem hr).2.2.2⟩
  have hfold : ∀ (l : List Range) (c : ℕ), (∀ r ∈ l, r.1 < r.2 ∧ r.2 < 2 ^ 32) →
      l.foldl (fun c r => c + subUnsigned r.2 r.1) c = c + (numbers l).length := by
    intro l
    induction l with
    | nil => exact fun c _ => rfl
    | cons r l ih =>
      intro c hl
      obtain ⟨hlt, hend⟩ := hl r List.mem_cons_self
      rw [List.foldl_cons, ih _ fun s hs => hl s (List.mem_cons_of_mem _ hs), numbers_cons,
        List.length_append, List.length_range', sub_of_le hend hlt.le]
      omega
  rw [ncard_elements hm.separated, size, hfold _ _ hproper, Nat.zero_add]

theorem firstOut_isLeast (hm : m.WellFormed) :
    IsLeast {x | m.m_all.1 ≤ x ∧ x ∉ elements m.m_ranges} m.firstOut := by
  unfold firstOut
  cases hf : m.m_ranges.find m.m_all.1 with
  | none =>
    show IsLeast _ m.m_all.1
    refine ⟨⟨le_rfl, ?_⟩, fun x hx => hx.1⟩
    rintro ⟨a, b, hab, hle, hlt⟩
    have hge := (bounds_of_subset hm.separated hm.inside hab).1
    obtain rfl := le_antisymm hle hge
    rw [hf] at hab
    cases hab
  | some b =>
    have hlt := hm.separated.proper _ _ hf
    refine ⟨⟨hlt.le, ?_⟩, fun x hx => ?_⟩
    · rintro ⟨c, d, hcd, hle, hlt'⟩
      rcases (bounds_of_subset hm.separated hm.inside hcd).1.lt_or_eq with h | h
      · exact absurd (hm.separated.apart _ _ _ _ hf hcd h) (not_lt.mpr hle)
      · rw [← h, hf, Option.some_inj] at hcd
        exact absurd hlt' (hcd ▸ lt_irrefl _)
    · by_contra hlow
      exact hx.2 ⟨m.m_all.1, b, hf, hx.1, not_le.mp hlow⟩

theorem lastIn_isGreatest (hm : m.WellFormed) (hne : elements m.m_ranges ≠ ∅) :
    IsGreatest (elements m.m_ranges) m.lastIn := by
  unfold lastIn
  split
  case h_1 hnil =>
    exact absurd (hm.separated.elements_eq_empty_iff.mpr (List.getLast?_eq_none_iff.mp hnil)) hne
  case h_2 r hlast =>
    obtain ⟨pre, heq⟩ := List.getLast?_eq_some_iff.mp hlast
    have hf : m.m_ranges.find r.1 = some r.2 :=
      SortedMap.find_eq_some_iff.mpr (by rw [heq]; simp)
    have hlt := hm.separated.proper _ _ hf
    have hend := (bounds_of_subset hm.separated hm.inside hf).2.trans_lt hm.fits
    rw [sub_of_le hend (by omega)]
    refine ⟨⟨r.1, r.2, hf, by omega, by omega⟩, fun x hx => ?_⟩
    obtain ⟨a, b, hab, hle, hxb⟩ := hx
    have hmem := SortedMap.find_eq_some_iff.mp hab
    have hpw := hm.separated.pairwise
    rw [heq] at hmem hpw
    rcases List.mem_append.mp hmem with hmem | hmem
    · have := (List.pairwise_append.mp hpw).2.2 _ hmem r List.mem_cons_self
      have hb : b < r.1 := this
      omega
    · have hb : b = r.2 := congrArg Prod.snd (List.mem_singleton.mp hmem)
      omega

theorem lastIn_empty (he : elements m.m_ranges = ∅) (hm : m.WellFormed) :
    m.lastIn = m.m_all.1 := by
  rw [lastIn, hm.separated.elements_eq_empty_iff.mp he]
  rfl

/-- A number is the least element of a set, or the end of the ground range where the set has
none. -/
def LeastOrEnd (m : RangeMask) (S : Set ℕ) (v : ℕ) : Prop :=
  IsLeast S v ∨ S = ∅ ∧ v = m.m_all.2

/-- What is looked up is the first element from the successor on. -/
theorem next_leastOrEnd (hm : m.WellFormed) (_t : ℕ) :
    m.LeastOrEnd {x | x ∈ elements m.m_ranges ∧ addUnsigned _t 1 ≤ x} (m.next _t) := by
  unfold next
  generalize addUnsigned _t 1 = t
  -- an element that is not found at `t` is in a range that begins after `t`
  have hlater : t ∉ elements m.m_ranges → ∀ a b x, m.m_ranges.find a = some b → t ≤ x →
      x ∈ Set.Ico a b → t < a := by
    intro ht a b x hf htx hx
    by_contra hle
    exact ht ⟨a, b, hf, not_lt.mp hle, htx.trans_lt hx.2⟩
  have hafter : t ∉ elements m.m_ranges →
      m.LeastOrEnd {x | x ∈ elements m.m_ranges ∧ t ≤ x}
        (match upperBound m.m_ranges t with | none => m.m_all.2 | some u => u.1) := by
    intro ht
    split
    case h_1 hu =>
      refine .inr ⟨Set.eq_empty_of_forall_notMem fun x hx => ?_, rfl⟩
      obtain ⟨⟨a, b, hf, hx⟩, htx⟩ := hx
      exact absurd (hlater ht a b x hf htx hx) (not_lt.mpr (upperBound_eq_none hu hf))
    case h_2 u hu =>
      obtain ⟨hf, htu, hleast⟩ := upperBound_eq_some (c := u.1) (d := u.2) hu
      refine .inl ⟨⟨⟨u.1, u.2, hf, le_rfl, hm.separated.proper _ _ hf⟩, htu.le⟩, fun x hx => ?_⟩
      obtain ⟨⟨a, b, hfa, hx⟩, htx⟩ := hx
      exact (hleast a b hfa (hlater ht a b x hfa htx hx)).trans hx.1
  have hmem := mem_elements_iff (x := t) hm.separated
  dsimp only
  split
  case h_1 hl => exact hafter fun ht => by simp [hl] at hmem; exact hmem ht
  case h_2 it hl =>
    have hle := (lastUpTo_eq_some (c := it.1) (d := it.2) hl).2.1
    split
    case isTrue h =>
      exact .inl ⟨⟨hmem.mpr ⟨it.1, it.2, hl, h.2⟩, le_rfl⟩, fun x hx => hx.2⟩
    case isFalse h =>
      refine hafter fun ht => h ⟨hle, ?_⟩
      obtain ⟨a, b, hab, hlt⟩ := hmem.mp ht
      rw [hl, Option.some_inj] at hab
      rw [hab]
      exact hlt

/-- The value is the one of the documentation. -/
def NextRight (m : RangeMask) (_t : ℕ) : Prop :=
  m.LeastOrEnd {x | x ∈ elements m.m_ranges ∧ _t < x} (m.next _t)

/-- **The next element is found, except from the last `unsigned` on, where the mask must be
empty.** -/
theorem next_iff (hm : m.WellFormed) {_t : ℕ} (ht : _t < 2 ^ 32) :
    m.NextRight _t ↔ _t + 1 < 2 ^ 32 ∨ m.empty = true := by
  have hfound := next_leastOrEnd hm _t
  by_cases hlt : _t + 1 < 2 ^ 32
  · rw [show addUnsigned _t 1 = _t + 1 from Nat.mod_eq_of_lt hlt] at hfound
    exact iff_of_true hfound (.inl hlt)
  · -- nothing is after the last number, and the search begins at zero
    have hzero : addUnsigned _t 1 = 0 := by
      unfold addUnsigned
      omega
    have hnone : {x | x ∈ elements m.m_ranges ∧ _t < x} = ∅ :=
      Set.eq_empty_of_forall_notMem fun x hx => by
        have hlow := (hm.inside hx.1).2
        have hfits := hm.fits
        have hhigh : _t < x := hx.2
        omega
    have hall : {x | x ∈ elements m.m_ranges ∧ 0 ≤ x} = elements m.m_ranges := by
      ext x
      simp
    rw [hzero, hall] at hfound
    rw [NextRight, LeastOrEnd, hnone, hm.empty_iff, or_iff_right hlt]
    constructor
    · rintro (h | ⟨-, h⟩)
      · exact absurd h.1 (Set.notMem_empty _)
      · rcases hfound with hf | hf
        · exact absurd (h ▸ (hm.inside hf.1).2) (lt_irrefl _)
        · exact hf.1
    · intro he
      rcases hfound with hf | hf
      · exact absurd (he ▸ hf.1) (Set.notMem_empty _)
      · exact .inr ⟨rfl, hf.2⟩

theorem begin_leastOrEnd (hm : m.WellFormed) :
    m.LeastOrEnd (elements m.m_ranges) m.begin := by
  unfold begin
  split
  case h_1 hnil => exact .inr ⟨hm.separated.elements_eq_empty_iff.mpr hnil, rfl⟩
  case h_2 r l heq =>
    have hf : m.m_ranges.find r.1 = some r.2 :=
      SortedMap.find_eq_some_iff.mpr (by rw [heq]; simp)
    refine .inl ⟨⟨r.1, r.2, hf, le_rfl, hm.separated.proper _ _ hf⟩, fun x hx => ?_⟩
    obtain ⟨a, b, hab, hx⟩ := hx
    have hmem := SortedMap.find_eq_some_iff.mp hab
    have hsorted := m.m_ranges.sorted
    rw [heq] at hmem hsorted
    rcases List.mem_cons.mp hmem with h | hmem
    · exact (congrArg Prod.fst h).ge.trans hx.1
    · exact ((List.pairwise_cons.mp hsorted).1 _ hmem).le.trans hx.1

/-- **An iteration ends, and passes every element once, in order.** -/
theorem iteration_ends (hm : m.WellFormed) :
    ∃ l, Loops.Ends (Iteration.more m) (Iteration.advance m) ⟨m.begin, []⟩ ⟨m.m_all.2, l⟩ ∧
      l.Pairwise (· < ·) ∧ ∀ x, x ∈ l ↔ x ∈ elements m.m_ranges := by
  let I : Iteration → Prop := fun s => s.passed.Pairwise (· < ·) ∧
    (∀ x, x ∈ s.passed ↔ x ∈ elements m.m_ranges ∧ x < s.m_value) ∧
    (s.m_value ∈ elements m.m_ranges ∨ s.m_value = m.m_all.2)
  have hbody : ∀ s, I s → s.more m = true →
      I (s.advance m) ∧ m.m_all.2 - (s.advance m).m_value < m.m_all.2 - s.m_value := by
    rintro ⟨v, passed⟩ ⟨hsorted, hmem, hat⟩ hmore
    have hne : v ≠ m.m_all.2 := by simpa [Iteration.more] using hmore
    have hv := hat.resolve_right hne
    have hlt : v < m.m_all.2 := (hm.inside hv).2
    have hfits := hm.fits
    have hnext : m.NextRight v := (next_iff hm (by omega)).mpr (.inl (by omega))
    -- between the value and the next one there is no element
    have hgap : v < m.next v ∧ (∀ x, x ∈ elements m.m_ranges → x < m.next v → x ≤ v) ∧
        (m.next v ∈ elements m.m_ranges ∨ m.next v = m.m_all.2) := by
      rcases hnext with h | ⟨hnone, h⟩
      · refine ⟨h.1.2, fun x hx hxn => ?_, .inl h.1.1⟩
        by_contra hvx
        exact absurd (h.2 ⟨hx, not_le.mp hvx⟩) (not_le.mpr hxn)
      · refine ⟨h ▸ hlt, fun x hx _ => ?_, .inr h⟩
        by_contra hvx
        exact Set.notMem_empty x (hnone ▸ ⟨hx, not_le.mp hvx⟩)
    refine ⟨⟨?_, fun x => ?_, hgap.2.2⟩, ?_⟩
    · refine List.pairwise_append.mpr ⟨hsorted, List.pairwise_singleton _ _, fun x hx y hy => ?_⟩
      rw [List.mem_singleton.mp hy]
      exact ((hmem x).mp hx).2
    · show x ∈ passed ++ [v] ↔ x ∈ elements m.m_ranges ∧ x < m.next v
      rw [List.mem_append, List.mem_singleton, hmem]
      constructor
      · rintro (⟨hx, hxv⟩ | rfl)
        · exact ⟨hx, hxv.trans hgap.1⟩
        · exact ⟨hv, hgap.1⟩
      · rintro ⟨hx, hxn⟩
        rcases (hgap.2.1 x hx hxn).lt_or_eq with h | h
        · exact .inl ⟨hx, h⟩
        · exact .inr h
    · show m.m_all.2 - m.next v < m.m_all.2 - v
      have := hgap.1
      omega
  have hinit : I ⟨m.begin, []⟩ := by
    refine ⟨List.Pairwise.nil, fun x => ⟨fun h => absurd h List.not_mem_nil, fun h => ?_⟩, ?_⟩
    · rcases begin_leastOrEnd hm with hb | hb
      · exact absurd (hb.2 h.1) (not_le.mpr h.2)
      · exact absurd (hb.1 ▸ h.1) (Set.notMem_empty x)
    · rcases begin_leastOrEnd hm with hb | hb
      · exact .inl hb.1
      · exact .inr hb.2
  obtain ⟨⟨v, l⟩, hends, ⟨hsorted, hmem, -⟩, hdone⟩ :=
    Loops.ends_of_variant (fun s : Iteration => m.m_all.2 - s.m_value) hbody hinit
  obtain rfl : v = m.m_all.2 := by simpa [Iteration.more] using hdone
  refine ⟨l, hends, hsorted, fun x => (hmem x).trans (and_iff_left_of_imp fun hx => ?_)⟩
  exact (hm.inside hx).2

end Operations

/-! ### Masks as sets -/

/-- The public operations that make a mask of a mask. -/
inductive Call where
  | unionWith (_m : Range)
  | unionWithOne (_i : ℕ)
  | unionWithMask (_m : RangeMask)
  | inverted
  | minus (_m : Range)
  | minusOne (_i : ℕ)
  | minusMask (_m : RangeMask)
  | minusSelf
  | lowest (_items : ℕ)
  | clear
  | reset
  | extendAll (_i : ℕ)

namespace Call

def apply (m : RangeMask) : Call → Option RangeMask
  | unionWith _m => m.unionWith _m
  | unionWithOne _i => m.unionWithOne _i
  | unionWithMask _m => m.unionWithMask _m
  | inverted => some m.inverted
  | minus _m => m.minus _m
  | minusOne _i => m.minusOne _i
  | minusMask _m => m.minusMask _m
  | minusSelf => m.minusSelf
  | lowest _items => some (m.lowest _items)
  | clear => some m.clear
  | reset => some m.reset
  | extendAll _i => some (m.extendAll _i)

/-- The mask that is given to the operation. -/
def argument : Call → Option RangeMask
  | unionWithMask _m | minusMask _m => some _m
  | _ => none

/-- A range or a number is in the ground range, and a count is an `unsigned`. -/
def Admitted (m : RangeMask) : Call → Prop
  | unionWith _m | minus _m => _m.1 < _m.2 → m.m_all.1 ≤ _m.1 ∧ _m.2 ≤ m.m_all.2
  | unionWithOne _i | minusOne _i => m.m_all.1 ≤ _i ∧ _i < m.m_all.2
  | lowest n | extendAll n => n < 2 ^ 32
  | _ => True

/-- The operation on sets. -/
def meaning (m : RangeMask) : Call → Set ℕ
  | unionWith _m => elements m.m_ranges ∪ Set.Ico _m.1 _m.2
  | unionWithOne _i => elements m.m_ranges ∪ {_i}
  | unionWithMask _m => elements m.m_ranges ∪ elements _m.m_ranges
  | inverted => Set.Ico m.m_all.1 m.m_all.2 \ elements m.m_ranges
  | minus _m => elements m.m_ranges \ Set.Ico _m.1 _m.2
  | minusOne _i => elements m.m_ranges \ {_i}
  | minusMask _m => elements m.m_ranges \ elements _m.m_ranges
  | minusSelf => ∅
  | lowest _items =>
    {x | x ∈ elements m.m_ranges ∧ (elements m.m_ranges ∩ Set.Iio x).ncard < _items}
  | clear => ∅
  | reset => ∅
  | extendAll _ => elements m.m_ranges

/-- The mask is given more ground by a subtraction only where the argument is all of it, is not
subtracted from itself in place, and does not wrap in `lowest`. -/
def Exact (m : RangeMask) : Call → Prop
  | minusMask _m => ∀ x, x ∈ Set.Ico (m.hull _m).1 (m.hull _m).2 →
      x ∉ Set.Ico m.m_all.1 m.m_all.2 → x ∈ elements _m.m_ranges
  | minusSelf => m.empty = true
  | lowest _items => m.Unwrapped _items
  | _ => True

end Call

/-- The operation is the one on sets. -/
def AsSet (m : RangeMask) (c : Call) : Prop :=
  ∃ m', c.apply m = some m' ∧ m'.WellFormed ∧ elements m'.m_ranges = c.meaning m

/-- The masks of the public operations, each of them where it is exact. -/
inductive Built : RangeMask → Prop where
  | make (_begin _end : ℕ) : _begin ≤ _end → _end < 2 ^ 32 → Built (make _begin _end)
  | call {m m' : RangeMask} {c : Call} : Built m → c.Admitted m →
      (∀ other, c.argument = some other → Built other) → c.Exact m → c.apply m = some m' → Built m'

/-- What is read from a mask is what the set has. -/
structure ReadsAsSet (m : RangeMask) : Prop where
  contains : ∀ _i, m.contains _i = true ↔ _i ∈ elements m.m_ranges
  size : m.size = (elements m.m_ranges).ncard
  firstOut : IsLeast {x | m.m_all.1 ≤ x ∧ x ∉ elements m.m_ranges} m.firstOut
  lastIn : elements m.m_ranges ≠ ∅ → IsGreatest (elements m.m_ranges) m.lastIn
  lastIn_empty : elements m.m_ranges = ∅ → m.lastIn = m.m_all.1
  iteration : ∃ l, Loops.Ends (Iteration.more m) (Iteration.advance m) ⟨m.begin, []⟩
    ⟨m.m_all.2, l⟩ ∧ l.Pairwise (· < ·) ∧ ∀ x, x ∈ l ↔ x ∈ elements m.m_ranges

section Sets
variable {m other : RangeMask}

theorem readsAsSet (hm : m.WellFormed) : m.ReadsAsSet where
  contains := contains_iff hm
  size := size_eq hm
  firstOut := firstOut_isLeast hm
  lastIn := lastIn_isGreatest hm
  lastIn_empty he := lastIn_empty he hm
  iteration := iteration_ends hm

/-- A union with a range in the ground range. -/
theorem unionWith_wellFormed (hm : m.WellFormed) {_m : Range}
    (h : _m.1 < _m.2 → m.m_all.1 ≤ _m.1 ∧ _m.2 ≤ m.m_all.2) :
    ∃ m', m.unionWith _m = some m' ∧ m'.WellFormed ∧ m'.m_all = m.m_all ∧
      elements m'.m_ranges = elements m.m_ranges ∪ Set.Ico _m.1 _m.2 := by
  obtain ⟨m', heq, hall, hsep, hset⟩ := unionWith_eq hm.separated _m
  refine ⟨m', heq, ⟨hsep, ?_, by rw [hall]; exact hm.ground, by rw [hall]; exact hm.fits⟩, hall,
    hset⟩
  rw [hset, hall]
  refine Set.union_subset hm.inside fun x hx => ?_
  obtain ⟨hlow, hhigh⟩ := h (hx.1.trans_lt hx.2)
  exact ⟨hlow.trans hx.1, hx.2.trans_le hhigh⟩

theorem unionWithMask_wellFormed (hm : m.WellFormed) (ho : other.WellFormed) :
    ∃ m', m.unionWithMask other = some m' ∧ m'.WellFormed ∧ m'.m_all = m.hull other ∧
      elements m'.m_ranges = elements m.m_ranges ∪ elements other.m_ranges := by
  obtain ⟨m', heq, hall, hsep, hset⟩ := unionWithMask_eq hm.separated other
  have hfits : (m.hull other).2 < 2 ^ 32 := max_lt ho.fits hm.fits
  have hground : (m.hull other).1 ≤ (m.hull other).2 :=
    (min_le_right _ _).trans (hm.ground.trans (le_max_right _ _))
  refine ⟨m', heq, ⟨hsep, ?_, by rw [hall]; exact hground, by rw [hall]; exact hfits⟩, hall, hset⟩
  rw [hset, hall]
  refine Set.union_subset (fun x hx => ?_) fun x hx => ?_
  · have := hm.inside hx
    exact ⟨(min_le_right _ _).trans this.1, this.2.trans_le (le_max_right _ _)⟩
  · have := ho.inside hx
    exact ⟨(min_le_left _ _).trans this.1, this.2.trans_le (le_max_left _ _)⟩

/-- A number of the ground range, as the range of it alone. -/
theorem oneRange (hm : m.WellFormed) {_i : ℕ} (h : m.m_all.1 ≤ _i ∧ _i < m.m_all.2) :
    addUnsigned _i 1 = _i + 1 ∧ Set.Ico _i (_i + 1) = {_i} := by
  have hfits := hm.fits
  refine ⟨Nat.mod_eq_of_lt (by omega), ?_⟩
  ext x
  simp only [Set.mem_Ico, Set.mem_singleton_iff]
  omega

/-- The complement of a union with the complement, on the ground that the union has. -/
theorem inverted_union {m' : RangeMask} {S : Set ℕ} (hm : m.WellFormed) (hm' : m'.WellFormed)
    (hset : elements m'.m_ranges = elements m.inverted.m_ranges ∪ S) {x : ℕ} :
    x ∈ elements m'.inverted.m_ranges ↔ x ∈ Set.Ico m'.m_all.1 m'.m_all.2 ∧ x ∉ S ∧
      (x ∈ Set.Ico m.m_all.1 m.m_all.2 → x ∈ elements m.m_ranges) := by
  rw [(inverted_eq hm').2, hset, (inverted_eq hm).2]
  simp only [Set.mem_sdiff, Set.mem_union]
  tauto

/-- The subtraction of a range in the ground range. -/
theorem minus_eq (hm : m.WellFormed) {_m : Range}
    (h : _m.1 < _m.2 → m.m_all.1 ≤ _m.1 ∧ _m.2 ≤ m.m_all.2) :
    ∃ m', m.minus _m = some m' ∧ m'.WellFormed ∧
      elements m'.m_ranges = elements m.m_ranges \ Set.Ico _m.1 _m.2 := by
  obtain ⟨m', heq, hm', hall, hset⟩ := unionWith_wellFormed (inverted_eq hm).1 h
  refine ⟨m'.inverted, by rw [minus, heq]; rfl, (inverted_eq hm').1, ?_⟩
  ext x
  rw [inverted_union hm hm' hset, hall, inverted_all]
  have hin := @hm.inside x
  simp only [Set.mem_sdiff]
  tauto

/-- The subtraction of a mask keeps what is not in the argument, and has the new ground beside. -/
theorem minusMask_eq (hm : m.WellFormed) (ho : other.WellFormed) :
    ∃ m', m.minusMask other = some m' ∧ m'.WellFormed ∧ ∀ x, x ∈ elements m'.m_ranges ↔
      x ∈ Set.Ico (m.hull other).1 (m.hull other).2 ∧ x ∉ elements other.m_ranges ∧
        (x ∈ Set.Ico m.m_all.1 m.m_all.2 → x ∈ elements m.m_ranges) := by
  obtain ⟨m', heq, hm', hall, hset⟩ := unionWithMask_wellFormed (inverted_eq hm).1 ho
  refine ⟨m'.inverted, by rw [minusMask, heq]; rfl, (inverted_eq hm').1, fun x => ?_⟩
  rw [inverted_union hm hm' hset, hall]
  rfl

/-- A mask subtracted from itself in place is what it was. -/
theorem minusSelf_eq (hm : m.WellFormed) :
    ∃ m', m.minusSelf = some m' ∧ m'.WellFormed ∧
      elements m'.m_ranges = elements m.m_ranges := by
  obtain ⟨hinv, hinvset⟩ := inverted_eq hm
  obtain ⟨m', heq, hm', hall, hset⟩ := unionWithMask_wellFormed hinv hinv
  refine ⟨m'.inverted, by rw [minusSelf, heq]; rfl, (inverted_eq hm').1, ?_⟩
  have hsame : m.inverted.hull m.inverted = m.m_all := by
    simp [hull]
  ext x
  rw [inverted_union hm hm' hset, hall, hsame, hinvset]
  have hin := @hm.inside x
  simp only [Set.mem_sdiff]
  tauto

theorem minusMask_iff (hm : m.WellFormed) (ho : other.WellFormed) :
    m.AsSet (.minusMask other) ↔ Call.Exact m (.minusMask other) := by
  obtain ⟨m', heq, hm', hset⟩ := minusMask_eq hm ho
  constructor
  · rintro ⟨m₁, heq₁, -, hset₁⟩ x hx hout
    obtain rfl : m' = m₁ := Option.some.inj (heq.symm.trans heq₁)
    -- an element of the new ground that is not taken out would be in the mask before
    by_contra hno
    have hmem : x ∈ elements m'.m_ranges := (hset x).mpr ⟨hx, hno, fun h => absurd h hout⟩
    rw [hset₁] at hmem
    exact hout (hm.inside hmem.1)
  · intro hexact
    refine ⟨m', heq, hm', ?_⟩
    ext x
    rw [hset]
    have hin := @hm.inside x
    have hwide : x ∈ Set.Ico m.m_all.1 m.m_all.2 → x ∈ Set.Ico (m.hull other).1 (m.hull other).2 :=
      fun h => ⟨(min_le_right _ _).trans h.1, h.2.trans_le (le_max_right _ _)⟩
    have hx := hexact x
    show _ ↔ x ∈ elements m.m_ranges \ elements other.m_ranges
    simp only [Set.mem_sdiff]
    tauto

/-- One operation on well-formed masks. -/
theorem asSet_iff (hm : m.WellFormed) {c : Call} (hc : c.Admitted m)
    (ho : ∀ other, c.argument = some other → other.WellFormed) : m.AsSet c ↔ c.Exact m := by
  cases c with
  | unionWith _m =>
    obtain ⟨m', heq, hm', -, hset⟩ := unionWith_wellFormed hm hc
    exact iff_of_true ⟨m', heq, hm', hset⟩ trivial
  | unionWithOne _i =>
    obtain ⟨hadd, hone⟩ := oneRange hm hc
    obtain ⟨m', heq, hm', -, hset⟩ := @unionWith_wellFormed m hm (_i, _i + 1) fun _ => hc
    refine iff_of_true ⟨m', ?_, hm', hset.trans (by rw [hone]; rfl)⟩ trivial
    rw [Call.apply, unionWithOne, hadd, heq]
  | unionWithMask _m =>
    obtain ⟨m', heq, hm', -, hset⟩ := unionWithMask_wellFormed hm (ho _m rfl)
    exact iff_of_true ⟨m', heq, hm', hset⟩ trivial
  | inverted => exact iff_of_true ⟨m.inverted, rfl, inverted_eq hm⟩ trivial
  | minus _m => exact iff_of_true (minus_eq hm hc) trivial
  | minusOne _i =>
    obtain ⟨hadd, hone⟩ := oneRange hm hc
    obtain ⟨m', heq, hm', hset⟩ := @minus_eq m hm (_i, _i + 1) fun _ => hc
    refine iff_of_true ⟨m', ?_, hm', hset.trans (by rw [hone]; rfl)⟩ trivial
    rw [Call.apply, minusOne, unionWithOne, hadd]
    exact heq
  | minusMask _m => exact minusMask_iff hm (ho _m rfl)
  | minusSelf =>
    obtain ⟨m', heq, hm', hset⟩ := minusSelf_eq hm
    show _ ↔ m.empty = true
    rw [hm.empty_iff]
    constructor
    · rintro ⟨m₁, heq₁, -, hset₁⟩
      obtain rfl : m' = m₁ := Option.some.inj (heq.symm.trans heq₁)
      exact hset.symm.trans hset₁
    · exact fun he => ⟨m', heq, hm', hset.trans he⟩
  | lowest _items =>
    refine Iff.trans ?_ (lowest_iff hm hc)
    constructor
    · rintro ⟨m', heq, hm', hset⟩
      obtain rfl := Option.some.inj heq
      exact ⟨hm', hset⟩
    · exact fun h => ⟨_, rfl, h⟩
  | clear =>
    exact iff_of_true ⟨m.clear, rfl, ⟨separated_empty, by simp [clear, elements_empty], hm.ground,
      hm.fits⟩, elements_empty⟩ trivial
  | reset =>
    exact iff_of_true ⟨m.reset, rfl, ⟨separated_empty, by simp [reset, elements_empty], le_rfl,
      Nat.two_pow_pos 32⟩, elements_empty⟩ trivial
  | extendAll _i =>
    refine iff_of_true ⟨m.extendAll _i, rfl, ⟨hm.separated, fun x hx => ?_, ?_, ?_⟩, rfl⟩ trivial
    · have := hm.inside hx
      exact ⟨(min_le_left _ _).trans this.1, this.2.trans_le (le_max_left _ _)⟩
    · exact (min_le_left _ _).trans (hm.ground.trans (le_max_left _ _))
    · exact max_lt hm.fits (Nat.mod_lt _ (by decide))

theorem Built.wellFormed (h : Built m) : m.WellFormed := by
  induction h with
  | make _begin _end hle hlt =>
    exact ⟨separated_empty, by simp [RangeMask.make, elements_empty], hle, hlt⟩
  | call _ hc _ hexact heq ih hother =>
    obtain ⟨m', heq', hm', -⟩ := (asSet_iff ih hc hother).mpr hexact
    obtain rfl := Option.some.inj (heq'.symm.trans heq)
    exact hm'

/-- **A mask of exact operations is well-formed, is read as the set, and the next operation is
the one on sets exactly on its condition.** -/
theorem exact_iff (h : Built m) : m.WellFormed ∧ m.ReadsAsSet ∧
    (∀ _t, _t < 2 ^ 32 → (m.NextRight _t ↔ _t + 1 < 2 ^ 32 ∨ m.empty = true)) ∧
    ∀ c : Call, c.Admitted m → (∀ other, c.argument = some other → Built other) →
      (m.AsSet c ↔ c.Exact m) := by
  have hm := h.wellFormed
  exact ⟨hm, readsAsSet hm, fun _ => next_iff hm, fun c hc ho =>
    asSet_iff hm hc fun other heq => (ho other heq).wellFormed⟩

/-- The numbers from 3 to 8, on the ground from 0 to 19. -/
def threeToNine : RangeMask := ⟨(0, 20), SortedMap.empty.insert 3 9⟩

theorem threeToNine_built : Built threeToNine :=
  .call (c := .unionWith (3, 9)) (.make 0 20 (by decide) (by decide)) (fun _ => by decide)
    (fun _ h => by cases h) trivial (by decide)

theorem exact_sample : threeToNine.AsSet (.minus (5, 7)) :=
  ((exact_iff threeToNine_built).2.2.2 (.minus (5, 7)) (fun _ => by decide)
    fun _ h => by cases h).mpr trivial

/-- The empty mask taken from a mask with ground from 5 on: the numbers below come in. -/
theorem nothing_minus_adds : Built (make 5 10) ∧ Built (make 0 0) ∧
    ∃ m', (make 5 10).minusMask (make 0 0) = some m' ∧ (make 5 10).contains 0 = false ∧
      m'.contains 0 = true ∧ m'.size = 5 :=
  ⟨.make 5 10 (by decide) (by decide), .make 0 0 (by decide) (by decide),
    ⟨(0, 10), SortedMap.empty.insert 0 5⟩, by decide, by decide, by decide, by decide⟩

/-- The largest number of elements wraps to the range from 3 to 2. -/
example : threeToNine.lowest (2 ^ 32 - 1) = ⟨(0, 20), SortedMap.empty.insert 3 2⟩ := by decide

end Sets
end RangeMask
end Aleth.Devcore
