import Aleth.Devcore.RlpView

/-! How the items of a list lie in its payload.

Reading a view's header is reading the `extent` of its bytes, and bytes behind
an item do not change it (`extent_take`). So the iterator and `items` cut the
payload into pieces that each are one item, no more and no less: `Tiled`. -/
namespace Aleth.Devcore
open RLP (extent)

/-- The string is cut into items. -/
inductive Tiled : Bytes → List Bytes → Prop
  | nil : Tiled [] []
  | cons {x rest : Bytes} {xs : List Bytes} {off len : ℕ}
      (h : extent (x ++ rest) = some (off, len)) (hlen : off + len = x.length)
      (hrest : Tiled rest xs) : Tiled (x ++ rest) (x :: xs)

theorem Tiled.flatten {d : Bytes} {xs : List Bytes} (h : Tiled d xs) : xs.flatten = d := by
  induction h with
  | nil => rfl
  | cons _ _ _ ih => rw [List.flatten_cons, ih]

/-! ### Extents -/

namespace RLPView
variable {d : Bytes} {off len : ℕ}

theorem indirectLength_eq (n : ℕ) (rest : Bytes) :
    (indirectLength rest (RLP.lengthSize n)).toOption = RLP.explicitLength n rest := by
  unfold indirectLength RLP.explicitLength
  dsimp only
  repeat' split
  all_goals rfl

theorem lengthSize_data {n : ℕ} (h : n < c_rlpListStart) :
    RLP.lengthSize n = n - c_rlpDataIndLenZero := if_pos h

theorem lengthSize_list {n : ℕ} (h : ¬n < c_rlpListStart) :
    RLP.lengthSize n = n - c_rlpListIndLenZero := if_neg h

theorem requireGood_cons (b : UInt8) (rest : Bytes) :
    (requireGood (b :: rest)).toOption =
      if b.toNat = c_rlpDataImmLenStart + 1 ∧
        (rest.head?.all fun x => x.toNat < c_rlpDataImmLenStart) then none else some () := by
  unfold requireGood
  dsimp only
  by_cases hb : b.toNat = c_rlpDataImmLenStart + 1
  · rw [if_neg (show ¬(b.toNat ≠ c_rlpDataImmLenStart + 1) from not_not.mpr hb)]
    cases rest with
    | nil => simp [hb, Except.toOption]
    | cons x rest =>
      by_cases hx : x.toNat < c_rlpDataImmLenStart <;> simp [hb, hx, Except.toOption]
  · rw [if_pos (show b.toNat ≠ c_rlpDataImmLenStart + 1 from hb), if_neg fun h => hb h.1]
    rfl

theorem toOption_bind {ε α β : Type} (x : Except ε α) (f : α → Except ε β) :
    (x >>= f).toOption = x.toOption.bind fun a => (f a).toOption := by
  cases x <;> rfl

/-- `length` and `payloadOffset` are the two halves of the extent. -/
theorem extent_eq (b : UInt8) (rest : Bytes) :
    extent (b :: rest) =
      (length (b :: rest)).toOption.map fun l => (payloadOffset (b :: rest), l) := by
  have hsingle : isSingleByte (b :: rest) = decide (b.toNat < c_rlpDataImmLenStart) := rfl
  have hsize : lengthSize (b :: rest) = RLP.lengthSize b.toNat := rfl
  rw [payloadOffset, hsingle, hsize]
  unfold extent length
  dsimp only
  rw [toOption_bind, requireGood_cons]
  by_cases h1 : b.toNat < c_rlpDataImmLenStart
  · have hg : ¬(b.toNat = c_rlpDataImmLenStart + 1 ∧
        (rest.head?.all fun x => x.toNat < c_rlpDataImmLenStart)) := fun h => by omega
    simp only [if_pos h1, if_neg hg]
    simp [h1, Except.toOption, pure, Except.pure]
  · simp only [if_neg h1]
    by_cases hg : b.toNat = c_rlpDataImmLenStart + 1 ∧
        (rest.head?.all fun x => x.toNat < c_rlpDataImmLenStart)
    · simp only [if_pos hg]
      rfl
    · simp only [if_neg hg, Option.bind_some, decide_eq_false h1, Bool.false_eq_true, if_false]
      by_cases h2 : b.toNat ≤ c_rlpDataIndLenZero
      · have hz : RLP.lengthSize b.toNat = 0 := by
          unfold RLP.lengthSize
          unfold c_rlpDataIndLenZero at h2
          unfold c_rlpListStart c_rlpDataIndLenZero
          rw [if_pos (by omega)]
          omega
        simp only [if_pos h2, hz]
        rfl
      · simp only [if_neg h2]
        by_cases h3 : b.toNat < c_rlpListStart
        · simp only [if_pos h3]
          rw [← indirectLength_eq, lengthSize_data h3]
        · simp only [if_neg h3]
          by_cases h4 : b.toNat ≤ c_rlpListIndLenZero
          · have hz : RLP.lengthSize b.toNat = 0 := by
              rw [lengthSize_list h3]
              omega
            simp only [if_pos h4, hz]
            rfl
          · simp only [if_neg h4]
            rw [← indirectLength_eq, lengthSize_list h3]

theorem toOption_eq_some {ε α : Type} {x : Except ε α} {a : α} :
    x.toOption = some a ↔ x = .ok a := by
  cases x <;> simp [Except.toOption]

theorem extent_ne_nil (h : extent d = some (off, len)) : d ≠ [] := by
  intro e
  rw [e] at h
  cases h

theorem length_of_extent (h : extent d = some (off, len)) : length d = .ok len := by
  cases d with
  | nil => cases h
  | cons b rest =>
    rw [extent_eq, Option.map_eq_some_iff] at h
    obtain ⟨l, hl, he⟩ := h
    cases he
    exact toOption_eq_some.mp hl

theorem payloadOffset_of_extent (h : extent d = some (off, len)) : payloadOffset d = off := by
  cases d with
  | nil => cases h
  | cons b rest =>
    rw [extent_eq, Option.map_eq_some_iff] at h
    obtain ⟨l, hl, he⟩ := h
    cases he
    rfl

theorem extent_of_length (hd : d ≠ []) (h : length d = .ok len) :
    extent d = some (payloadOffset d, len) := by
  cases d with
  | nil => exact absurd rfl hd
  | cons b rest =>
    rw [extent_eq, h]
    rfl

theorem isData_or_isList (hd : d ≠ []) : (isData d || isList d) = true := by
  cases d with
  | nil => exact absurd rfl hd
  | cons b rest =>
    show (decide (b.toNat < c_rlpListStart) || decide (c_rlpListStart ≤ b.toNat)) = true
    rw [Bool.or_eq_true, decide_eq_true_iff, decide_eq_true_iff]
    exact lt_or_ge _ _

theorem isNull_false (hd : d ≠ []) : isNull d = false := by
  cases d with
  | nil => exact absurd rfl hd
  | cons b rest => rfl

/-- The first byte of a string shorter than the header of a short one is all of it. -/
theorem length_single (h : isSingleByte d = true) (hl : length d = .ok len) : len = 1 := by
  cases d with
  | nil => cases h
  | cons b rest =>
    have hb : b.toNat < c_rlpDataImmLenStart := of_decide_eq_true h
    unfold c_rlpDataImmLenStart at hb
    have hg : requireGood (b :: rest) = .ok () := if_pos (by unfold c_rlpDataImmLenStart; omega)
    unfold length at hl
    dsimp only at hl
    rw [hg] at hl
    have hl' : (if b.toNat < c_rlpDataImmLenStart then (.ok 1 : Except RLPException ℕ) else _) =
      .ok len := hl
    rw [if_pos (by unfold c_rlpDataImmLenStart; omega)] at hl'
    cases hl'
    rfl

theorem actualSize_of_extent (h : extent d = some (off, len)) : actualSize d = .ok (off + len) := by
  have hd := extent_ne_nil h
  have hl := length_of_extent h
  have ho := payloadOffset_of_extent h
  unfold actualSize
  rw [isNull_false hd, if_neg Bool.false_ne_true]
  by_cases hs : isSingleByte d = true
  · rw [if_pos hs]
    rw [payloadOffset, if_pos hs] at ho
    rw [← ho, length_single hs hl]
  · rw [if_neg hs, if_pos (isData_or_isList hd), hl, ho]
    rfl

theorem extent_of_actualSize {n : ℕ} (hd : d ≠ []) (h : actualSize d = .ok n) :
    ∃ off len, extent d = some (off, len) ∧ off + len = n := by
  unfold actualSize at h
  rw [isNull_false hd, if_neg Bool.false_ne_true] at h
  by_cases hs : isSingleByte d = true
  · rw [if_pos hs] at h
    cases h
    cases d with
    | nil => exact absurd rfl hd
    | cons b rest =>
      have hb : b.toNat < c_rlpDataImmLenStart := of_decide_eq_true hs
      refine ⟨0, 1, ?_, rfl⟩
      unfold extent
      dsimp only
      rw [if_pos hb]
  · rw [if_neg hs, if_pos (isData_or_isList hd)] at h
    cases hl : length d with
    | error e =>
      rw [hl] at h
      cases h
    | ok len =>
      rw [hl] at h
      cases h
      exact ⟨_, _, extent_of_length hd hl, rfl⟩

theorem extent_pos (h : extent d = some (off, len)) : 0 < off + len := by
  cases d with
  | nil => cases h
  | cons b rest =>
    by_cases hs : isSingleByte (b :: rest) = true
    · rw [length_single hs (length_of_extent h)]
      omega
    · have ho := payloadOffset_of_extent h
      rw [payloadOffset, if_neg hs] at ho
      omega

theorem explicitLength_take {n k : ℕ} {rest : Bytes} (hpos : 0 < RLP.lengthSize n)
    (hk : RLP.lengthSize n ≤ k) : RLP.explicitLength n (rest.take k) = RLP.explicitLength n rest := by
  unfold RLP.explicitLength
  have hlt : (rest.take k).length < RLP.lengthSize n ↔ rest.length < RLP.lengthSize n := by
    rw [List.length_take]
    omega
  have hhead : (rest.take k).head? = rest.head? := by
    obtain ⟨k, rfl⟩ : ∃ j, k = j + 1 := ⟨k - 1, by omega⟩
    cases rest <;> rfl
  simp only [hlt, hhead, List.take_take, Nat.min_eq_left hk]

/-- What follows an item does not matter to its extent. -/
theorem extent_take {k : ℕ} (h : extent d = some (off, len)) (hk : off + len ≤ k) :
    extent (d.take k) = some (off, len) := by
  cases d with
  | nil => cases h
  | cons b rest =>
    have hpos := extent_pos h
    have ho := payloadOffset_of_extent h
    have hl := length_of_extent h
    obtain ⟨k, rfl⟩ : ∃ j, k = j + 1 := ⟨k - 1, by omega⟩
    rw [List.take_succ_cons]
    by_cases h1 : b.toNat < c_rlpDataImmLenStart
    · rw [← h]
      unfold extent
      dsimp only
      rw [if_pos h1, if_pos h1]
    · have hs : isSingleByte (b :: rest) = false := decide_eq_false h1
      rw [payloadOffset, hs, if_neg Bool.false_ne_true] at ho
      have hsize : RLP.lengthSize b.toNat ≤ k := by
        have : lengthSize (b :: rest) = RLP.lengthSize b.toNat := rfl
        omega
      have hgood : (b.toNat = c_rlpDataImmLenStart + 1 ∧
          ((rest.take k).head?.all fun x => x.toNat < c_rlpDataImmLenStart)) ↔
          (b.toNat = c_rlpDataImmLenStart + 1 ∧
          (rest.head?.all fun x => x.toNat < c_rlpDataImmLenStart)) := by
        refine and_congr_right fun hb => ?_
        have hlen : len = 1 := by
          have hd : extent (b :: rest) = some (off, len) := h
          unfold extent at hd
          dsimp only at hd
          rw [if_neg h1] at hd
          split at hd
          · cases hd
          · rw [if_pos (by rw [hb]; decide), hb, Nat.add_sub_cancel_left] at hd
            cases hd
            rfl
        obtain ⟨k, rfl⟩ : ∃ j, k = j + 1 := ⟨k - 1, by omega⟩
        cases rest <;> rfl
      rw [← h]
      unfold extent
      dsimp only
      simp only [hgood]
      by_cases h2 : b.toNat ≤ c_rlpDataIndLenZero
      · simp only [if_pos h2]
      · simp only [if_neg h2]
        by_cases h3 : b.toNat < c_rlpListStart
        · have hp : 0 < RLP.lengthSize b.toNat := by
            rw [lengthSize_data h3]
            omega
          simp only [explicitLength_take hp hsize]
        · by_cases h4 : b.toNat ≤ c_rlpListIndLenZero
          · simp only [if_neg h3, if_pos h4]
          · have hp : 0 < RLP.lengthSize b.toNat := by
              rw [lengthSize_list h3]
              omega
            simp only [explicitLength_take hp hsize]

end RLPView

/-! ### References -/

namespace BytesConstRef

/-- It points into the buffer, and what it means is there. -/
structure Points (r : BytesConstRef) : Prop where
  address : r.address.isSome
  bound : r.m_count ≤ r.memory.length

variable {r : BytesConstRef} {k : ℕ}

theorem ofBytes_points (b : Bytes) : (ofBytes b).Points := ⟨rfl, le_refl _⟩

theorem content_ofBytes (b : Bytes) : (ofBytes b).content = b := List.take_length

theorem Points.length_content (h : r.Points) : r.content.length = r.m_count := by
  rw [content, List.length_take, Nat.min_eq_left h.bound]

theorem Points.content_eq_nil (h : r.Points) : r.content = [] ↔ r.m_count = 0 := by
  rw [← List.length_eq_zero_iff, h.length_content]

/-- The first `k` bytes. -/
def front (r : BytesConstRef) (k : ℕ) : BytesConstRef := ⟨r.address, r.memory, k⟩

/-- What follows the first `k` bytes. -/
def back (r : BytesConstRef) (k : ℕ) : BytesConstRef :=
  ⟨r.address.map (· + k), r.memory.drop k, r.m_count - k⟩

theorem Points.cropped_zero (h : r.Points) (hk : k ≤ r.m_count) : r.cropped 0 k = r.front k := by
  obtain ⟨a, ha⟩ := Option.isSome_iff_exists.mp h.address
  rw [cropped, if_pos ⟨h.address, Nat.zero_le _, hk, by omega⟩, front, ha]
  rfl

theorem Points.croppedFrom (h : r.Points) (hk : k ≤ r.m_count) : r.croppedFrom k = r.back k :=
  if_pos ⟨h.address, hk⟩

theorem Points.front (h : r.Points) (hk : k ≤ r.m_count) : (r.front k).Points :=
  ⟨h.address, hk.trans h.bound⟩

theorem Points.back (h : r.Points) (k : ℕ) : (r.back k).Points := by
  refine ⟨by simpa [BytesConstRef.back] using h.address, ?_⟩
  have hb := h.bound
  show r.m_count - k ≤ (r.memory.drop k).length
  rw [List.length_drop]
  omega

theorem content_front (hk : k ≤ r.m_count) : (r.front k).content = r.content.take k := by
  show r.memory.take k = (r.memory.take r.m_count).take k
  rw [List.take_take, Nat.min_eq_left hk]

theorem content_back (r : BytesConstRef) (k : ℕ) : (r.back k).content = r.content.drop k := by
  show (r.memory.drop k).take (r.m_count - k) = (r.memory.take r.m_count).drop k
  rw [List.drop_take]

theorem back_back (r : BytesConstRef) (k l : ℕ) : (r.back k).back l = r.back (k + l) := by
  have haddr : (r.address.map (· + k)).map (· + l) = r.address.map (· + (k + l)) := by
    rw [Option.map_map]
    congr 1
    funext a
    exact Nat.add_assoc a k l
  unfold back
  rw [haddr, List.drop_drop, Nat.sub_sub]

theorem content_front_back (hk : k ≤ r.m_count) :
    (r.front k).content ++ (r.back k).content = r.content := by
  rw [content_front hk, content_back, List.take_append_drop]

end BytesConstRef

/-! ### The items of a list -/

namespace RLPView
open BytesConstRef
variable {d : BytesConstRef} {r : RLPView} {off len : ℕ}

theorem checkTooSmall_eq {s : Strictness} (n : ℕ) (ht : s.failIfTooSmall = true) :
    checkTooSmall s n r = (actualSize r.content >>= fun a =>
      if n < a then fail s .undersizeRLP else .ok r) := if_pos ht

theorem checkTooBig_eq {s : Strictness} (ht : s.failIfTooBig = true) :
    checkTooBig s r = (actualSize r.content >>= fun a =>
      if a < r.m_data.m_count then fail s .oversizeRLP else .ok r) := if_pos ht

theorem ok_bind {ε α β : Type} (a : α) (f : α → Except ε β) : (Except.ok a >>= f) = f a := rfl

theorem checkTooSmall_of_extent {s : Strictness} (h : extent d.content = some (off, len))
    (hle : off + len ≤ d.m_count) : checkTooSmall s d.m_count ⟨d⟩ = .ok ⟨d⟩ := by
  cases ht : s.failIfTooSmall with
  | false => exact if_neg (by rw [ht]; exact Bool.false_ne_true)
  | true =>
    rw [checkTooSmall_eq _ ht, show content ⟨d⟩ = d.content from rfl, actualSize_of_extent h, ok_bind]
    exact if_neg (by omega)

theorem checkTooSmall_ok {s : Strictness} (hs : s.throwOnFail = true)
    (ht : s.failIfTooSmall = true) (h : checkTooSmall s d.m_count ⟨d⟩ = .ok r) :
    r = ⟨d⟩ ∧ ∃ n, actualSize d.content = .ok n ∧ n ≤ d.m_count := by
  rw [checkTooSmall_eq _ ht, show content ⟨d⟩ = d.content from rfl] at h
  cases ha : actualSize d.content with
  | error e =>
    rw [ha] at h
    cases h
  | ok n =>
    rw [ha, ok_bind] at h
    by_cases hn : d.m_count < n
    · rw [if_pos hn, fail, if_pos hs] at h
      cases h
    · rw [if_neg hn] at h
      cases h
      exact ⟨rfl, n, rfl, not_lt.mp hn⟩

theorem construct_eq (d : BytesConstRef) (s : Strictness) :
    construct d s = (checkTooBig s ⟨d⟩ >>= fun r => checkTooSmall s d.m_count r) := rfl

/-- A view of one item, no more and no less. -/
theorem construct_of_extent (h : extent d.content = some (off, len))
    (heq : off + len = d.m_count) : construct d VeryStrict = .ok ⟨d⟩ := by
  have hbig : checkTooBig VeryStrict ⟨d⟩ = .ok ⟨d⟩ := by
    rw [checkTooBig_eq rfl, show content ⟨d⟩ = d.content from rfl, actualSize_of_extent h, ok_bind]
    exact if_neg (by show ¬off + len < d.m_count; omega)
  rw [construct_eq, hbig, ok_bind]
  exact checkTooSmall_of_extent h (by omega)

theorem construct_ok (hd : d.Points) (h : construct d VeryStrict = .ok r) :
    r = ⟨d⟩ ∧ (d.m_count = 0 ∨ ∃ off len, extent d.content = some (off, len) ∧
      off + len = d.m_count) := by
  rw [construct_eq, checkTooBig_eq rfl, show content ⟨d⟩ = d.content from rfl] at h
  cases ha : actualSize d.content with
  | error e =>
    rw [ha] at h
    cases h
  | ok n =>
    rw [ha, ok_bind] at h
    by_cases hn : n < d.m_count
    · rw [if_pos (show n < (⟨d⟩ : RLPView).m_data.m_count from hn)] at h
      cases h
    · rw [if_neg (show ¬n < (⟨d⟩ : RLPView).m_data.m_count from hn), ok_bind] at h
      obtain ⟨hr, m, hm, hle⟩ := checkTooSmall_ok rfl rfl h
      rw [ha] at hm
      cases hm
      refine ⟨hr, ?_⟩
      by_cases h0 : d.m_count = 0
      · exact .inl h0
      · obtain ⟨off, len, he, hs⟩ := extent_of_actualSize
          (fun e => h0 (hd.content_eq_nil.mp e)) ha
        exact .inr ⟨off, len, he, by omega⟩

/-- The strictness of `sizeAsEncoded`. -/
theorem sizeAsEncoded_eq (d : BytesConstRef) :
    sizeAsEncoded d =
      (checkTooSmall {throwOnFail := true, failIfTooSmall := true} d.m_count ⟨d⟩ >>=
        fun r => actualSize r.content) := rfl

theorem sizeAsEncoded_of_extent (h : extent d.content = some (off, len))
    (hle : off + len ≤ d.m_count) : sizeAsEncoded d = .ok (off + len) := by
  rw [sizeAsEncoded_eq, checkTooSmall_of_extent h hle]
  exact actualSize_of_extent h

theorem sizeAsEncoded_empty (hd : d.Points) (h : d.m_count = 0) : sizeAsEncoded d = .ok 0 := by
  have ha : actualSize d.content = .ok 0 := by
    rw [hd.content_eq_nil.mpr h]
    rfl
  rw [sizeAsEncoded_eq, checkTooSmall_eq _ rfl, show content ⟨d⟩ = d.content from rfl, ha, ok_bind,
    if_neg (Nat.not_lt_zero _)]
  exact ha

theorem sizeAsEncoded_ok {n : ℕ} (hd : d.Points) (h0 : d.m_count ≠ 0)
    (h : sizeAsEncoded d = .ok n) :
    ∃ off len, extent d.content = some (off, len) ∧ off + len = n ∧ n ≤ d.m_count := by
  rw [sizeAsEncoded_eq] at h
  cases hc : checkTooSmall {throwOnFail := true, failIfTooSmall := true} d.m_count ⟨d⟩ with
  | error e =>
    rw [hc] at h
    cases h
  | ok r =>
    rw [hc, ok_bind] at h
    obtain ⟨rfl, m, hm, hle⟩ := checkTooSmall_ok rfl rfl hc
    rw [show content ⟨d⟩ = d.content from rfl, hm] at h
    cases h
    obtain ⟨off, len, he, hs⟩ := extent_of_actualSize (fun e => h0 (hd.content_eq_nil.mp e)) hm
    exact ⟨off, len, he, hs, hle⟩

/-- The iterator at the first item of what `d` means. -/
def advance (d : BytesConstRef) : Except RLPException Iterator := do
  let n ← sizeAsEncoded d
  return ⟨d.m_count - n, d.front n⟩

theorem cropped_of_size (hd : d.Points) {n : ℕ} (hn : sizeAsEncoded d = .ok n) :
    n ≤ d.m_count ∧ d.cropped 0 n = d.front n := by
  have hle : n ≤ d.m_count := by
    by_cases h0 : d.m_count = 0
    · rw [sizeAsEncoded_empty hd h0] at hn
      cases hn
      exact Nat.zero_le _
    · obtain ⟨off, len, -, -, hle⟩ := sizeAsEncoded_ok hd h0 hn
      exact hle
  exact ⟨hle, hd.cropped_zero hle⟩

theorem advance_eq (hd : d.Points) :
    (sizeAsEncoded d >>= fun n => Except.ok (⟨d.m_count - min d.m_count (d.cropped 0 n).m_count,
      d.cropped 0 n⟩ : Iterator)) = advance d := by
  unfold advance
  cases hn : sizeAsEncoded d with
  | error e => rfl
  | ok n =>
    obtain ⟨hle, hc⟩ := cropped_of_size hd hn
    rw [ok_bind, ok_bind, hc, show (d.front n).m_count = n from rfl, Nat.min_eq_right hle]
    rfl

theorem begin_eq (hl : isList r.content = true) (hp : payload r = .ok d) (hd : d.Points) :
    begin r = advance d := by
  have hb : begin r = (payload r >>= fun pl => sizeAsEncoded pl >>= fun n =>
    Except.ok (⟨pl.m_count - (pl.cropped 0 n).m_count, pl.cropped 0 n⟩ : Iterator)) := if_pos hl
  rw [hb, hp, ok_bind, advance]
  cases hn : sizeAsEncoded d with
  | error e => rfl
  | ok n =>
    rw [ok_bind, ok_bind, (cropped_of_size hd hn).2]
    rfl

theorem front_next (hd : d.Points) (k : ℕ) :
    {(d.front k).next with m_count := d.m_count - k} = d.back k := by
  obtain ⟨a, ha⟩ := Option.isSome_iff_exists.mp hd.address
  have hn : (d.front k).address.isNone = false := by
    show d.address.isNone = false
    rw [ha]
    rfl
  rw [next, if_neg (by rw [hn]; exact Bool.false_ne_true)]
  rfl

theorem increment_eq (hd : d.Points) (k : ℕ) :
    increment ⟨d.m_count - k, d.front k⟩ = advance (d.back k) := by
  unfold increment
  by_cases h0 : d.m_count - k = 0
  · rw [if_neg (not_not.mpr h0)]
    have hb := front_next hd k
    rw [h0] at hb
    have hadv : advance (d.back k) = .ok ⟨0, (d.back k).front 0⟩ := by
      unfold advance
      rw [sizeAsEncoded_empty (hd.back k) h0]
      show Except.ok (⟨d.m_count - k - 0, (d.back k).front 0⟩ : Iterator) = _
      rw [h0]
    rw [hadv]
    show Except.ok (⟨d.m_count - k, {(d.front k).next with m_count := 0}⟩ : Iterator) = _
    rw [hb, h0]
    show Except.ok (⟨0, d.back k⟩ : Iterator) = .ok ⟨0, (d.back k).front 0⟩
    have hc : (d.back k).m_count = 0 := h0
    rw [front, ← hc]
  · rw [if_pos h0]
    dsimp only
    rw [front_next hd k]
    exact advance_eq (hd.back k)

/-- A view of one item, no more and no less. -/
structure Single (r : RLPView) (off len : ℕ) : Prop where
  points : r.m_data.Points
  extent : RLP.extent r.content = some (off, len)
  size : off + len = r.m_data.m_count

/-- The end of what `d` means. -/
structure Ends (stop : Iterator) (d : BytesConstRef) : Prop where
  address : stop.m_currentItem.address = d.address.map (· + d.m_count)
  count : stop.m_currentItem.m_count = 0

theorem Ends.back {stop : Iterator} (h : Ends stop d) {k : ℕ} (hk : k ≤ d.m_count) :
    Ends stop (d.back k) := by
  refine ⟨?_, h.count⟩
  rw [h.address]
  show _ = (d.address.map (· + k)).map (· + (d.m_count - k))
  rw [Option.map_map]
  congr 1
  funext a
  show a + d.m_count = a + k + (d.m_count - k)
  omega

theorem collect_empty {stop : Iterator} (h : Ends stop d) (hd : d.Points) (h0 : d.m_count = 0)
    (fuel : ℕ) : (advance d >>= collect stop (fuel + 1)) = .ok [] := by
  have hsame : (d.front 0).same stop.m_currentItem = true := by
    rw [same, h.address, h.count, h0, show (d.front 0).address = d.address from rfl,
      show (d.front 0).m_count = 0 from rfl]
    simp
  rw [advance, sizeAsEncoded_empty hd h0, ok_bind]
  exact if_pos hsame

theorem collect_front {stop : Iterator} (h : stop.m_currentItem.m_count = 0) (hd : d.Points) {n : ℕ}
    (hpos : n ≠ 0) (fuel : ℕ) :
    collect stop (fuel + 1) ⟨d.m_count - n, d.front n⟩ =
      (construct (d.front n) VeryStrict >>= fun r =>
        (advance (d.back n) >>= collect stop fuel) >>= fun rs => .ok (r :: rs)) := by
  have hsame : ¬(d.front n).same stop.m_currentItem = true := by
    rw [same, h, show (d.front n).m_count = n from rfl, decide_eq_false hpos, Bool.and_false]
    exact Bool.false_ne_true
  rw [← increment_eq hd n]
  show (if (d.front n).same stop.m_currentItem = true then _ else _) = _
  rw [if_neg hsame]
  cases construct (d.front n) VeryStrict with
  | error e => rfl
  | ok r =>
    cases increment ⟨d.m_count - n, d.front n⟩ with
    | error e => rfl
    | ok it =>
      cases collect stop fuel it <;> rfl

/-- The views of the items that `d` is cut into. -/
def viewsOf : BytesConstRef → List Bytes → List RLPView
  | _, [] => []
  | d, x :: xs => ⟨d.front x.length⟩ :: viewsOf (d.back x.length) xs

theorem viewsOf_content {b : Bytes} {xs : List Bytes} (ht : Tiled b xs) (hb : d.content = b)
    (hd : d.Points) :
    (viewsOf d xs).map content = xs ∧ ∀ r ∈ viewsOf d xs, ∃ off len, r.Single off len := by
  induction ht generalizing d with
  | nil => exact ⟨rfl, fun r hr => by cases hr⟩
  | @cons x rest xs off len hx hlen hrest ih =>
    have hcount : x.length ≤ d.m_count := by
      rw [← hd.length_content, hb, List.length_append]
      omega
    have hfront : (d.front x.length).content = x := by
      rw [content_front hcount, hb, List.take_left]
    have hback : (d.back x.length).content = rest := by
      rw [content_back, hb, List.drop_left]
    have hone : extent (d.front x.length).content = some (off, len) := by
      rw [content_front hcount, hb]
      exact extent_take hx (le_of_eq hlen)
    obtain ⟨hmap, hall⟩ := ih hback (hd.back _)
    refine ⟨?_, fun r hr => ?_⟩
    · show content ⟨d.front x.length⟩ :: _ = _
      rw [hmap]
      exact congrArg (· :: xs) hfront
    · cases List.mem_cons.mp hr with
      | inl e =>
        rw [e]
        exact ⟨off, len, hd.front hcount, hone, hlen⟩
      | inr hr => exact hall r hr

/-- The loop goes through the items one by one, and on from behind the last of them. -/
theorem collect_items {stop : Iterator} (h : stop.m_currentItem.m_count = 0) {b : Bytes}
    {xs : List Bytes} (ht : Tiled b xs) (hb : d.content = b) (hd : d.Points) (fuel : ℕ) :
    (advance d >>= collect stop (fuel + xs.length)) =
      ((advance (d.back d.m_count) >>= collect stop fuel) >>= fun rs => .ok (viewsOf d xs ++ rs)) := by
  induction ht generalizing d with
  | nil =>
    have hzero : d.back d.m_count = d.back 0 := by
      rw [hd.content_eq_nil.mp hb]
    have hself : d.back 0 = d := by
      obtain ⟨a, ha⟩ := Option.isSome_iff_exists.mp hd.address
      cases d
      cases ha
      rfl
    rw [hzero, hself]
    show _ = (_ >>= fun rs => Except.ok rs)
    cases (advance d >>= collect stop fuel) <;> rfl
  | @cons x rest xs off len hx hlen hrest ih =>
    have hpos := extent_pos hx
    have hcount : x.length ≤ d.m_count := by
      rw [← hd.length_content, hb, List.length_append]
      omega
    have hback : (d.back x.length).content = rest := by
      rw [content_back, hb, List.drop_left]
    have hsize : sizeAsEncoded d = .ok x.length := by
      rw [← hlen]
      exact sizeAsEncoded_of_extent (hb ▸ hx) (by omega)
    have hone : extent (d.front x.length).content = some (off, len) := by
      rw [content_front hcount, hb]
      exact extent_take hx (le_of_eq hlen)
    have hlast : (d.back x.length).back (d.back x.length).m_count = d.back d.m_count := by
      rw [back_back]
      exact congrArg d.back (Nat.add_sub_cancel' hcount)
    have hadvance : advance d = .ok ⟨d.m_count - x.length, d.front x.length⟩ := by
      rw [advance, hsize]
      rfl
    have hrec := ih hback (hd.back _)
    rw [hlast] at hrec
    rw [hadvance, ok_bind, List.length_cons, ← Nat.add_assoc, collect_front h hd (by omega),
      construct_of_extent hone hlen, ok_bind, hrec]
    cases (advance (d.back d.m_count) >>= collect stop fuel) <;> rfl

/-- The loop over what is cut into items gives their views. -/
theorem collect_of_tiled {stop : Iterator} {b : Bytes} {xs : List Bytes} (ht : Tiled b xs)
    (hb : d.content = b) (hd : d.Points) (h : Ends stop d) {fuel : ℕ} (hf : xs.length < fuel) :
    (advance d >>= collect stop fuel) = .ok (viewsOf d xs) := by
  obtain ⟨f, rfl⟩ : ∃ f, fuel = f + 1 + xs.length := ⟨fuel - xs.length - 1, by omega⟩
  have hempty := collect_empty (h.back (le_refl _)) (hd.back d.m_count) (Nat.sub_self _) f
  rw [collect_items h.count ht hb hd, hempty, ok_bind, List.append_nil]

/-- What the loop gives is cut into items. -/
theorem tiled_of_collect {stop : Iterator} (hd : d.Points) (h : Ends stop d) {fuel : ℕ}
    {rs : List RLPView} (hrs : (advance d >>= collect stop fuel) = .ok rs) :
    Tiled d.content (rs.map content) ∧ ∀ r ∈ rs, ∃ off len, r.Single off len := by
  induction fuel generalizing d rs with
  | zero =>
    cases ha : advance d with
    | error e =>
      rw [ha] at hrs
      cases hrs
    | ok it =>
      rw [ha] at hrs
      cases hrs
  | succ fuel ih =>
    by_cases h0 : d.m_count = 0
    · rw [collect_empty h hd h0 fuel] at hrs
      cases hrs
      rw [hd.content_eq_nil.mpr h0]
      exact ⟨.nil, fun r hr => by cases hr⟩
    · rw [advance] at hrs
      cases hn : sizeAsEncoded d with
      | error e =>
        rw [hn] at hrs
        cases hrs
      | ok n =>
        obtain ⟨off, len, he, hsum, hle⟩ := sizeAsEncoded_ok hd h0 hn
        have hpos := extent_pos he
        rw [hn, ok_bind] at hrs
        change collect stop (fuel + 1) ⟨d.m_count - n, d.front n⟩ = .ok rs at hrs
        have hone : extent (d.front n).content = some (off, len) := by
          rw [content_front hle]
          exact extent_take he (by omega)
        rw [collect_front h.count hd (by omega), construct_of_extent hone hsum, ok_bind] at hrs
        cases hrest : (advance (d.back n) >>= collect stop fuel) with
        | error e =>
          rw [hrest] at hrs
          cases hrs
        | ok rs' =>
          rw [hrest, ok_bind] at hrs
          cases hrs
          obtain ⟨ht, hall⟩ := ih (hd.back n) (h.back hle) hrest
          refine ⟨?_, fun r hr => ?_⟩
          · have hsplit := content_front_back hle
            have hlen : off + len = (d.front n).content.length := by
              rw [(hd.front hle).length_content]
              exact hsum
            rw [← hsplit] at he ⊢
            exact .cons he hlen ht
          · cases List.mem_cons.mp hr with
            | inl e =>
              rw [e]
              exact ⟨off, len, hd.front hle, hone, hsum⟩
            | inr hr => exact hall r hr

theorem countItems_of_tiled {b : Bytes} {xs : List Bytes} (ht : Tiled b xs) (hb : d.content = b)
    (hd : d.Points) {fuel : ℕ} (hf : xs.length < fuel) : countItems fuel d = .ok xs.length := by
  obtain ⟨fuel, rfl⟩ : ∃ f, fuel = f + 1 := ⟨fuel - 1, by omega⟩
  induction ht generalizing d fuel with
  | nil => exact if_pos (hd.content_eq_nil.mp hb)
  | @cons x rest xs off len hx hlen hrest ih =>
    have hpos := extent_pos hx
    have hcount : x.length ≤ d.m_count := by
      rw [← hd.length_content, hb, List.length_append]
      omega
    have hsize : sizeAsEncoded d = .ok x.length := by
      rw [← hlen]
      exact sizeAsEncoded_of_extent (hb ▸ hx) (by omega)
    have hback : (d.back x.length).content = rest := by
      rw [content_back, hb, List.drop_left]
    rw [List.length_cons] at hf
    obtain ⟨f, rfl⟩ : ∃ f, fuel = f + 1 := ⟨fuel - 1, by omega⟩
    show (if d.m_count = 0 then _ else (sizeAsEncoded d >>= fun n =>
      countItems (f + 1) (d.croppedFrom n) >>= fun k => Except.ok (1 + k))) = _
    have hcut : countItems (f + 1) (d.back x.length) = .ok xs.length :=
      @ih (d.back x.length) hback (hd.back _) f (by omega)
    rw [if_neg (by omega), hsize, ok_bind, hd.croppedFrom hcount, hcut, ok_bind, List.length_cons,
      Nat.add_comm]

/-! ### A view of a list -/

namespace Single
variable {off len : ℕ}

theorem payload_eq (h : r.Single off len) : payload r = .ok (r.m_data.back off) := by
  have hs := h.size
  have hc : r.m_data.cropped off len = r.m_data.back off := by
    have hlen : r.m_data.m_count - off = len := by omega
    rw [cropped, if_pos ⟨h.points.address, by omega, by omega, by omega⟩, back, hlen]
  unfold payload
  rw [length_of_extent h.extent, ok_bind, if_neg (by omega), payloadOffset_of_extent h.extent, hc]
  rfl

theorem content_payload (_ : r.Single off len) :
    (r.m_data.back off).content = r.content.drop off := content_back _ _

theorem ends (h : r.Single off len) : Ends r.end_ (r.m_data.back off) := by
  have hs := h.size
  have he : r.end_ = ⟨0, r.m_data.back r.m_data.m_count⟩ := by
    rw [end_, h.points.croppedFrom (le_refl _)]
  refine Ends.back (d := r.m_data) ⟨?_, ?_⟩ (by omega)
  · rw [he]
    rfl
  · rw [he]
    exact Nat.sub_self _

theorem elements_eq (h : r.Single off len) (hl : isList r.content = true) (fuel : ℕ) :
    elements fuel r = (advance (r.m_data.back off) >>= collect r.end_ fuel) := by
  unfold elements
  rw [begin_eq hl h.payload_eq (h.points.back off)]

theorem itemCount_eq (h : r.Single off len) (hl : isList r.content = true) (fuel : ℕ) :
    itemCount fuel r = countItems fuel (r.m_data.back off) := by
  unfold itemCount
  rw [if_pos hl, h.payload_eq, ok_bind]

theorem toBytes_eq (h : r.Single off len) (hd : isData r.content = true) (flags : Strictness) :
    toBytes r flags = .ok (r.content.drop off) := by
  have hs := h.size
  have hlen : r.m_data.m_count - off = len := by omega
  unfold toBytes
  rw [hd, if_neg (by decide), h.payload_eq, ok_bind, length_of_extent h.extent, ok_bind,
    ← h.content_payload, BytesConstRef.content, show (r.m_data.back off).m_count = len from hlen]
  rfl

end Single
end RLPView
end Aleth.Devcore
