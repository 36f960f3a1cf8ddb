import Aleth.Devcore.RlpItems

/-! What an item is converted to (`RLP::toInt`, `toHash`).

A conversion that does not throw leaves one way to write the item (`Converts`),
so a payload goes on with the item of each value that was read from it
(`Single.field_ok`), and values are read where their items stand
(`Single.field_of_getElem`). -/
namespace Aleth.Devcore
open RLP (extent)
open RLPView BytesConstRef

namespace RLPView
variable {r : RLPView} {off len : ℕ}

/-! ### The code -/

/-- `isEmpty`. -/
def isEmpty (d : Bytes) : Bool :=
  d.head?.any fun b => b.toNat = c_rlpDataImmLenStart || b.toNat = c_rlpListStart

/-- `toInt<T>`, where a `T` has at most `maxSize` bytes. -/
def toIntOf (maxSize : ℕ) (r : RLPView) (flags : Strictness) : Except RLPException ℕ := do
  requireGood r.content
  if (!(← isInt r.content) && !flags.allowNonCanon) || isList r.content || isNull r.content then
    if flags.throwOnFail then .error .badCast else return 0
  else
    let p ← payload r
    if maxSize < p.m_count && flags.failIfTooBig then
      if flags.throwOnFail then .error .badCast else return 0
    else return fromBigEndian p.content

/-- `toHash<FixedHash<N>>`. -/
def toHash (N : ℕ) (r : RLPView) (flags : Strictness) : Except RLPException Bytes := do
  requireGood r.content
  let p ← payload r
  if !isData r.content || (N < p.m_count && flags.failIfTooBig) ||
      (p.m_count < N && flags.failIfTooSmall) then
    if flags.throwOnFail then .error .badCast else return List.replicate N 0
  else return List.replicate (N - p.m_count) 0 ++ p.content.take N

/-! ### Conversions -/

namespace Single

theorem requireGood_eq (h : r.Single off len) : requireGood r.content = .ok () := by
  have hext := h.extent
  cases hc : r.content with
  | nil => exact absurd hc (extent_ne_nil hext)
  | cons b rest =>
    rw [hc] at hext
    exact requireGood_of_length (length_of_extent hext)

theorem isList_eq (h : r.Single off len) : isList r.content = !isData r.content := by
  have hext := h.extent
  cases hc : r.content with
  | nil => exact absurd hc (extent_ne_nil hext)
  | cons b rest =>
    show decide (c_rlpListStart ≤ b.toNat) = !decide (b.toNat < c_rlpListStart)
    by_cases hb : b.toNat < c_rlpListStart
    · rw [decide_eq_true hb, decide_eq_false (not_le.mpr hb), Bool.not_true]
    · rw [decide_eq_false hb, decide_eq_true (not_lt.mp hb), Bool.not_false]

/-- A string is written as it was. -/
theorem content_eq (h : r.Single off len) (hd : isData r.content = true) :
    r.content = appendData (r.content.drop off) :=
  (RLP.appendData_of_extent h.extent hd h.length_eq).symm

theorem payload_count (h : r.Single off len) :
    (r.m_data.back off).m_count = (r.content.drop off).length := by
  rw [← (h.points.back off).length_content, h.content_payload]

end Single

theorem toHash_ok (hs : r.Single off len) {N : ℕ} {b : Bytes} (h : toHash N r VeryStrict = .ok b) :
    b.length = N ∧ r.content = appendData b := by
  have hcount := hs.payload_count
  unfold toHash at h
  rw [hs.requireGood_eq, ok_bind, hs.payload_eq, ok_bind, hcount] at h
  by_cases hd : isData r.content = true
  · by_cases hN : (r.content.drop off).length = N
    · rw [hd, hN] at h
      simp only [Bool.not_true, lt_irrefl, decide_false, Bool.false_and, Bool.or_self,
        Bool.false_eq_true, if_false, Nat.sub_self, List.replicate_zero, List.nil_append] at h
      rw [hs.content_payload, List.take_of_length_le hN.le] at h
      cases h
      exact ⟨hN, hs.content_eq hd⟩
    · rw [if_pos] at h
      · cases h
      · rw [hd]
        rcases lt_or_gt_of_ne hN with hlt | hgt
        · rw [decide_eq_true hlt, decide_eq_false (not_lt.mpr hlt.le)]
          rfl
        · rw [decide_eq_true hgt]
          rfl
  · rw [if_pos (by rw [eq_false_of_ne_true hd]; rfl)] at h
    cases h

theorem toHash_encode (hs : r.Single off len) {N : ℕ} {b : Bytes}
    (hd : isData r.content = true) (hb : r.content.drop off = b) (hN : b.length = N)
    (flags : Strictness) : toHash N r flags = .ok b := by
  have hcount := hs.payload_count
  rw [hb, hN] at hcount
  unfold toHash
  rw [hs.requireGood_eq, ok_bind, hs.payload_eq, ok_bind, hd, hcount, hs.content_payload, hb]
  simp only [Bool.not_true, lt_irrefl, decide_false, Bool.false_and, Bool.or_self,
    Bool.false_eq_true, if_false, Nat.sub_self, List.replicate_zero, List.nil_append]
  rw [List.take_of_length_le hN.le]
  rfl

theorem toHash_null {N : ℕ} (h : r.content = []) (flags : Strictness) :
    toHash N r flags = .error .badRLP := by
  unfold toHash
  rw [h]
  rfl

theorem toIntOf_null {maxSize : ℕ} (h : r.content = []) (flags : Strictness) :
    toIntOf maxSize r flags = .error .badRLP := by
  unfold toIntOf
  rw [h]
  rfl

/-- Without a leading zero the bytes are those of the number. -/
theorem toCompactBigEndian_payload (hs : r.Single off len) (hd : isData r.content = true)
    (hint : isInt r.content = .ok true) :
    toCompactBigEndian (fromBigEndian (r.content.drop off)) = r.content.drop off := by
  cases hp : r.content.drop off with
  | nil => rfl
  | cons x b =>
    have hlen : 0 < len := by
      have hl := hs.length_eq
      have hdrop := congrArg List.length hp
      rw [List.length_drop, List.length_cons] at hdrop
      omega
    rw [isInt_of_extent hs.extent hd hlen, nonZeroAt, ← List.head?_drop, hp] at hint
    refine toCompactBigEndian_fromBigEndian (fun h0 => ?_) b
    rw [List.head?_cons, h0] at hint
    cases hint

theorem toIntOf_ok (hs : r.Single off len) {maxSize n : ℕ}
    (h : toIntOf maxSize r Strict = .ok n) :
    r.content = appendData (toCompactBigEndian n) ∧ bytesRequired n ≤ maxSize := by
  have hcount := hs.payload_count
  unfold toIntOf at h
  rw [hs.requireGood_eq, ok_bind] at h
  cases hi : isInt r.content with
  | error e =>
    rw [hi] at h
    cases h
  | ok b =>
    rw [hi, ok_bind] at h
    by_cases hb : b = true ∧ isData r.content = true
    · obtain ⟨rfl, hd⟩ := hb
      have hcanon := toCompactBigEndian_payload hs hd hi
      rw [hs.isList_eq, hd, isNull_false (extent_ne_nil hs.extent), if_neg (by decide),
        hs.payload_eq, ok_bind, hcount, hs.content_payload] at h
      by_cases hmax : maxSize < (r.content.drop off).length
      · rw [decide_eq_true hmax, if_pos (by decide)] at h
        cases h
      · rw [decide_eq_false hmax, if_neg (by decide)] at h
        cases h
        refine ⟨?_, ?_⟩
        · rw [hcanon]
          exact hs.content_eq hd
        · rw [← toCompactBigEndian_length, hcanon]
          exact not_lt.mp hmax
    · rw [if_pos] at h
      · cases h
      · rw [hs.isList_eq]
        cases b with
        | false => rfl
        | true =>
          rw [eq_false_of_ne_true fun hd => hb ⟨rfl, hd⟩]
          rfl

theorem toIntOf_encode (hs : r.Single off len) {maxSize n : ℕ}
    (hc : r.content = appendData (toCompactBigEndian n)) (hd : isData r.content = true)
    (hb : r.content.drop off = toCompactBigEndian n) (hn : bytesRequired n ≤ maxSize)
    (hfit : bytesRequired n < 2 ^ 32) (flags : Strictness) : toIntOf maxSize r flags = .ok n := by
  have hcount := hs.payload_count
  rw [hb, toCompactBigEndian_length] at hcount
  have hint : isInt r.content = .ok true := by
    rw [hc]
    exact isInt_encode hfit
  unfold toIntOf
  rw [hs.requireGood_eq, ok_bind, hint, ok_bind, hs.isList_eq, hd,
    isNull_false (extent_ne_nil hs.extent), if_neg (by simp), hs.payload_eq, ok_bind, hcount,
    hs.content_payload, hb, decide_eq_false (not_lt.mpr hn), Bool.false_and,
    if_neg Bool.false_ne_true, fromBigEndian_toCompactBigEndian]
  rfl

end RLPView

/-! ### Fields -/

theorem bind_eq_ok {ε α β : Type} {x : Except ε α} {f : α → Except ε β} {b : β} :
    (x >>= f) = .ok b ↔ ∃ a, x = .ok a ∧ f a = .ok b := by
  constructor
  · intro h
    cases x with
    | error e => cases h
    | ok a => exact ⟨a, rfl, h⟩
  · rintro ⟨a, rfl, h⟩
    exact h

theorem mapError_eq_ok {ε ε' α : Type} {x : Except ε α} {f : ε → ε'} {a : α} :
    x.mapError f = .ok a ↔ x = .ok a := by
  cases x <;> simp [Except.mapError]

/-- A conversion that takes an item for a value only if that is how the value is written. -/
structure Converts {α : Type} (convert : RLPView → Except RLPException α) (write : α → Bytes)
    (Valid : α → Prop) : Prop where
  null : ∀ {r : RLPView} {a : α}, r.content = [] → convert r ≠ .ok a
  written : ∀ {r : RLPView} {off len : ℕ} {a : α}, r.Single off len → convert r = .ok a →
    r.content = write a ∧ Valid a
  read : ∀ {r : RLPView} {off len : ℕ} {a : α}, r.Single off len → r.content = write a → Valid a →
    convert r = .ok a

/-- Another type for the same values. -/
theorem Converts.map {α β : Type} {convert : RLPView → Except RLPException α} {write : α → Bytes}
    {Valid : α → Prop} {g : α → β} {f : β → α} (h : Converts convert write Valid)
    (hfg : ∀ a, Valid a → f (g a) = a) (hgf : ∀ b, g (f b) = b) :
    Converts (fun r => do return g (← convert r)) (fun b => write (f b)) fun b => Valid (f b) where
  null hr hok := by
    obtain ⟨a, ha, -⟩ := bind_eq_ok.mp hok
    exact h.null hr ha
  written hs hok := by
    obtain ⟨a, ha, hg⟩ := bind_eq_ok.mp hok
    cases hg
    obtain ⟨hw, hv⟩ := h.written hs ha
    rw [hfg a hv]
    exact ⟨hw, hv⟩
  read hs hw hv := by
    refine bind_eq_ok.mpr ⟨_, h.read hs hw hv, ?_⟩
    rw [hgf]
    rfl

/-- The string of a number. -/
def numberItem (n : ℕ) : Bytes := appendData (toCompactBigEndian n)

namespace RLPView
variable {r v : RLPView} {off len i n : ℕ} {xs : List Bytes} {rest : Bytes}

/-- A view of a written string. -/
theorem Single.of_appendData (hs : r.Single off len) {b : Bytes} (hc : r.content = appendData b)
    (hb : b.length < 2 ^ 64 - 1 - 0x100) : isData r.content = true ∧ r.content.drop off = b := by
  have hext := RLP.extent_data b [] hb
  rw [List.append_nil, ← hc, hs.extent] at hext
  cases hext
  refine ⟨hc ▸ (RLP.isData_encode b hb).1, ?_⟩
  rw [hc, RLP.appendData_eq, List.drop_left]

theorem converts_toHash (N : ℕ) (hN : N < 2 ^ 64 - 1 - 0x100) :
    Converts (fun r => toHash N r VeryStrict) appendData fun b => b.length = N where
  null h hok := by
    rw [toHash_null h] at hok
    cases hok
  written hs h := (toHash_ok hs h).symm
  read hs hc hb := by
    obtain ⟨hd, hdrop⟩ := hs.of_appendData hc (hb ▸ hN)
    exact toHash_encode hs hd hdrop hb _

theorem converts_toIntOf (maxSize : ℕ) (hmax : maxSize < 2 ^ 32) :
    Converts (fun r => toIntOf maxSize r Strict) numberItem fun n => bytesRequired n ≤ maxSize where
  null h hok := by
    rw [toIntOf_null h] at hok
    cases hok
  written hs h := toIntOf_ok hs h
  read {r off len n} hs hc hn := by
    have hfit : (toCompactBigEndian n).length < 2 ^ 64 - 1 - 0x100 := by
      rw [toCompactBigEndian_length]
      omega
    obtain ⟨hd, hdrop⟩ := hs.of_appendData hc hfit
    exact toIntOf_encode hs hc hd hdrop hn (by omega) _

theorem Single.of_item_ok (h : r.Single off len) (hb : Begins (r.content.drop off) xs rest)
    (hi : xs.length = i) (hv : item r i = .ok v) :
    (rest = [] ∧ v.content = []) ∨ ∃ rest', rest = v.content ++ rest' ∧
      Begins (r.content.drop off) (xs ++ [v.content]) rest' ∧ ∃ off len, v.Single off len := by
  cases h.item_ok hv with
  | inl hfound =>
    obtain ⟨hp, ys, rest', hys, hlen⟩ := hfound
    have hxs : (ys ++ [v.content]).take xs.length = xs := hb.prefix_of_le hys (by simp; omega)
    rw [List.take_left' (by omega)] at hxs
    subst hxs
    refine .inr ⟨rest', ?_, hys, @single_of_begins v rest' _ _ _ hys hp rfl⟩
    have hflat := hys.flatten
    rw [hb.flatten, List.flatten_append, List.append_assoc, List.append_cancel_left_eq,
      List.flatten_singleton] at hflat
    exact hflat
  | inr hend =>
    obtain ⟨hv, ys, hys, hlen⟩ := hend
    have hle := hys.length_le_of_nil hb
    have hxs := hb.prefix_of_le hys (by omega)
    rw [List.take_of_length_le (by omega)] at hxs
    subst hxs
    refine .inl ⟨?_, hv⟩
    have hflat := hys.flatten
    rw [hb.flatten, List.append_nil] at hflat
    exact List.append_right_eq_self.mp hflat

/-- The payload goes on with what was converted. -/
theorem Single.field_ok {α : Type} {convert : RLPView → Except RLPException α} {write : α → Bytes}
    {Valid : α → Prop} (hc : Converts convert write Valid) (h : r.Single off len) {a : α}
    (hv : (item r i >>= convert) = .ok a) (hb : Begins (r.content.drop off) xs rest)
    (hi : xs.length = i) :
    Valid a ∧ ∃ rest', rest = write a ++ rest' ∧
      Begins (r.content.drop off) (xs ++ [write a]) rest' := by
  obtain ⟨v, hitem, hconv⟩ := bind_eq_ok.mp hv
  cases h.of_item_ok hb hi hitem with
  | inl hend => exact absurd hconv (hc.null hend.2)
  | inr hfound =>
    obtain ⟨rest', hrest, hbegins, off', len', hs⟩ := hfound
    obtain ⟨hw, hvalid⟩ := hc.written hs hconv
    rw [hw] at hrest hbegins
    exact ⟨hvalid, rest', hrest, hbegins⟩

/-- The items of the payload are converted. -/
theorem Single.field_of_getElem {α : Type} {convert : RLPView → Except RLPException α}
    {write : α → Bytes} {Valid : α → Prop} (hc : Converts convert write Valid)
    (h : r.Single off len) {a : α} (hb : Begins (r.content.drop off) xs rest)
    (hi : xs[i]? = some (write a)) (ha : Valid a) : (item r i >>= convert) = .ok a := by
  obtain ⟨v, hitem, hv, off', len', hs⟩ := h.item_of_getElem hb hi
  rw [hitem, ok_bind]
  exact hc.read hs hv ha

end RLPView

end Aleth.Devcore
