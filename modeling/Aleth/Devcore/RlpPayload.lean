import Aleth.Devcore.RlpFields

/-! The payload of an item that its buffer cuts off (`RLP::payload`).

`payload` refuses a length greater than the buffer. When the length fits and
header and payload together do not, `cropped` gives the null reference, and the
item is read as one without a payload. A view that was constructed with
`FailIfTooSmall` holds its item to the end. -/
namespace Aleth.Devcore
open RLP (extent)
open RLPView BytesConstRef

namespace RLPView
variable {d v : BytesConstRef} {r : RLPView} {s : Strictness} {off len : ℕ}

/-! ### The code -/

/-- `toBytesConstRef`. -/
def toBytesConstRef (r : RLPView) (flags : Strictness) : Except RLPException BytesConstRef :=
  if !isData r.content then if flags.throwOnFail then .error .badCast else .ok .null
  else do return (← payload r).cropped 0 (← length r.content)

/-- `toString`, as the bytes of the string. -/
def toString (r : RLPView) (flags : Strictness) : Except RLPException Bytes :=
  if !isData r.content then if flags.throwOnFail then .error .badCast else .ok []
  else do return ((← payload r).cropped 0 (← length r.content)).content

/-! ### What the conversions read -/

/-- What a conversion of a string reads, `none` where it does not ask for the payload. -/
def dataReads (cut : BytesConstRef → ℕ → BytesConstRef) (r : RLPView) (flags : Strictness) :
    Except RLPException (Option BytesConstRef) :=
  if !isData r.content then if flags.throwOnFail then .error .badCast else .ok none
  else do return some (cut (← payload r) (← length r.content))

/-- The range from `payload().data()` to `payload().data() + length()`. -/
def toBytesReads : RLPView → Strictness → Except RLPException (Option BytesConstRef) :=
  dataReads fun p l => {p with m_count := l}

/-- The range that `toString` and `toBytesConstRef` give. -/
def toStringReads : RLPView → Strictness → Except RLPException (Option BytesConstRef) :=
  dataReads fun p l => p.cropped 0 l

/-- The payload that `toInt` adds up. -/
def toIntReads (maxSize : ℕ) (r : RLPView) (flags : Strictness) :
    Except RLPException (Option BytesConstRef) := do
  requireGood r.content
  if (!(← isInt r.content) && !flags.allowNonCanon) || isList r.content || isNull r.content then
    if flags.throwOnFail then .error .badCast else return none
  else
    let p ← payload r
    if maxSize < p.m_count && flags.failIfTooBig then
      if flags.throwOnFail then .error .badCast else return none
    else return some p

/-- The payload that `toHash` copies from the front of. -/
def toHashReads (N : ℕ) (r : RLPView) (flags : Strictness) :
    Except RLPException (Option BytesConstRef) := do
  requireGood r.content
  let p ← payload r
  if !isData r.content || (N < p.m_count && flags.failIfTooBig) ||
      (p.m_count < N && flags.failIfTooSmall) then
    if flags.throwOnFail then .error .badCast else return none
  else return some p

theorem dataReads_bind (cut : BytesConstRef → ℕ → BytesConstRef) (r : RLPView)
    (flags : Strictness) {α : Type} (a : α) (f : BytesConstRef → α) :
    (dataReads cut r flags >>= fun v => Except.ok (v.elim a f)) =
      if !isData r.content then if flags.throwOnFail then .error .badCast else .ok a
      else do return f (cut (← payload r) (← length r.content)) := by
  unfold dataReads
  by_cases hd : isData r.content = true
  · rw [hd]
    cases payload r with
    | error e => rfl
    | ok p => cases length r.content <;> rfl
  · rw [eq_false_of_ne_true hd]
    cases flags.throwOnFail <;> rfl

theorem toBytes_eq_reads (r : RLPView) (flags : Strictness) :
    toBytes r flags = (toBytesReads r flags >>= fun v => .ok (v.elim [] BytesConstRef.content)) :=
  (dataReads_bind (fun p l => {p with m_count := l}) r flags [] BytesConstRef.content).symm

theorem toBytesConstRef_eq_reads (r : RLPView) (flags : Strictness) :
    toBytesConstRef r flags = (toStringReads r flags >>= fun v => .ok (v.elim BytesConstRef.null id)) :=
  (dataReads_bind (fun p l => p.cropped 0 l) r flags BytesConstRef.null id).symm

theorem toString_eq_reads (r : RLPView) (flags : Strictness) :
    toString r flags = (toStringReads r flags >>= fun v => .ok (v.elim [] BytesConstRef.content)) :=
  (dataReads_bind (fun p l => p.cropped 0 l) r flags [] BytesConstRef.content).symm

theorem toIntOf_eq_reads (maxSize : ℕ) (r : RLPView) (flags : Strictness) :
    toIntOf maxSize r flags = (toIntReads maxSize r flags >>= fun v =>
      .ok (v.elim 0 fun p => fromBigEndian p.content)) := by
  unfold toIntOf toIntReads
  cases requireGood r.content with
  | error e => rfl
  | ok _ =>
    cases isInt r.content with
    | error e => rfl
    | ok i =>
      simp only [ok_bind]
      split
      · cases flags.throwOnFail <;> rfl
      · cases payload r with
        | error e => rfl
        | ok p =>
          simp only [ok_bind]
          split
          · cases flags.throwOnFail <;> rfl
          · rfl

theorem toHash_eq_reads (N : ℕ) (r : RLPView) (flags : Strictness) :
    toHash N r flags = (toHashReads N r flags >>= fun v => .ok (v.elim (List.replicate N 0)
      fun p => List.replicate (N - p.m_count) 0 ++ p.content.take N)) := by
  unfold toHash toHashReads
  cases requireGood r.content with
  | error e => rfl
  | ok _ =>
    cases payload r with
    | error e => rfl
    | ok p =>
      simp only [ok_bind]
      split
      · cases flags.throwOnFail <;> rfl
      · rfl

/-! ### Reads that stay inside -/

/-- The range is empty or lies in what `d` means. -/
def Inside (v d : BytesConstRef) : Prop :=
  v.m_count = 0 ∨ ∃ k, k + v.m_count ≤ d.m_count ∧ v = (d.back k).front v.m_count

/-- All of the payload that the header announces, and all of it there. -/
structure Whole (r : RLPView) (v : BytesConstRef) : Prop where
  length : RLPView.length r.content = .ok v.m_count
  inside : Inside v r.m_data

/-- Neither `payload` nor a conversion reads less than the payload, or outside the view. -/
structure ReadsInside (r : RLPView) : Prop where
  payload_whole : ∀ {v}, payload r = .ok v → Whole r v
  toBytes_whole : ∀ {flags v}, toBytesReads r flags = .ok (some v) → Whole r v
  toString_whole : ∀ {flags v}, toStringReads r flags = .ok (some v) → Whole r v
  toInt_whole : ∀ {maxSize flags v}, toIntReads maxSize r flags = .ok (some v) → Whole r v
  toHash_whole : ∀ {N flags v}, toHashReads N r flags = .ok (some v) → Whole r v

/-! ### The payload -/

theorem lengthSize_le {n : ℕ} {rest : Bytes} {l : ℕ} (h : RLP.explicitLength n rest = some l) :
    RLP.lengthSize n ≤ rest.length := by
  unfold RLP.explicitLength at h
  dsimp only at h
  by_cases hlt : rest.length < RLP.lengthSize n
  · rw [if_pos hlt] at h
    cases h
  · exact not_lt.mp hlt

/-- A header fits in the bytes that it was read from. -/
theorem offset_le_length {b : Bytes} (h : extent b = some (off, len)) : off ≤ b.length := by
  cases b with
  | nil => cases h
  | cons b rest =>
    have hexplicit : ∀ {n}, (RLP.explicitLength n rest).map (fun l => (1 + RLP.lengthSize n, l)) =
        some (off, len) → off ≤ (b :: rest).length := by
      intro n hn
      obtain ⟨l, hl, he⟩ := Option.map_eq_some_iff.mp hn
      have hle := lengthSize_le hl
      cases he
      rw [List.length_cons]
      omega
    unfold extent at h
    dsimp only at h
    split at h
    · cases h
      exact Nat.zero_le _
    · split at h
      · cases h
      · split at h
        · cases h
          exact Nat.le_add_left 1 _
        · split at h
          · exact hexplicit h
          · split at h
            · cases h
              exact Nat.le_add_left 1 _
            · exact hexplicit h

theorem length_of_payload (h : payload r = .ok v) : ∃ l, length r.content = .ok l := by
  unfold payload at h
  cases hl : length r.content with
  | error e =>
    rw [hl] at h
    cases h
  | ok l => exact ⟨l, rfl⟩

/-- An item that is all there gives its payload. -/
theorem payload_of_le (hd : d.Points) (h : extent d.content = some (off, len))
    (hle : off + len ≤ d.m_count) : payload ⟨d⟩ = .ok ((d.back off).front len) := by
  have hc : d.cropped off len = (d.back off).front len :=
    if_pos ⟨hd.address, by omega, by omega, hle⟩
  have hl : length (content ⟨d⟩) = .ok len := length_of_extent h
  have ho : payloadOffset (content ⟨d⟩) = off := payloadOffset_of_extent h
  unfold payload
  rw [hl, ok_bind, if_neg (by show ¬d.m_count < len; omega), ho, hc]
  rfl

/-- An item that is cut off in its payload gives nothing when its length alone fits. -/
theorem payload_of_cut (h : extent d.content = some (off, len)) (hlt : d.m_count < off + len)
    (hle : len ≤ d.m_count) : payload ⟨d⟩ = .ok .null := by
  have hc : d.cropped off len = .null := if_neg fun hfit => by omega
  have hl : length (content ⟨d⟩) = .ok len := length_of_extent h
  have ho : payloadOffset (content ⟨d⟩) = off := payloadOffset_of_extent h
  unfold payload
  rw [hl, ok_bind, if_neg (by show ¬d.m_count < len; omega), ho, hc]
  rfl

theorem payload_of_long (h : extent d.content = some (off, len)) (hlt : d.m_count < len) :
    payload ⟨d⟩ = .error .badRLP := by
  have hl : length (content ⟨d⟩) = .ok len := length_of_extent h
  unfold payload
  rw [hl, ok_bind]
  exact if_pos hlt

/-- The null view has an empty payload. -/
theorem payload_of_empty (hd : d.Points) (h0 : d.m_count = 0) : payload ⟨d⟩ = .ok .null := by
  have hnil : content ⟨d⟩ = [] := hd.content_eq_nil.mpr h0
  have hc : d.cropped (payloadOffset []) 0 = .null :=
    if_neg fun hfit => by
      have h1 : payloadOffset [] = 1 := rfl
      rw [h1] at hfit
      omega
  unfold payload
  rw [hnil, show length [] = .ok 0 from rfl, ok_bind, if_neg (Nat.not_lt_zero _), hc]
  rfl

/-! ### When reads stay inside -/

theorem Whole.cropped (h : Whole r v) (hr : r.m_data.m_count = 0 ∨ r.m_data.address.isSome) :
    Whole r (v.cropped 0 v.m_count) := by
  by_cases h0 : v.m_count = 0
  · have hc : (v.cropped 0 v.m_count).m_count = 0 := by
      unfold BytesConstRef.cropped
      split
      · exact h0
      · rfl
    exact ⟨by rw [hc, h.length, h0], .inl hc⟩
  · obtain ⟨k, hk, hv⟩ := h.inside.resolve_left h0
    have haddr := hr.resolve_left (by omega)
    have hsome : v.address.isSome := by
      rw [hv]
      show (r.m_data.address.map (· + k)).isSome
      rw [Option.isSome_map]
      exact haddr
    have hc : v.cropped 0 v.m_count = v := by
      obtain ⟨a, ha⟩ := Option.isSome_iff_exists.mp hsome
      unfold BytesConstRef.cropped
      rw [if_pos ⟨hsome, Nat.zero_le _, le_refl _, by omega⟩]
      cases v
      cases ha
      rfl
    rwa [hc]

theorem dataReads_some {cut : BytesConstRef → ℕ → BytesConstRef} {flags : Strictness}
    (h : dataReads cut r flags = .ok (some v)) :
    ∃ p l, payload r = .ok p ∧ length r.content = .ok l ∧ v = cut p l := by
  unfold dataReads at h
  by_cases hd : isData r.content = true
  · rw [hd] at h
    cases hp : payload r with
    | error e =>
      rw [hp] at h
      cases h
    | ok p =>
      cases hl : length r.content with
      | error e =>
        rw [hp, hl] at h
        cases h
      | ok l =>
        rw [hp, hl] at h
        cases h
        exact ⟨p, l, rfl, rfl, rfl⟩
  · rw [eq_false_of_ne_true hd] at h
    cases ht : flags.throwOnFail <;> rw [ht] at h <;> cases h

theorem payload_of_toIntReads {maxSize : ℕ} {flags : Strictness}
    (h : toIntReads maxSize r flags = .ok (some v)) : payload r = .ok v := by
  unfold toIntReads at h
  cases hg : requireGood r.content with
  | error e =>
    rw [hg] at h
    cases h
  | ok _ =>
    cases hi : isInt r.content with
    | error e =>
      rw [hg, hi] at h
      cases h
    | ok i =>
      simp only [hg, hi, ok_bind] at h
      split at h
      · cases ht : flags.throwOnFail <;> rw [ht] at h <;> cases h
      · cases hp : payload r with
        | error e =>
          rw [hp] at h
          cases h
        | ok p =>
          simp only [hp, ok_bind] at h
          split at h
          · cases ht : flags.throwOnFail <;> rw [ht] at h <;> cases h
          · cases h
            rfl

theorem payload_of_toHashReads {N : ℕ} {flags : Strictness}
    (h : toHashReads N r flags = .ok (some v)) : payload r = .ok v := by
  unfold toHashReads at h
  cases hg : requireGood r.content with
  | error e =>
    rw [hg] at h
    cases h
  | ok _ =>
    cases hp : payload r with
    | error e =>
      rw [hg, hp] at h
      cases h
    | ok p =>
      simp only [hg, hp, ok_bind] at h
      split at h
      · cases ht : flags.throwOnFail <;> rw [ht] at h <;> cases h
      · cases h
        rfl

/-- The conversions read the payload, so they read it whole where it is whole. -/
theorem ReadsInside.of_payload (hr : r.m_data.m_count = 0 ∨ r.m_data.address.isSome)
    (h : ∀ {v}, payload r = .ok v → Whole r v) : ReadsInside r := by
  refine ⟨h, fun hv => ?_, fun hv => ?_, fun hv => h (payload_of_toIntReads hv),
    fun hv => h (payload_of_toHashReads hv)⟩
  · obtain ⟨p, l, hp, hl, rfl⟩ := dataReads_some hv
    have hw := h hp
    have hlen := hw.length.symm.trans hl
    cases hlen
    exact hw
  · obtain ⟨p, l, hp, hl, rfl⟩ := dataReads_some hv
    have hw := h hp
    have hlen := hw.length.symm.trans hl
    cases hlen
    exact hw.cropped hr

theorem fail_ok {e : RLPException} (h : fail s e = .ok r) : r = ⟨.null⟩ := by
  unfold fail at h
  cases ht : s.throwOnFail <;> rw [ht] at h <;> cases h
  rfl

theorem checkTooBig_cases (h : checkTooBig s ⟨d⟩ = .ok r) : r = ⟨.null⟩ ∨ r = ⟨d⟩ := by
  cases ht : s.failIfTooBig with
  | false =>
    unfold checkTooBig at h
    rw [ht] at h
    cases h
    exact .inr rfl
  | true =>
    rw [checkTooBig_eq ht] at h
    cases ha : actualSize (content ⟨d⟩) with
    | error e =>
      rw [ha] at h
      cases h
    | ok n =>
      rw [ha, ok_bind] at h
      by_cases hn : n < d.m_count
      · rw [if_pos hn] at h
        exact .inl (fail_ok h)
      · rw [if_neg hn] at h
        cases h
        exact .inr rfl

theorem checkTooSmall_cases {n : ℕ} {w : RLPView} (h : checkTooSmall s n w = .ok r) :
    r = ⟨.null⟩ ∨ r = w ∧
      (s.failIfTooSmall = true → ∃ size, actualSize w.content = .ok size ∧ size ≤ n) := by
  cases ht : s.failIfTooSmall with
  | false =>
    unfold checkTooSmall at h
    rw [ht] at h
    cases h
    exact .inr ⟨rfl, fun hf => absurd hf Bool.false_ne_true⟩
  | true =>
    rw [checkTooSmall_eq _ ht] at h
    cases ha : actualSize w.content with
    | error e =>
      rw [ha] at h
      cases h
    | ok size =>
      rw [ha, ok_bind] at h
      by_cases hn : n < size
      · rw [if_pos hn] at h
        exact .inl (fail_ok h)
      · rw [if_neg hn] at h
        cases h
        exact .inr ⟨rfl, fun _ => ⟨size, rfl, not_lt.mp hn⟩⟩

/-- The constructor gives the view that was asked for, or the null view. -/
theorem construct_cases (h : construct d s = .ok r) :
    r = ⟨.null⟩ ∨ r = ⟨d⟩ ∧
      (s.failIfTooSmall = true → ∃ n, actualSize d.content = .ok n ∧ n ≤ d.m_count) := by
  rw [construct_eq] at h
  cases hb : checkTooBig s ⟨d⟩ with
  | error e =>
    rw [hb] at h
    cases h
  | ok w =>
    rw [hb, ok_bind] at h
    cases checkTooBig_cases hb with
    | inl hnull =>
      subst hnull
      exact .inl ((checkTooSmall_cases h).elim id fun hw => hw.1)
    | inr hself =>
      subst hself
      exact checkTooSmall_cases h

/-- A buffer that cuts its item off is refused by one of the flags only. -/
theorem construct_of_cut (h : extent d.content = some (off, len)) (hcut : d.m_count < off + len)
    (hs : s.failIfTooSmall = false) : construct d s = .ok ⟨d⟩ := by
  have hbig : checkTooBig s ⟨d⟩ = .ok ⟨d⟩ := by
    cases ht : s.failIfTooBig with
    | false => exact if_neg (by rw [ht]; exact Bool.false_ne_true)
    | true =>
      rw [checkTooBig_eq ht, show content ⟨d⟩ = d.content from rfl, actualSize_of_extent h, ok_bind]
      exact if_neg (by show ¬off + len < d.m_count; omega)
  rw [construct_eq, hbig, ok_bind]
  exact if_neg (by rw [hs]; exact Bool.false_ne_true)

/-- The item that was cut off has more in it than the null reference. -/
theorem not_whole_of_cut (hd : d.Points) (h : extent d.content = some (off, len))
    (hcut : d.m_count < off + len) : ¬Whole ⟨d⟩ .null := by
  intro hw
  have hl : length (content ⟨d⟩) = .ok len := length_of_extent h
  have hzero := hl.symm.trans hw.length
  cases hzero
  have hoff := offset_le_length h
  rw [hd.length_content] at hoff
  exact absurd hcut (not_lt.mpr hoff)

theorem readsInside_null : ReadsInside ⟨.null⟩ := by
  refine .of_payload (.inl rfl) fun hv => ?_
  cases hv
  exact ⟨rfl, .inl rfl⟩

theorem whole_of_extent (hd : d.Points) (h : extent d.content = some (off, len))
    (hfit : d.m_count < off + len → d.m_count < len) (hv : payload ⟨d⟩ = .ok v) : Whole ⟨d⟩ v := by
  have hl : length (content ⟨d⟩) = .ok len := length_of_extent h
  by_cases hle : off + len ≤ d.m_count
  · rw [payload_of_le hd h hle] at hv
    cases hv
    refine ⟨hl, .inr ⟨off, ?_, rfl⟩⟩
    exact hle
  · rw [payload_of_long h (hfit (not_le.mp hle))] at hv
    cases hv

/-- **The payload is read whole, and from inside the view, exactly when a buffer that cuts the item
off is one that was checked for it or is shorter than the payload alone.** -/
theorem readsInside_iff (hd : d.Points) (h : construct d s = .ok r) :
    ReadsInside r ↔ ∀ off len, extent d.content = some (off, len) → d.m_count < off + len →
      s.failIfTooSmall = true ∨ d.m_count < len := by
  constructor
  · intro hin off len hext hcut
    by_contra hnot
    rw [not_or, Bool.not_eq_true, not_lt] at hnot
    obtain ⟨hs, hlen⟩ := hnot
    have hself := construct_of_cut hext hcut hs
    rw [h] at hself
    cases hself
    exact not_whole_of_cut hd hext hcut (hin.payload_whole (payload_of_cut hext hcut hlen))
  · intro hall
    cases construct_cases h with
    | inl hnull =>
      rw [hnull]
      exact readsInside_null
    | inr hself =>
      obtain ⟨rfl, hsize⟩ := hself
      refine .of_payload (.inr hd.address) fun {v} hv => ?_
      by_cases h0 : d.m_count = 0
      · rw [payload_of_empty hd h0] at hv
        cases hv
        refine ⟨?_, .inl rfl⟩
        rw [show content ⟨d⟩ = [] from hd.content_eq_nil.mpr h0]
        rfl
      · have hne : d.content ≠ [] := fun e => h0 (hd.content_eq_nil.mp e)
        obtain ⟨l, hl⟩ := length_of_payload hv
        have hext := extent_of_length hne hl
        refine whole_of_extent hd hext (fun hcut => ?_) hv
        refine (hall _ _ hext hcut).resolve_left fun hs => ?_
        obtain ⟨n, hn, hle⟩ := hsize hs
        rw [actualSize_of_extent hext] at hn
        cases hn
        exact absurd hle (not_le.mpr hcut)

/-- Two of the three bytes that a network packet announces. -/
def cutOff : Bytes := [0x83, 0x61, 0x62]

/-- The buffer was checked, so that it cannot cut its item off. -/
theorem readsInside_checked :
    construct (ofBytes [0x82, 0x61, 0x62]) VeryStrict = .ok ⟨ofBytes [0x82, 0x61, 0x62]⟩ ∧
      ReadsInside ⟨ofBytes [0x82, 0x61, 0x62]⟩ :=
  have h : construct (ofBytes [0x82, 0x61, 0x62]) VeryStrict =
      .ok ⟨ofBytes [0x82, 0x61, 0x62]⟩ := by decide
  ⟨h, (readsInside_iff (ofBytes_points _) h).mpr fun _ _ _ _ => .inl rfl⟩

/-- The packet passes the constructor, and reads as an empty string and as zero. -/
theorem cutOff_reads :
    construct (ofBytes cutOff) LaissezFaire = .ok ⟨ofBytes cutOff⟩ ∧
      length cutOff = .ok 3 ∧ payload ⟨ofBytes cutOff⟩ = .ok .null ∧
      toBytesReads ⟨ofBytes cutOff⟩ LaissezFaire = .ok (some ⟨none, [], 3⟩) ∧
      toString ⟨ofBytes cutOff⟩ Strict = .ok [] ∧
      toIntOf 32 ⟨ofBytes cutOff⟩ Strict = .ok 0 ∧
      ¬ReadsInside ⟨ofBytes cutOff⟩ := by
  refine ⟨by decide, by decide, by decide, by decide, by decide, by decide, fun h => ?_⟩
  exact @not_whole_of_cut _ 1 3 (ofBytes_points _) (by decide) (by decide)
    (h.payload_whole (by decide))

end RLPView
end Aleth.Devcore
