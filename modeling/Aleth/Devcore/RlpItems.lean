import Aleth.Devcore.RlpCanonical

/-! Items of a list by their index (`RLP::operator[]`), and how many there are.

`operator[]` cuts one item after another off the payload and does not ask
whether that is the payload of a list. What it found is a string that `Begins`
with so many items; a list as a whole is one that `Begins` with nothing left. -/
namespace Aleth.Devcore
open RLP (extent)
open RLPView BytesConstRef

namespace RLPView

/-! ### The code -/

/-- The loop of `operator[]`: `n` items further than the one that ends at `m_lastEnd`. -/
def skip (payload : BytesConstRef) :
    (n : ℕ) → (m_lastItem : BytesConstRef) → (m_lastEnd : ℕ) → Except RLPException BytesConstRef
  | 0, m_lastItem, _ => .ok m_lastItem
  | n + 1, m_lastItem, m_lastEnd =>
    if m_lastItem.m_count = 0 then .ok m_lastItem
    else do
      let rest := payload.croppedFrom m_lastEnd
      let m_lastItem := rest.cropped 0 (← sizeAsEncoded rest)
      skip payload n m_lastItem (m_lastEnd + m_lastItem.m_count)

/-- `operator[]`. The code goes on from the item that it gave last, which saves it the items
before. -/
def item (r : RLPView) (i : ℕ) : Except RLPException RLPView := do
  let payload ← r.payload
  let m_lastEnd ← sizeAsEncoded payload
  construct (← skip payload i (payload.cropped 0 m_lastEnd) m_lastEnd)
    {throwOnFail := true, failIfTooSmall := true}

/-- The fuel that `items` needs at most: an item takes a byte. -/
def enough (r : RLPView) : ℕ := r.m_data.m_count + 1

end RLPView

/-! ### Items at the front of a string -/

/-- The string is the items, and then the rest. -/
inductive Begins : Bytes → List Bytes → Bytes → Prop
  | nil (d : Bytes) : Begins d [] d
  | cons {x d rest : Bytes} {xs : List Bytes} {off len : ℕ}
      (h : extent (x ++ d) = some (off, len)) (hlen : off + len = x.length)
      (hrest : Begins d xs rest) : Begins (x ++ d) (x :: xs) rest

namespace Begins
variable {d rest rest' x : Bytes} {xs ys : List Bytes}

theorem flatten (h : Begins d xs rest) : d = xs.flatten ++ rest := by
  induction h with
  | nil => rfl
  | cons _ _ _ ih => rw [List.flatten_cons, List.append_assoc, ← ih]

theorem single {off len : ℕ} (h : extent d = some (off, len)) (hle : off + len ≤ d.length) :
    Begins d [d.take (off + len)] (d.drop (off + len)) := by
  have hcons : Begins (d.take (off + len) ++ d.drop (off + len)) [d.take (off + len)]
      (d.drop (off + len)) := by
    have hx : extent (d.take (off + len) ++ d.drop (off + len)) = some (off, len) := by
      rw [List.take_append_drop]
      exact h
    exact .cons hx (by rw [List.length_take]; omega) (.nil _)
  rwa [List.take_append_drop] at hcons

theorem append (h : Begins d xs rest) (h' : Begins rest ys rest') : Begins d (xs ++ ys) rest' := by
  induction h with
  | nil => exact h'
  | cons he hlen _ ih => exact .cons he hlen (ih h')

theorem split (h : Begins d (xs ++ ys) rest) : ∃ d', Begins d xs d' ∧ Begins d' ys rest := by
  induction xs generalizing d with
  | nil => exact ⟨d, .nil d, h⟩
  | cons x xs ih =>
    cases h with
    | cons hx hlen hrest =>
      obtain ⟨d', hxs, hys⟩ := ih hrest
      exact ⟨d', .cons hx hlen hxs, hys⟩

theorem tiled (h : Begins d xs []) : Tiled d xs := by
  generalize he : ([] : Bytes) = rest at h
  induction h with
  | nil =>
    subst he
    exact .nil
  | cons hx hlen _ ih => exact .cons hx hlen (ih he)

theorem of_tiled (h : Tiled d xs) : Begins d xs [] := by
  induction h with
  | nil => exact .nil []
  | cons hx hlen _ ih => exact .cons hx hlen ih

/-- An item tells where it ends. -/
theorem cons_inj {y d d' : Bytes} {off len off' len' : ℕ}
    (hx : extent (x ++ d) = some (off, len)) (hxlen : off + len = x.length)
    (hy : extent (y ++ d') = some (off', len')) (hylen : off' + len' = y.length)
    (he : x ++ d = y ++ d') : x = y ∧ d = d' := by
  rw [he, hy] at hx
  cases hx
  exact List.append_inj he (hxlen.symm.trans hylen)

theorem prefix_of_le (h : Begins d xs rest) (h' : Begins d ys rest') (hle : xs.length ≤ ys.length) :
    ys.take xs.length = xs := by
  induction h generalizing ys with
  | nil => rfl
  | @cons x d rest xs off len hx hxlen _ ih =>
    generalize he : x ++ d = e at h'
    cases h' with
    | nil => exact absurd hle (Nat.not_succ_le_zero _)
    | @cons y d' _ ys off' len' hy hylen hrest =>
      obtain ⟨rfl, rfl⟩ := cons_inj hx hxlen hy hylen he
      rw [List.length_cons, List.take_succ_cons, ih hrest (Nat.le_of_succ_le_succ hle)]

theorem eq_nil (h : Begins [] xs rest) : xs = [] := by
  generalize he : ([] : Bytes) = d at h
  cases h with
  | nil => rfl
  | @cons x d _ _ off len hx hlen =>
    rw [← he] at hx
    cases hx

/-- Nothing follows the last item. -/
theorem length_le_of_nil (h : Begins d xs []) (h' : Begins d ys rest') : ys.length ≤ xs.length := by
  induction h' generalizing xs with
  | nil => exact Nat.zero_le _
  | @cons y d' rest' ys off len hy hylen _ ih =>
    generalize he : y ++ d' = e at h
    cases h with
    | nil =>
      rw [he] at hy
      cases hy
    | @cons x d _ xs off' len' hx hxlen hrest =>
      obtain ⟨rfl, rfl⟩ := cons_inj hx hxlen hy hylen he.symm
      exact Nat.succ_le_succ (ih hrest)

/-- Each of the items is one item, no more and no less. -/
theorem extent_mem (h : Begins d xs rest) (hx : x ∈ xs) :
    ∃ off len, extent x = some (off, len) ∧ off + len = x.length := by
  induction h with
  | nil => cases hx
  | @cons y d rest ys off len hy hylen _ ih =>
    cases List.mem_cons.mp hx with
    | inl e =>
      subst e
      refine ⟨off, len, ?_, hylen⟩
      have ht := RLPView.extent_take hy hylen.le
      rwa [List.take_left] at ht
    | inr hx => exact ih hx

end Begins

/-! ### What `operator[]` finds -/

namespace RLPView
variable {r v : RLPView} {pl it : BytesConstRef} {off len n i p : ℕ} {xs : List Bytes} {rest : Bytes}

/-- The item behind the one that ends at `p`. -/
theorem cut_ok (hp : pl.Points) (hle : p ≤ pl.m_count) {k : ℕ}
    (h : sizeAsEncoded (pl.back p) = .ok k) :
    (pl.back p).cropped 0 k = (pl.back p).front k ∧
      ((k = 0 ∧ pl.content.drop p = []) ∨
        ∃ off len, extent (pl.content.drop p) = some (off, len) ∧ off + len = k ∧
          p + k ≤ pl.m_count) := by
  have hb := hp.back p
  obtain ⟨-, hcrop⟩ := cropped_of_size hb h
  refine ⟨hcrop, ?_⟩
  have hcount : (pl.back p).m_count = pl.m_count - p := rfl
  by_cases h0 : (pl.back p).m_count = 0
  · rw [sizeAsEncoded_empty hb h0] at h
    cases h
    exact .inl ⟨rfl, (content_back pl p).symm.trans (hb.content_eq_nil.mpr h0)⟩
  · obtain ⟨off, len, hext, hk, hkle⟩ := sizeAsEncoded_ok hb h0 h
    rw [content_back] at hext
    exact .inr ⟨off, len, hext, hk, by omega⟩

theorem skip_succ (hp : pl.Points) (hle : p ≤ pl.m_count) (h0 : it.m_count ≠ 0) :
    skip pl (n + 1) it p = (sizeAsEncoded (pl.back p) >>= fun k =>
      skip pl n ((pl.back p).cropped 0 k) (p + ((pl.back p).cropped 0 k).m_count)) := by
  rw [skip, if_neg h0, hp.croppedFrom hle]

theorem skip_empty (h0 : it.m_count = 0) : skip pl n it p = .ok it := by
  cases n with
  | zero => rfl
  | succ n => exact if_pos h0

/-- The item is one of those that the string begins with, or there are not so many. -/
theorem skip_ok (hp : pl.Points) (hle : p ≤ pl.m_count) (h0 : it.m_count ≠ 0) {v : BytesConstRef}
    (h : skip pl (n + 1) it p = .ok v) :
    (v.Points ∧ ∃ ys rest, Begins (pl.content.drop p) (ys ++ [v.content]) rest ∧ ys.length = n) ∨
      (v.content = [] ∧ ∃ ys, Begins (pl.content.drop p) ys [] ∧ ys.length ≤ n) := by
  induction n generalizing it p with
  | zero =>
    rw [skip_succ hp hle h0] at h
    cases hk : sizeAsEncoded (pl.back p) with
    | error e =>
      rw [hk] at h
      cases h
    | ok k =>
      obtain ⟨hcrop, hcut⟩ := cut_ok hp hle hk
      rw [hk, ok_bind, hcrop] at h
      cases h
      cases hcut with
      | inl hend =>
        refine .inr ⟨?_, [], ?_, le_refl _⟩
        · rw [hend.1]
          exact List.take_zero
        · rw [hend.2]
          exact .nil []
      | inr hcut =>
        obtain ⟨off, len, hext, rfl, hpk⟩ := hcut
        have hkc : off + len ≤ (pl.back p).m_count := by
          show off + len ≤ pl.m_count - p
          omega
        refine .inl ⟨(hp.back p).front hkc, [], (pl.content.drop p).drop (off + len), ?_, rfl⟩
        rw [List.nil_append, content_front hkc, content_back]
        exact Begins.single hext (by rw [List.length_drop, hp.length_content]; omega)
  | succ n ih =>
    rw [skip_succ hp hle h0] at h
    cases hk : sizeAsEncoded (pl.back p) with
    | error e =>
      rw [hk] at h
      cases h
    | ok k =>
      obtain ⟨hcrop, hcut⟩ := cut_ok hp hle hk
      rw [hk, ok_bind, hcrop] at h
      cases hcut with
      | inl hend =>
        rw [@skip_empty pl ((pl.back p).front k) (n + 1) _ hend.1] at h
        cases h
        refine .inr ⟨?_, [], ?_, Nat.zero_le _⟩
        · rw [hend.1]
          exact List.take_zero
        · rw [hend.2]
          exact .nil []
      | inr hcut =>
        obtain ⟨off, len, hext, rfl, hpk⟩ := hcut
        have hpos := extent_pos hext
        have hone := Begins.single hext (by rw [List.length_drop, hp.length_content]; omega)
        rw [List.drop_drop] at hone
        have hnext := @ih ((pl.back p).front (off + len)) _ hpk (by show off + len ≠ 0; omega) h
        cases hnext with
        | inl hfound =>
          obtain ⟨hv, ys, rest, hys, hlen⟩ := hfound
          exact .inl ⟨hv, (pl.content.drop p).take (off + len) :: ys, rest, hone.append hys,
            congrArg (· + 1) hlen⟩
        | inr hend =>
          obtain ⟨hv, ys, hys, hlen⟩ := hend
          exact .inr ⟨hv, (pl.content.drop p).take (off + len) :: ys, hone.append hys,
            Nat.succ_le_succ hlen⟩

/-- The first item behind `p`, when there is one. -/
theorem skip_cons (hp : pl.Points) (hle : p ≤ pl.m_count) (h0 : it.m_count ≠ 0) {x d : Bytes}
    (hd : pl.content.drop p = x ++ d) (h : extent (x ++ d) = some (off, len))
    (hlen : off + len = x.length) :
    ∃ v : BytesConstRef, v.Points ∧ v.content = x ∧ v.m_count ≠ 0 ∧ p + x.length ≤ pl.m_count ∧
      pl.content.drop (p + x.length) = d ∧
      skip pl (n + 1) it p = skip pl n v (p + x.length) := by
  have hpos := extent_pos h
  have hb := hp.back p
  have hc : (pl.back p).content = x ++ d := (content_back pl p).trans hd
  have hcount : (pl.back p).m_count = x.length + d.length := by
    rw [← hb.length_content, hc, List.length_append]
  have hback : (pl.back p).m_count = pl.m_count - p := rfl
  have hk : sizeAsEncoded (pl.back p) = .ok x.length := by
    rw [← hlen]
    exact sizeAsEncoded_of_extent (hc ▸ h) (by omega)
  have hle' : x.length ≤ (pl.back p).m_count := by omega
  refine ⟨(pl.back p).front x.length, hb.front hle', ?_, ?_, by omega, ?_, ?_⟩
  · rw [content_front hle', hc, List.take_left]
  · show x.length ≠ 0
    omega
  · rw [← List.drop_drop, hd, List.drop_left]
  · rw [skip_succ hp hle h0, hk, ok_bind, hb.cropped_zero hle']
    rfl

/-- The items are found when the string begins with them. -/
theorem skip_of_begins (hp : pl.Points) (hle : p ≤ pl.m_count) (h0 : it.m_count ≠ 0)
    {ys : List Bytes} {x : Bytes} (h : Begins (pl.content.drop p) (ys ++ [x]) rest) :
    ∃ v, skip pl (ys.length + 1) it p = .ok v ∧ v.Points ∧ v.content = x := by
  generalize hd : pl.content.drop p = d at h
  induction ys generalizing it p d with
  | nil =>
    cases h with
    | cons hx hlen hrest =>
      obtain ⟨v, hv, hvx, -, -, -, hrun⟩ := skip_cons (n := 0) hp hle h0 hd hx hlen
      exact ⟨v, hrun, hv, hvx⟩
  | cons y ys ih =>
    cases h with
    | cons hy hlen hrest =>
      obtain ⟨w, -, -, hw, hpw, hdrop, hrun⟩ := skip_cons (n := ys.length + 1) hp hle h0 hd hy hlen
      obtain ⟨v, hskip, hv⟩ := ih hpw hw _ hdrop hrest
      exact ⟨v, hrun.trans hskip, hv⟩

/-- There is no item where the string ends before. -/
theorem skip_end (hp : pl.Points) (hle : p ≤ pl.m_count) (h0 : it.m_count ≠ 0)
    (h : Begins (pl.content.drop p) xs []) (hn : xs.length ≤ n) :
    ∃ v, skip pl (n + 1) it p = .ok v ∧ v.m_count = 0 := by
  generalize hd : pl.content.drop p = d at h
  induction xs generalizing it p d n with
  | nil =>
    cases h with
    | nil =>
      have hb := hp.back p
      have hcount : (pl.back p).m_count = 0 :=
        hb.content_eq_nil.mp ((content_back pl p).trans hd)
      refine ⟨(pl.back p).front 0, ?_, rfl⟩
      rw [skip_succ hp hle h0, sizeAsEncoded_empty hb hcount, ok_bind,
        hb.cropped_zero (Nat.zero_le _)]
      exact skip_empty rfl
  | cons y ys ih =>
    cases h with
    | cons hy hlen hrest =>
      obtain ⟨n, rfl⟩ : ∃ m, n = m + 1 := ⟨n - 1, by rw [List.length_cons] at hn; omega⟩
      obtain ⟨w, -, -, hw, hpw, hdrop, hrun⟩ := skip_cons (n := n + 1) hp hle h0 hd hy hlen
      obtain ⟨v, hskip, hv⟩ := ih hpw hw (Nat.le_of_succ_le_succ hn) _ hdrop hrest
      exact ⟨v, hrun.trans hskip, hv⟩

/-- The first item is like any other, behind an item that ends where the payload starts. -/
theorem Single.item_eq (h : r.Single off len) (i : ℕ) :
    item r i = (skip (r.m_data.back off) (i + 1) r.m_data 0 >>= fun it =>
      construct it {throwOnFail := true, failIfTooSmall := true}) := by
  have hpos := extent_pos h.extent
  have hsize := h.size
  have hb := h.points.back off
  have hzero : (r.m_data.back off).back 0 = r.m_data.back off := by
    obtain ⟨a, ha⟩ := Option.isSome_iff_exists.mp hb.address
    unfold back at ha ⊢
    simp only [List.drop_zero, Nat.sub_zero, Nat.add_zero, Option.map_id']
  have hskip : skip (r.m_data.back off) (i + 1) r.m_data 0 =
      (sizeAsEncoded (r.m_data.back off) >>= fun k => skip (r.m_data.back off) i
        ((r.m_data.back off).cropped 0 k) (0 + ((r.m_data.back off).cropped 0 k).m_count)) := by
    rw [skip_succ hb (Nat.zero_le _) (by omega), hzero]
  unfold item
  rw [h.payload_eq, ok_bind, hskip]
  cases hk : sizeAsEncoded (r.m_data.back off) with
  | error e => rfl
  | ok k =>
    obtain ⟨-, hcrop⟩ := cropped_of_size hb hk
    show (skip _ i ((r.m_data.back off).cropped 0 k) k >>= _) =
      (skip _ i ((r.m_data.back off).cropped 0 k)
        (0 + ((r.m_data.back off).cropped 0 k).m_count) >>= _)
    rw [hcrop, Nat.zero_add]
    rfl

theorem construct_eq_checkTooSmall (it : BytesConstRef) :
    construct it {throwOnFail := true, failIfTooSmall := true} =
      checkTooSmall {throwOnFail := true, failIfTooSmall := true} it.m_count ⟨it⟩ := rfl

theorem construct_small {it : BytesConstRef} {v : RLPView}
    (h : construct it {throwOnFail := true, failIfTooSmall := true} = .ok v) : v = ⟨it⟩ := by
  rw [construct_eq_checkTooSmall] at h
  exact (checkTooSmall_ok rfl rfl h).1

/-- An item that was given is one of those that the payload begins with, or null. -/
theorem Single.item_ok (h : r.Single off len) (hv : item r i = .ok v) :
    (v.m_data.Points ∧ ∃ ys rest, Begins (r.content.drop off) (ys ++ [v.content]) rest ∧
        ys.length = i) ∨
      (v.content = [] ∧ ∃ ys, Begins (r.content.drop off) ys [] ∧ ys.length ≤ i) := by
  have hpos := extent_pos h.extent
  have hsize := h.size
  rw [h.item_eq] at hv
  cases hs : skip (r.m_data.back off) (i + 1) r.m_data 0 with
  | error e =>
    rw [hs] at hv
    cases hv
  | ok it =>
    rw [hs, ok_bind] at hv
    obtain rfl := construct_small hv
    have hok := skip_ok (h.points.back off) (Nat.zero_le _) (by omega) hs
    rw [List.drop_zero, h.content_payload] at hok
    exact hok

theorem single_of_begins {x : Bytes} {ys : List Bytes} {d : Bytes}
    (h : Begins d (ys ++ [x]) rest) (hp : v.m_data.Points) (hx : v.content = x) :
    ∃ off len, v.Single off len := by
  obtain ⟨off, len, hext, hlen⟩ := h.extent_mem (List.mem_append_right ys List.mem_cons_self)
  refine ⟨off, len, hp, hx ▸ hext, ?_⟩
  rw [hlen, ← hx, ← hp.length_content]
  rfl

/-- An item that the payload begins with is given. -/
theorem Single.item_of_begins (h : r.Single off len) {ys : List Bytes} {x : Bytes}
    (hb : Begins (r.content.drop off) (ys ++ [x]) rest) :
    ∃ v, item r ys.length = .ok v ∧ v.content = x ∧ ∃ off len, v.Single off len := by
  have hpos := extent_pos h.extent
  have hsize := h.size
  have hpl := h.points.back off
  obtain ⟨it, hskip, hit, hx⟩ := @skip_of_begins _ r.m_data 0 _ hpl (Nat.zero_le _)
    (by omega) _ _ (by rw [List.drop_zero, h.content_payload]; exact hb)
  obtain ⟨off', len', hs⟩ := @single_of_begins ⟨it⟩ rest x ys _ hb hit hx
  refine ⟨⟨it⟩, ?_, hx, off', len', hs⟩
  rw [h.item_eq, hskip, ok_bind, construct_eq_checkTooSmall]
  exact checkTooSmall_of_extent hs.extent hs.size.le

theorem Single.item_of_getElem (h : r.Single off len) (hb : Begins (r.content.drop off) xs rest)
    {x : Bytes} (hi : xs[i]? = some x) :
    ∃ v, item r i = .ok v ∧ v.content = x ∧ ∃ off len, v.Single off len := by
  obtain ⟨hlt, hget⟩ := List.getElem?_eq_some_iff.mp hi
  have hsplit : xs = (xs.take i ++ [x]) ++ xs.drop (i + 1) := by
    rw [List.append_assoc, List.singleton_append, ← hget, List.getElem_cons_drop,
      List.take_append_drop]
  rw [hsplit] at hb
  obtain ⟨d', hfront, -⟩ := hb.split
  have hitem := h.item_of_begins hfront
  rw [List.length_take, Nat.min_eq_left hlt.le] at hitem
  exact hitem

/-- Behind the last item comes the null view. -/
theorem Single.item_end (h : r.Single off len) (hb : Begins (r.content.drop off) xs [])
    (hi : xs.length ≤ i) : ∃ v, item r i = .ok v ∧ v.content = [] := by
  have hpos := extent_pos h.extent
  have hsize := h.size
  obtain ⟨it, hskip, hit⟩ := @skip_end _ r.m_data i 0 xs (h.points.back off)
    (Nat.zero_le _) (by omega) (by rw [List.drop_zero, h.content_payload]; exact hb) hi
  have hc : it.content = [] := by
    unfold BytesConstRef.content
    rw [hit, List.take_zero]
  refine ⟨⟨it⟩, ?_, hc⟩
  rw [h.item_eq, hskip, ok_bind, construct_eq_checkTooSmall, checkTooSmall_eq _ rfl,
    show content ⟨it⟩ = [] from hc, hit]
  rfl

/-! ### Counting items -/

/-- The items that were counted are the whole payload. -/
theorem tiled_of_countItems {d : BytesConstRef} (hd : d.Points) {fuel : ℕ}
    (h : countItems fuel d = .ok n) : ∃ xs, Tiled d.content xs ∧ xs.length = n := by
  induction fuel generalizing d n with
  | zero => cases h
  | succ fuel ih =>
    by_cases h0 : d.m_count = 0
    · rw [countItems, if_pos h0] at h
      cases h
      exact ⟨[], hd.content_eq_nil.mpr h0 ▸ .nil, rfl⟩
    · rw [countItems, if_neg h0] at h
      cases hk : sizeAsEncoded d with
      | error e =>
        rw [hk] at h
        cases h
      | ok k =>
        obtain ⟨off, len, hext, hlen, hle⟩ := sizeAsEncoded_ok hd h0 hk
        rw [hk, ok_bind, hd.croppedFrom hle] at h
        cases hc : countItems fuel (d.back k) with
        | error e =>
          rw [hc] at h
          cases h
        | ok m =>
          rw [hc, ok_bind] at h
          cases h
          obtain ⟨xs, hxs, hm⟩ := ih (hd.back k) hc
          have hone := Begins.single hext (by rw [hd.length_content]; omega)
          rw [hlen, ← content_back] at hone
          exact ⟨_, (hone.append (.of_tiled hxs)).tiled, by simp [hm, Nat.add_comm]⟩

/-- A list has as many items as its payload is cut into. -/
theorem Single.itemCount_ok (h : r.Single off len) (hl : isList r.content = true) {fuel : ℕ}
    (hn : itemCount fuel r = .ok n) : ∃ xs, Begins (r.content.drop off) xs [] ∧ xs.length = n := by
  rw [h.itemCount_eq hl] at hn
  obtain ⟨xs, hxs, hlen⟩ := tiled_of_countItems (h.points.back off) hn
  rw [h.content_payload] at hxs
  exact ⟨xs, .of_tiled hxs, hlen⟩

theorem Begins.length_le {d : Bytes} (h : Begins d xs rest) : xs.length ≤ d.length := by
  induction h with
  | nil => exact Nat.zero_le _
  | cons hx hlen _ ih =>
    have hpos := extent_pos hx
    rw [List.length_cons, List.length_append]
    omega

theorem Single.length_eq (h : r.Single off len) : off + len = r.content.length :=
  h.size.trans h.points.length_content.symm

theorem Single.itemCount_of_begins (h : r.Single off len) (hl : isList r.content = true)
    (hb : Begins (r.content.drop off) xs []) : itemCount r.enough r = .ok xs.length := by
  have hle := Begins.length_le hb
  have hsize := h.length_eq
  have hcount := h.size
  rw [List.length_drop] at hle
  rw [h.itemCount_eq hl]
  exact countItems_of_tiled hb.tiled h.content_payload (h.points.back off)
    (by unfold enough; omega)

end RLPView
end Aleth.Devcore
