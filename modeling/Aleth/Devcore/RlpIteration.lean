import Aleth.Devcore.RlpSubscript

/-! The ways to read a list: range-based `for`, `itemCount` and `operator[]`.

Counting and indexing walk the payload. The loop compares its position with the
end of the whole buffer, and when nothing remains it stays where it is: a loop
over a payload that does not end there goes on with null items for ever
(`collect_never`). -/
namespace Aleth.Devcore
open RLP (extent)
open RLPView BytesConstRef

namespace RLPView
variable {r : RLPView} {d pl : BytesConstRef} {s : Strictness} {stop : Iterator} {off len n fuel : ℕ}
  {xs ys : List Bytes} {x b rest : Bytes}

/-! ### What a header throws -/

theorem indirectLength_terminates (rest : Bytes) (n : ℕ) :
    indirectLength rest n ≠ .error .nontermination := by
  unfold indirectLength
  intro h
  repeat' split at h
  all_goals cases h

theorem length_terminates (b : Bytes) : length b ≠ .error .nontermination := by
  cases b with
  | nil => exact fun h => by cases h
  | cons b rest =>
    have hgood : requireGood (b :: rest) ≠ .error .nontermination := by
      unfold requireGood
      intro h
      repeat' split at h
      all_goals cases h
    intro h
    unfold length at h
    dsimp only at h
    cases hg : requireGood (b :: rest) with
    | error e =>
      rw [hg] at h
      cases h
      exact hgood hg
    | ok _ =>
      rw [hg, ok_bind] at h
      split at h
      · cases h
      · split at h
        · cases h
        · split at h
          · exact indirectLength_terminates _ _ h
          · split at h
            · cases h
            · exact indirectLength_terminates _ _ h

theorem actualSize_terminates (b : Bytes) : actualSize b ≠ .error .nontermination := by
  intro h
  unfold actualSize at h
  split at h
  · cases h
  · split at h
    · cases h
    · split at h
      · cases hl : length b with
        | error e =>
          rw [hl] at h
          cases h
          exact length_terminates b hl
        | ok l =>
          rw [hl] at h
          cases h
      · cases h

theorem sizeAsEncoded_terminates (d : BytesConstRef) : sizeAsEncoded d ≠ .error .nontermination := by
  intro h
  rw [sizeAsEncoded_eq, checkTooSmall_eq _ rfl, show content ⟨d⟩ = d.content from rfl] at h
  cases ha : actualSize d.content with
  | error e =>
    rw [ha] at h
    cases h
    exact actualSize_terminates _ ha
  | ok n =>
    rw [ha, ok_bind] at h
    split at h
    · cases h
    · rw [ok_bind, show content ⟨d⟩ = d.content from rfl, ha] at h
      cases h

theorem payload_terminates (r : RLPView) : payload r ≠ .error .nontermination := by
  intro h
  unfold payload at h
  cases hl : length r.content with
  | error e =>
    rw [hl] at h
    cases h
    exact length_terminates _ hl
  | ok l =>
    rw [hl, ok_bind] at h
    split at h <;> cases h

/-! ### Loops that end -/

/-- A payload that is not cut into items makes the loop throw. -/
theorem collect_throws (h : stop.m_currentItem.m_count = 0) (hd : d.Points)
    (hno : ∀ xs, ¬Tiled d.content xs) (hf : d.m_count < fuel) :
    ∃ e, (advance d >>= collect stop fuel) = .error e ∧ e ≠ .nontermination := by
  induction fuel generalizing d with
  | zero => exact absurd hf (Nat.not_lt_zero _)
  | succ fuel ih =>
    have h0 : d.m_count ≠ 0 := fun h0 => hno [] (hd.content_eq_nil.mpr h0 ▸ .nil)
    rw [advance]
    cases hn : sizeAsEncoded d with
    | error e => exact ⟨e, rfl, fun he => sizeAsEncoded_terminates d (he ▸ hn)⟩
    | ok n =>
      obtain ⟨off, len, hext, rfl, hle⟩ := sizeAsEncoded_ok hd h0 hn
      have hpos := extent_pos hext
      have hone : extent (d.front (off + len)).content = some (off, len) := by
        rw [content_front hle]
        exact extent_take hext (le_refl _)
      have hrest : ∀ xs, ¬Tiled (d.back (off + len)).content xs := fun xs ht => by
        have hcons := (Begins.single hext (by rw [hd.length_content]; exact hle)).append
          (.of_tiled (content_back d (off + len) ▸ ht))
        exact hno _ hcons.tiled
      obtain ⟨e, he, hne⟩ := ih (hd.back _) hrest (by show d.m_count - (off + len) < fuel; omega)
      refine ⟨e, ?_, hne⟩
      rw [ok_bind]
      show collect stop (fuel + 1) ⟨d.m_count - (off + len), d.front (off + len)⟩ = _
      rw [collect_front h hd hpos.ne', construct_of_extent hone rfl, ok_bind, he]
      rfl

/-- Counting always ends. -/
theorem countItems_terminates (hd : d.Points) (hf : d.m_count < fuel) :
    countItems fuel d ≠ .error .nontermination := by
  induction fuel generalizing d with
  | zero => exact absurd hf (Nat.not_lt_zero _)
  | succ fuel ih =>
    intro hc
    unfold countItems at hc
    by_cases h0 : d.m_count = 0
    · rw [if_pos h0] at hc
      cases hc
    · rw [if_neg h0] at hc
      cases hn : sizeAsEncoded d with
      | error e =>
        rw [hn] at hc
        cases hc
        exact sizeAsEncoded_terminates d hn
      | ok n =>
        obtain ⟨off, len, hext, rfl, hle⟩ := sizeAsEncoded_ok hd h0 hn
        have hpos := extent_pos hext
        rw [hn, ok_bind, hd.croppedFrom hle] at hc
        have hrec := ih (hd.back (off + len)) (by show d.m_count - (off + len) < fuel; omega)
        cases hk : countItems fuel (d.back (off + len)) with
        | error e =>
          rw [hk] at hc
          cases hc
          exact hrec hk
        | ok k =>
          rw [hk] at hc
          cases hc

/-! ### Loops that do not end -/

/-- With nothing remaining the iterator stays where it is. -/
theorem increment_rest {it : Iterator} (h0 : it.m_remaining = 0) (hc : it.m_currentItem.m_count = 0) :
    increment it = .ok it := by
  obtain ⟨m_remaining, address, memory, m_count⟩ := it
  dsimp only at h0 hc
  subst h0 hc
  unfold increment
  cases address <;> rfl

/-- A loop that comes to rest away from its end does not stop. -/
theorem collect_never {it : Iterator} (h0 : it.m_remaining = 0) (hc : it.m_currentItem.m_count = 0)
    (hne : it.m_currentItem.address ≠ stop.m_currentItem.address) (fuel : ℕ) :
    collect stop fuel it = .error .nontermination := by
  induction fuel with
  | zero => rfl
  | succ fuel ih =>
    have hsame : ¬it.m_currentItem.same stop.m_currentItem = true := by
      rw [same, decide_eq_false hne, Bool.false_and]
      exact Bool.false_ne_true
    have hnil : it.m_currentItem.content = [] := by
      unfold BytesConstRef.content
      rw [hc, List.take_zero]
    have hnull : construct it.m_currentItem VeryStrict = .ok ⟨it.m_currentItem⟩ := by
      rw [construct_eq, checkTooBig_eq rfl, show content ⟨it.m_currentItem⟩ = [] from hnil,
        show actualSize [] = .ok 0 from rfl, ok_bind, if_neg (Nat.not_lt_zero _ ∘ fun h => hc ▸ h),
        ok_bind, checkTooSmall_eq _ rfl, show content ⟨it.m_currentItem⟩ = [] from hnil,
        show actualSize [] = .ok 0 from rfl, ok_bind, if_neg (Nat.not_lt_zero _)]
    show (if it.m_currentItem.same stop.m_currentItem = true then _ else _) = _
    rw [if_neg hsame, hnull, ok_bind, increment_rest h0 hc, ok_bind, ih]
    rfl

/-- More fuel does not change what a loop gives. -/
theorem collect_mono {it : Iterator} (h : collect stop fuel it ≠ .error .nontermination) (k : ℕ) :
    collect stop (fuel + k) it = collect stop fuel it := by
  induction fuel generalizing it with
  | zero => exact absurd rfl h
  | succ fuel ih =>
    rw [Nat.add_right_comm]
    unfold collect at h ⊢
    by_cases hsame : it.m_currentItem.same stop.m_currentItem = true
    · rw [if_pos hsame, if_pos hsame]
    · rw [if_neg hsame] at h
      rw [if_neg hsame, if_neg hsame]
      cases hr : construct it.m_currentItem VeryStrict with
      | error e => rfl
      | ok r =>
        cases hi : increment it with
        | error e => rfl
        | ok it' =>
          rw [hr, hi, ok_bind, ok_bind] at h
          have hrec : collect stop fuel it' ≠ .error .nontermination := fun e => by
            rw [e] at h
            exact h rfl
          rw [ok_bind, ok_bind, ok_bind, ih hrec]
          rfl

theorem elements_mono (h : elements fuel r ≠ .error .nontermination) (k : ℕ) :
    elements (fuel + k) r = elements fuel r := by
  unfold elements at h ⊢
  cases hb : begin r with
  | error e => rfl
  | ok it =>
    rw [hb] at h
    exact collect_mono h k

/-! ### Agreement -/

/-- The loop and the count end. What the loop has gone through is as many items as are counted, and
they are what `operator[]` gives, whichever calls came before. -/
structure Agrees (r : RLPView) : Prop where
  iterates : ∃ fuel, elements fuel r ≠ .error .nontermination
  counts : ∃ fuel, itemCount fuel r ≠ .error .nontermination
  visits : ∀ {fuel rs}, elements fuel r = .ok rs → itemCount r.enough r = .ok rs.length
  inside : ∀ {fuel rs}, elements fuel r = .ok rs → ∀ calls (i : UInt64) v, rs[i.toNat]? = some v →
    ((subscript r i).run (after r calls)).1 = .ok v
  outside : ∀ {fuel rs}, elements fuel r = .ok rs → ∀ calls (i : UInt64), rs.length ≤ i.toNat →
    ∃ v, ((subscript r i).run (after r calls)).1 = .ok v ∧ isNull v.content = true

theorem itemCount_terminates (hr : r.m_data.Points) :
    ∃ fuel, itemCount fuel r ≠ .error .nontermination := by
  by_cases hl : isList r.content = true
  · cases hp : payload r with
    | error e =>
      refine ⟨0, fun h => ?_⟩
      unfold itemCount at h
      rw [if_pos hl, hp] at h
      cases h
      exact payload_terminates r hp
    | ok pl =>
      refine ⟨pl.m_count + 1, fun h => ?_⟩
      unfold itemCount at h
      rw [if_pos hl, hp, ok_bind] at h
      cases payload_points hr hp with
      | inl hnull =>
        subst hnull
        cases h
      | inr hpl => exact countItems_terminates hpl.1 (Nat.lt_succ_self _) h
  · refine ⟨0, fun h => ?_⟩
    unfold itemCount at h
    rw [if_neg hl] at h
    cases h

/-- Where the loop throws there is nothing to agree on. -/
theorem agrees_of_throws {e : RLPException} (hr : r.m_data.Points) (h : elements fuel r = .error e)
    (hne : e ≠ .nontermination) : Agrees r := by
  have hends : elements fuel r ≠ .error .nontermination := fun he => hne (by rw [h] at he; cases he; rfl)
  have hnot : ∀ {f rs}, elements f r ≠ .ok rs := by
    intro f rs hok
    have hmore : elements (f + fuel) r = _ :=
      elements_mono (by rw [hok]; exact fun he => by cases he) fuel
    have hother := elements_mono hends f
    rw [Nat.add_comm, hother, h, hok] at hmore
    cases hmore
  exact ⟨⟨fuel, hends⟩, itemCount_terminates hr, fun hok => absurd hok hnot,
    fun hok => absurd hok hnot, fun hok => absurd hok hnot⟩

/-! ### Items by their index -/

theorem viewsOf_append (d : BytesConstRef) (xs ys : List Bytes) (hd : d.Points) :
    viewsOf d (xs ++ ys) = viewsOf d xs ++ viewsOf (d.back xs.flatten.length) ys := by
  induction xs generalizing d with
  | nil =>
    rw [List.nil_append, List.flatten_nil, List.length_nil, back_zero hd]
    rfl
  | cons x xs ih =>
    rw [List.flatten_cons, List.length_append, ← back_back]
    exact congrArg (_ :: ·) (ih (d.back x.length) (hd.back _))

theorem viewsOf_length (d : BytesConstRef) (xs : List Bytes) : (viewsOf d xs).length = xs.length := by
  induction xs generalizing d with
  | nil => rfl
  | cons x xs ih => exact congrArg (· + 1) (ih _)

theorem readable_of_tiled (h : Tiled b xs) : Readable b := by
  cases h with
  | nil => exact .inl rfl
  | cons hx hlen hrest =>
    refine .inr ⟨_, _, hx, ?_⟩
    rw [List.length_append]
    omega

/-- Items in front of a payload that is cut into items leave items behind them. -/
theorem unbroken_of_tiled (h : Tiled b xs) : Unbroken b := by
  intro ys rest _ hys
  have hxs := Begins.of_tiled h
  have hle := hxs.length_le_of_nil hys
  have hprefix := hys.prefix_of_le hxs hle
  rw [← List.take_append_drop ys.length xs, hprefix] at hxs
  obtain ⟨rest', hfront, hback⟩ := hxs.split
  have hsame := List.append_cancel_left (hfront.flatten.symm.trans hys.flatten)
  subst hsame
  exact readable_of_tiled hback.tiled

theorem answer_of_tiled (hp : pl.Points) (h : Tiled pl.content xs) {i : ℕ} {v : RLPView}
    (hv : (viewsOf pl xs)[i]? = some v) : answer pl i = .ok v := by
  obtain ⟨hlt, hget⟩ := List.getElem?_eq_some_iff.mp hv
  rw [viewsOf_length] at hlt
  have hsplit : xs = (xs.take i ++ [xs[i]]) ++ xs.drop (i + 1) := by
    rw [List.append_assoc, List.singleton_append, List.getElem_cons_drop, List.take_append_drop]
  have htake : (xs.take i).length = i := by
    rw [List.length_take, Nat.min_eq_left hlt.le]
  have hb := Begins.of_tiled h
  rw [hsplit] at hb
  obtain ⟨rest, hfront, -⟩ := hb.split
  obtain ⟨c, hcut, h0, hm⟩ := cut_of_begins hp hfront
  obtain ⟨ys, x, hyx, -, hitem⟩ := hm.found h0
  obtain ⟨rfl, hx⟩ := List.append_inj' hyx rfl
  cases hx
  rw [htake] at hcut
  rw [answer_of_cut hp hcut, hitem]
  have hviews : viewsOf pl xs = viewsOf pl (xs.take i) ++
      (⟨(pl.back (xs.take i).flatten.length).front xs[i].length⟩ ::
        viewsOf ((pl.back (xs.take i).flatten.length).back xs[i].length) (xs.drop (i + 1))) := by
    conv_lhs => rw [hsplit, List.append_assoc, viewsOf_append _ _ _ hp]
    rfl
  rw [hviews, List.getElem?_append_right (by rw [viewsOf_length, htake]), viewsOf_length, htake,
    Nat.sub_self] at hv
  cases hv
  rfl

theorem answer_behind (hp : pl.Points) (h : Tiled pl.content xs) {i : ℕ} (hi : xs.length ≤ i) :
    ∃ v, answer pl i = .ok v ∧ isNull v.content = true := by
  have hzero : ∃ size, sizeAsEncoded pl = .ok size :=
    (sizeAsEncoded_ok_iff hp).mpr (readable_of_tiled h)
  obtain ⟨size, hsize⟩ := hzero
  have hfirst : cut pl 0 = .ok ⟨0, size, pl.cropped 0 size⟩ := by
    unfold cut
    rw [hsize]
    rfl
  obtain ⟨c, hcut⟩ := cut_of_unbroken hp (unbroken_of_tiled h) hfirst i
  refine ⟨⟨c.m_lastItem⟩, answer_of_cut hp hcut, ?_⟩
  have hcount : c.m_lastItem.m_count = 0 := by
    by_contra h0
    obtain ⟨ys, hm⟩ := marks_of_cut hp hcut
    have hindex := hm.index h0
    have hle := (Begins.of_tiled h).length_le_of_nil hm.begins
    have hlast := not_lt.mp fun hlt => h0 ((cut_index hcut).2 hlt)
    omega
  show isNull (c.m_lastItem.memory.take c.m_lastItem.m_count) = true
  rw [hcount]
  rfl

/-- What `operator[]` gives in a payload that is cut into items. -/
theorem subscript_of_tiled (hpl : payload r = .ok pl) (hp : pl.Points) (h : Tiled pl.content xs)
    (calls : List UInt64) {i : UInt64} (hi : i.toNat < 2 ^ 64 - 1 ∨ after r calls ≠ {}) :
    ((subscript r i).run (after r calls)).1 = answer pl i.toNat :=
  subscript_of_steady hpl (steady_of_unbroken hp (unbroken_of_tiled h)) (Position.after r calls) hi

theorem Single.agrees (h : r.Single off len) (hl : isList r.content = true)
    (hsize : r.m_data.m_count < 2 ^ 64) : Agrees r := by
  have hpl := h.payload_eq
  have hp := h.points.back off
  have hpos := extent_pos h.extent
  have hsum := h.size
  by_cases ht : ∃ xs, Tiled (r.m_data.back off).content xs
  · obtain ⟨xs, ht⟩ := ht
    have hle := Begins.length_le (.of_tiled ht)
    rw [hp.length_content] at hle
    have hcount : (r.m_data.back off).m_count = r.m_data.m_count - off := rfl
    have hall : ∀ f, xs.length < f → elements f r = .ok (viewsOf (r.m_data.back off) xs) := by
      intro f hf
      rw [h.elements_eq hl]
      exact collect_of_tiled ht rfl hp h.ends hf
    have hviews : ∀ {f rs}, elements f r = .ok rs → rs = viewsOf (r.m_data.back off) xs := by
      intro f rs hok
      have hmore : elements (f + (xs.length + 1)) r = _ :=
        elements_mono (by rw [hok]; exact fun he => by cases he) (xs.length + 1)
      rw [hall _ (by omega), hok] at hmore
      cases hmore
      rfl
    refine ⟨⟨xs.length + 1, ?_⟩, itemCount_terminates h.points, fun hok => ?_, fun hok => ?_,
      fun hok => ?_⟩
    · rw [hall _ (Nat.lt_succ_self _)]
      exact fun he => by cases he
    · rw [hviews hok, viewsOf_length, h.itemCount_eq hl]
      exact countItems_of_tiled ht rfl hp (by unfold enough; omega)
    · intro calls i v hv
      rw [hviews hok] at hv
      have hlt := (List.getElem?_eq_some_iff.mp hv).1
      rw [viewsOf_length] at hlt
      rw [subscript_of_tiled hpl hp ht calls (.inl (by omega))]
      exact answer_of_tiled hp ht hv
    · intro calls i hi
      rw [hviews hok, viewsOf_length] at hi
      by_cases hfresh : i.toNat < 2 ^ 64 - 1 ∨ after r calls ≠ {}
      · rw [subscript_of_tiled hpl hp ht calls hfresh]
        exact answer_behind hp ht hi
      · rw [not_or, not_not] at hfresh
        rw [hfresh.2, subscript_fresh_last ((toNat_lt_or_last i).resolve_left hfresh.1)]
        exact ⟨⟨.null⟩, rfl, rfl⟩
  · obtain ⟨e, he, hne⟩ := collect_throws h.ends.count hp (not_exists.mp ht)
      (Nat.lt_succ_self _)
    rw [← h.elements_eq hl] at he
    exact agrees_of_throws h.points he hne

/-! ### When they agree -/

theorem end_address (hd : d.Points) :
    (end_ ⟨d⟩).m_currentItem.address = d.address.map (· + d.m_count) ∧
      (end_ ⟨d⟩).m_currentItem.m_count = 0 := by
  have he : end_ ⟨d⟩ = ⟨0, d.back d.m_count⟩ := by
    rw [end_]
    dsimp only
    rw [hd.croppedFrom (le_refl _)]
  rw [he]
  exact ⟨rfl, Nat.sub_self _⟩

/-- An item that was cut off makes the loop start at the null reference. -/
theorem elements_of_cut (hd : d.Points) (hl : isList (content ⟨d⟩) = true)
    (h : extent d.content = some (off, len)) (hcut : d.m_count < off + len) (hle : len ≤ d.m_count)
    (fuel : ℕ) : elements fuel ⟨d⟩ = .error .nontermination := by
  have hb : begin ⟨d⟩ = .ok ⟨0, .null⟩ := by
    unfold begin
    rw [if_pos hl, payload_of_cut h hcut hle]
    rfl
  obtain ⟨a, ha⟩ := Option.isSome_iff_exists.mp hd.address
  unfold elements
  rw [hb, ok_bind]
  refine collect_never rfl rfl ?_ fuel
  rw [(end_address hd).1, ha]
  exact fun he => by cases he

theorem elements_eq_advance (hd : d.Points) (hl : isList (content ⟨d⟩) = true)
    (h : extent d.content = some (off, len)) (hle : off + len ≤ d.m_count) (fuel : ℕ) :
    elements fuel ⟨d⟩ = (advance ((d.back off).front len) >>= collect (end_ ⟨d⟩) fuel) := by
  have hpl : ((d.back off).front len).Points :=
    (hd.back off).front (by show len ≤ d.m_count - off; omega)
  unfold elements
  rw [begin_eq hl (payload_of_le hd h hle) hpl]

/-- Behind an item that does not fill the buffer, the loop does not come to its end. -/
theorem elements_of_short (hd : d.Points) (hl : isList (content ⟨d⟩) = true)
    (h : extent d.content = some (off, len)) (hlt : off + len < d.m_count)
    (ht : Tiled ((d.back off).front len).content xs) (fuel : ℕ) :
    elements fuel ⟨d⟩ = .error .nontermination := by
  have hpl : ((d.back off).front len).Points :=
    (hd.back off).front (by show len ≤ d.m_count - off; omega)
  obtain ⟨hend, hcount⟩ := end_address hd
  by_contra hne
  have hmore := elements_mono hne xs.length
  have hbehind : advance (((d.back off).front len).back len) =
      .ok ⟨0, (((d.back off).front len).back len).front 0⟩ := by
    rw [advance, sizeAsEncoded_empty (hpl.back len) (Nat.sub_self len), ok_bind]
    show Except.ok (⟨len - len - 0, _⟩ : Iterator) = _
    rw [Nat.sub_self]
  have hnever : collect (end_ ⟨d⟩) fuel ⟨0, (((d.back off).front len).back len).front 0⟩ =
      .error .nontermination := by
    refine collect_never rfl rfl ?_ fuel
    obtain ⟨a, ha⟩ := Option.isSome_iff_exists.mp hd.address
    rw [hend, ha]
    show ((d.address.map (· + off)).map (· + len)) ≠ _
    rw [ha]
    intro he
    have hsame : a + off + len = a + d.m_count := Option.some.inj he
    omega
  rw [elements_eq_advance hd hl h hlt.le, collect_items hcount ht rfl hpl] at hmore
  have hlen : ((d.back off).front len).m_count = len := rfl
  rw [hlen, hbehind, ok_bind, hnever] at hmore
  exact hne hmore.symm

/-- **The ways to read a list agree, exactly when an item whose length the buffer has room for fills
the buffer, or ends before it with a payload that is not cut into items.** -/
theorem agrees_iff (hd : d.Points) (hsize : d.m_count < 2 ^ 64) (h : construct d s = .ok r)
    (hl : isList r.content = true) :
    Agrees r ↔ ∀ off len, extent d.content = some (off, len) → len ≤ d.m_count →
      off + len = d.m_count ∨
        off + len < d.m_count ∧ ∀ xs, ¬Tiled ((d.content.drop off).take len) xs := by
  have hr : r = ⟨d⟩ := (construct_cases h).elim (fun hnull => by rw [hnull] at hl; cases hl)
    fun hself => hself.1
  subst hr
  have hcontent : ∀ off len, off + len ≤ d.m_count →
      ((d.back off).front len).content = (d.content.drop off).take len := fun off len hle => by
    rw [content_front (by show len ≤ d.m_count - off; omega), content_back]
  constructor
  · intro ha off len hext hle
    obtain ⟨fuel, hfuel⟩ := ha.iterates
    rcases lt_trichotomy (off + len) d.m_count with hlt | heq | hgt
    · refine .inr ⟨hlt, fun xs ht => ?_⟩
      rw [← hcontent off len hlt.le] at ht
      exact hfuel (elements_of_short hd hl hext hlt ht fuel)
    · exact .inl heq
    · exact absurd (elements_of_cut hd hl hext hgt hle fuel) hfuel
  · intro hall
    cases hp : payload ⟨d⟩ with
    | error e =>
      refine @agrees_of_throws _ 0 e hd ?_ fun he => payload_terminates _ (he ▸ hp)
      unfold elements begin
      rw [if_pos hl, hp]
      rfl
    | ok pl =>
      have hne : d.content ≠ [] := fun hnil => by
        rw [show content ⟨d⟩ = [] from hnil] at hl
        cases hl
      obtain ⟨len, hlen⟩ := length_of_payload hp
      have hext := extent_of_length hne hlen
      have hle : len ≤ d.m_count := by
        by_contra hgt
        rw [payload_of_long hext (not_le.mp hgt)] at hp
        cases hp
      cases hall _ _ hext hle with
      | inl hfit => exact Single.agrees (r := ⟨d⟩) ⟨hd, hext, hfit⟩ hl hsize
      | inr hshort =>
        obtain ⟨hlt, hno⟩ := hshort
        have hpl : ((d.back (payloadOffset d.content)).front len).Points :=
          (hd.back _).front (by show len ≤ d.m_count - payloadOffset d.content; omega)
        rw [← hcontent _ _ hlt.le] at hno
        obtain ⟨e, he, hne⟩ := collect_throws (end_address hd).2 hpl hno (Nat.lt_succ_self _)
        rw [← elements_eq_advance hd hl hext hlt.le] at he
        exact agrees_of_throws hd he hne

/-- A list of one item, with a byte behind it. -/
def trailing : Bytes := [0xc1, 0x01, 0x00]

theorem agrees_sample :
    construct (ofBytes [0xc1, 0x01]) VeryStrict = .ok ⟨ofBytes [0xc1, 0x01]⟩ ∧
      Agrees ⟨ofBytes [0xc1, 0x01]⟩ := by
  have h : construct (ofBytes [0xc1, 0x01]) VeryStrict = .ok ⟨ofBytes [0xc1, 0x01]⟩ := by decide
  refine ⟨h, (agrees_iff (ofBytes_points _) (by decide) h (by decide)).mpr
    fun off len hext _ => .inl ?_⟩
  have hsome : extent (ofBytes [0xc1, 0x01]).content = some (1, 1) := by decide
  have hsame := hsome.symm.trans hext
  cases hsame
  rfl

/-- The count is one, and the loop goes on for ever. -/
theorem trailing_loops :
    construct (ofBytes trailing) LaissezFaire = .ok ⟨ofBytes trailing⟩ ∧
      itemCount (enough ⟨ofBytes trailing⟩) ⟨ofBytes trailing⟩ = .ok 1 ∧
      (∀ fuel, elements fuel ⟨ofBytes trailing⟩ = .error .nontermination) ∧
      ¬Agrees ⟨ofBytes trailing⟩ := by
  have hloop : ∀ fuel, elements fuel ⟨ofBytes trailing⟩ = .error .nontermination := by
    have htiled : Tiled [0x01] [[0x01]] := @Tiled.cons [0x01] [] [] 0 1 (by decide) rfl .nil
    have hextent : extent (ofBytes trailing).content = some (1, 1) := by decide
    exact elements_of_short (ofBytes_points _) (by decide) hextent (by decide) htiled
  refine ⟨by decide, by decide, hloop, fun h => ?_⟩
  obtain ⟨fuel, hfuel⟩ := h.iterates
  exact hfuel (hloop fuel)

end RLPView
end Aleth.Devcore
