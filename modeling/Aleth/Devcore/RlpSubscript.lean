import Aleth.Devcore.RlpPayload
import Aleth.Structure.Throwing

/-! `RLP::operator[]` and the cursor that it keeps between calls.

A call goes on from the item that the last one gave, or starts anew when it asks
for an earlier one. The loop writes the rest of the payload into the cursor
before it knows how long the next item is: when that throws, the cursor is
`Position.stuck` on the index of an item that it no longer holds. In every other
position a call gives what the payload has at its index (`answer`). -/
namespace Aleth.Devcore
open RLP (extent)
open RLPView BytesConstRef

namespace RLPView

/-! ### The code -/

/-- The list-indexing cache. -/
structure ListCursor where
  /-- Index of the last item accessed with `operator[]`. -/
  m_lastIndex : ℕ := 2 ^ 64 - 1
  /-- Offset of the next byte after the last byte of `m_lastItem`. -/
  m_lastEnd : ℕ := 0
  m_lastItem : BytesConstRef := .null
deriving DecidableEq

/-- The branch of `operator[]` for an index before the last one. -/
def firstItem (r : RLPView) : Throwing ListCursor RLPException Unit := do
  let m_lastEnd ← Throwing.lift (payload r >>= sizeAsEncoded)
  Throwing.modify fun c => {c with m_lastEnd := m_lastEnd}
  let payload ← Throwing.lift (payload r)
  Throwing.modify fun c => {c with m_lastItem := payload.cropped 0 m_lastEnd}
  Throwing.modify fun c => {c with m_lastIndex := 0}

/-- A round of the loop. -/
def nextItem (r : RLPView) : Throwing ListCursor RLPException Unit := do
  let payload ← Throwing.lift (payload r)
  Throwing.modify fun c => {c with m_lastItem := payload.croppedFrom c.m_lastEnd}
  let rest := (← Throwing.get).m_lastItem
  let m_lastItem := rest.cropped 0 (← Throwing.lift (sizeAsEncoded rest))
  Throwing.modify fun c => {c with m_lastItem, m_lastEnd := c.m_lastEnd + m_lastItem.m_count}
  Throwing.modify fun c => {c with m_lastIndex := c.m_lastIndex + 1}

/-- The loop, for at most `n` rounds. -/
def walk (r : RLPView) : (n : ℕ) → Throwing ListCursor RLPException Unit
  | 0 => pure ()
  | n + 1 => do
    if (← Throwing.get).m_lastItem.m_count = 0 then pure ()
    else do
      nextItem r
      walk r n

/-- `operator[]`. -/
def subscript (r : RLPView) (i : UInt64) : Throwing ListCursor RLPException RLPView := do
  if i.toNat < (← Throwing.get).m_lastIndex then firstItem r
  walk r (i.toNat - (← Throwing.get).m_lastIndex)
  Throwing.lift (construct (← Throwing.get).m_lastItem
    {throwOnFail := true, failIfTooSmall := true})

/-- The cursor after some calls on a new object. -/
def after (r : RLPView) (calls : List UInt64) : ListCursor :=
  calls.foldl (fun c i => ((subscript r i).run c).2) {}

/-! ### The items of a payload, one after another -/

variable {r : RLPView} {pl : BytesConstRef} {c c' : ListCursor} {e : RLPException} {i n : ℕ}

/-- The cursor on the item behind. -/
def follow (pl : BytesConstRef) (c : ListCursor) : Except RLPException ListCursor := do
  let rest := pl.croppedFrom c.m_lastEnd
  let item := rest.cropped 0 (← sizeAsEncoded rest)
  return ⟨c.m_lastIndex + 1, c.m_lastEnd + item.m_count, item⟩

/-- At most `n` items further, and no further than the end. -/
def forward (pl : BytesConstRef) : (n : ℕ) → ListCursor → Except RLPException ListCursor
  | 0, c => .ok c
  | n + 1, c => if c.m_lastItem.m_count = 0 then .ok c else follow pl c >>= forward pl n

/-- The cursor on the item with an index, or at the end. -/
def cut (pl : BytesConstRef) (i : ℕ) : Except RLPException ListCursor := do
  let size ← sizeAsEncoded pl
  forward pl i ⟨0, size, pl.cropped 0 size⟩

/-- What the payload has at an index. -/
def answer (pl : BytesConstRef) (i : ℕ) : Except RLPException RLPView := do
  construct (← cut pl i).m_lastItem {throwOnFail := true, failIfTooSmall := true}

theorem forward_end (h0 : c.m_lastItem.m_count = 0) : forward pl n c = .ok c := by
  cases n with
  | zero => rfl
  | succ n => exact if_pos h0

theorem forward_succ (h0 : c.m_lastItem.m_count ≠ 0) :
    forward pl (n + 1) c = (follow pl c >>= forward pl n) := if_neg h0

theorem forward_add (m n : ℕ) (c : ListCursor) :
    forward pl (m + n) c = (forward pl m c >>= forward pl n) := by
  induction m generalizing c with
  | zero =>
    rw [Nat.zero_add]
    rfl
  | succ m ih =>
    by_cases h0 : c.m_lastItem.m_count = 0
    · rw [forward_end h0, forward_end h0, ok_bind, forward_end h0]
    · rw [Nat.add_right_comm, forward_succ h0, forward_succ h0]
      cases follow pl c with
      | error e => rfl
      | ok c' => exact ih c'

theorem follow_index (h : follow pl c = .ok c') : c'.m_lastIndex = c.m_lastIndex + 1 := by
  unfold follow at h
  dsimp only at h
  cases hs : sizeAsEncoded (pl.croppedFrom c.m_lastEnd) with
  | error e =>
    rw [hs] at h
    cases h
  | ok k =>
    rw [hs] at h
    cases h
    rfl

/-- The loop stops at the index that was asked for, or on an empty item before. -/
theorem forward_index (h : forward pl n c = .ok c') :
    c.m_lastIndex ≤ c'.m_lastIndex ∧ c'.m_lastIndex ≤ c.m_lastIndex + n ∧
      (c'.m_lastIndex < c.m_lastIndex + n → c'.m_lastItem.m_count = 0) := by
  induction n generalizing c with
  | zero =>
    cases h
    exact ⟨le_refl _, le_refl _, fun hlt => absurd hlt (lt_irrefl _)⟩
  | succ n ih =>
    by_cases h0 : c.m_lastItem.m_count = 0
    · rw [forward_end h0] at h
      cases h
      exact ⟨le_refl _, Nat.le_add_right _ _, fun _ => h0⟩
    · rw [forward_succ h0] at h
      cases hf : follow pl c with
      | error e =>
        rw [hf] at h
        cases h
      | ok d =>
        rw [hf, ok_bind] at h
        have hd := follow_index hf
        obtain ⟨hle, hub, hend⟩ := ih h
        exact ⟨by omega, by omega, fun hlt => hend (by omega)⟩

/-- A cursor is on the item of its own index. -/
theorem forward_self (h : forward pl n c = .ok c') :
    forward pl (c'.m_lastIndex - c.m_lastIndex) c = .ok c' := by
  obtain ⟨hle, hub, -⟩ := forward_index h
  obtain ⟨k, hk⟩ : ∃ k, c'.m_lastIndex - c.m_lastIndex = k := ⟨_, rfl⟩
  have hn : n = k + (n - k) := by omega
  rw [hn, forward_add] at h
  rw [hk]
  cases hm : forward pl k c with
  | error e =>
    rw [hm] at h
    cases h
  | ok d =>
    rw [hm, ok_bind] at h
    obtain ⟨hle', hub', hend'⟩ := forward_index hm
    obtain ⟨hle'', -, -⟩ := forward_index h
    by_cases hd : d.m_lastItem.m_count = 0
    · rw [forward_end hd] at h
      exact h
    · have hidx : d.m_lastIndex = c'.m_lastIndex := by
        have := not_lt.mp fun hlt => hd (hend' hlt)
        omega
      cases hr : n - k with
      | zero =>
        rw [hr] at h
        exact h
      | succ m =>
        rw [hr, forward_succ hd] at h
        cases hf : follow pl d with
        | error e =>
          rw [hf] at h
          cases h
        | ok d' =>
          rw [hf, ok_bind] at h
          have hd' := follow_index hf
          obtain ⟨hlast, -, -⟩ := forward_index h
          omega

theorem cut_add (i n : ℕ) : cut pl (i + n) = (cut pl i >>= forward pl n) := by
  unfold cut
  cases sizeAsEncoded pl with
  | error e => rfl
  | ok size => exact forward_add i n _

theorem cut_index (h : cut pl i = .ok c) :
    c.m_lastIndex ≤ i ∧ (c.m_lastIndex < i → c.m_lastItem.m_count = 0) := by
  unfold cut at h
  cases hs : sizeAsEncoded pl with
  | error e =>
    rw [hs] at h
    cases h
  | ok size =>
    rw [hs] at h
    have hidx := forward_index (h : forward pl i ⟨0, size, pl.cropped 0 size⟩ = .ok c)
    rw [Nat.zero_add] at hidx
    exact hidx.2

theorem cut_self (h : cut pl i = .ok c) : cut pl c.m_lastIndex = .ok c := by
  unfold cut at h ⊢
  cases hs : sizeAsEncoded pl with
  | error e =>
    rw [hs] at h
    cases h
  | ok size =>
    rw [hs] at h
    exact forward_self (h : forward pl i ⟨0, size, pl.cropped 0 size⟩ = .ok c)

/-- From any cursor on the way, the loop goes to the item of an index behind. -/
theorem cut_of_le (h : cut pl i = .ok c) (hle : c.m_lastIndex ≤ n) :
    cut pl n = forward pl (n - c.m_lastIndex) c := by
  have hadd : cut pl (c.m_lastIndex + (n - c.m_lastIndex)) = _ := cut_add _ _
  rwa [Nat.add_sub_cancel' hle, cut_self h, ok_bind] at hadd

theorem cut_zero_of_cut (h : cut pl i = .ok c) : ∃ size, sizeAsEncoded pl = .ok size := by
  unfold cut at h
  cases hs : sizeAsEncoded pl with
  | error e =>
    rw [hs] at h
    cases h
  | ok size => exact ⟨size, rfl⟩

/-! ### Positions -/

/-- Where the calls can leave the cursor. -/
inductive Position (r : RLPView) : ListCursor → Prop
  | fresh : Position r {}
  | on {pl : BytesConstRef} {c : ListCursor} {i : ℕ} (hp : payload r = .ok pl)
      (h : cut pl i = .ok c) : Position r c
  | stuck {pl : BytesConstRef} {c : ListCursor} {i : ℕ} {e : RLPException}
      (hp : payload r = .ok pl) (h : cut pl i = .ok c) (h0 : c.m_lastItem.m_count ≠ 0)
      (he : sizeAsEncoded (pl.croppedFrom c.m_lastEnd) = .error e) :
      Position r {c with m_lastItem := pl.croppedFrom c.m_lastEnd}

theorem nextItem_run (hp : payload r = .ok pl) (c : ListCursor) :
    (nextItem r).run c = match sizeAsEncoded (pl.croppedFrom c.m_lastEnd) with
      | .ok size => (.ok (), ⟨c.m_lastIndex + 1,
          c.m_lastEnd + ((pl.croppedFrom c.m_lastEnd).cropped 0 size).m_count,
          (pl.croppedFrom c.m_lastEnd).cropped 0 size⟩)
      | .error e => (.error e, {c with m_lastItem := pl.croppedFrom c.m_lastEnd}) := by
  unfold nextItem
  rw [hp]
  simp only [Throwing.run_bind, Throwing.run_lift, Throwing.run_modify, Throwing.run_get]
  cases sizeAsEncoded (pl.croppedFrom c.m_lastEnd) <;> rfl

/-- The loop follows the items, or stops where one cannot be followed. -/
theorem walk_run (hp : payload r = .ok pl) (h : cut pl i = .ok c) (n : ℕ) :
    (∃ c', forward pl n c = .ok c' ∧ (walk r n).run c = (.ok (), c')) ∨
      ∃ e c', forward pl n c = .error e ∧ (walk r n).run c = (.error e, c') ∧ Position r c' := by
  induction n generalizing c i with
  | zero => exact .inl ⟨c, rfl, rfl⟩
  | succ n ih =>
    by_cases h0 : c.m_lastItem.m_count = 0
    · refine .inl ⟨c, forward_end h0, ?_⟩
      unfold walk
      rw [Throwing.run_bind, Throwing.run_get]
      dsimp only
      rw [if_pos h0]
      rfl
    · have hwalk : (walk r (n + 1)).run c = (nextItem r >>= fun _ => walk r n).run c := by
        rw [walk, Throwing.run_bind, Throwing.run_get]
        dsimp only
        rw [if_neg h0]
      have hnext := nextItem_run hp c
      rw [hwalk, Throwing.run_bind, forward_succ h0, hnext]
      unfold follow
      dsimp only
      cases hs : sizeAsEncoded (pl.croppedFrom c.m_lastEnd) with
      | error e => exact .inr ⟨e, _, rfl, rfl, .stuck hp h h0 hs⟩
      | ok size =>
        have hcut : cut pl (c.m_lastIndex + 1) = .ok ⟨c.m_lastIndex + 1,
            c.m_lastEnd + ((pl.croppedFrom c.m_lastEnd).cropped 0 size).m_count,
            (pl.croppedFrom c.m_lastEnd).cropped 0 size⟩ := by
          rw [cut_add, cut_self h, ok_bind, forward_succ h0]
          unfold follow
          dsimp only
          rw [hs]
          rfl
        exact ih hcut

theorem firstItem_run (r : RLPView) (c : ListCursor) :
    (firstItem r).run c = match payload r >>= fun pl => cut pl 0 with
      | .ok c' => (.ok (), c')
      | .error e => (.error e, c) := by
  unfold firstItem cut
  cases payload r with
  | error e => rfl
  | ok pl =>
    rw [Throwing.run_bind, Throwing.run_lift, ok_bind, ok_bind]
    cases sizeAsEncoded pl <;> rfl

/-! ### A call -/

/-- What follows the first branch. -/
def goOn (r : RLPView) (i : UInt64) : Throwing ListCursor RLPException RLPView := do
  walk r (i.toNat - (← Throwing.get).m_lastIndex)
  Throwing.lift (construct (← Throwing.get).m_lastItem
    {throwOnFail := true, failIfTooSmall := true})

theorem subscript_run_lt {i : UInt64} (hlt : i.toNat < c.m_lastIndex) :
    (subscript r i).run c = (firstItem r >>= fun _ => goOn r i).run c := by
  unfold subscript goOn
  rw [Throwing.run_bind, Throwing.run_get]
  dsimp only
  rw [if_pos hlt]

theorem subscript_run_le {i : UInt64} (hle : c.m_lastIndex ≤ i.toNat) :
    (subscript r i).run c = (goOn r i).run c := by
  unfold subscript goOn
  rw [Throwing.run_bind, Throwing.run_get]
  dsimp only
  rw [if_neg (not_lt.mpr hle)]

theorem goOn_run (i : UInt64) (c : ListCursor) :
    (goOn r i).run c = match (walk r (i.toNat - c.m_lastIndex)).run c with
      | (.ok _, c') => (construct c'.m_lastItem {throwOnFail := true, failIfTooSmall := true}, c')
      | (.error e, c') => (.error e, c') := by
  unfold goOn
  rw [Throwing.run_bind, Throwing.run_get]
  dsimp only
  rw [Throwing.run_bind]
  cases (walk r (i.toNat - c.m_lastIndex)).run c with
  | mk x c' => cases x <;> rfl

/-- From an item on, a call gives what the payload has. -/
theorem goOn_answers (hp : payload r = .ok pl) {j : ℕ} (h : cut pl j = .ok c) {i : UInt64}
    (hle : c.m_lastIndex ≤ i.toNat) :
    ((goOn r i).run c).1 = answer pl i.toNat ∧ Position r ((goOn r i).run c).2 := by
  rw [goOn_run]
  unfold answer
  rw [cut_of_le h hle]
  cases walk_run hp h (i.toNat - c.m_lastIndex) with
  | inl hok =>
    obtain ⟨c', hf, hrun⟩ := hok
    have hcut := cut_of_le h hle
    rw [hf] at hcut
    rw [hrun, hf]
    exact ⟨rfl, .on hp hcut⟩
  | inr herr =>
    obtain ⟨e, c', hf, hrun, hpos⟩ := herr
    rw [hrun, hf]
    exact ⟨rfl, hpos⟩

theorem answer_error (h : cut pl 0 = .error e) (n : ℕ) : answer pl n = .error e := by
  have hadd : cut pl (0 + n) = _ := cut_add 0 n
  rw [Nat.zero_add, h] at hadd
  unfold answer
  rw [hadd]
  rfl

/-- A call that starts anew gives what the payload has. -/
theorem subscript_answers_lt (hp : payload r = .ok pl) (hc : Position r c) {i : UInt64}
    (hlt : i.toNat < c.m_lastIndex) :
    ((subscript r i).run c).1 = answer pl i.toNat ∧ Position r ((subscript r i).run c).2 := by
  have hfirst := firstItem_run r c
  rw [hp, ok_bind] at hfirst
  rw [subscript_run_lt hlt]
  cases h0 : cut pl 0 with
  | error e =>
    rw [h0] at hfirst
    rw [Throwing.run_bind_error hfirst, answer_error h0]
    exact ⟨rfl, hc⟩
  | ok c' =>
    rw [h0] at hfirst
    rw [Throwing.run_bind_ok hfirst]
    have hidx := (cut_index h0).1
    exact goOn_answers hp h0 (hidx.trans (Nat.zero_le _))

theorem subscript_answers_on (hp : payload r = .ok pl) {j : ℕ} (h : cut pl j = .ok c)
    (i : UInt64) :
    ((subscript r i).run c).1 = answer pl i.toNat ∧ Position r ((subscript r i).run c).2 := by
  by_cases hlt : i.toNat < c.m_lastIndex
  · exact subscript_answers_lt hp (.on hp h) hlt
  · rw [subscript_run_le (not_lt.mp hlt)]
    exact goOn_answers hp h (not_lt.mp hlt)

/-- The largest index is the one that a new object pretends to have been asked for. -/
theorem subscript_fresh_last {i : UInt64} (hi : i.toNat = 2 ^ 64 - 1) :
    (subscript r i).run {} = (.ok ⟨.null⟩, {}) := by
  rw [subscript_run_le hi.ge, goOn_run, show ({} : ListCursor).m_lastIndex = 2 ^ 64 - 1 from rfl, hi,
    Nat.sub_self]
  rfl

theorem toNat_lt_or_last (i : UInt64) : i.toNat < 2 ^ 64 - 1 ∨ i.toNat = 2 ^ 64 - 1 := by
  have h := i.toNat_lt
  omega

/-- Without a payload nothing is ever remembered. -/
theorem subscript_run_error (hp : payload r = .error e) {i : UInt64} (hi : i.toNat < 2 ^ 64 - 1) :
    (subscript r i).run {} = (.error e, {}) := by
  have hfirst := firstItem_run r {}
  rw [hp] at hfirst
  rw [subscript_run_lt hi]
  exact Throwing.run_bind_error hfirst _

theorem construct_error_of_size {d : BytesConstRef} (h : sizeAsEncoded d = .error e) :
    construct d {throwOnFail := true, failIfTooSmall := true} = .error e := by
  rw [sizeAsEncoded_eq] at h
  rw [construct_eq_checkTooSmall]
  cases hc : checkTooSmall {throwOnFail := true, failIfTooSmall := true} d.m_count ⟨d⟩ with
  | error e' =>
    rw [hc] at h
    cases h
    rfl
  | ok r =>
    rw [hc, ok_bind] at h
    obtain ⟨rfl, n, hn, -⟩ := checkTooSmall_ok rfl rfl hc
    rw [show content ⟨d⟩ = d.content from rfl, hn] at h
    cases h

theorem count_ne_zero_of_size {d : BytesConstRef} (h : sizeAsEncoded d = .error e) :
    d.m_count ≠ 0 := by
  intro h0
  have hnil : content ⟨d⟩ = [] := by
    show d.memory.take d.m_count = []
    rw [h0, List.take_zero]
  rw [sizeAsEncoded_eq, checkTooSmall_eq _ rfl, hnil, show actualSize [] = .ok 0 from rfl, ok_bind,
    if_neg (Nat.not_lt_zero _), ok_bind, hnil] at h
  cases h

/-- Where the next item cannot be followed, a later index throws and the cursor loses its item. -/
theorem subscript_breaks (hp : payload r = .ok pl) (h0 : c.m_lastItem.m_count ≠ 0)
    (he : sizeAsEncoded (pl.croppedFrom c.m_lastEnd) = .error e) {i : UInt64}
    (hlt : c.m_lastIndex < i.toNat) :
    (subscript r i).run c = (.error e, {c with m_lastItem := pl.croppedFrom c.m_lastEnd}) := by
  obtain ⟨n, hn⟩ : ∃ n, i.toNat - c.m_lastIndex = n + 1 := ⟨i.toNat - c.m_lastIndex - 1, by omega⟩
  have hnext := nextItem_run hp c
  rw [he] at hnext
  have hwalk : (walk r (n + 1)).run c =
      (.error e, {c with m_lastItem := pl.croppedFrom c.m_lastEnd}) := by
    rw [walk, Throwing.run_bind, Throwing.run_get]
    dsimp only
    rw [if_neg h0]
    exact Throwing.run_bind_error hnext _
  rw [subscript_run_le hlt.le, goOn_run, hn, hwalk]

/-- Behind a throw, the index of the last item gives the exception again, and so does a later
one. -/
theorem subscript_stuck (hp : payload r = .ok pl)
    (he : sizeAsEncoded (pl.croppedFrom c.m_lastEnd) = .error e) {i : UInt64}
    (hle : c.m_lastIndex ≤ i.toNat) :
    (subscript r i).run {c with m_lastItem := pl.croppedFrom c.m_lastEnd} =
      (.error e, {c with m_lastItem := pl.croppedFrom c.m_lastEnd}) := by
  rcases hle.lt_or_eq with hlt | heq
  · exact subscript_breaks (c := {c with m_lastItem := pl.croppedFrom c.m_lastEnd}) hp
      (count_ne_zero_of_size he) he hlt
  · rw [subscript_run_le (c := {c with m_lastItem := pl.croppedFrom c.m_lastEnd}) hle, goOn_run]
    dsimp only
    rw [heq, Nat.sub_self]
    show (construct (pl.croppedFrom c.m_lastEnd) _, _) = _
    rw [construct_error_of_size he]

theorem answer_stuck {j : ℕ} (h : cut pl j = .ok c) (h0 : c.m_lastItem.m_count ≠ 0)
    (he : sizeAsEncoded (pl.croppedFrom c.m_lastEnd) = .error e) (hlt : c.m_lastIndex < n) :
    answer pl n = .error e := by
  obtain ⟨k, hk⟩ : ∃ k, n - c.m_lastIndex = k + 1 := ⟨n - c.m_lastIndex - 1, by omega⟩
  unfold answer
  rw [cut_of_le h hlt.le, hk, forward_succ h0]
  unfold follow
  dsimp only
  rw [he]
  rfl

/-- The calls leave the cursor in one of its positions. -/
theorem Position.subscript (hc : Position r c) (i : UInt64) :
    Position r ((subscript r i).run c).2 := by
  cases hc with
  | fresh =>
    cases toNat_lt_or_last i with
    | inl hi =>
      cases hp : payload r with
      | error e =>
        rw [subscript_run_error hp hi]
        exact .fresh
      | ok pl => exact (subscript_answers_lt hp .fresh hi).2
    | inr hi =>
      rw [subscript_fresh_last hi]
      exact .fresh
  | on hp h => exact (subscript_answers_on hp h i).2
  | @stuck pl c j e hp h h0 he =>
    by_cases hlt : i.toNat < c.m_lastIndex
    · exact (subscript_answers_lt hp (.stuck hp h h0 he) hlt).2
    · rw [subscript_stuck hp he (not_lt.mp hlt)]
      exact .stuck hp h h0 he

theorem Position.after (r : RLPView) (calls : List UInt64) : Position r (after r calls) := by
  have hfold : ∀ (l : List UInt64) c, Position r c →
      Position r (l.foldl (fun c i => ((RLPView.subscript r i).run c).2) c) := by
    intro l
    induction l with
    | nil => exact fun c hc => hc
    | cons i l ih => exact fun c hc => ih _ (hc.subscript i)
  exact hfold calls {} .fresh

/-! ### The bytes behind a position -/

/-- The string is at its end, or has another complete item in front. -/
def Readable (b : Bytes) : Prop := b = [] ∨ ∃ off len, extent b = some (off, len) ∧ off + len ≤ b.length

/-- Behind a complete item comes the end, or another complete item. -/
def Unbroken (b : Bytes) : Prop := ∀ {xs rest}, xs ≠ [] → Begins b xs rest → Readable rest

variable {xs ys : List Bytes} {x rest : Bytes} {off len p k : ℕ}

theorem sizeAsEncoded_ok_iff {d : BytesConstRef} (hd : d.Points) :
    (∃ k, sizeAsEncoded d = .ok k) ↔ Readable d.content := by
  have hlen := hd.length_content
  constructor
  · rintro ⟨k, hk⟩
    by_cases h0 : d.m_count = 0
    · exact .inl (hd.content_eq_nil.mpr h0)
    · obtain ⟨off, len, hext, hsum, hle⟩ := sizeAsEncoded_ok hd h0 hk
      exact .inr ⟨off, len, hext, by omega⟩
  · rintro (hnil | ⟨off, len, hext, hle⟩)
    · exact ⟨0, sizeAsEncoded_empty hd (hd.content_eq_nil.mp hnil)⟩
    · exact ⟨off + len, sizeAsEncoded_of_extent hext (by omega)⟩

/-- The cursor has the items `xs` behind it, and is on the last of them or at the end. -/
structure Marks (pl : BytesConstRef) (c : ListCursor) (xs : List Bytes) : Prop where
  begins : Begins pl.content xs (pl.content.drop c.m_lastEnd)
  bound : c.m_lastEnd ≤ pl.m_count
  found : c.m_lastItem.m_count ≠ 0 → ∃ ys x, xs = ys ++ [x] ∧ ys.length = c.m_lastIndex ∧
    c.m_lastItem = (pl.back ys.flatten.length).front x.length
  ended : c.m_lastItem.m_count = 0 → xs.length = c.m_lastIndex ∧ c.m_lastEnd = pl.m_count

theorem back_zero (hp : pl.Points) : pl.back 0 = pl := by
  obtain ⟨a, ha⟩ := Option.isSome_iff_exists.mp hp.address
  cases pl
  cases ha
  rfl

theorem flatten_length (hp : pl.Points) (h : Begins pl.content xs (pl.content.drop p))
    (hle : p ≤ pl.m_count) : xs.flatten.length = p := by
  have hlen := congrArg List.length h.flatten
  rw [List.length_append, List.length_drop, hp.length_content] at hlen
  omega

/-- The cut that finds another item. -/
theorem marks_found (hp : pl.Points) (h : Begins pl.content xs (pl.content.drop p))
    (hle : p ≤ pl.m_count) (hext : extent (pl.content.drop p) = some (off, len))
    (hfit : p + (off + len) ≤ pl.m_count) :
    Marks pl ⟨xs.length, p + (off + len), (pl.back p).front (off + len)⟩
      (xs ++ [(pl.content.drop p).take (off + len)]) := by
  have hlen : (pl.content.drop p).length = pl.m_count - p := by
    rw [List.length_drop, hp.length_content]
  have hone := Begins.single hext (by omega)
  rw [List.drop_drop] at hone
  refine ⟨h.append hone, hfit, fun _ => ⟨xs, _, rfl, rfl, ?_⟩, fun h0 => ?_⟩
  · rw [flatten_length hp h hle, List.length_take, hlen, Nat.min_eq_left (by omega)]
  · exact absurd h0 (extent_pos hext).ne'

/-- The cut at the end. -/
theorem marks_ended (hp : pl.Points) (h : Begins pl.content xs (pl.content.drop p))
    (hle : p ≤ pl.m_count) (hnil : pl.content.drop p = []) :
    Marks pl ⟨xs.length, p + 0, (pl.back p).front 0⟩ xs := by
  have hend : p = pl.m_count := by
    have hlen := congrArg List.length hnil
    rw [List.length_drop, hp.length_content, List.length_nil] at hlen
    omega
  exact ⟨h, hle, fun h0 => absurd rfl h0, fun _ => ⟨rfl, hend⟩⟩

theorem marks_of_size (hp : pl.Points) (h : Begins pl.content xs (pl.content.drop p))
    (hle : p ≤ pl.m_count) (hk : sizeAsEncoded (pl.back p) = .ok k) :
    ∃ zs, Marks pl ⟨xs.length, p + k, (pl.back p).front k⟩ zs := by
  obtain ⟨-, hcut⟩ := cut_ok hp hle hk
  cases hcut with
  | inl hend =>
    obtain ⟨rfl, hnil⟩ := hend
    exact ⟨xs, marks_ended hp h hle hnil⟩
  | inr hfound =>
    obtain ⟨off, len, hext, rfl, hfit⟩ := hfound
    exact ⟨_, marks_found hp h hle hext hfit⟩

theorem Marks.index (h : Marks pl c xs) (h0 : c.m_lastItem.m_count ≠ 0) :
    xs.length = c.m_lastIndex + 1 := by
  obtain ⟨ys, x, rfl, hlen, -⟩ := h.found h0
  rw [List.length_append, hlen]
  rfl

theorem follow_eq (hp : pl.Points) (hle : c.m_lastEnd ≤ pl.m_count) :
    follow pl c = (sizeAsEncoded (pl.back c.m_lastEnd) >>= fun k =>
      .ok ⟨c.m_lastIndex + 1, c.m_lastEnd + k, (pl.back c.m_lastEnd).front k⟩) := by
  unfold follow
  dsimp only
  rw [hp.croppedFrom hle]
  cases hk : sizeAsEncoded (pl.back c.m_lastEnd) with
  | error e => rfl
  | ok k =>
    obtain ⟨-, hcrop⟩ := cropped_of_size (hp.back _) hk
    rw [ok_bind, ok_bind, hcrop]
    rfl

theorem Marks.forward (hp : pl.Points) (hm : Marks pl c xs) (h : forward pl n c = .ok c') :
    ∃ zs, Marks pl c' zs := by
  induction n generalizing c xs with
  | zero =>
    cases h
    exact ⟨xs, hm⟩
  | succ n ih =>
    by_cases h0 : c.m_lastItem.m_count = 0
    · rw [forward_end h0] at h
      cases h
      exact ⟨xs, hm⟩
    · rw [forward_succ h0, follow_eq hp hm.bound] at h
      cases hk : sizeAsEncoded (pl.back c.m_lastEnd) with
      | error e =>
        rw [hk] at h
        cases h
      | ok k =>
        rw [hk, ok_bind, ok_bind, ← hm.index h0] at h
        obtain ⟨zs, hzs⟩ := marks_of_size hp hm.begins hm.bound hk
        exact ih hzs h

theorem cut_eq (hp : pl.Points) (i : ℕ) :
    cut pl i = (sizeAsEncoded (pl.back 0) >>= fun k =>
      forward pl i ⟨0, 0 + k, (pl.back 0).front k⟩) := by
  unfold cut
  rw [back_zero hp]
  cases hk : sizeAsEncoded pl with
  | error e => rfl
  | ok k =>
    rw [ok_bind, ok_bind, (cropped_of_size hp hk).2, Nat.zero_add]

theorem marks_of_cut (hp : pl.Points) (h : cut pl i = .ok c) : ∃ xs, Marks pl c xs := by
  rw [cut_eq hp] at h
  cases hk : sizeAsEncoded (pl.back 0) with
  | error e =>
    rw [hk] at h
    cases h
  | ok k =>
    rw [hk, ok_bind] at h
    obtain ⟨xs, hxs⟩ := marks_of_size hp (.nil pl.content) (Nat.zero_le _) hk
    exact hxs.forward hp h

/-- A payload that is not broken off behind an item gives the cursor for every index. -/
theorem cut_of_unbroken (hp : pl.Points) (hu : Unbroken pl.content) (h0 : cut pl 0 = .ok c)
    (n : ℕ) : ∃ c', cut pl n = .ok c' := by
  induction n with
  | zero => exact ⟨c, h0⟩
  | succ n ih =>
    obtain ⟨d, hd⟩ := ih
    obtain ⟨xs, hm⟩ := marks_of_cut hp hd
    rw [cut_add, hd, ok_bind]
    by_cases hz : d.m_lastItem.m_count = 0
    · exact ⟨d, forward_end hz⟩
    · have hne : xs ≠ [] := by
        obtain ⟨ys, x, rfl, -⟩ := hm.found hz
        exact List.append_ne_nil_of_right_ne_nil ys (List.cons_ne_nil x [])
      have hread := hu hne hm.begins
      rw [← content_back] at hread
      obtain ⟨k, hk⟩ := (sizeAsEncoded_ok_iff (hp.back _)).mpr hread
      rw [forward_succ hz, follow_eq hp hm.bound, hk]
      exact ⟨_, rfl⟩

theorem begins_single {d : Bytes} (h : Begins d [x] rest) :
    ∃ off len, extent d = some (off, len) ∧ off + len ≤ d.length ∧ d.take (off + len) = x := by
  cases h with
  | @cons _ d _ _ off len hx hlen _ =>
    refine ⟨off, len, hx, ?_, ?_⟩
    · rw [List.length_append]
      omega
    · rw [hlen, List.take_left]

/-- The items that a payload begins with are found. -/
theorem cut_of_begins (hp : pl.Points) (h : Begins pl.content (ys ++ [x]) rest) :
    ∃ c, cut pl ys.length = .ok c ∧ c.m_lastItem.m_count ≠ 0 ∧ Marks pl c (ys ++ [x]) := by
  have hlen := hp.length_content
  induction ys using List.reverseRecOn generalizing x rest with
  | nil =>
    obtain ⟨off, len, hext, hle, rfl⟩ := begins_single h
    have hsize : sizeAsEncoded (pl.back 0) = .ok (off + len) := by
      rw [back_zero hp]
      exact sizeAsEncoded_of_extent hext (by omega)
    refine ⟨⟨0, 0 + (off + len), (pl.back 0).front (off + len)⟩, ?_, (extent_pos hext).ne', ?_⟩
    · rw [cut_eq hp, hsize]
      rfl
    · exact marks_found hp (.nil pl.content) (Nat.zero_le _) hext (by omega)
  | append_singleton ys y ih =>
    obtain ⟨d, hfront, hlast⟩ := h.split
    obtain ⟨c, hcut, h0, hm⟩ := ih hfront
    have hd : d = pl.content.drop c.m_lastEnd :=
      List.append_cancel_left (hfront.flatten.symm.trans hm.begins.flatten)
    subst hd
    have hbound := hm.bound
    have hindex := hm.index h0
    obtain ⟨off, len, hext, hle, rfl⟩ := begins_single hlast
    rw [List.length_drop] at hle
    have hsize : sizeAsEncoded (pl.back c.m_lastEnd) = .ok (off + len) := by
      refine sizeAsEncoded_of_extent ?_ (by show off + len ≤ pl.m_count - c.m_lastEnd; omega)
      rw [content_back]
      exact hext
    refine ⟨⟨c.m_lastIndex + 1, c.m_lastEnd + (off + len),
      (pl.back c.m_lastEnd).front (off + len)⟩, ?_, (extent_pos hext).ne', ?_⟩
    · rw [List.length_append, List.length_singleton, cut_add, hcut, ok_bind, forward_succ h0,
        follow_eq hp hbound, hsize]
      rfl
    · rw [← hindex]
      exact marks_found hp hm.begins hbound hext (by omega)

/-! ### Calls and their history -/

/-- The same item, or the same kind of exception. -/
def Same : Except RLPException RLPView → Except RLPException RLPView → Prop
  | .ok v, .ok w => v = w ∨ isNull v.content = true ∧ isNull w.content = true
  | .error e, .error e' => e = e'
  | _, _ => False

/-- No call notices the calls before it. -/
def HistoryFree (r : RLPView) : Prop :=
  ∀ (calls : List UInt64) (i : UInt64),
    Same ((subscript r i).run (after r calls)).1 ((subscript r i).run {}).1

theorem Same.refl (x : Except RLPException RLPView) : Same x x := by
  cases x with
  | error e => rfl
  | ok v => exact .inl rfl

theorem payload_points (hr : r.m_data.Points) (hp : payload r = .ok pl) :
    pl = .null ∨ pl.Points ∧ pl.m_count ≤ r.m_data.m_count := by
  unfold payload at hp
  cases hl : length r.content with
  | error e =>
    rw [hl] at hp
    cases hp
  | ok l =>
    rw [hl, ok_bind] at hp
    by_cases hlt : r.m_data.m_count < l
    · rw [if_pos hlt] at hp
      cases hp
    · rw [if_neg hlt] at hp
      cases hp
      by_cases hfit : r.m_data.address.isSome ∧ payloadOffset r.content ≤ r.m_data.m_count ∧
          l ≤ r.m_data.m_count ∧ payloadOffset r.content + l ≤ r.m_data.m_count
      · have hc : r.m_data.cropped (payloadOffset r.content) l =
            (r.m_data.back (payloadOffset r.content)).front l := if_pos hfit
        rw [hc]
        refine .inr ⟨(hr.back _).front ?_, hfit.2.2.1⟩
        show l ≤ r.m_data.m_count - payloadOffset r.content
        omega
      · exact .inl (if_neg hfit)

theorem Marks.item_content (hp : pl.Points) (hm : Marks pl c xs)
    (h0 : c.m_lastItem.m_count ≠ 0) :
    ∃ ys x, xs = ys ++ [x] ∧ ys.length = c.m_lastIndex ∧ c.m_lastItem.Points ∧
      c.m_lastItem.content = x := by
  obtain ⟨ys, x, rfl, hidx, hitem⟩ := hm.found h0
  have hflat := hm.begins.flatten
  rw [List.flatten_append, List.append_assoc] at hflat
  have hlen := congrArg List.length hflat
  simp only [List.length_append, List.flatten_cons, List.flatten_nil, List.append_nil] at hlen
  rw [hp.length_content] at hlen
  have hle : x.length ≤ (pl.back ys.flatten.length).m_count := by
    show x.length ≤ pl.m_count - ys.flatten.length
    omega
  refine ⟨ys, x, rfl, hidx, ?_, ?_⟩
  · rw [hitem]
    exact (hp.back _).front hle
  · rw [hitem, content_front hle, content_back, hflat, List.drop_left, List.flatten_cons,
      List.flatten_nil, List.append_nil, List.take_left]

theorem construct_of_empty {d : BytesConstRef} (h0 : d.m_count = 0) :
    construct d {throwOnFail := true, failIfTooSmall := true} = .ok ⟨d⟩ := by
  have hnil : content ⟨d⟩ = [] := by
    show d.memory.take d.m_count = []
    rw [h0, List.take_zero]
  rw [construct_eq_checkTooSmall, checkTooSmall_eq _ rfl, hnil, h0]
  rfl

/-- An item that was found is a view of its own. -/
theorem answer_of_cut (hp : pl.Points) (h : cut pl i = .ok c) :
    answer pl i = .ok ⟨c.m_lastItem⟩ := by
  unfold answer
  rw [h, ok_bind]
  by_cases h0 : c.m_lastItem.m_count = 0
  · exact construct_of_empty h0
  · obtain ⟨xs, hm⟩ := marks_of_cut hp h
    obtain ⟨ys, x, rfl, -, hitem, hx⟩ := hm.item_content hp h0
    obtain ⟨off, len, hext, hlen⟩ :=
      hm.begins.extent_mem (List.mem_append_right ys List.mem_cons_self)
    rw [construct_eq_checkTooSmall]
    refine checkTooSmall_of_extent (hx ▸ hext) ?_
    rw [hlen, ← hx, hitem.length_content]

theorem cut_null (i : ℕ) : cut .null i = .ok ⟨0, 0, .null⟩ := forward_end rfl

/-- An index that no buffer has room for is behind the end. -/
theorem item_ended (hp : pl.Points) (h : cut pl i = .ok c) (hi : pl.m_count ≤ i) :
    c.m_lastItem.m_count = 0 := by
  by_contra h0
  obtain ⟨xs, hm⟩ := marks_of_cut hp h
  have hindex := hm.index h0
  have hle := Begins.length_le hm.begins
  rw [hp.length_content] at hle
  have hlast := not_lt.mp fun hlt => h0 ((cut_index h).2 hlt)
  omega

/-- The items can be followed to the end. -/
def Steady (pl : BytesConstRef) : Prop := ∀ {i c} n, cut pl i = .ok c → ∃ c', cut pl n = .ok c'

theorem steady_null : Steady .null := fun {_ _} n _ => ⟨_, cut_null n⟩

theorem steady_of_unbroken (hp : pl.Points) (hu : Unbroken pl.content) : Steady pl := by
  intro i c n h
  obtain ⟨size, hsize⟩ := cut_zero_of_cut h
  have hzero : cut pl 0 = .ok ⟨0, size, pl.cropped 0 size⟩ := by
    unfold cut
    rw [hsize]
    rfl
  exact cut_of_unbroken hp hu hzero n

theorem Steady.not_stuck (hs : Steady pl) (h : cut pl i = .ok c) (h0 : c.m_lastItem.m_count ≠ 0)
    (he : sizeAsEncoded (pl.croppedFrom c.m_lastEnd) = .error e) : False := by
  obtain ⟨c', hc'⟩ := hs (c.m_lastIndex + 1) h
  rw [cut_add, cut_self h, ok_bind, forward_succ h0] at hc'
  unfold follow at hc'
  dsimp only at hc'
  rw [he] at hc'
  cases hc'

/-- Where the items can be followed, every call gives what the payload has. -/
theorem subscript_of_steady (hpl : payload r = .ok pl) (hs : Steady pl) (hc : Position r c)
    {i : UInt64} (hi : i.toNat < 2 ^ 64 - 1 ∨ c ≠ {}) :
    ((subscript r i).run c).1 = answer pl i.toNat := by
  cases hc with
  | fresh => exact (subscript_answers_lt hpl .fresh (hi.resolve_right (not_not.mpr rfl))).1
  | on hp' h =>
    rw [hpl] at hp'
    cases hp'
    exact (subscript_answers_on hpl h i).1
  | stuck hp' h h0 he =>
    rw [hpl] at hp'
    cases hp'
    exact (hs.not_stuck h h0 he).elim

theorem Position.fresh_of_error (hp : payload r = .error e) (hc : Position r c) : c = {} := by
  cases hc with
  | fresh => rfl
  | on hp' h =>
    rw [hp] at hp'
    cases hp'
  | stuck hp' h h0 he =>
    rw [hp] at hp'
    cases hp'

theorem Position.cut (hpl : payload r = .ok pl) (hc : Position r c) (hne : c ≠ {}) :
    ∃ i c', cut pl i = .ok c' := by
  cases hc with
  | fresh => exact absurd rfl hne
  | on hp h =>
    rw [hpl] at hp
    cases hp
    exact ⟨_, _, h⟩
  | stuck hp h h0 he =>
    rw [hpl] at hp
    cases hp
    exact ⟨_, _, h⟩

theorem historyFree_of_steady (hpl : payload r = .ok pl) (hs : Steady pl)
    (hend : ∀ {c}, RLPView.cut pl (2 ^ 64 - 1) = .ok c → c.m_lastItem.m_count = 0) :
    HistoryFree r := by
  intro calls i
  have hc := Position.after r calls
  cases toNat_lt_or_last i with
  | inl hi =>
    rw [subscript_of_steady hpl hs hc (.inl hi), subscript_of_steady hpl hs .fresh (.inl hi)]
    exact .refl _
  | inr hi =>
    by_cases hne : after r calls = {}
    · rw [hne]
      exact .refl _
    · obtain ⟨n, c, hcut⟩ := hc.cut hpl hne
      obtain ⟨c', hlast⟩ := hs (2 ^ 64 - 1) hcut
      have hzero := hend hlast
      rw [subscript_of_steady hpl hs hc (.inr hne), subscript_fresh_last hi, hi]
      unfold answer
      rw [hlast, ok_bind, construct_of_empty hzero]
      refine .inr ⟨?_, rfl⟩
      show isNull (c'.m_lastItem.memory.take c'.m_lastItem.m_count) = true
      rw [hzero]
      rfl

/-- A new object goes to the item of an index. -/
theorem subscript_run_fresh (hpl : payload r = .ok pl) (hp : pl.Points) {i : UInt64}
    (hi : i.toNat < 2 ^ 64 - 1) (h : cut pl i.toNat = .ok c) :
    (subscript r i).run {} = (.ok ⟨c.m_lastItem⟩, c) := by
  obtain ⟨size, hs⟩ := cut_zero_of_cut h
  have hzero : cut pl 0 = .ok ⟨0, size, pl.cropped 0 size⟩ := by
    unfold cut
    rw [hs]
    rfl
  have hfirst := firstItem_run r {}
  rw [hpl, ok_bind, hzero] at hfirst
  have hcut := cut_of_le hzero (n := i.toNat) (Nat.zero_le _)
  have hanswer := answer_of_cut hp h
  rw [subscript_run_lt hi, Throwing.run_bind_ok hfirst, goOn_run]
  unfold answer at hanswer
  rw [h, ok_bind] at hanswer
  cases walk_run hpl hzero (i.toNat - 0) with
  | inl hok =>
    obtain ⟨c', hf, hrun⟩ := hok
    rw [hcut, hf] at h
    cases h
    rw [hrun]
    dsimp only
    rw [hanswer]
  | inr herr =>
    obtain ⟨e, c', hf, -⟩ := herr
    rw [hcut, hf] at h
    cases h

theorem skip_eq_forward (n : ℕ) (c : ListCursor) :
    skip pl n c.m_lastItem c.m_lastEnd = (forward pl n c >>= fun c => .ok c.m_lastItem) := by
  induction n generalizing c with
  | zero => rfl
  | succ n ih =>
    by_cases h0 : c.m_lastItem.m_count = 0
    · rw [forward_end h0]
      exact if_pos h0
    · rw [forward_succ h0, skip, if_neg h0]
      unfold follow
      dsimp only
      cases sizeAsEncoded (pl.croppedFrom c.m_lastEnd) with
      | error e => rfl
      | ok k =>
        exact ih ⟨c.m_lastIndex + 1,
          c.m_lastEnd + ((pl.croppedFrom c.m_lastEnd).cropped 0 k).m_count,
          (pl.croppedFrom c.m_lastEnd).cropped 0 k⟩

/-- `item` is the call on a new object. -/
theorem subscript_fresh_eq_item {i : UInt64} (hi : i.toNat < 2 ^ 64 - 1) :
    ((subscript r i).run {}).1 = item r i.toNat := by
  unfold item
  cases hpl : payload r with
  | error e =>
    rw [subscript_run_error hpl hi]
    rfl
  | ok pl =>
    rw [(subscript_answers_lt hpl .fresh hi).1, ok_bind]
    unfold answer cut
    cases sizeAsEncoded pl with
    | error e => rfl
    | ok size =>
      have hskip : skip pl i.toNat _ _ = _ :=
        skip_eq_forward i.toNat ⟨0, size, pl.cropped 0 size⟩
      dsimp only at hskip
      rw [ok_bind, ok_bind, hskip]
      cases forward pl i.toNat ⟨0, size, pl.cropped 0 size⟩ <;> rfl

/-- Behind an item that nothing readable follows, a call for it depends on the calls before. -/
theorem not_historyFree_of_broken (hpl : payload r = .ok pl) (hp : pl.Points)
    (hcut : cut pl i = .ok c) (hi : c.m_lastIndex + 1 < 2 ^ 64) (h0 : c.m_lastItem.m_count ≠ 0)
    (he : sizeAsEncoded (pl.croppedFrom c.m_lastEnd) = .error e) : ¬HistoryFree r := by
  intro hfree
  have hthis : (UInt64.ofNat c.m_lastIndex).toNat = c.m_lastIndex :=
    UInt64.toNat_ofNat_of_lt' (by show _ < 2 ^ 64; omega)
  have hnext : (UInt64.ofNat (c.m_lastIndex + 1)).toNat = c.m_lastIndex + 1 :=
    UInt64.toNat_ofNat_of_lt' hi
  have hfirst := subscript_run_fresh (i := UInt64.ofNat c.m_lastIndex) hpl hp
    (by rw [hthis]; omega) (by rw [hthis]; exact cut_self hcut)
  have hbreak := subscript_breaks (i := UInt64.ofNat (c.m_lastIndex + 1)) hpl h0 he
    (by rw [hnext]; omega)
  have hstuck := subscript_stuck (i := UInt64.ofNat c.m_lastIndex) hpl he hthis.ge
  have hafter : after r [UInt64.ofNat c.m_lastIndex, UInt64.ofNat (c.m_lastIndex + 1)] =
      {c with m_lastItem := pl.croppedFrom c.m_lastEnd} := by
    unfold after
    rw [List.foldl_cons, List.foldl_cons, List.foldl_nil, hfirst, hbreak]
  have hsame := hfree [UInt64.ofNat c.m_lastIndex, UInt64.ofNat (c.m_lastIndex + 1)]
    (UInt64.ofNat c.m_lastIndex)
  rw [hafter, hstuck, hfirst] at hsame
  exact hsame

/-- A list of two items, the second of which is cut off. -/
def brokenList : Bytes := [0xc2, 0x01, 0x82]

end RLPView
end Aleth.Devcore
