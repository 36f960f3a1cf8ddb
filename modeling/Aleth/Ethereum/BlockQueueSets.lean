import Aleth.Ethereum.BlockQueue

/-! The blocks of the block queue and its sets of hashes.

`Sound owed q`: each set has the hashes that its queues hold, with those that a
call has taken out and not yet erased (`owed`), and no hash is in two sets. The
facts are about how often a hash is listed, so that moving blocks between the
queues is arithmetic.

A pass of the loop of `updateBad` keeps this where the bad blocks are the last
of their queue (`Trailing`). -/
namespace Aleth.Ethereum
open Devcore Ethcore

namespace SizedBlockQueue
variable {α : Type} {pred : α → Bool} {moved : α → α} {l : List α}

/-- No element that is kept stands behind one that is removed. -/
def Trailing (pred : α → Bool) (l : List α) : Prop := l.Pairwise fun x y => pred x → pred y

instance Trailing.decidable (pred : α → Bool) (l : List α) : Decidable (Trailing pred l) :=
  inferInstanceAs (Decidable (List.Pairwise _ l))

theorem remains_all (h : ∀ x ∈ l, pred x = true) : remains moved pred l = l := by
  have hnone : l.filter (!pred ·) = [] := by
    rw [List.filter_eq_nil_iff]
    intro x hx
    simp [h x hx]
  rw [remains, hnone]
  exact (List.map_congr_left fun x hx => if_pos (h x hx)).trans (List.map_id l)

/-- What is returned is what was removed, if it is the end of the queue. -/
theorem remains_of_trailing (h : Trailing pred l) : remains moved pred l = l.filter pred := by
  induction l with
  | nil => rfl
  | cons x l ih =>
    obtain ⟨hx, hl⟩ := List.pairwise_cons.mp h
    cases hp : pred x with
    | true =>
      have hall : ∀ y ∈ x :: l, pred y = true := by
        intro y hy
        cases List.mem_cons.mp hy with
        | inl e => rw [e, hp]
        | inr hy => exact hx y hy hp
      rw [remains_all hall, List.filter_eq_self.mpr hall]
    | false =>
      have hfilter : (x :: l).filter (!pred ·) = x :: l.filter (!pred ·) := by simp [hp]
      have hrest := ih hl
      unfold remains at hrest ⊢
      rw [hfilter, List.length_cons, List.drop_succ_cons, hrest,
        List.filter_cons_of_neg (by rw [hp]; exact Bool.false_ne_true)]

end SizedBlockQueue

/-- What is listed stands among the elements with the property or among the others. -/
theorem count_filter_map {α β : Type} [DecidableEq β] (f : α → β) (pred : α → Bool) (l : List α)
    (x : β) : ((l.filter pred).map f).count x + ((l.filter (!pred ·)).map f).count x =
      (l.map f).count x := by
  rw [← List.count_append, ← List.map_append]
  exact ((List.filter_append_perm pred l).map f).count_eq x

namespace BlockQueue
variable {q : BlockQueue} {owed : List H256} {h : H256}

/-! ### Sets and queues -/

/-- The hashes of the blocks that are ready, from the front to the back. -/
def readyHashes (q : BlockQueue) : List H256 :=
  q.m_verified.map VerifiedBlock.infoHash ++ q.m_verifying.map VerifiedBlock.entryHash ++
    q.m_unverified.map UnverifiedBlock.hash

/-- The set has what is listed, and nothing is listed twice. -/
def Lists (l : List H256) (s : Finset H256) : Prop := ∀ h, l.count h = if h ∈ s then 1 else 0

/-- In how many of the sets a hash is. -/
def places (q : BlockQueue) (h : H256) : ℕ :=
  (if h ∈ q.m_readySet then 1 else 0) + (if h ∈ q.m_drainingSet then 1 else 0) +
    (if h ∈ q.m_unknownSet then 1 else 0) + (if h ∈ q.m_futureSet then 1 else 0) +
    if h ∈ q.m_knownBad then 1 else 0

structure Sound (owed : List H256) (q : BlockQueue) : Prop where
  ready : Lists (owed ++ q.readyHashes) q.m_readySet
  unknown : Lists q.m_unknown.hashes q.m_unknownSet
  future : Lists q.m_future.hashes q.m_futureSet
  apart : ∀ h, q.places h ≤ 1

theorem sound_empty : Sound [] {} :=
  ⟨fun _ => rfl, fun _ => rfl, fun _ => rfl, fun _ => Nat.zero_le 1⟩

theorem mem_iff_count {l : List H256} : h ∈ l ↔ 0 < l.count h := List.count_pos_iff.symm

/-- What is removed by a key and what is left. -/
theorem count_removeByKeyEqual (key : H256) (m : SizedBlockMap H256) (h : H256) :
    ((m.removeByKeyEqual key).1.map Prod.fst).count h + (m.removeByKeyEqual key).2.hashes.count h =
      m.hashes.count h := by
  have hcount := count_filter_map (fun e : H256 × H256 × Bytes => e.2.1) (fun e => e.1 = key) m h
  simp only [← decide_not] at hcount
  unfold SizedBlockMap.removeByKeyEqual SizedBlockMap.hashes
  rw [List.map_map]
  exact hcount

/-! ### Bad blocks -/

theorem foldl_noteUnknownBad (l : List (H256 × Bytes)) (q : BlockQueue) :
    l.foldl noteUnknownBad q = {q with
      m_unknownSet := q.m_unknownSet \ (l.map Prod.fst).toFinset
      m_knownBad := q.m_knownBad ∪ (l.map Prod.fst).toFinset} := by
  induction l generalizing q with
  | nil => simp
  | cons e l ih =>
    rw [List.foldl_cons, ih]
    simp only [noteUnknownBad, List.map_cons, List.toFinset_cons]
    congr 1
    · exact Finset.ext fun x => by simp; tauto
    · exact Finset.ext fun x => by simp

/-- Blocks of `m_unknown` are found bad. -/
theorem Sound.unknownBad (hs : Sound owed q) (key : H256) :
    Sound owed ((q.m_unknown.removeByKeyEqual key).1.foldl noteUnknownBad
      {q with m_unknown := (q.m_unknown.removeByKeyEqual key).2}) := by
  have hmem : ∀ x, x ∈ ((q.m_unknown.removeByKeyEqual key).1.map Prod.fst) ↔
      0 < ((q.m_unknown.removeByKeyEqual key).1.map Prod.fst).count x := fun _ => mem_iff_count
  rw [foldl_noteUnknownBad]
  refine ⟨hs.ready, fun x => ?_, hs.future, fun x => ?_⟩
  · have hx := hs.unknown x
    have hcount := count_removeByKeyEqual key q.m_unknown x
    simp only [Finset.mem_sdiff, List.mem_toFinset, hmem]
    grind
  · have hx := hs.unknown x
    have hcount := count_removeByKeyEqual key q.m_unknown x
    have happart := hs.apart x
    simp only [places, Finset.mem_sdiff, Finset.mem_union, List.mem_toFinset, hmem] at happart ⊢
    grind

theorem collectLoop_cons (fuel : ℕ) (bad : H256) (badQueue : List H256) (q : BlockQueue) :
    collectLoop (fuel + 1) (bad :: badQueue) q =
      collectLoop fuel (badQueue ++ (q.m_unknown.removeByKeyEqual bad).1.map Prod.fst)
        ((q.m_unknown.removeByKeyEqual bad).1.foldl noteUnknownBad
          {q with m_unknown := (q.m_unknown.removeByKeyEqual bad).2}) := rfl

theorem Sound.collectLoop {fuel : ℕ} {badQueue : List H256} (hs : Sound owed q) :
    Sound owed (collectLoop fuel badQueue q) := by
  induction fuel generalizing badQueue q with
  | zero => exact hs
  | succ fuel ih =>
    cases badQueue with
    | nil => exact hs
    | cons bad badQueue =>
      rw [collectLoop_cons]
      exact ih (hs.unknownBad bad)

theorem Sound.collectUnknownBad (hs : Sound owed q) (bad : H256) :
    Sound owed (q.collectUnknownBad bad) := hs.collectLoop

theorem Sound.ready_erase (hs : Sound (h :: owed) q) :
    Lists (owed ++ q.readyHashes) (q.m_readySet.erase h) := by
  intro x
  have hx := hs.ready x
  have hh := hs.ready h
  simp only [List.cons_append, List.count_cons, Finset.mem_erase] at hx hh ⊢
  grind

/-- A block that was taken out of its queue is noted as bad. -/
theorem Sound.noteBad (hs : Sound (h :: owed) q) : Sound owed (q.noteBad h) := by
  have hnoted : Sound owed {q with
      m_knownBad := insert h q.m_knownBad
      m_readySet := q.m_readySet.erase h} := by
    refine ⟨fun x => ?_, hs.unknown, hs.future, fun x => ?_⟩
    · exact hs.ready_erase x
    · have hh := hs.ready h
      have hx := hs.apart x
      simp only [List.cons_append, List.count_cons] at hh
      simp only [places, Finset.mem_insert, Finset.mem_erase] at hx ⊢
      grind
  exact hnoted.collectUnknownBad h

theorem Sound.foldl_noteBad {l : List H256} (hs : Sound (l ++ owed) q) :
    Sound owed (l.foldl BlockQueue.noteBad q) := by
  induction l generalizing q with
  | nil => exact hs
  | cons x l ih => exact ih hs.noteBad

/-- The bad blocks of the queue that a pass goes through are its last. -/
def Trailing (q : BlockQueue) : Pass → Prop
  | .verified => SizedBlockQueue.Trailing (badVerified q.m_knownBad) q.m_verified
  | .unverified => SizedBlockQueue.Trailing (badUnverified q.m_knownBad) q.m_unverified
  | .verifying => SizedBlockQueue.Trailing (badVerifying q.m_knownBad) q.m_verifying

instance Trailing.decidable (q : BlockQueue) : (p : Pass) → Decidable (q.Trailing p)
  | .verified => SizedBlockQueue.Trailing.decidable _ _
  | .unverified => SizedBlockQueue.Trailing.decidable _ _
  | .verifying => SizedBlockQueue.Trailing.decidable _ _

/-- Where they are, a pass takes the right blocks out of the queue. -/
theorem count_sweep {p : Pass} (ht : q.Trailing p) (x : H256) :
    ((q.sweep p).1 ++ (q.sweep p).2.readyHashes).count x = q.readyHashes.count x := by
  cases p with
  | verified =>
    have hcount := count_filter_map VerifiedBlock.infoHash (badVerified q.m_knownBad) q.m_verified x
    have hremains := @SizedBlockQueue.remains_of_trailing _ _ VerifiedBlock.moved _ ht
    simp only [sweep, SizedBlockQueue.removeIf, hremains, readyHashes, List.count_append]
    omega
  | unverified =>
    have hcount := count_filter_map UnverifiedBlock.hash (badUnverified q.m_knownBad)
      q.m_unverified x
    have hremains := @SizedBlockQueue.remains_of_trailing _ _ UnverifiedBlock.moved _ ht
    simp only [sweep, SizedBlockQueue.removeIf, hremains, readyHashes, List.count_append]
    omega
  | verifying =>
    have hcount := count_filter_map VerifiedBlock.entryHash (badVerifying q.m_knownBad)
      q.m_verifying x
    have hremains := @SizedBlockQueue.remains_of_trailing _ _ VerifiedBlock.moved _ ht
    simp only [sweep, SizedBlockQueue.removeIf, hremains, readyHashes, List.count_append]
    omega

theorem sound_sweep {p : Pass} (hs : Sound [] q) (ht : q.Trailing p) :
    Sound (q.sweep p).1 (q.sweep p).2 := by
  have hready : Lists ((q.sweep p).1 ++ (q.sweep p).2.readyHashes) q.m_readySet := fun x =>
    (count_sweep ht x).trans (hs.ready x)
  cases p <;> exact ⟨hready, hs.unknown, hs.future, hs.apart⟩

theorem Sound.pass {p : Pass} (hs : Sound [] q) (ht : q.Trailing p) : Sound [] (q.pass p).2 := by
  have hsweep := sound_sweep hs ht
  rw [← List.append_nil (q.sweep p).1] at hsweep
  exact hsweep.foldl_noteBad

/-! ### Blocks that became ready -/

theorem foldl_noteNewReady (parent : H256) (l : List (H256 × Bytes)) (q : BlockQueue) :
    l.foldl (noteNewReady parent) q = {q with
      m_unverified := q.m_unverified ++ l.map fun e => ⟨e.1, parent, e.2⟩
      m_unknownSet := q.m_unknownSet \ (l.map Prod.fst).toFinset
      m_readySet := q.m_readySet ∪ (l.map Prod.fst).toFinset} := by
  induction l generalizing q with
  | nil => simp
  | cons e l ih =>
    rw [List.foldl_cons, ih]
    simp only [noteNewReady, List.map_cons, List.toFinset_cons]
    congr 1
    · exact Finset.ext fun x => by simp
    · exact Finset.ext fun x => by simp; tauto
    · simp

theorem Sound.newReady (hs : Sound owed q) (key parent : H256) :
    Sound owed ((q.m_unknown.removeByKeyEqual key).1.foldl (noteNewReady parent)
      {q with m_unknown := (q.m_unknown.removeByKeyEqual key).2}) := by
  have hmem : ∀ x, x ∈ ((q.m_unknown.removeByKeyEqual key).1.map Prod.fst) ↔
      0 < ((q.m_unknown.removeByKeyEqual key).1.map Prod.fst).count x := fun _ => mem_iff_count
  have hmap : ((q.m_unknown.removeByKeyEqual key).1.map fun e =>
      (⟨e.1, parent, e.2⟩ : UnverifiedBlock)).map UnverifiedBlock.hash =
        (q.m_unknown.removeByKeyEqual key).1.map Prod.fst := by
    rw [List.map_map]
    rfl
  rw [foldl_noteNewReady]
  refine ⟨fun x => ?_, fun x => ?_, hs.future, fun x => ?_⟩
  all_goals
    have hx := hs.unknown x
    have hready := hs.ready x
    have hcount := count_removeByKeyEqual key q.m_unknown x
    have happart := hs.apart x
    simp only [places] at happart
  · simp only [readyHashes, List.map_append, List.count_append, hmap, Finset.mem_union,
      List.mem_toFinset, hmem] at hready ⊢
    grind
  · simp only [Finset.mem_sdiff, List.mem_toFinset, hmem]
    grind
  · simp only [places, Finset.mem_sdiff, Finset.mem_union, List.mem_toFinset, hmem]
    grind

theorem readyLoop_cons (fuel : ℕ) (parent : H256) (goodQueue : List H256) (q : BlockQueue) :
    readyLoop (fuel + 1) (parent :: goodQueue) q =
      readyLoop fuel (goodQueue ++ (q.m_unknown.removeByKeyEqual parent).1.map Prod.fst)
        ((q.m_unknown.removeByKeyEqual parent).1.foldl (noteNewReady parent)
          {q with m_unknown := (q.m_unknown.removeByKeyEqual parent).2}) := rfl

theorem Sound.readyLoop {fuel : ℕ} {goodQueue : List H256} (hs : Sound owed q) :
    Sound owed (readyLoop fuel goodQueue q) := by
  induction fuel generalizing goodQueue q with
  | zero => exact hs
  | succ fuel ih =>
    cases goodQueue with
    | nil => exact hs
    | cons parent goodQueue =>
      rw [readyLoop_cons]
      exact ih (hs.newReady parent parent)

theorem Sound.noteReady (hs : Sound owed q) (good : H256) : Sound owed (q.noteReady good) :=
  hs.readyLoop

theorem Sound.retryLoop {fuel : ℕ} (hs : Sound owed q) : Sound owed (retryLoop fuel q) := by
  induction fuel generalizing q with
  | zero => exact hs
  | succ fuel ih =>
    unfold BlockQueue.retryLoop
    cases q.m_unknown.head?.map Prod.fst with
    | none => exact hs
    | some parent => exact ih (hs.newReady parent parent)

theorem Sound.retryAllUnknown (hs : Sound owed q) : Sound owed q.retryAllUnknown := hs.retryLoop

/-! ### Verifying -/

theorem Sound.take {work : UnverifiedBlock} {q' : BlockQueue} (hs : Sound owed q)
    (ht : q.take = some (work, q')) : Sound owed q' := by
  obtain ⟨w, hw, he⟩ := Option.map_eq_some_iff.mp ht
  cases he
  obtain ⟨rest, hq⟩ := List.head?_eq_some_iff.mp hw
  have hentry : (placeholder work).entryHash = work.hash := rfl
  refine ⟨fun x => ?_, hs.unknown, hs.future, hs.apart⟩
  have hx := hs.ready x
  simp only [readyHashes, hq, List.map_append, List.map_cons, List.map_nil, List.count_append,
    List.count_cons, List.tail_cons, hentry, List.count_nil] at hx ⊢
  omega

/-- A verified block at the front of `m_verifying` leaves it. -/
theorem Sound.release {b : VerifiedBlock} {entries : List VerifiedBlock}
    (hs : Sound owed {q with m_verifying := b :: entries}) (hb : b.blockData ≠ []) :
    Sound owed {q.release b with m_verifying := entries} := by
  have hentry : b.entryHash = b.infoHash := if_pos (fun h0 => hb (List.length_eq_zero_iff.mp h0))
  unfold BlockQueue.release
  by_cases hbad : b.info.m_parentHash ∈ q.m_knownBad
  · rw [if_pos hbad]
    have hb := hs.ready b.infoHash
    refine ⟨fun x => ?_, hs.unknown, hs.future, fun x => ?_⟩
    · have hx := hs.ready x
      simp only [readyHashes, List.map_cons, hentry, List.count_append, List.count_cons,
        Finset.mem_erase] at hb hx ⊢
      grind
    · have hx := hs.apart x
      simp only [readyHashes, List.map_cons, hentry, List.count_append, List.count_cons] at hb
      simp only [places, Finset.mem_insert, Finset.mem_erase] at hx ⊢
      grind
  · rw [if_neg hbad]
    refine ⟨fun x => ?_, hs.unknown, hs.future, hs.apart⟩
    have hx := hs.ready x
    simp only [readyHashes, List.map_append, List.map_cons, List.map_nil, hentry,
      List.count_append, List.count_cons, List.count_nil] at hx ⊢
    omega

theorem release_verifying (b : VerifiedBlock) (entries : List VerifiedBlock) (q : BlockQueue) :
    {q.release b with m_verifying := entries} =
      ({q with m_verifying := entries} : BlockQueue).release b := by
  unfold BlockQueue.release
  by_cases hbad : b.info.m_parentHash ∈ q.m_knownBad
  · rw [if_pos hbad]
    exact (if_pos hbad).symm
  · rw [if_neg hbad]
    exact (if_neg hbad).symm

theorem Sound.drainLoop {entries : List VerifiedBlock}
    (hs : Sound owed {q with m_verifying := entries}) : Sound owed (drainLoop entries q) := by
  induction entries generalizing q with
  | nil => exact hs
  | cons b entries ih =>
    unfold BlockQueue.drainLoop
    by_cases hb : b.blockData ≠ []
    · rw [if_pos hb]
      exact ih (hs.release hb)
    · rw [if_neg hb]
      exact hs

theorem Sound.drainVerified (hs : Sound owed q) : Sound owed q.drainVerified := hs.drainLoop

/-- No verified block in `m_verifying` has the hash for its uncles. -/
def Unaliased (q : BlockQueue) (h : H256) : Prop :=
  ∀ b ∈ q.m_verifying, b.blockData ≠ [] → b.info.m_sha3Uncles ≠ h

/-- A block that was taken has its entry, or is known to be bad. -/
def Held (q : BlockQueue) (work : UnverifiedBlock) : Prop :=
  placeholder work ∈ q.m_verifying ∨ work.hash ∈ q.m_knownBad

/-- An entry with the hash is that of the block, where no other has the hash for its uncles. -/
theorem Unaliased.entryHash (hu : q.Unaliased h) {b : VerifiedBlock} (hb : b ∈ q.m_verifying)
    (he : b.info.m_sha3Uncles = h) : b.entryHash = h := by
  have hdata : b.blockData = [] := by
    by_contra hne
    exact hu b hb hne he
  unfold VerifiedBlock.entryHash
  rw [hdata, if_neg (by simp), he]

theorem Sound.reportBad {work : UnverifiedBlock} (hs : Sound [] q) (hu : q.Unaliased work.hash)
    (hheld : q.Held work) : Sound [] (q.reportBad work) := by
  let named : VerifiedBlock → Bool := fun b => b.info.m_sha3Uncles = work.hash
  have hcount := count_filter_map VerifiedBlock.entryHash named q.m_verifying
  have hall : ∀ x, ((q.m_verifying.filter named).map VerifiedBlock.entryHash).count x =
      if x = work.hash then (q.m_verifying.filter named).length else 0 := by
    intro x
    have hsame : (q.m_verifying.filter named).map VerifiedBlock.entryHash =
        List.replicate (q.m_verifying.filter named).length work.hash := by
      rw [List.eq_replicate_iff, List.length_map]
      refine ⟨rfl, fun y hy => ?_⟩
      obtain ⟨b, hb, rfl⟩ := List.mem_map.mp hy
      obtain ⟨hmem, hname⟩ := List.mem_filter.mp hb
      exact hu.entryHash hmem (of_decide_eq_true hname)
    rw [hsame, List.count_replicate]
    grind
  have hpos : work.hash ∉ q.m_knownBad → 0 < (q.m_verifying.filter named).length := by
    intro hbad
    have hplace := hheld.resolve_right hbad
    exact List.length_pos_of_mem (List.mem_filter.mpr ⟨hplace, decide_eq_true rfl⟩)
  have hw := hs.ready work.hash
  have hapart := hs.apart work.hash
  refine Sound.drainVerified ⟨fun x => ?_, hs.unknown, hs.future, fun x => ?_⟩
  all_goals
    have hx := hs.ready x
    have hplaces := hs.apart x
    have hcx := hcount x
    have hcw := hcount work.hash
    have hax := hall x
    have haw := hall work.hash
    simp only [places, readyHashes, List.nil_append, List.count_append] at hw hapart hx hplaces
  · simp only [readyHashes, List.nil_append, List.count_append, SizedBlockQueue.removeIf,
      Finset.mem_erase]
    grind
  · simp only [places, Finset.mem_insert, Finset.mem_erase]
    grind

/-- A block takes the place of its entry. -/
theorem map_replace {β : Type} {f : VerifiedBlock → β} {res : VerifiedBlock}
    {l : List VerifiedBlock} (hl : ∀ b ∈ l, b.info.m_sha3Uncles = h → f b = f res) :
    (replace h res l).map f = l.map f := by
  induction l with
  | nil => rfl
  | cons b l ih =>
    unfold replace
    by_cases hb : b.info.m_sha3Uncles = h
    · rw [if_pos hb, List.map_cons, List.map_cons, hl b List.mem_cons_self hb]
    · rw [if_neg hb, List.map_cons, List.map_cons,
        ih fun c hc => hl c (List.mem_cons_of_mem b hc)]

theorem Sound.reportGood {work : UnverifiedBlock} {res : VerifiedBlock} (hs : Sound owed q)
    (hu : q.Unaliased work.hash) (hres : res.infoHash = work.hash) (hdata : res.blockData ≠ []) :
    Sound owed (q.reportGood work res) := by
  have hentry : res.entryHash = work.hash :=
    (if_pos fun h0 => hdata (List.length_eq_zero_iff.mp h0)).trans hres
  unfold BlockQueue.reportGood
  by_cases hnext : (q.m_verifying.head?.map fun b => b.info.m_sha3Uncles) = some work.hash
  · rw [if_pos hnext]
    obtain ⟨b, hhead, hname⟩ := Option.map_eq_some_iff.mp hnext
    obtain ⟨rest, hq⟩ := List.head?_eq_some_iff.mp hhead
    have hb := hu.entryHash (hq ▸ List.mem_cons_self) hname
    have hplaced : Sound owed {q with m_verifying := res :: rest} := by
      refine ⟨fun x => ?_, hs.unknown, hs.future, hs.apart⟩
      rw [← hs.ready x]
      simp only [readyHashes, hq, List.map_cons, hentry, hb]
    have hreleased := hplaced.release hdata
    rw [release_verifying] at hreleased
    rw [hq, List.tail_cons]
    exact hreleased.drainVerified
  · rw [if_neg hnext]
    refine ⟨fun x => ?_, hs.unknown, hs.future, hs.apart⟩
    have hmap := @map_replace work.hash _ VerifiedBlock.entryHash res q.m_verifying fun b hb hname =>
      (hu.entryHash hb hname).trans hentry.symm
    rw [← hs.ready x]
    simp only [readyHashes, hmap]

/-! ### Calls -/

variable {K : Type}

theorem count_insert [LT K] [DecidableLT K] (key : K) (hash : H256) (blockData : Bytes)
    (m : SizedBlockMap K) (x : H256) :
    (m.insert key hash blockData).hashes.count x =
      m.hashes.count x + if hash = x then 1 else 0 := by
  have hsplit := congrArg (fun l : SizedBlockMap K => l.hashes.count x)
    (@List.takeWhile_append_dropWhile _ (fun e : K × H256 × Bytes => ¬key < e.1) m)
  simp only [SizedBlockMap.hashes, SizedBlockMap.insert, List.map_append, List.map_cons,
    List.count_append, List.count_cons] at hsplit ⊢
  grind

/-- Nothing is known of the block. -/
theorem Sound.of_not_known (hs : Sound owed q) (hk : ¬q.known h = true) :
    q.places h = 0 ∧ (owed ++ q.readyHashes).count h = 0 ∧ q.m_unknown.hashes.count h = 0 ∧
      q.m_future.hashes.count h = 0 := by
  have h1 := hs.ready h
  have h2 := hs.unknown h
  have h3 := hs.future h
  simp only [known, Bool.or_eq_true, decide_eq_true_eq, not_or] at hk
  obtain ⟨⟨⟨⟨k1, k2⟩, k3⟩, k4⟩, k5⟩ := hk
  rw [if_neg k1] at h1
  rw [if_neg k3] at h2
  rw [if_neg k5] at h3
  refine ⟨?_, h1, h2, h3⟩
  simp only [places, if_neg k1, if_neg k2, if_neg k3, if_neg k4, if_neg k5]

theorem Sound.queueFuture (hs : Sound owed q) (hk : ¬q.known h = true) (isKnown : H256 → Bool)
    (bi : BlockHeader) (block : Bytes) : Sound owed (q.queueFuture isKnown h bi block).2 := by
  obtain ⟨h0, -, -, h3⟩ := hs.of_not_known hk
  refine ⟨hs.ready, hs.unknown, fun x => ?_, fun x => ?_⟩
  all_goals
    have hx := hs.future x
    have hapart := hs.apart x
  · simp only [BlockQueue.queueFuture, count_insert, Finset.mem_insert]
    grind
  · simp only [BlockQueue.queueFuture, places, Finset.mem_insert] at h0 hapart ⊢
    grind

theorem Sound.queueUnknown (hs : Sound owed q) (hk : ¬q.known h = true) (bi : BlockHeader)
    (block : Bytes) : Sound owed (q.queueUnknown h bi block) := by
  obtain ⟨h0, -, h2, -⟩ := hs.of_not_known hk
  refine ⟨hs.ready, fun x => ?_, hs.future, fun x => ?_⟩
  all_goals
    have hx := hs.unknown x
    have hapart := hs.apart x
  · simp only [BlockQueue.queueUnknown, count_insert, Finset.mem_insert]
    grind
  · simp only [BlockQueue.queueUnknown, places, Finset.mem_insert] at h0 hapart ⊢
    grind

/-- A block goes to the end of `m_unverified`. -/
def enqueue (h : H256) (bi : BlockHeader) (block : Bytes) (q : BlockQueue) : BlockQueue :=
  {q with
    m_unverified := q.m_unverified ++ [⟨h, bi.m_parentHash, block⟩]
    m_readySet := insert h q.m_readySet
    m_difficulty := q.m_difficulty + bi.m_difficulty}

theorem queueReady_eq (h : H256) (bi : BlockHeader) (block : Bytes) (q : BlockQueue) :
    q.queueReady h bi block = (q.enqueue h bi block).noteReady h := rfl

theorem Sound.enqueue (hs : Sound owed q) (hk : ¬q.known h = true) (bi : BlockHeader)
    (block : Bytes) : Sound owed (q.enqueue h bi block) := by
  obtain ⟨h0, h1, -, -⟩ := hs.of_not_known hk
  refine ⟨fun x => ?_, hs.unknown, hs.future, fun x => ?_⟩
  · have hx := hs.ready x
    simp only [BlockQueue.enqueue, readyHashes, List.map_append, List.map_cons, List.map_nil,
      List.count_append, List.count_cons, List.count_nil, Finset.mem_insert] at h1 hx ⊢
    grind
  · have hapart := hs.apart x
    simp only [BlockQueue.enqueue, places, Finset.mem_insert] at h0 hapart ⊢
    grind

theorem Sound.queueReady (hs : Sound owed q) (hk : ¬q.known h = true) (bi : BlockHeader)
    (block : Bytes) : Sound owed (q.queueReady h bi block) := (hs.enqueue hk bi block).noteReady h

theorem Sound.importHeader (hs : Sound [] q) (hk : ¬q.known h = true) {bi : BlockHeader}
    (hbi : bi.m_hash = h) (isKnown : H256 → Bool) (utcTime : ℤ) (isOurs : Bool) (block : Bytes) :
    Sound [] (q.importHeader isKnown utcTime isOurs h bi block).2.1 := by
  obtain ⟨h0, h1, -, -⟩ := hs.of_not_known hk
  unfold BlockQueue.importHeader
  split
  · exact hs
  split
  · exact hs.queueFuture hk isKnown bi block
  split
  · rw [hbi]
    refine ⟨hs.ready, hs.unknown, hs.future, fun x => ?_⟩
    have hapart := hs.apart x
    simp only [places, Finset.mem_insert] at h0 hapart ⊢
    grind
  split
  · exact hs.queueUnknown hk bi block
  · exact hs.queueReady hk bi block

theorem foldl_drain (l : List VerifiedBlock) (q : BlockQueue) :
    ∃ d, l.foldl (fun q bs => {q with
        m_drainingSet := insert bs.infoHash q.m_drainingSet
        m_drainingDifficulty := q.m_drainingDifficulty + bs.info.m_difficulty
        m_readySet := q.m_readySet.erase bs.infoHash}) q = {q with
      m_drainingSet := q.m_drainingSet ∪ (l.map VerifiedBlock.infoHash).toFinset
      m_drainingDifficulty := d
      m_readySet := q.m_readySet \ (l.map VerifiedBlock.infoHash).toFinset} := by
  induction l generalizing q with
  | nil => exact ⟨q.m_drainingDifficulty, by simp⟩
  | cons b l ih =>
    obtain ⟨d, hd⟩ := ih {q with
      m_drainingSet := insert b.infoHash q.m_drainingSet
      m_drainingDifficulty := q.m_drainingDifficulty + b.info.m_difficulty
      m_readySet := q.m_readySet.erase b.infoHash}
    refine ⟨d, ?_⟩
    rw [List.foldl_cons, hd]
    simp only [List.map_cons, List.toFinset_cons]
    congr 1
    · exact Finset.ext fun x => by simp
    · exact Finset.ext fun x => by simp; tauto

/-- What `drain` gives out, and what it leaves. -/
theorem drain_eq (hd : q.m_drainingSet = ∅) (max : ℕ) :
    ∃ d, q.drain max = (q.m_verified.take max, {q with
      m_verified := q.m_verified.drop max
      m_drainingSet := ((q.m_verified.take max).map VerifiedBlock.infoHash).toFinset
      m_drainingDifficulty := d
      m_readySet := q.m_readySet \ ((q.m_verified.take max).map VerifiedBlock.infoHash).toFinset}) := by
  obtain ⟨d, hd'⟩ := foldl_drain (q.m_verified.take max)
    {q with m_verified := q.m_verified.drop max, m_drainingDifficulty := 0}
  refine ⟨d, ?_⟩
  unfold drain
  rw [if_pos hd]
  refine Prod.ext rfl (hd'.trans ?_)
  rw [hd, Finset.empty_union]

theorem Sound.drain (hs : Sound [] q) (max : ℕ) : Sound [] (q.drain max).2 := by
  by_cases hd : q.m_drainingSet = ∅
  · obtain ⟨d, he⟩ := drain_eq hd max
    rw [he]
    have hsplit : ∀ x, ((q.m_verified.take max).map VerifiedBlock.infoHash).count x +
        ((q.m_verified.drop max).map VerifiedBlock.infoHash).count x =
          (q.m_verified.map VerifiedBlock.infoHash).count x := by
      intro x
      rw [← List.count_append, ← List.map_append, List.take_append_drop]
    have hmem : ∀ x, x ∈ (q.m_verified.take max).map VerifiedBlock.infoHash ↔
        0 < ((q.m_verified.take max).map VerifiedBlock.infoHash).count x := fun _ => mem_iff_count
    refine ⟨fun x => ?_, hs.unknown, hs.future, fun x => ?_⟩
    all_goals
      have hx := hs.ready x
      have hapart := hs.apart x
      have hsx := hsplit x
      simp only [places, readyHashes, List.nil_append, List.count_append] at hx hapart
    · simp only [readyHashes, List.nil_append, List.count_append, Finset.mem_sdiff,
        List.mem_toFinset, hmem]
      grind
    · simp only [places, Finset.mem_sdiff, List.mem_toFinset, hmem]
      grind
  · unfold BlockQueue.drain
    rw [if_neg hd]
    exact hs

/-- The bad blocks are among those that were drained. -/
theorem Sound.doneDrain (hs : Sound [] q) {bad : List H256} (hbad : ∀ h ∈ bad, h ∈ q.m_drainingSet) :
    Sound [] (q.doneDrain bad).1 := by
  refine ⟨hs.ready, hs.unknown, hs.future, fun x => ?_⟩
  have hapart := hs.apart x
  have hx := hbad x
  simp only [BlockQueue.doneDrain, places, Finset.mem_union, List.mem_toFinset,
    Finset.notMem_empty] at hapart ⊢
  grind

theorem foldl_erase (l : List (H256 × Bytes)) (s : Finset H256) :
    l.foldl (fun s e => s.erase e.1) s = s \ (l.map Prod.fst).toFinset := by
  induction l generalizing s with
  | nil => simp
  | cons e l ih =>
    rw [List.foldl_cons, ih, List.map_cons, List.toFinset_cons]
    exact Finset.ext fun x => by simp; tauto

theorem tick_eq (utcTime : ℤ) (q : BlockQueue) :
    (q.tick utcTime).1 = (q.m_future.filter fun e => ¬utcTime < e.1).map (fun e => e.2.2) ∧
      (q.tick utcTime).2 = {q with
        m_future := q.m_future.filter fun e => utcTime < e.1
        m_futureSet := q.m_futureSet \
          ((q.m_future.filter fun e => ¬utcTime < e.1).map fun e => e.2.1).toFinset} := by
  simp only [BlockQueue.tick, SizedBlockMap.removeByKeyNotGreater, foldl_erase, List.map_map]
  exact ⟨rfl, rfl⟩

theorem Sound.tick (hs : Sound owed q) (utcTime : ℤ) : Sound owed (q.tick utcTime).2 := by
  let due : ℤ × H256 × Bytes → Bool := fun e => ¬utcTime < e.1
  have hcount := count_filter_map (fun e : ℤ × H256 × Bytes => e.2.1) due q.m_future
  have hleft : q.m_future.filter (fun e => utcTime < e.1) = q.m_future.filter (!due ·) :=
    List.filter_congr fun e _ => by
      show decide (utcTime < e.1) = !decide ¬utcTime < e.1
      rw [decide_not, Bool.not_not]
  have htick := (tick_eq utcTime q).2
  rw [hleft] at htick
  have hmem : ∀ x, x ∈ (q.m_future.filter due).map (fun e => e.2.1) ↔
      0 < ((q.m_future.filter due).map fun e => e.2.1).count x := fun _ => mem_iff_count
  rw [htick]
  refine ⟨hs.ready, hs.unknown, fun x => ?_, fun x => ?_⟩
  all_goals
    have hx := hs.future x
    have hapart := hs.apart x
    have hcx := hcount x
    simp only [places, SizedBlockMap.hashes] at hx hapart
  · simp only [SizedBlockMap.hashes, Finset.mem_sdiff, List.mem_toFinset, hmem]
    grind
  · simp only [places, Finset.mem_sdiff, List.mem_toFinset, hmem]
    grind

end BlockQueue
end Aleth.Ethereum
