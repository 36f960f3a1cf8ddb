import Aleth.Ethereum.BlockQueueThreads

/-! The difficulty of the block queue.

`m_difficulty` grows with every block that is imported, and shrinks with the
blocks that were drained. A block that leaves the queue otherwise is not taken
off: one that a verifier rejects, one that is found bad, and one whose time has
come, which `tick` even adds again. `Keeps` is the condition on a step that no
block goes so, and `difficulty_exact` what it is enough for.

What the blocks are worth is a parameter: `D` is the difficulty in the header
with a hash. Nothing here depends on which blocks are known to be bad, so that
the sets are taken without them (`unblamed`). -/
namespace Aleth.Ethereum.BlockQueue
open Devcore Ethcore Runs
variable {q q' : BlockQueue} {h : H256}

/-- `clear`; what is known to be bad stays. -/
def clear (q : BlockQueue) : BlockQueue := {m_knownBad := q.m_knownBad}

inductive QueueEvent where
  | call (e : Event)
  | clear

/-- The blocks that are ready, draining, unknown or future. -/
def queued (q : BlockQueue) : Finset H256 :=
  q.m_readySet ∪ q.m_drainingSet ∪ q.m_unknownSet ∪ q.m_futureSet

/-- `difficulty()` is the sum of the difficulties of the blocks. -/
def Exact (D : H256 → U256) (q : BlockQueue) : Prop := q.m_difficulty = ∑ h ∈ q.queued, D h

/-- The verified blocks at the front, which are released together. -/
def finishedFront (m_verifying : List VerifiedBlock) : List VerifiedBlock :=
  m_verifying.takeWhile fun b => b.blockData ≠ []

namespace System
section Steps
variable [Sha3] (passes : ImportRequirements → Bytes → Bool)

def stepOrClear (s : System) : QueueEvent → System
  | .call e => s.step passes e
  | .clear => if s.Unlocked then {s with queue := s.queue.clear} else s

/-- The report drops no block. One that is verified goes on with those behind it, whose parents
are not known to be bad; one that is rejected was dropped before, by `clear`. No other block has
the hash for its uncles. -/
def ReportKeeps (q : BlockQueue) (work : UnverifiedBlock) : Prop :=
  q.Unaliased work.hash ∧
    (verifyBlock passes .outOfOrderChecks work.blockData).elim
      (work.hash ∉ q.m_readySet ∧ ∀ b ∈ finishedFront q.m_verifying,
        b.info.m_parentHash ∉ insert work.hash q.m_knownBad)
      fun info => (q.m_verifying.head?.map fun b => b.info.m_sha3Uncles) = some work.hash →
        ∀ b ∈ ⟨info, work.blockData⟩ :: finishedFront q.m_verifying.tail,
          b.info.m_parentHash ∉ q.m_knownBad

instance elimDecidable {α : Type} {a : Prop} {f : α → Prop} [Decidable a]
    [∀ x, Decidable (f x)] : (o : Option α) → Decidable (o.elim a f)
  | none => inferInstanceAs (Decidable a)
  | some x => inferInstanceAs (Decidable (f x))

instance ReportKeeps.decidable (q : BlockQueue) (work : UnverifiedBlock) :
    Decidable (ReportKeeps passes q work) :=
  @instDecidableAnd _ _ (inferInstanceAs (Decidable (∀ b ∈ q.m_verifying, _ → _)))
    (elimDecidable _)

/-- The pass finds no bad block. -/
def PassKeeps (q : BlockQueue) : Pass → Prop
  | .verified => ∀ b ∈ q.m_verified, badVerified q.m_knownBad b = false
  | .unverified => ∀ b ∈ q.m_unverified, badUnverified q.m_knownBad b = false
  | .verifying => ∀ b ∈ q.m_verifying, badVerifying q.m_knownBad b = false

/-- No block leaves the queue but by `drain`, `doneDrain` and `clear`. -/
def Keeps (s : System) : QueueEvent → Prop
  | .call (.report i) => s.Unlocked → ∀ work ∈ s.working[i]?, ReportKeeps passes s.queue work
  | .call (.tick utcTime) => s.Unlocked → ∀ e ∈ s.queue.m_future, utcTime < e.1
  | .call .beginPurge => s.purging = none → ∀ bad ∈ s.doomed.head?,
      ∀ e ∈ s.queue.m_unknown, e.1 ≠ bad
  | .call .pass => ∀ p ∈ s.purging, PassKeeps s.queue p.1
  | _ => True

end Steps
end System

/-- The blocks that are imported have the difficulty that `D` has for their hash. -/
def QueueEvent.Weighed [Sha3] (D : H256 → U256) : QueueEvent → Prop
  | .call (.importBlock block _ _) => ∀ info,
    BlockHeader.construct block .blockData H256.zero = .ok info →
      info.m_difficulty = D info.m_hash
  | _ => True

/-! ### Sets without what is bad -/

def unblamed (q : BlockQueue) : BlockQueue := {q with m_knownBad := ∅}

theorem Sound.exclusive (hs : Sound [] q.unblamed) (x : H256) :
    (x ∈ q.m_readySet → x ∉ q.m_drainingSet ∧ x ∉ q.m_unknownSet ∧ x ∉ q.m_futureSet) ∧
      (x ∈ q.m_drainingSet → x ∉ q.m_unknownSet ∧ x ∉ q.m_futureSet) ∧
        (x ∈ q.m_unknownSet → x ∉ q.m_futureSet) := by
  have hx := hs.apart x
  simp only [places, unblamed] at hx
  grind

theorem Sound.mem_ready (hs : Sound [] q.unblamed) (x : H256) :
    x ∈ q.m_readySet ↔ x ∈ q.readyHashes := Lists.mem_iff hs.ready x

theorem Sound.mem_unknown (hs : Sound [] q.unblamed) (x : H256) :
    x ∈ q.m_unknownSet ↔ x ∈ q.m_unknown.hashes := Lists.mem_iff hs.unknown x

theorem mem_queued {x : H256} : x ∈ q.queued ↔
    x ∈ q.m_readySet ∨ x ∈ q.m_drainingSet ∨ x ∈ q.m_unknownSet ∨ x ∈ q.m_futureSet := by
  simp only [queued, Finset.mem_union, or_assoc]

theorem known_iff : q.known h = true ↔ h ∈ q.m_readySet ∨ h ∈ q.m_drainingSet ∨
    h ∈ q.m_unknownSet ∨ h ∈ q.m_knownBad ∨ h ∈ q.m_futureSet := by
  simp only [known, Bool.or_eq_true, decide_eq_true_eq, or_assoc]

theorem queued_of_known (hk : ¬q.known h = true) : h ∉ q.queued := by
  rw [known_iff] at hk
  rw [mem_queued]
  tauto

theorem known_unblamed (hk : ¬q.known h = true) : ¬q.unblamed.known h = true := by
  intro hu
  refine hk (known_iff.mpr ?_)
  rcases known_iff.mp hu with hu | hu | hu | hu | hu
  · exact .inl hu
  · exact .inr (.inl hu)
  · exact .inr (.inr (.inl hu))
  · exact absurd hu (Finset.notMem_empty h)
  · exact .inr (.inr (.inr (.inr hu)))

theorem readyLoop_unblamed (fuel : ℕ) (goodQueue : List H256) (q : BlockQueue) :
    (readyLoop fuel goodQueue q).unblamed = readyLoop fuel goodQueue q.unblamed := by
  induction fuel generalizing goodQueue q with
  | zero => rfl
  | succ fuel ih =>
    cases goodQueue with
    | nil => rfl
    | cons parent goodQueue =>
      rw [readyLoop_cons, readyLoop_cons, ih, foldl_noteNewReady, foldl_noteNewReady]
      rfl

theorem retryLoop_unblamed (fuel : ℕ) (q : BlockQueue) :
    (retryLoop fuel q).unblamed = retryLoop fuel q.unblamed := by
  induction fuel generalizing q with
  | zero => rfl
  | succ fuel ih =>
    unfold retryLoop
    rw [show q.unblamed.m_unknown = q.m_unknown from rfl]
    cases q.m_unknown.head?.map Prod.fst with
    | none => rfl
    | some parent =>
      show (retryLoop fuel _).unblamed = retryLoop fuel _
      rw [ih, foldl_noteNewReady, foldl_noteNewReady]
      rfl

theorem Readies.queued (hr : Readies q q') (hs : Sound [] q.unblamed) (hs' : Sound [] q'.unblamed) :
    q'.queued = q.queued := by
  have hdraining : q'.m_drainingSet = q.m_drainingSet := by rw [hr.rest]
  have hfuture : q'.m_futureSet = q.m_futureSet := by rw [hr.rest]
  have hverified : q'.m_verified = q.m_verified := by rw [hr.rest]
  have hverifying : q'.m_verifying = q.m_verifying := by rw [hr.rest]
  have hunknown : ∀ x, x ∈ q'.m_unknownSet → x ∈ q.m_unknownSet := by
    intro x hx
    obtain ⟨e, he, hex⟩ := List.mem_map.mp ((hs'.mem_unknown x).mp hx)
    exact (hs.mem_unknown x).mpr (List.mem_map.mpr ⟨e, hr.unknown e he, hex⟩)
  have hready : ∀ x, x ∈ q'.m_readySet → x ∈ q.m_readySet ∨ x ∈ q.m_unknownSet := by
    intro x hx
    have hx := (hs'.mem_ready x).mp hx
    rw [readyHashes, hverified, hverifying, List.mem_append] at hx
    rcases hx with hx | hx
    · exact .inl ((hs.mem_ready x).mpr (List.mem_append_left _ hx))
    · obtain ⟨b, hb, rfl⟩ := List.mem_map.mp hx
      rcases hr.unverified b hb with hb | hb
      · exact .inl ((hs.mem_ready _).mpr (List.mem_append_right _ (List.mem_map.mpr ⟨b, hb, rfl⟩)))
      · exact .inr ((hs.mem_unknown _).mpr (List.mem_map.mpr ⟨_, hb, rfl⟩))
  ext x
  have hkept := hr.kept x
  have hux := hunknown x
  have hrx := hready x
  rw [mem_queued, mem_queued, hdraining, hfuture]
  tauto

/-- A new block adds its difficulty. -/
theorem exact_insert {D : H256 → U256} (ht : Exact D q) (hk : h ∉ q.queued)
    (hq : q'.queued = insert h q.queued) (hd : q'.m_difficulty = q.m_difficulty + D h) : Exact D q' := by
  unfold Exact at ht ⊢
  rw [hd, hq, Finset.sum_insert hk, ht, add_comm]

/-! ### Calls that drop nothing -/

/-- Blocks whose parents are not known to be bad are released one after the other. -/
theorem drainLoop_good {entries : List VerifiedBlock}
    (h : ∀ b ∈ finishedFront entries, b.info.m_parentHash ∉ q.m_knownBad) :
    drainLoop entries q = {q with
      m_verified := q.m_verified ++ finishedFront entries
      m_verifying := entries.dropWhile fun b => b.blockData ≠ []} := by
  induction entries generalizing q with
  | nil =>
    rw [drainLoop, finishedFront, List.takeWhile_nil, List.append_nil]
    rfl
  | cons b entries ih =>
    by_cases hb : b.blockData ≠ []
    · have hfront : finishedFront (b :: entries) = b :: finishedFront entries :=
        List.takeWhile_cons_of_pos (by simpa using hb)
      rw [hfront] at h
      have hgood := h b List.mem_cons_self
      rw [drainLoop, if_pos hb, release, if_neg hgood]
      refine (ih (q := {q with m_verified := q.m_verified ++ [b]}) fun c hc => ?_).trans ?_
      · exact h c (List.mem_cons_of_mem _ hc)
      rw [hfront, List.dropWhile_cons_of_pos (by simpa using hb), List.append_assoc]
      rfl
    · have hfront : finishedFront (b :: entries) = [] :=
        List.takeWhile_cons_of_neg (by simpa using hb)
      rw [drainLoop, if_neg hb, hfront, List.dropWhile_cons_of_neg (by simpa using hb),
        List.append_nil]

theorem mem_of_front {l : List VerifiedBlock} {b : VerifiedBlock} (hb : b ∈ finishedFront l) :
    b ∈ l ∧ b.blockData ≠ [] :=
  ⟨List.takeWhile_subset _ hb, by simpa using List.mem_takeWhile_imp hb⟩

/-- A verified block at the front goes on, with the verified blocks behind it. -/
theorem reportGood_front {work : UnverifiedBlock} {res : VerifiedBlock}
    (hnext : (q.m_verifying.head?.map fun b => b.info.m_sha3Uncles) = some work.hash)
    (hgood : ∀ b ∈ res :: finishedFront q.m_verifying.tail, b.info.m_parentHash ∉ q.m_knownBad) :
    q.reportGood work res = {q with
      m_verified := q.m_verified ++ res :: finishedFront q.m_verifying.tail
      m_verifying := q.m_verifying.tail.dropWhile fun b => b.blockData ≠ []} := by
  have hloop := drainLoop_good (q := {q with
    m_verified := q.m_verified ++ [res]
    m_verifying := q.m_verifying.tail}) fun b hb => hgood b (List.mem_cons_of_mem _ hb)
  rw [reportGood, if_pos hnext, release, if_neg (hgood res List.mem_cons_self), drainVerified]
  refine hloop.trans ?_
  rw [List.append_assoc]
  rfl

theorem reportGood_later {work : UnverifiedBlock} {res : VerifiedBlock}
    (hlater : ¬(q.m_verifying.head?.map fun b => b.info.m_sha3Uncles) = some work.hash) :
    q.reportGood work res = {q with m_verifying := replace work.hash res q.m_verifying} := by
  rw [reportGood, if_neg hlater]

theorem drain_difficulty (hd : q.m_drainingSet = ∅) (max : ℕ) :
    (q.drain max).2.m_drainingDifficulty =
      ((q.m_verified.take max).map fun b => b.info.m_difficulty).sum := by
  have hfold : ∀ (l : List VerifiedBlock) (q : BlockQueue), (l.foldl (fun q bs => {q with
        m_drainingSet := insert bs.infoHash q.m_drainingSet
        m_drainingDifficulty := q.m_drainingDifficulty + bs.info.m_difficulty
        m_readySet := q.m_readySet.erase bs.infoHash}) q).m_drainingDifficulty =
      q.m_drainingDifficulty + (l.map fun b => b.info.m_difficulty).sum := by
    intro l
    induction l with
    | nil => exact fun q => (add_zero _).symm
    | cons b l ih =>
      intro q
      rw [List.foldl_cons, ih, List.map_cons, List.sum_cons, add_assoc]
  unfold BlockQueue.drain
  rw [if_pos hd]
  exact (hfold _ _).trans (zero_add _)

theorem tick_nothing {utcTime : ℤ} (h : ∀ e ∈ q.m_future, utcTime < e.1) :
    q.tick utcTime = ([], q) := by
  obtain ⟨hdue, hq⟩ := tick_eq utcTime q
  have hnone : q.m_future.filter (fun e => ¬utcTime < e.1) = [] :=
    List.filter_eq_nil_iff.mpr fun e he => by simpa using h e he
  have hall : q.m_future.filter (fun e => utcTime < e.1) = q.m_future :=
    List.filter_eq_self.mpr fun e he => by simpa using h e he
  rw [hnone] at hdue hq
  rw [hall] at hq
  refine Prod.ext hdue (hq.trans ?_)
  rw [List.map_nil, List.toFinset_nil, Finset.sdiff_empty]

theorem collectUnknownBad_nothing {bad : H256} (h : ∀ e ∈ q.m_unknown, e.1 ≠ bad) :
    q.collectUnknownBad bad = q := by
  have hnone : q.m_unknown.removeByKeyEqual bad = ([], q.m_unknown) := by
    unfold SizedBlockMap.removeByKeyEqual
    rw [List.filter_eq_nil_iff.mpr fun e he => by simpa using h e he,
      List.filter_eq_self.mpr fun e he => by simpa using h e he, List.map_nil]
  rw [collectUnknownBad, collectLoop_cons, hnone]
  cases q.m_unknown.length <;> rfl

theorem removeIf_nothing {α : Type} (moved : α → α) {pred : α → Bool} {l : List α}
    (h : ∀ x ∈ l, pred x = false) : SizedBlockQueue.removeIf moved pred l = ([], l) := by
  have hall : l.filter (!pred ·) = l := List.filter_eq_self.mpr fun x hx => by rw [h x hx]; rfl
  rw [SizedBlockQueue.removeIf, SizedBlockQueue.remains, hall, List.drop_length, List.map_nil]

theorem pass_nothing {p : Pass} (h : System.PassKeeps q p) : (q.pass p).2 = q := by
  cases p with
  | verified => simp only [pass, sweep, removeIf_nothing VerifiedBlock.moved h, List.map_nil,
      List.foldl_nil]
  | unverified => simp only [pass, sweep, removeIf_nothing UnverifiedBlock.moved h, List.map_nil,
      List.foldl_nil]
  | verifying => simp only [pass, sweep, removeIf_nothing VerifiedBlock.moved h, List.map_nil,
      List.foldl_nil]

/-! ### What a step leaves -/

section Weights
variable [Sha3] {passes : ImportRequirements → Bytes → Bool} {D : H256 → U256}

/-- The bytes are those of a block with the hash, and of its difficulty. -/
structure Worth (D : H256 → U256) (hash : H256) (block : Bytes) : Prop where
  carries : Carries hash block
  weighs : ∀ info, BlockHeader.construct block .blockData H256.zero = .ok info →
    info.m_difficulty = D info.m_hash

/-- The total is exact, and every block on its way has the difficulty that it was added with. -/
structure Weighed (D : H256 → U256) (q : BlockQueue) : Prop where
  sound : Sound [] q.unblamed
  total : Exact D q
  draining : q.m_drainingDifficulty = ∑ h ∈ q.m_drainingSet, D h
  verified : ∀ b ∈ q.m_verified, b.info.m_difficulty = D b.infoHash
  finished : ∀ b ∈ q.m_verifying, b.blockData ≠ [] → b.info.m_difficulty = D b.infoHash
  unverified : ∀ b ∈ q.m_unverified, Worth D b.hash b.blockData
  unknown : ∀ e ∈ q.m_unknown, Worth D e.2.1 e.2.2

theorem weighed_empty : Weighed D {} where
  sound := sound_empty
  total := rfl
  draining := rfl
  verified _ h := absurd h List.not_mem_nil
  finished _ h := absurd h List.not_mem_nil
  unverified _ h := absurd h List.not_mem_nil
  unknown _ h := absurd h List.not_mem_nil

theorem weighed_clear (q : BlockQueue) : Weighed D q.clear where
  sound := sound_empty
  total := rfl
  draining := rfl
  verified _ h := absurd h List.not_mem_nil
  finished _ h := absurd h List.not_mem_nil
  unverified _ h := absurd h List.not_mem_nil
  unknown _ h := absurd h List.not_mem_nil

/-- Blocks of `m_unknown` that become ready stay in the total. -/
theorem Weighed.readies (hw : Weighed D q) (hr : Readies q q') (hs' : Sound [] q'.unblamed) :
    Weighed D q' where
  sound := hs'
  total := by
    have htotal := hw.total
    unfold Exact at htotal ⊢
    rw [hr.queued hw.sound hs', ← htotal, hr.rest]
  draining := by
    rw [hr.rest]
    exact hw.draining
  verified := by
    rw [hr.rest]
    exact hw.verified
  finished := by
    rw [hr.rest]
    exact hw.finished
  unverified b hb := by
    rcases hr.unverified b hb with hb | hb
    · exact hw.unverified b hb
    · exact hw.unknown _ hb
  unknown e he := hw.unknown e (hr.unknown e he)

theorem Weighed.noteReady (hw : Weighed D q) (good : H256) : Weighed D (q.noteReady good) := by
  refine hw.readies (readies_readyLoop _ _ _) ?_
  unfold BlockQueue.noteReady
  rw [readyLoop_unblamed]
  exact hw.sound.noteReady good

theorem Weighed.retryAllUnknown (hw : Weighed D q) : Weighed D q.retryAllUnknown := by
  refine hw.readies (readies_retryLoop _ _) ?_
  unfold BlockQueue.retryAllUnknown
  rw [retryLoop_unblamed]
  exact hw.sound.retryAllUnknown

theorem Weighed.queueFuture (hw : Weighed D q) (hk : ¬q.known h = true) (isKnown : H256 → Bool)
    {bi : BlockHeader} (hbi : bi.m_difficulty = D h) (block : Bytes) :
    Weighed D (q.queueFuture isKnown h bi block).2 where
  sound := hw.sound.queueFuture (known_unblamed hk) isKnown bi block
  total := by
    refine exact_insert hw.total (queued_of_known hk) ?_ (congrArg (q.m_difficulty + ·) hbi)
    exact Finset.union_insert h _ _
  draining := hw.draining
  verified := hw.verified
  finished := hw.finished
  unverified := hw.unverified
  unknown := hw.unknown

theorem Weighed.queueUnknown (hw : Weighed D q) (hk : ¬q.known h = true)
    {bi : BlockHeader} (hbi : bi.m_difficulty = D h) {block : Bytes} (hblock : Worth D h block) :
    Weighed D (q.queueUnknown h bi block) where
  sound := hw.sound.queueUnknown (known_unblamed hk) bi block
  total := by
    refine exact_insert hw.total (queued_of_known hk) ?_ (congrArg (q.m_difficulty + ·) hbi)
    ext x
    simp only [mem_queued, BlockQueue.queueUnknown, Finset.mem_insert]
    tauto
  draining := hw.draining
  verified := hw.verified
  finished := hw.finished
  unverified := hw.unverified
  unknown e he := by
    rcases mem_insert he with rfl | he
    · exact hblock
    · exact hw.unknown e he

theorem Weighed.enqueue (hw : Weighed D q) (hk : ¬q.known h = true)
    {bi : BlockHeader} (hbi : bi.m_difficulty = D h) {block : Bytes} (hblock : Worth D h block) :
    Weighed D (q.enqueue h bi block) where
  sound := hw.sound.enqueue (known_unblamed hk) bi block
  total := by
    refine exact_insert hw.total (queued_of_known hk) ?_ (congrArg (q.m_difficulty + ·) hbi)
    ext x
    simp only [mem_queued, BlockQueue.enqueue, Finset.mem_insert]
    tauto
  draining := hw.draining
  verified := hw.verified
  finished := hw.finished
  unverified b hb := by
    rcases List.mem_append.mp hb with hb | hb
    · exact hw.unverified b hb
    · rw [List.mem_singleton.mp hb]
      exact hblock
  unknown := hw.unknown

theorem Weighed.importHeader (hw : Weighed D q) (hk : ¬q.known h = true) {bi : BlockHeader}
    (hbi : bi.m_difficulty = D h) {block : Bytes} (hblock : Worth D h block)
    (isKnown : H256 → Bool) (utcTime : ℤ) (isOurs : Bool) :
    Weighed D (q.importHeader isKnown utcTime isOurs h bi block).2.1 := by
  unfold BlockQueue.importHeader
  split
  · exact hw
  split
  · exact hw.queueFuture hk isKnown hbi block
  split
  · exact ⟨hw.sound, hw.total, hw.draining, hw.verified, hw.finished, hw.unverified, hw.unknown⟩
  split
  · exact hw.queueUnknown hk hbi hblock
  · exact (hw.enqueue hk hbi hblock).noteReady h

theorem verifyBlock_construct {ir : ImportRequirements} {block : Bytes} {info : BlockHeader}
    (h : verifyBlock passes ir block = some info) :
    BlockHeader.construct block .blockData H256.zero = .ok info := by
  unfold verifyBlock at h
  split at h
  · exact RLPView.toOption_eq_some.mp h
  · cases h

theorem Weighed.importBlock (hw : Weighed D q) (isKnown : H256 → Bool) (utcTime : ℤ)
    (isOurs : Bool) {block : Bytes}
    (hblock : ∀ info, BlockHeader.construct block .blockData H256.zero = .ok info →
      info.m_difficulty = D info.m_hash)
    {r : ImportResult × BlockQueue × List H256}
    (hr : q.importBlock passes isKnown utcTime isOurs block = .ok r) : Weighed D r.2.1 := by
  obtain ⟨h, hh, hr⟩ := bind_eq_ok.mp hr
  by_cases hk : q.known h = true
  · rw [if_pos hk] at hr
    cases hr
    exact hw
  · rw [if_neg hk] at hr
    cases hv : verifyBlock passes .postGenesis block with
    | none =>
      rw [hv] at hr
      cases hr
      exact hw
    | some bi =>
      rw [hv] at hr
      cases hr
      have hbi : bi.m_hash = h := Except.ok.inj ((verifyBlock_some hv).1.symm.trans hh)
      refine hw.importHeader hk ?_ ⟨hh, hblock⟩ isKnown utcTime isOurs
      rw [hblock bi (verifyBlock_construct hv), hbi]

theorem Weighed.take {work : UnverifiedBlock} (hw : Weighed D q) (ht : q.take = some (work, q')) :
    Weighed D q' ∧ Worth D work.hash work.blockData := by
  obtain ⟨w, hhead, he⟩ := Option.map_eq_some_iff.mp ht
  have hunblamed : q.unblamed.take = some (work, q'.unblamed) := by
    cases he
    exact Option.map_eq_some_iff.mpr ⟨work, hhead, rfl⟩
  have hs := hw.sound.take hunblamed
  cases he
  obtain ⟨rest, hq⟩ := List.head?_eq_some_iff.mp hhead
  refine ⟨⟨hs, hw.total, hw.draining, hw.verified, fun b hb hdata => ?_,
    fun b hb => hw.unverified b (List.mem_of_mem_tail hb), hw.unknown⟩,
    hw.unverified work (hq ▸ List.mem_cons_self)⟩
  rcases List.mem_append.mp hb with hb | hb
  · exact hw.finished b hb hdata
  · rw [List.mem_singleton.mp hb] at hdata
    exact absurd rfl hdata

/-! ### Reports -/

/-- Blocks go from the front of `m_verifying` to `m_verified`. -/
theorem Weighed.released (hw : Weighed D q) {out rest : List VerifiedBlock}
    (hs : Sound [] {q.unblamed with m_verified := q.m_verified ++ out, m_verifying := rest})
    (hout : ∀ b ∈ out, b.info.m_difficulty = D b.infoHash)
    (hrest : ∀ b ∈ rest, b.blockData ≠ [] → b.info.m_difficulty = D b.infoHash) :
    Weighed D {q with m_verified := q.m_verified ++ out, m_verifying := rest} where
  sound := hs
  total := hw.total
  draining := hw.draining
  verified b hb := (List.mem_append.mp hb).elim (hw.verified b) (hout b)
  finished := hrest
  unverified := hw.unverified
  unknown := hw.unknown

theorem Weighed.blame (hw : Weighed D q) (m_knownBad : Finset H256) :
    Weighed D {q with m_knownBad} :=
  ⟨hw.sound, hw.total, hw.draining, hw.verified, hw.finished, hw.unverified, hw.unknown⟩

theorem Weighed.reportGood {work : UnverifiedBlock} {res : VerifiedBlock} (hw : Weighed D q)
    (hu : q.Unaliased work.hash) (hres : res.infoHash = work.hash) (hdata : res.blockData ≠ [])
    (hweighs : res.info.m_difficulty = D res.infoHash)
    (hgood : (q.m_verifying.head?.map fun b => b.info.m_sha3Uncles) = some work.hash →
      ∀ b ∈ res :: finishedFront q.m_verifying.tail, b.info.m_parentHash ∉ q.m_knownBad) :
    Weighed D (q.reportGood work res) := by
  have hs : Sound [] (q.unblamed.reportGood work res) := hw.sound.reportGood hu hres hdata
  by_cases hnext : (q.m_verifying.head?.map fun b => b.info.m_sha3Uncles) = some work.hash
  · rw [reportGood_front (q := q.unblamed) hnext fun _ _ => Finset.notMem_empty _] at hs
    rw [reportGood_front hnext (hgood hnext)]
    refine hw.released hs (fun b hb => ?_) fun b hb hne => ?_
    · rcases List.mem_cons.mp hb with rfl | hb
      · exact hweighs
      · obtain ⟨hmem, hne⟩ := mem_of_front hb
        exact hw.finished b (List.mem_of_mem_tail hmem) hne
    · exact hw.finished b (List.mem_of_mem_tail (List.dropWhile_subset _ hb)) hne
  · rw [reportGood_later (q := q.unblamed) hnext] at hs
    rw [reportGood_later hnext]
    refine ⟨hs, hw.total, hw.draining, hw.verified, fun b hb hne => ?_, hw.unverified, hw.unknown⟩
    rcases mem_of_replace hb with rfl | hb
    · exact hweighs
    · exact hw.finished b hb hne

/-- A rejected block that is in none of the sets. -/
theorem Weighed.reportBad {work : UnverifiedBlock} (hw : Weighed D q) (hu : q.Unaliased work.hash)
    (hgone : work.hash ∉ q.m_readySet)
    (hgood : ∀ b ∈ finishedFront q.m_verifying,
      b.info.m_parentHash ∉ insert work.hash q.m_knownBad) : Weighed D (q.reportBad work) := by
  have hnone : q.m_verifying.filter (fun b => !decide (b.info.m_sha3Uncles = work.hash)) =
      q.m_verifying := by
    refine List.filter_eq_self.mpr fun b hb => ?_
    rw [Bool.not_eq_true', decide_eq_false_iff_not]
    intro hname
    refine hgone ((hw.sound.mem_ready _).mpr (hu.entryHash hb hname ▸ ?_))
    exact List.mem_append_left _ (List.mem_append_right _ (List.mem_map.mpr ⟨b, hb, rfl⟩))
  have hbad : q.reportBad work = {q with
      m_knownBad := insert work.hash q.m_knownBad
      m_verified := q.m_verified ++ finishedFront q.m_verifying
      m_verifying := q.m_verifying.dropWhile fun b => b.blockData ≠ []} := by
    simp only [BlockQueue.reportBad, drainVerified, SizedBlockQueue.removeIf, hnone,
      Finset.erase_eq_of_notMem hgone]
    exact drainLoop_good (q := {q with m_knownBad := insert work.hash q.m_knownBad}) hgood
  have hs := hw.sound.drainVerified
  rw [drainVerified, drainLoop_good fun _ _ => Finset.notMem_empty _] at hs
  rw [hbad]
  refine (hw.released hs (fun b hb => ?_) fun b hb hne => ?_).blame _
  · obtain ⟨hmem, hne⟩ := mem_of_front hb
    exact hw.finished b hmem hne
  · exact hw.finished b (List.dropWhile_subset _ hb) hne

/-! ### Draining -/

theorem Weighed.drain (hw : Weighed D q) (max : ℕ) : Weighed D (q.drain max).2 := by
  by_cases hd : q.m_drainingSet = ∅
  · obtain ⟨d, he⟩ := drain_eq hd max
    obtain ⟨d', he'⟩ := drain_eq (q := q.unblamed) hd max
    have hs := hw.sound.drain max
    have hdifficulty := drain_difficulty hd max
    rw [he'] at hs
    rw [he] at hdifficulty ⊢
    have hout : ∀ x, x ∈ (q.m_verified.take max).map VerifiedBlock.infoHash → x ∈ q.m_readySet := by
      intro x hx
      obtain ⟨b, hb, rfl⟩ := List.mem_map.mp hx
      refine (hw.sound.mem_ready _).mpr (List.mem_append_left _ (List.mem_append_left _ ?_))
      exact List.mem_map.mpr ⟨b, List.mem_of_mem_take hb, rfl⟩
    have hnodup : ((q.m_verified.take max).map VerifiedBlock.infoHash).Nodup := by
      have hall := hw.sound.consistent.distinct
      rw [readyHashes, List.append_assoc] at hall
      exact (List.nodup_append.mp hall).1.sublist ((List.take_sublist max _).map _)
    refine ⟨⟨hs.ready, hs.unknown, hs.future, hs.apart⟩, ?_, ?_,
      fun b hb => hw.verified b (List.mem_of_mem_drop hb), hw.finished, hw.unverified, hw.unknown⟩
    · have hsame : queued {q with
          m_verified := q.m_verified.drop max
          m_drainingSet := ((q.m_verified.take max).map VerifiedBlock.infoHash).toFinset
          m_drainingDifficulty := d
          m_readySet := q.m_readySet \
            ((q.m_verified.take max).map VerifiedBlock.infoHash).toFinset} = q.queued := by
        ext x
        have hx := hout x
        simp only [mem_queued, Finset.mem_sdiff, List.mem_toFinset, hd, Finset.notMem_empty]
        tauto
      exact hw.total.trans (congrArg (fun s => ∑ h ∈ s, D h) hsame.symm)
    · show d = ∑ h ∈ ((q.m_verified.take max).map VerifiedBlock.infoHash).toFinset, D h
      rw [List.sum_toFinset D hnodup, List.map_map]
      refine hdifficulty.trans (congrArg List.sum (List.map_congr_left fun b hb => ?_))
      exact hw.verified b (List.mem_of_mem_take hb)
  · unfold BlockQueue.drain
    rw [if_neg hd]
    exact hw

theorem Weighed.doneDrain (hw : Weighed D q) (bad : List H256) : Weighed D (q.doneDrain bad).1 where
  sound := by
    refine ⟨hw.sound.ready, hw.sound.unknown, hw.sound.future, fun x => ?_⟩
    have hx := hw.sound.apart x
    simp only [places, unblamed, BlockQueue.doneDrain] at hx ⊢
    grind
  total := by
    have hsub : q.m_drainingSet ⊆ q.queued := fun x hx => mem_queued.mpr (.inr (.inl hx))
    have hrest : (q.doneDrain bad).1.queued = q.queued \ q.m_drainingSet := by
      ext x
      have hx := hw.sound.exclusive x
      simp only [mem_queued, BlockQueue.doneDrain, Finset.mem_sdiff, Finset.notMem_empty]
      tauto
    unfold Exact
    rw [hrest, Finset.sum_sdiff_eq_sub hsub, ← hw.draining, ← hw.total]
    rfl
  draining := rfl
  verified := hw.verified
  finished := hw.finished
  unverified := hw.unverified
  unknown := hw.unknown

end Weights

/-! ### Runs -/

namespace System
section Runs
variable [Sha3] {passes : ImportRequirements → Bytes → Bool} {D : H256 → U256} {s : System}

/-- The queue, and the blocks that verifiers have. -/
structure Tallied (D : H256 → U256) (s : System) : Prop where
  queue : Weighed D s.queue
  working : ∀ work ∈ s.working, Worth D work.hash work.blockData
  due : s.due = []

theorem Tallied.importing (ht : Tallied D s) {block : Bytes}
    (hblock : ∀ info, BlockHeader.construct block .blockData H256.zero = .ok info →
      info.m_difficulty = D info.m_hash) (isOurs : Bool) (utcTime : ℤ) :
    Tallied D (s.importing passes block isOurs utcTime) := by
  unfold System.importing
  cases hr : s.queue.importBlock passes (· ∈ s.chain) utcTime isOurs block with
  | error e => exact ht
  | ok r => exact ⟨ht.queue.importBlock _ utcTime isOurs hblock hr, ht.working, ht.due⟩

theorem Tallied.report (ht : Tallied D s) {i : ℕ} {work : UnverifiedBlock}
    (hw : s.working[i]? = some work) (hkeeps : ReportKeeps passes s.queue work) :
    Tallied D {s with
      queue := s.queue.report passes work
      working := s.working.eraseIdx i} := by
  have hmem := List.mem_of_getElem? hw
  have hholds := ht.working work hmem
  obtain ⟨hu, hgood⟩ := hkeeps
  refine ⟨?_, fun other ho => ht.working other (List.eraseIdx_subset ho), ht.due⟩
  show Weighed D (s.queue.report passes work)
  unfold BlockQueue.report
  cases hv : verifyBlock passes .outOfOrderChecks work.blockData with
  | none =>
    rw [hv] at hgood
    exact ht.queue.reportBad hu hgood.1 hgood.2
  | some info =>
    rw [hv] at hgood
    obtain ⟨hinfo, hdata⟩ := verifyBlock_some hv
    have hhash : info.m_hash = work.hash := Except.ok.inj (hinfo.symm.trans hholds.carries)
    exact ht.queue.reportGood hu hhash hdata (hholds.weighs info (verifyBlock_construct hv)) hgood

theorem tallied_locked (ht : Tallied D s) {e : Event} (hl : s.Unlocked)
    (hkeeps : Keeps passes s (.call e)) (hweighed : QueueEvent.Weighed D (.call e)) :
    Tallied D (s.lockedStep passes e) := by
  cases e with
  | importBlock block isOurs utcTime => exact ht.importing hweighed isOurs utcTime
  | importDue i utcTime =>
    unfold lockedStep
    dsimp only
    rw [ht.due]
    exact ht
  | report i =>
    unfold lockedStep
    dsimp only
    cases hw : s.working[i]? with
    | none => exact ht
    | some work => exact ht.report hw (hkeeps hl work hw)
  | drain max => exact ⟨ht.queue.drain max, ht.working, ht.due⟩
  | doneDrain bad => exact ⟨ht.queue.doneDrain bad, ht.working, ht.due⟩
  | noteReady good => exact ⟨ht.queue.noteReady good, ht.working, ht.due⟩
  | retryAllUnknown => exact ⟨ht.queue.retryAllUnknown, ht.working, ht.due⟩
  | tick utcTime =>
    have hnothing := tick_nothing (hkeeps hl)
    refine ⟨?_, ht.working, ?_⟩
    · show Weighed D (s.queue.tick utcTime).2
      rw [hnothing]
      exact ht.queue
    · show s.due ++ (s.queue.tick utcTime).1 = []
      rw [hnothing, ht.due, List.append_nil]
  | setChain chain => exact ⟨ht.queue, ht.working, ht.due⟩
  | take => exact ht
  | beginPurge => exact ht
  | pass => exact ht

/-- One step of a thread or a caller. -/
theorem tallied_step (ht : Tallied D s) {e : QueueEvent} (hkeeps : Keeps passes s e)
    (hweighed : e.Weighed D) : Tallied D (s.stepOrClear passes e) := by
  cases e with
  | clear =>
    unfold stepOrClear
    dsimp only
    split
    · exact ⟨weighed_clear s.queue, ht.working, ht.due⟩
    · exact ht
  | call e =>
    have hlocked : Tallied D (if s.Unlocked then s.lockedStep passes e else s) := by
      split
      case isTrue hl => exact tallied_locked ht hl hkeeps hweighed
      case isFalse => exact ht
    show Tallied D (s.step passes e)
    cases e with
    | take =>
      unfold step
      dsimp only
      split
      · cases hq : s.queue.take with
        | none => exact ht
        | some t =>
          obtain ⟨hw, hholds⟩ : Weighed D t.2 ∧ Worth D t.1.hash t.1.blockData :=
            ht.queue.take hq
          refine ⟨hw, fun work hmem => ?_, ht.due⟩
          rcases List.mem_append.mp hmem with hmem | hmem
          · exact ht.working work hmem
          · rw [List.mem_singleton.mp hmem]
            exact hholds
      · exact ht
    | beginPurge =>
      unfold step
      dsimp only
      split
      case isTrue hp =>
        cases hbad : s.doomed.head? with
        | none => exact ht
        | some bad =>
          refine ⟨?_, ht.working, ht.due⟩
          show Weighed D (s.queue.collectUnknownBad bad)
          rw [collectUnknownBad_nothing (hkeeps hp bad hbad)]
          exact ht.queue
      case isFalse => exact ht
    | pass =>
      unfold step
      dsimp only
      cases hp : s.purging with
      | none => exact ht
      | some p =>
        refine ⟨?_, ht.working, ht.due⟩
        show Weighed D (s.queue.pass p.1).2
        rw [pass_nothing (hkeeps p hp)]
        exact ht.queue
    | _ => exact hlocked

theorem tallied_run {events : List QueueEvent} (ht : Tallied D s)
    (hweighed : ∀ e ∈ events, e.Weighed D)
    (hrun : Along (stepOrClear passes) (Keeps passes) s events) :
    Tallied D (events.foldl (stepOrClear passes) s) := by
  have hboth : Along (stepOrClear passes) (fun s e => Keeps passes s e ∧ e.Weighed D) s events :=
    hrun.and (Along.of_forall fun _ e he => hweighed e he)
  exact @Along.foldl _ _ (stepOrClear passes) _ (Tallied D)
    (fun ht hp => tallied_step ht hp.1 hp.2) s events hboth ht

end Runs
end System

/-- **The difficulty is exact in every state of a run in which no block leaves the queue but by
`drain`, `doneDrain` and `clear`.** -/
theorem difficulty_exact [Sha3] (passes : ImportRequirements → Bytes → Bool) (D : H256 → U256)
    (events : List QueueEvent) (hweighed : ∀ e ∈ events, e.Weighed D)
    (hrun : Along (System.stepOrClear passes) (System.Keeps passes) {} events) :
    ∀ pre, pre <+: events → Exact D (pre.foldl (System.stepOrClear passes) {}).queue := by
  intro pre hpre
  have hempty : System.Tallied D {} :=
    ⟨weighed_empty, fun _ h => absurd h List.not_mem_nil, rfl⟩
  have hsub : ∀ e ∈ pre, e.Weighed D := fun e he => hweighed e (hpre.subset he)
  exact (System.tallied_run hempty hsub (hrun.initial hpre)).queue.total
/-! ### A block that is counted twice -/

/-- A block with the hash `hashOf x`, of difficulty 7 and for time 10. -/
def laterBlockOn (parent x : UInt8) : Bytes :=
  let header : BlockHeader :=
    {BlockHeader.blank with
      m_parentHash := hashOf parent
      m_extraData := [x]
      m_difficulty := 7
      m_timestamp := 10}
  Devcore.appendList (Devcore.appendList header.writtenItems.flatten ++ [0xc0, 0xc0])

attribute [local instance] lastByteSha3

theorem laterBlockOn_difficulty (parent x : UInt8)
    (h : (BlockHeader.construct (laterBlockOn parent x) .blockData H256.zero).toOption.map
      BlockHeader.m_difficulty = some 7) (isOurs : Bool) (utcTime : ℤ) :
    QueueEvent.Weighed (fun _ => 7)
      (.call (.importBlock (laterBlockOn parent x) isOurs utcTime)) := by
  intro info hinfo
  rw [hinfo] at h
  exact Option.some.inj h

/-- The run from the empty queue, where every block passes. -/
def runQueue (events : List QueueEvent) : System :=
  events.foldl (System.stepOrClear fun _ _ => true) {}

/-- A block comes before its time, and a parent and a child of it in time. -/
def keptBlocks : List QueueEvent :=
  [.call (.setChain {hashOf 0}), .call (.importBlock (laterBlockOn 0 1) false 0),
    .call (.importBlock (laterBlockOn 0 2) false 20), .call (.tick 5), .call .take,
    .call (.report 0), .call (.importBlock (laterBlockOn 2 3) false 20), .call (.drain 1),
    .call (.doneDrain [])]

theorem difficulty_exact_keptBlocks : Exact (fun _ => 7) (runQueue keptBlocks).queue := by
  refine difficulty_exact (fun _ _ => true) (fun _ => 7) keptBlocks ?_ ?_ keptBlocks
    List.prefix_rfl
  · intro e he
    simp only [keptBlocks, List.mem_cons, List.not_mem_nil, or_false] at he
    rcases he with rfl | rfl | rfl | rfl | rfl | rfl | rfl | rfl | rfl
    all_goals first
      | exact trivial
      | exact laterBlockOn_difficulty _ _ (by decide +kernel) _ _
  · refine ⟨trivial, trivial, trivial, fun _ => ?_, trivial, fun _ => ?_, trivial, trivial, trivial,
      trivial⟩
    · decide +kernel
    · decide +kernel

/-- The time of a block comes, and `tick` imports it again. -/
def countedTwice : List QueueEvent :=
  [.call (.setChain {hashOf 0}), .call (.importBlock (laterBlockOn 0 1) false 0),
    .call (.tick 20), .call (.importDue 0 20)]

/-- The one block in the queue has difficulty 7, and the queue 14. -/
theorem countedTwice_inexact : (∀ e ∈ countedTwice, e.Weighed (fun _ => 7)) ∧
    (runQueue countedTwice).Unlocked ∧ (runQueue countedTwice).due = [] ∧
    (runQueue countedTwice).queue.queued = {hashOf 1} ∧
    (runQueue countedTwice).queue.m_difficulty = 14 ∧
    ¬Exact (fun _ => 7) (runQueue countedTwice).queue := by
  refine ⟨fun e he => ?_, by decide +kernel, by decide +kernel, by decide +kernel,
    by decide +kernel, ?_⟩
  · simp only [countedTwice, List.mem_cons, List.not_mem_nil, or_false] at he
    rcases he with rfl | rfl | rfl | rfl
    all_goals first
      | exact trivial
      | exact laterBlockOn_difficulty _ _ (by decide +kernel) _ _
  · have hqueued : (runQueue countedTwice).queue.queued = {hashOf 1} := by decide +kernel
    have hdifficulty : (runQueue countedTwice).queue.m_difficulty = 14 := by decide +kernel
    rw [Exact, hqueued, hdifficulty, Finset.sum_singleton]
    decide

end Aleth.Ethereum.BlockQueue
