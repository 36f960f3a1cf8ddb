import Aleth.Ethcore.HeaderCodec
import Aleth.Ethereum.BlockQueueSets
import Aleth.Structure.Runs

/-! Threads and callers of the block queue.

A step is what a thread does without letting go of `m_lock` or, if it has only
that, of `m_verification`. The loop of `updateBad` is cut into its passes: while
one runs, no other thread has a lock, and between two calls of `updateBad` a
verifier may still take a block. Verifiers finish in any order.

`reachable_consistent`: in a run where the bad blocks of each pass are the last
of their queue and no verified block has the hash of another for its uncles, the
sets have what the queues hold. -/
namespace Aleth.Ethereum.BlockQueue
open Devcore Ethcore Runs
variable {q q' : BlockQueue} {work : UnverifiedBlock} {h : H256}

/-! ### Steps -/

inductive Event where
  | importBlock (block : Bytes) (isOurs : Bool) (utcTime : ℤ)
  /-- `tick` imports one of the blocks that it has taken out. -/
  | importDue (i : ℕ) (utcTime : ℤ)
  /-- A verifier takes a block. -/
  | take
  /-- A verifier reports on a block that was taken. -/
  | report (i : ℕ)
  | drain (max : ℕ)
  | doneDrain (bad : List H256)
  | noteReady (good : H256)
  | retryAllUnknown
  | tick (utcTime : ℤ)
  /-- The chain knows other blocks. -/
  | setChain (chain : Finset H256)
  /-- `updateBad` begins for the next block. -/
  | beginPurge
  /-- `updateBad` goes through the next queue. -/
  | pass

structure System where
  queue : BlockQueue := {}
  /-- The blocks that verifiers have taken and not reported on. -/
  working : List UnverifiedBlock := []
  /-- The blocks that `tick` has taken out and not imported. -/
  due : List Bytes := []
  /-- The blocks for which the holder of `m_lock` still calls `updateBad`. -/
  doomed : List H256 := []
  /-- The next pass of `updateBad`, and whether one of this turn has found a bad block. -/
  purging : Option (Pass × Bool) := none
  chain : Finset H256 := ∅
  /-- The blocks that `import` has accepted. -/
  accepted : List Bytes := []
  /-- What `drain` has given out. -/
  drained : List VerifiedBlock := []

/-- "Success, UnknownParent or FutureTime". -/
def ImportResult.accepts : ImportResult → Bool
  | .success | .unknownParent | .futureTimeKnown | .futureTimeUnknown => true
  | .alreadyInChain | .alreadyKnown | .malformed | .badChain => false

def nextPass : Pass → Bool → Option (Pass × Bool)
  | .verified, more => some (.unverified, more)
  | .unverified, more => some (.verifying, more)
  | .verifying, more => if more then some (.verified, false) else none

namespace System

/-- No thread has `m_lock`. -/
def Unlocked (s : System) : Prop := s.doomed = [] ∧ s.purging = none

instance Unlocked.decidable (s : System) : Decidable s.Unlocked :=
  inferInstanceAs (Decidable (_ ∧ _))

section Steps
variable [Sha3] (passes : ImportRequirements → Bytes → Bool)

/-- A call of `import`; one that throws changes nothing. -/
def importing (block : Bytes) (isOurs : Bool) (utcTime : ℤ) (s : System) : System :=
  (s.queue.importBlock passes (· ∈ s.chain) utcTime isOurs block).toOption.elim s fun r =>
    {s with
      queue := r.2.1
      doomed := r.2.2
      accepted := if r.1.accepts then s.accepted ++ [block] else s.accepted}

/-- A step of a thread that has `m_lock`. -/
def lockedStep (s : System) : Event → System
  | .importBlock block isOurs utcTime => s.importing passes block isOurs utcTime
  | .importDue i utcTime => s.due[i]?.elim s fun block =>
    importing passes block false utcTime {s with due := s.due.eraseIdx i}
  | .report i => s.working[i]?.elim s fun work =>
    {s with queue := s.queue.report passes work, working := s.working.eraseIdx i}
  | .drain max =>
    {s with queue := (s.queue.drain max).2, drained := s.drained ++ (s.queue.drain max).1}
  | .doneDrain bad => {s with queue := (s.queue.doneDrain bad).1, doomed := (s.queue.doneDrain bad).2}
  | .noteReady good => {s with queue := s.queue.noteReady good}
  | .retryAllUnknown => {s with queue := s.queue.retryAllUnknown}
  | .tick utcTime => {s with queue := (s.queue.tick utcTime).2, due := s.due ++ (s.queue.tick utcTime).1}
  | .setChain chain => {s with chain}
  | .take | .beginPurge | .pass => s

def step (s : System) : Event → System
  | .take =>
    if s.purging = none then
      s.queue.take.elim s fun t => {s with queue := t.2, working := s.working ++ [t.1]}
    else s
  | .beginPurge =>
    if s.purging = none then
      s.doomed.head?.elim s fun bad => {s with
        queue := s.queue.collectUnknownBad bad
        doomed := s.doomed.tail
        purging := some (.verified, false)}
    else s
  | .pass => s.purging.elim s fun p => {s with
      queue := (s.queue.pass p.1).2
      purging := nextPass p.1 (p.2 || (s.queue.pass p.1).1)}
  | e => if s.Unlocked then s.lockedStep passes e else s

end Steps
end System

/-! ### What the parts of a call leave alone -/

/-- Blocks of `m_unknown` may have gone, and blocks may be known to be bad. -/
structure Blames (q q' : BlockQueue) : Prop where
  rest : q' = {q with
    m_readySet := q'.m_readySet
    m_unknownSet := q'.m_unknownSet
    m_unknown := q'.m_unknown
    m_knownBad := q'.m_knownBad}
  unknown : ∀ e ∈ q'.m_unknown, e ∈ q.m_unknown
  bad : q.m_knownBad ⊆ q'.m_knownBad

theorem Blames.refl (q : BlockQueue) : Blames q q := ⟨rfl, fun _ he => he, Finset.Subset.refl _⟩

theorem Blames.trans {q'' : BlockQueue} (h : Blames q q') (h' : Blames q' q'') : Blames q q'' := by
  refine ⟨?_, fun e he => h.unknown e (h'.unknown e he), h.bad.trans h'.bad⟩
  rw [h'.rest, h.rest]

theorem blames_collectLoop (fuel : ℕ) (badQueue : List H256) (q : BlockQueue) :
    Blames q (collectLoop fuel badQueue q) := by
  induction fuel generalizing badQueue q with
  | zero => exact .refl q
  | succ fuel ih =>
    cases badQueue with
    | nil => exact .refl q
    | cons bad badQueue =>
      rw [collectLoop_cons]
      refine Blames.trans ?_ (ih _ _)
      rw [foldl_noteUnknownBad]
      exact ⟨rfl, fun e he => List.mem_of_mem_filter he, Finset.subset_union_left⟩

theorem blames_noteBad (h : H256) (q : BlockQueue) :
    Blames q (q.noteBad h) ∧ h ∈ (q.noteBad h).m_knownBad := by
  have hnoted : Blames q
      {q with m_knownBad := insert h q.m_knownBad, m_readySet := q.m_readySet.erase h} :=
    ⟨rfl, fun _ he => he, Finset.subset_insert h _⟩
  have hloop := blames_collectLoop (q.m_unknown.length + 1) [h]
    {q with m_knownBad := insert h q.m_knownBad, m_readySet := q.m_readySet.erase h}
  exact ⟨hnoted.trans hloop, hloop.bad (Finset.mem_insert_self h _)⟩

theorem blames_foldl (l : List H256) (q : BlockQueue) :
    Blames q (l.foldl noteBad q) ∧ ∀ h ∈ l, h ∈ (l.foldl noteBad q).m_knownBad := by
  induction l generalizing q with
  | nil => exact ⟨.refl q, fun _ hh => nomatch hh⟩
  | cons x l ih =>
    obtain ⟨hq, hx⟩ := blames_noteBad x q
    obtain ⟨hl, hmem⟩ := ih (q.noteBad x)
    refine ⟨hq.trans hl, fun h hh => ?_⟩
    cases List.mem_cons.mp hh with
    | inl e => exact e ▸ hl.bad hx
    | inr hh => exact hmem h hh

/-- Blocks of `m_unknown` may have become ready. -/
structure Readies (q q' : BlockQueue) : Prop where
  rest : q' = {q with
    m_readySet := q'.m_readySet
    m_unknownSet := q'.m_unknownSet
    m_unknown := q'.m_unknown
    m_unverified := q'.m_unverified}
  unknown : ∀ e ∈ q'.m_unknown, e ∈ q.m_unknown
  unverified : ∀ b ∈ q'.m_unverified,
    b ∈ q.m_unverified ∨ (b.parentHash, b.hash, b.blockData) ∈ q.m_unknown
  /-- No block is lost. -/
  kept : ∀ h, h ∈ q.m_readySet ∨ h ∈ q.m_unknownSet → h ∈ q'.m_readySet ∨ h ∈ q'.m_unknownSet
  ready : q.m_readySet ⊆ q'.m_readySet

theorem Readies.refl (q : BlockQueue) : Readies q q :=
  ⟨rfl, fun _ he => he, fun _ hb => .inl hb, fun _ hh => hh, Finset.Subset.refl _⟩

theorem Readies.trans {q'' : BlockQueue} (h : Readies q q') (h' : Readies q' q'') :
    Readies q q'' := by
  refine ⟨?_, fun e he => h.unknown e (h'.unknown e he), fun b hb => ?_,
    fun x hx => h'.kept x (h.kept x hx), h.ready.trans h'.ready⟩
  · rw [h'.rest, h.rest]
  · cases h'.unverified b hb with
    | inl hb => exact h.unverified b hb
    | inr hb => exact .inr (h.unknown _ hb)

theorem readies_newReady (parent : H256) (q : BlockQueue) :
    Readies q ((q.m_unknown.removeByKeyEqual parent).1.foldl (noteNewReady parent)
      {q with m_unknown := (q.m_unknown.removeByKeyEqual parent).2}) := by
  rw [foldl_noteNewReady]
  refine ⟨rfl, fun e he => List.mem_of_mem_filter he, fun b hb => ?_, fun x hx => ?_,
    Finset.subset_union_left⟩
  · refine (List.mem_append.mp hb).imp_right fun hb => ?_
    obtain ⟨e, he, rfl⟩ := List.mem_map.mp hb
    obtain ⟨f, hf, rfl⟩ := List.mem_map.mp he
    obtain ⟨hmem, hkey⟩ := List.mem_filter.mp hf
    rw [← of_decide_eq_true hkey]
    exact hmem
  · simp only [Finset.mem_union, Finset.mem_sdiff]
    tauto

theorem readies_readyLoop (fuel : ℕ) (goodQueue : List H256) (q : BlockQueue) :
    Readies q (readyLoop fuel goodQueue q) := by
  induction fuel generalizing goodQueue q with
  | zero => exact .refl q
  | succ fuel ih =>
    cases goodQueue with
    | nil => exact .refl q
    | cons parent goodQueue =>
      rw [readyLoop_cons]
      exact (readies_newReady parent q).trans (ih _ _)

theorem readies_retryLoop (fuel : ℕ) (q : BlockQueue) : Readies q (retryLoop fuel q) := by
  induction fuel generalizing q with
  | zero => exact .refl q
  | succ fuel ih =>
    unfold retryLoop
    cases q.m_unknown.head?.map Prod.fst with
    | none => exact .refl q
    | some parent => exact (readies_newReady parent q).trans (ih _)

/-- Blocks at the front of `m_verifying` may have been released. -/
structure Releases (q q' : BlockQueue) : Prop where
  rest : q' = {q with
    m_readySet := q'.m_readySet
    m_knownBad := q'.m_knownBad
    m_verified := q'.m_verified
    m_verifying := q'.m_verifying}
  bad : q.m_knownBad ⊆ q'.m_knownBad
  ready : q'.m_readySet ⊆ q.m_readySet

theorem Releases.trans {q'' : BlockQueue} (h : Releases q q') (h' : Releases q' q'') :
    Releases q q'' := by
  refine ⟨?_, h.bad.trans h'.bad, h'.ready.trans h.ready⟩
  rw [h'.rest, h.rest]

theorem releases_release (b : VerifiedBlock) (q : BlockQueue) : Releases q (q.release b) := by
  unfold release
  split
  · exact ⟨rfl, Finset.subset_insert _ _, Finset.erase_subset _ _⟩
  · exact ⟨rfl, Finset.Subset.refl _, Finset.Subset.refl _⟩

theorem releases_drainLoop (entries : List VerifiedBlock) (q : BlockQueue) :
    Releases q (drainLoop entries q) := by
  induction entries generalizing q with
  | nil => exact ⟨rfl, Finset.Subset.refl _, Finset.Subset.refl _⟩
  | cons b entries ih =>
    unfold drainLoop
    split
    · exact (releases_release b q).trans (ih _)
    · exact ⟨rfl, Finset.Subset.refl _, Finset.Subset.refl _⟩

theorem releases_reportBad (work : UnverifiedBlock) (q : BlockQueue) :
    Releases q (q.reportBad work) := by
  have hnoted : Releases q {q with
      m_readySet := q.m_readySet.erase work.hash
      m_knownBad := insert work.hash q.m_knownBad
      m_verifying := (SizedBlockQueue.removeIf VerifiedBlock.moved
        (fun b => b.info.m_sha3Uncles = work.hash) q.m_verifying).2} :=
    ⟨rfl, Finset.subset_insert _ _, Finset.erase_subset _ _⟩
  exact hnoted.trans (releases_drainLoop _ _)

theorem releases_reportGood (work : UnverifiedBlock) (res : VerifiedBlock) (q : BlockQueue) :
    Releases q (q.reportGood work res) := by
  unfold reportGood
  split
  · have htail : Releases q {q with m_verifying := q.m_verifying.tail} :=
      ⟨rfl, Finset.Subset.refl _, Finset.Subset.refl _⟩
    exact (htail.trans (releases_release res _)).trans (releases_drainLoop _ _)
  · exact ⟨rfl, Finset.Subset.refl _, Finset.Subset.refl _⟩

/-- Draining takes only verified blocks out of `m_verifying`. -/
theorem mem_drainLoop {entries : List VerifiedBlock} {b : VerifiedBlock} (hb : b ∈ entries)
    (hdata : b.blockData = []) : b ∈ (drainLoop entries q).m_verifying := by
  induction entries generalizing q with
  | nil => cases hb
  | cons c entries ih =>
    unfold drainLoop
    by_cases hc : c.blockData ≠ []
    · rw [if_pos hc]
      cases List.mem_cons.mp hb with
      | inl e => exact absurd (e ▸ hdata) hc
      | inr hb => exact ih hb
    · rw [if_neg hc]
      exact hb

/-! ### The entries of blocks that were taken -/

theorem Held.of_subset (hheld : q.Held work) (hv : q'.m_verifying = q.m_verifying)
    (hbad : q.m_knownBad ⊆ q'.m_knownBad) : q'.Held work :=
  hheld.imp (fun hp => hv ▸ hp) fun hb => hbad hb

theorem Blames.held (hq : Blames q q') (hheld : q.Held work) : q'.Held work := by
  refine hheld.of_subset ?_ hq.bad
  rw [hq.rest]

theorem Readies.held (hq : Readies q q') (hheld : q.Held work) : q'.Held work := by
  refine hheld.of_subset ?_ ?_
  · rw [hq.rest]
  · rw [hq.rest]

/-- An entry that a pass takes out is known to be bad afterwards. -/
theorem Held.pass {p : Pass} (hheld : q.Held work) (ht : q.Trailing p) :
    (q.pass p).2.Held work := by
  obtain ⟨hblames, hbad⟩ := blames_foldl (q.sweep p).1 (q.sweep p).2
  have hsame : (q.sweep p).2.m_knownBad = q.m_knownBad := by cases p <;> rfl
  cases hheld with
  | inr hb => exact .inr (hblames.bad (hsame ▸ hb))
  | inl hp =>
    cases p with
    | verified => exact hblames.held (.inl hp)
    | unverified => exact hblames.held (.inl hp)
    | verifying =>
      by_cases hmarked : badVerifying q.m_knownBad (placeholder work) = true
      · refine .inr (hbad _ ?_)
        show work.hash ∈ (SizedBlockQueue.remains _ _ _).map VerifiedBlock.entryHash
        rw [@SizedBlockQueue.remains_of_trailing _ _ VerifiedBlock.moved _ ht]
        exact List.mem_map.mpr ⟨placeholder work, List.mem_filter.mpr ⟨hp, hmarked⟩, rfl⟩
      · refine hblames.held (.inl ?_)
        exact List.mem_filter.mpr ⟨hp, by rw [eq_false_of_ne_true hmarked]; rfl⟩

theorem Held.drainVerified (hheld : q.Held work) : q.drainVerified.Held work :=
  hheld.imp (fun hp => mem_drainLoop hp rfl) fun hb => (releases_drainLoop _ q).bad hb

/-- A report on another block leaves the entry. -/
theorem Held.reportBad {other : UnverifiedBlock} (hheld : q.Held work)
    (hne : work.hash ≠ other.hash) : (q.reportBad other).Held work := by
  refine Held.drainVerified (hheld.imp (fun hp => ?_) fun hb => Finset.mem_insert_of_mem hb)
  refine List.mem_filter.mpr ⟨hp, ?_⟩
  show (!decide ((placeholder work).info.m_sha3Uncles = other.hash)) = true
  have hname : (placeholder work).info.m_sha3Uncles ≠ other.hash := hne
  rw [decide_eq_false hname]
  rfl

theorem mem_replace {res b : VerifiedBlock} {l : List VerifiedBlock} (hb : b ∈ l)
    (hne : b.info.m_sha3Uncles ≠ h) : b ∈ replace h res l := by
  induction l with
  | nil => cases hb
  | cons c l ih =>
    unfold replace
    by_cases hc : c.info.m_sha3Uncles = h
    · rw [if_pos hc]
      refine List.mem_cons_of_mem res ((List.mem_cons.mp hb).resolve_left fun e => ?_)
      exact hne (e ▸ hc)
    · rw [if_neg hc]
      cases List.mem_cons.mp hb with
      | inl e => exact e ▸ List.mem_cons_self
      | inr hb => exact List.mem_cons_of_mem c (ih hb)

theorem Held.reportGood {other : UnverifiedBlock} {res : VerifiedBlock} (hheld : q.Held work)
    (hne : work.hash ≠ other.hash) : (q.reportGood other res).Held work := by
  have hname : (placeholder work).info.m_sha3Uncles ≠ other.hash := hne
  unfold BlockQueue.reportGood
  by_cases hnext : (q.m_verifying.head?.map fun b => b.info.m_sha3Uncles) = some other.hash
  · rw [if_pos hnext]
    obtain ⟨b, hhead, hb⟩ := Option.map_eq_some_iff.mp hnext
    obtain ⟨rest, hq⟩ := List.head?_eq_some_iff.mp hhead
    have hreleases := releases_release res {q with m_verifying := q.m_verifying.tail}
    have htail : Held {q with m_verifying := q.m_verifying.tail} work := by
      refine hheld.imp (fun hp => ?_) fun hb => hb
      rw [hq] at hp ⊢
      exact (List.mem_cons.mp hp).resolve_left fun e => hname (e ▸ hb)
    refine Held.drainVerified (htail.imp (fun hp => ?_) fun hb => hreleases.bad hb)
    rw [← release_verifying]
    exact hp
  · rw [if_neg hnext]
    exact hheld.imp (fun hp => mem_replace hp hname) fun hb => hb

/-- The other blocks that verifiers have. -/
theorem mem_eraseIdx {working : List UnverifiedBlock} {i : ℕ}
    {other : UnverifiedBlock} (hnodup : (working.map UnverifiedBlock.hash).Nodup)
    (hw : working[i]? = some work) (ho : other ∈ working.eraseIdx i) :
    other ∈ working ∧ other.hash ≠ work.hash := by
  obtain ⟨hlt, hget⟩ := List.getElem?_eq_some_iff.mp hw
  have hsplit : working = working.take i ++ work :: working.drop (i + 1) := by
    rw [← hget, List.getElem_cons_drop, List.take_append_drop]
  rw [List.eraseIdx_eq_take_drop_succ] at ho
  rw [hsplit] at hnodup ⊢
  simp only [List.map_append, List.map_cons, List.nodup_append, List.nodup_cons,
    List.mem_cons, List.mem_append, List.mem_map] at hnodup ho ⊢
  grind

theorem mem_insert {K : Type} [LT K] [DecidableLT K] {key : K} {hash : H256} {blockData : Bytes}
    {m : SizedBlockMap K} {e : K × H256 × Bytes} (he : e ∈ m.insert key hash blockData) :
    e = (key, hash, blockData) ∨ e ∈ m := by
  rw [SizedBlockMap.insert, List.mem_append, List.mem_cons] at he
  rcases he with he | he | he
  · exact .inr (List.takeWhile_subset _ he)
  · exact .inl he
  · exact .inr (List.dropWhile_subset _ he)

/-! ### The invariant -/

section Invariant
variable [Sha3] {passes : ImportRequirements → Bytes → Bool}

theorem verifyBlock_some {ir : ImportRequirements} {block : Bytes} {info : BlockHeader}
    (h : verifyBlock passes ir block = some info) :
    BlockHeader.headerHashFromBlock block = .ok info.m_hash ∧ block ≠ [] := by
  unfold verifyBlock at h
  split at h
  · exact BlockHeader.construct_blockData (RLPView.toOption_eq_some.mp h)
  · cases h

/-- The bytes are those of a block with the hash. -/
def Carries (hash : H256) (block : Bytes) : Prop := BlockHeader.headerHashFromBlock block = .ok hash

/-- What holds of the queue with the blocks that verifiers have. -/
structure Invariant (q : BlockQueue) (working : List UnverifiedBlock) : Prop where
  sound : Sound [] q
  distinct : (working.map UnverifiedBlock.hash).Nodup
  held : ∀ work ∈ working, q.Held work
  working : ∀ work ∈ working, Carries work.hash work.blockData
  unverified : ∀ b ∈ q.m_unverified, Carries b.hash b.blockData
  unknown : ∀ e ∈ q.m_unknown, Carries e.2.1 e.2.2

variable {working : List UnverifiedBlock}

theorem Invariant.blames (hi : Invariant q working) (hq : Blames q q') (hs : Sound [] q')
    (hheld : ∀ work ∈ working, q'.Held work) : Invariant q' working where
  sound := hs
  distinct := hi.distinct
  held := hheld
  working := hi.working
  unverified := by
    rw [hq.rest]
    exact hi.unverified
  unknown e he := hi.unknown e (hq.unknown e he)

theorem Invariant.readies (hi : Invariant q working) (hq : Readies q q') (hs : Sound [] q') :
    Invariant q' working where
  sound := hs
  distinct := hi.distinct
  held work hw := hq.held (hi.held work hw)
  working := hi.working
  unverified b hb := by
    cases hq.unverified b hb with
    | inl hb => exact hi.unverified b hb
    | inr hb => exact hi.unknown _ hb
  unknown e he := hi.unknown e (hq.unknown e he)

theorem Invariant.pass {p : Pass} (hi : Invariant q working) (ht : q.Trailing p) :
    Invariant (q.pass p).2 working := by
  obtain ⟨hblames, -⟩ := blames_foldl (q.sweep p).1 (q.sweep p).2
  have hs := hi.sound.pass ht
  refine ⟨hs, hi.distinct, fun work hw => (hi.held work hw).pass ht, hi.working, ?_, ?_⟩
  · intro b hb
    have hb : b ∈ (q.sweep p).2.m_unverified := by
      rw [show (q.pass p).2 = (q.sweep p).1.foldl noteBad (q.sweep p).2 from rfl, hblames.rest] at hb
      exact hb
    cases p with
    | verified => exact hi.unverified b hb
    | unverified => exact hi.unverified b (List.mem_of_mem_filter hb)
    | verifying => exact hi.unverified b hb
  · intro e he
    have he := hblames.unknown e he
    cases p <;> exact hi.unknown e he

/-- The block that is taken next is no other verifier's. -/
theorem Invariant.take_fresh (hi : Invariant q working) {rest : List UnverifiedBlock}
    (hq : q.m_unverified = work :: rest) {other : UnverifiedBlock} (ho : other ∈ working) :
    other.hash ≠ work.hash := by
  intro he
  have hready := hi.sound.ready work.hash
  have hapart := hi.sound.apart work.hash
  simp only [readyHashes, List.nil_append, List.count_append, hq, List.map_cons,
    List.count_cons, beq_self_eq_true, if_true] at hready
  cases hi.held other ho with
  | inl hp =>
    have hcount : 0 < (q.m_verifying.map VerifiedBlock.entryHash).count work.hash :=
      List.count_pos_iff.mpr (List.mem_map.mpr ⟨placeholder other, hp, he⟩)
    grind
  | inr hb =>
    rw [he] at hb
    simp only [places] at hapart
    grind

theorem Invariant.take (hi : Invariant q working) (ht : q.take = some (work, q')) :
    Invariant q' (working ++ [work]) := by
  have hs := hi.sound.take ht
  obtain ⟨w, hw, he⟩ := Option.map_eq_some_iff.mp ht
  cases he
  obtain ⟨rest, hq⟩ := List.head?_eq_some_iff.mp hw
  have hmem : work ∈ q.m_unverified := hq ▸ List.mem_cons_self
  refine ⟨hs, ?_, ?_, ?_, fun b hb => hi.unverified b (List.mem_of_mem_tail hb), hi.unknown⟩
  · rw [List.map_append, List.nodup_append]
    refine ⟨hi.distinct, List.nodup_singleton _, ?_⟩
    intro x hx y hy e
    obtain ⟨other, ho, rfl⟩ := List.mem_map.mp hx
    rw [List.map_cons, List.map_nil, List.mem_singleton] at hy
    exact hi.take_fresh hq ho (e.trans hy)
  · intro other ho
    cases List.mem_append.mp ho with
    | inl ho => exact (hi.held other ho).imp (List.mem_append_left _) fun hb => hb
    | inr ho =>
      rw [List.mem_singleton] at ho
      exact .inl (List.mem_append_right _ (ho ▸ List.mem_singleton_self _))
  · intro other ho
    cases List.mem_append.mp ho with
    | inl ho => exact hi.working other ho
    | inr ho =>
      rw [List.mem_singleton] at ho
      exact ho ▸ hi.unverified work hmem

theorem Invariant.releases (hi : Invariant q working) (hq : Releases q q') (hs : Sound [] q')
    {rest : List UnverifiedBlock} (hdistinct : (rest.map UnverifiedBlock.hash).Nodup)
    (hrest : ∀ work ∈ rest, work ∈ working ∧ q'.Held work) : Invariant q' rest where
  sound := hs
  distinct := hdistinct
  held work hw := (hrest work hw).2
  working work hw := hi.working work (hrest work hw).1
  unverified := by
    rw [hq.rest]
    exact hi.unverified
  unknown := by
    rw [hq.rest]
    exact hi.unknown

theorem Invariant.report {i : ℕ} (hi : Invariant q working) (hw : working[i]? = some work)
    (hu : q.Unaliased work.hash) : Invariant (q.report passes work) (working.eraseIdx i) := by
  have hmem := List.mem_of_getElem? hw
  have hothers : ∀ other ∈ working.eraseIdx i, other ∈ working ∧ other.hash ≠ work.hash :=
    fun other ho => mem_eraseIdx hi.distinct hw ho
  have hdistinct : ((working.eraseIdx i).map UnverifiedBlock.hash).Nodup :=
    hi.distinct.sublist ((List.eraseIdx_sublist _ i).map _)
  unfold BlockQueue.report
  cases hv : verifyBlock passes .outOfOrderChecks work.blockData with
  | none =>
    refine hi.releases (releases_reportBad work q) (hi.sound.reportBad hu (hi.held work hmem))
      hdistinct fun other ho => ?_
    obtain ⟨ho, hne⟩ := hothers other ho
    exact ⟨ho, (hi.held other ho).reportBad hne⟩
  | some info =>
    obtain ⟨hinfo, hdata⟩ := verifyBlock_some hv
    have hhash : info.m_hash = work.hash :=
      Except.ok.inj (hinfo.symm.trans (hi.working work hmem))
    have hs : Sound [] (q.reportGood work ⟨info, work.blockData⟩) :=
      hi.sound.reportGood hu hhash hdata
    refine hi.releases (releases_reportGood work _ q) hs hdistinct fun other ho => ?_
    obtain ⟨ho, hne⟩ := hothers other ho
    exact ⟨ho, (hi.held other ho).reportGood hne⟩

/-- A call that leaves the queues but for new blocks. -/
theorem Invariant.adds (hi : Invariant q working) (hs : Sound [] q')
    (hv : q'.m_verifying = q.m_verifying) (hbad : q.m_knownBad ⊆ q'.m_knownBad)
    (hunverified : ∀ b ∈ q'.m_unverified, b ∈ q.m_unverified ∨ Carries b.hash b.blockData)
    (hunknown : ∀ e ∈ q'.m_unknown, e ∈ q.m_unknown ∨ Carries e.2.1 e.2.2) :
    Invariant q' working where
  sound := hs
  distinct := hi.distinct
  held work hw := (hi.held work hw).of_subset hv hbad
  working := hi.working
  unverified b hb := (hunverified b hb).elim (hi.unverified b) id
  unknown e he := (hunknown e he).elim (hi.unknown e) id

theorem Invariant.enqueue (hi : Invariant q working) (hk : ¬q.known h = true) (bi : BlockHeader)
    {block : Bytes} (hcarries : Carries h block) : Invariant (q.enqueue h bi block) working := by
  apply hi.adds (hi.sound.enqueue hk bi block) rfl (Finset.Subset.refl _) _ fun e he => .inl he
  intro b hb
  refine (List.mem_append.mp hb).imp_right fun hb => ?_
  rw [List.mem_singleton.mp hb]
  exact hcarries

theorem Invariant.importHeader (hi : Invariant q working) (hk : ¬q.known h = true)
    {bi : BlockHeader} (hbi : bi.m_hash = h) {block : Bytes} (hcarries : Carries h block)
    (isKnown : H256 → Bool) (utcTime : ℤ) (isOurs : Bool) :
    Invariant (q.importHeader isKnown utcTime isOurs h bi block).2.1 working := by
  have hs := hi.sound.importHeader hk hbi isKnown utcTime isOurs block
  unfold BlockQueue.importHeader at hs ⊢
  split
  · exact hi
  split
  · rename_i h1 h2
    rw [if_neg h1, if_pos h2] at hs
    exact hi.adds hs rfl (Finset.Subset.refl _) (fun b hb => .inl hb) fun e he => .inl he
  split
  · rename_i h1 h2 h3
    rw [if_neg h1, if_neg h2, if_pos h3] at hs
    exact hi.adds hs rfl (Finset.subset_insert _ _) (fun b hb => .inl hb) fun e he => .inl he
  split
  · rename_i h1 h2 h3 h4
    rw [if_neg h1, if_neg h2, if_neg h3, if_pos h4] at hs
    refine hi.adds hs rfl (Finset.Subset.refl _) (fun b hb => .inl hb) fun e he => ?_
    cases mem_insert he with
    | inl hnew =>
      rw [hnew]
      exact .inr hcarries
    | inr he => exact .inl he
  · rename_i h1 h2 h3 h4
    rw [if_neg h1, if_neg h2, if_neg h3, if_neg h4] at hs
    exact (hi.enqueue hk bi hcarries).readies (readies_readyLoop _ [h] _) hs

theorem Invariant.importBlock (hi : Invariant q working) (isKnown : H256 → Bool) (utcTime : ℤ)
    (isOurs : Bool) (block : Bytes) {r : ImportResult × BlockQueue × List H256}
    (hr : q.importBlock passes isKnown utcTime isOurs block = .ok r) : Invariant r.2.1 working := by
  obtain ⟨h, hh, hr⟩ := bind_eq_ok.mp hr
  by_cases hk : q.known h = true
  · rw [if_pos hk] at hr
    cases hr
    exact hi
  · rw [if_neg hk] at hr
    cases hv : verifyBlock passes .postGenesis block with
    | none =>
      rw [hv] at hr
      cases hr
      exact hi
    | some bi =>
      rw [hv] at hr
      cases hr
      have hbi : bi.m_hash = h := Except.ok.inj ((verifyBlock_some hv).1.symm.trans hh)
      exact hi.importHeader hk hbi hh isKnown utcTime isOurs

theorem Invariant.drain (hi : Invariant q working) (max : ℕ) : Invariant (q.drain max).2 working := by
  have hs := hi.sound.drain max
  by_cases hd : q.m_drainingSet = ∅
  · obtain ⟨d, he⟩ := drain_eq hd max
    rw [he] at hs ⊢
    exact hi.adds hs rfl (Finset.Subset.refl _) (fun b hb => .inl hb) fun e he => .inl he
  · unfold BlockQueue.drain
    rw [if_neg hd]
    exact hi

/-! ### Runs -/

namespace System

/-- The bad blocks are among those that were drained; the bad blocks of a pass are the last of
their queue; and no verified block has the hash of a block that is reported for its uncles. -/
def Proper (s : System) : Event → Prop
  | .doneDrain bad => ∀ h ∈ bad, h ∈ s.queue.m_drainingSet
  | .pass => ∀ p ∈ s.purging, s.queue.Trailing p.1
  | .report i => ∀ work ∈ s.working[i]?, s.queue.Unaliased work.hash
  | _ => True

theorem invariant_locked {s : System} {e : Event} (hi : Invariant s.queue s.working)
    (hp : s.Proper e) :
    Invariant (s.lockedStep passes e).queue (s.lockedStep passes e).working := by
  have himport : ∀ (t : System) block isOurs utcTime, Invariant t.queue t.working →
      Invariant (t.importing passes block isOurs utcTime).queue
        (t.importing passes block isOurs utcTime).working := by
    intro t block isOurs utcTime ht
    unfold importing
    cases hr : t.queue.importBlock passes (· ∈ t.chain) utcTime isOurs block with
    | error e => exact ht
    | ok r => exact ht.importBlock _ utcTime isOurs block hr
  cases e with
  | importBlock block isOurs utcTime => exact himport s block isOurs utcTime hi
  | importDue i utcTime =>
    unfold lockedStep
    dsimp only
    cases s.due[i]? with
    | none => exact hi
    | some block => exact himport {s with due := s.due.eraseIdx i} block false utcTime hi
  | report i =>
    unfold lockedStep
    dsimp only
    cases hw : s.working[i]? with
    | none => exact hi
    | some work => exact hi.report hw (hp work hw)
  | drain max => exact hi.drain max
  | doneDrain bad =>
    exact hi.adds (hi.sound.doneDrain hp) rfl Finset.subset_union_left (fun b hb => .inl hb)
      fun e he => .inl he
  | noteReady good => exact hi.readies (readies_readyLoop _ _ _) (hi.sound.noteReady good)
  | retryAllUnknown => exact hi.readies (readies_retryLoop _ _) hi.sound.retryAllUnknown
  | tick utcTime =>
    exact hi.adds (hi.sound.tick utcTime) rfl (Finset.Subset.refl _) (fun b hb => .inl hb)
      fun e he => .inl he
  | setChain chain => exact hi
  | take => exact hi
  | beginPurge => exact hi
  | pass => exact hi

theorem invariant_step {s : System} {e : Event} (hi : Invariant s.queue s.working)
    (hp : s.Proper e) : Invariant (s.step passes e).queue (s.step passes e).working := by
  have hlocked : Invariant (if s.Unlocked then s.lockedStep passes e else s).queue
      (if s.Unlocked then s.lockedStep passes e else s).working := by
    split
    · exact invariant_locked hi hp
    · exact hi
  cases e with
  | take =>
    unfold step
    dsimp only
    split
    · cases ht : s.queue.take with
      | none => exact hi
      | some t => exact hi.take ht
    · exact hi
  | beginPurge =>
    unfold step
    dsimp only
    split
    · cases s.doomed.head? with
      | none => exact hi
      | some bad =>
        have hblames := blames_collectLoop (s.queue.m_unknown.length + 1) [bad] s.queue
        exact hi.blames hblames (hi.sound.collectUnknownBad bad)
          fun work hw => hblames.held (hi.held work hw)
    · exact hi
  | pass =>
    unfold step
    dsimp only
    cases hpass : s.purging with
    | none => exact hi
    | some p => exact hi.pass (hp p hpass)
  | _ => exact hlocked

/-- What the run has done keeps the invariant. -/
theorem invariant_run {events : List Event} {s : System} (hi : Invariant s.queue s.working)
    (hrun : Along (step passes) Proper s events) :
    Invariant (events.foldl (step passes) s).queue (events.foldl (step passes) s).working :=
  @Along.foldl _ _ (step passes) Proper (fun t => Invariant t.queue t.working)
    (fun hi hp => invariant_step hi hp) s events hrun hi

end System
end Invariant

/-! ### The sets -/

/-- The sets of hashes. -/
def sets (q : BlockQueue) : List (Finset H256) :=
  [q.m_readySet, q.m_drainingSet, q.m_unknownSet, q.m_futureSet, q.m_knownBad]

/-- The sets are those of the queues and have nothing in common. -/
structure Consistent (q : BlockQueue) : Prop where
  distinct : q.readyHashes.Nodup
  ready : ∀ h, h ∈ q.m_readySet ↔ h ∈ q.readyHashes
  unknown : ∀ h, h ∈ q.m_unknownSet ↔ h ∈ q.m_unknown.hashes
  future : ∀ h, h ∈ q.m_futureSet ↔ h ∈ q.m_future.hashes
  disjoint : q.sets.Pairwise Disjoint

theorem Lists.mem_iff {l : List H256} {s : Finset H256} (hl : Lists l s) (h : H256) :
    h ∈ s ↔ h ∈ l := by
  rw [mem_iff_count, hl h]
  by_cases hh : h ∈ s <;> simp [hh]

theorem Sound.consistent (hs : Sound [] q) : Consistent q where
  distinct := by
    rw [List.nodup_iff_count_le_one]
    intro h
    have hh := hs.ready h
    rw [List.nil_append] at hh
    rw [hh]
    split <;> omega
  ready := hs.ready.mem_iff
  unknown := hs.unknown.mem_iff
  future := hs.future.mem_iff
  disjoint := by
    have hapart := hs.apart
    simp only [places] at hapart
    simp only [sets, List.pairwise_cons, List.mem_cons, List.not_mem_nil, or_false,
      forall_eq_or_imp, forall_eq, Finset.disjoint_left, List.Pairwise.nil, false_imp_iff,
      implies_true, and_true]
    refine ⟨⟨?_, ?_, ?_, ?_⟩, ⟨?_, ?_, ?_⟩, ⟨?_, ?_⟩, ?_⟩
    all_goals
      intro x h h'
      have hx := hapart x
      grind

/-- `invariants()`. -/
theorem Consistent.invariants (hq : Consistent q) : q.m_readySet.card = q.count := by
  have hset : q.m_readySet = q.readyHashes.toFinset :=
    Finset.ext fun h => (hq.ready h).trans List.mem_toFinset.symm
  rw [hset, List.toFinset_card_of_nodup hq.distinct]
  simp only [readyHashes, count, List.length_append, List.length_map]

theorem not_consistent (hh : decide (h ∈ q.m_readySet ∧ h ∉ q.readyHashes) = true) :
    ¬Consistent q := fun hq =>
  (of_decide_eq_true hh).2 ((hq.ready h).mp (of_decide_eq_true hh).1)

/-- In every state of a proper run the sets have what the queues hold. -/
theorem reachable_consistent [Sha3] (passes : ImportRequirements → Bytes → Bool)
    (events : List Event) (hrun : Along (System.step passes) System.Proper {} events) :
    Consistent (events.foldl (System.step passes) {}).queue ∧
      (events.foldl (System.step passes) {}).queue.m_readySet.card =
        (events.foldl (System.step passes) {}).queue.count := by
  have hempty : Invariant ({} : BlockQueue) [] :=
    ⟨sound_empty, List.nodup_nil, fun _ h => (nomatch h), fun _ h => (nomatch h),
      fun _ h => (nomatch h), fun _ h => (nomatch h)⟩
  have hq := (System.invariant_run hempty hrun).sound.consistent
  exact ⟨hq, hq.invariants⟩

/-! ### A run that loses a block -/

instance Unaliased.decidable (q : BlockQueue) (h : H256) : Decidable (q.Unaliased h) :=
  inferInstanceAs (Decidable (∀ b ∈ q.m_verifying, b.blockData ≠ [] → b.info.m_sha3Uncles ≠ h))

instance System.Proper.decidable (s : System) : (e : Event) → Decidable (s.Proper e)
  | .doneDrain bad => inferInstanceAs (Decidable (∀ h ∈ bad, h ∈ s.queue.m_drainingSet))
  | .pass => inferInstanceAs (Decidable (∀ p ∈ s.purging, s.queue.Trailing p.1))
  | .report i => inferInstanceAs (Decidable (∀ work ∈ s.working[i]?, s.queue.Unaliased work.hash))
  | .importBlock _ _ _ | .importDue _ _ | .take | .drain _ | .noteReady _ | .retryAllUnknown
  | .tick _ | .setChain _ | .beginPurge => isTrue trivial

/-- A hash function for blocks that are told apart by their last byte. -/
@[reducible] def lastByteSha3 : Sha3 where
  sha3 b := H256.alignRight b.getLast?.toList

/-- The hash that ends with `x`. -/
def hashOf (x : UInt8) : H256 := H256.alignRight [x]

/-- A block with the hash `hashOf x` and no transactions. -/
def blockOn (parent x : UInt8) : Bytes :=
  let header : BlockHeader :=
    {BlockHeader.blank with m_parentHash := hashOf parent, m_extraData := [x]}
  Devcore.appendList (Devcore.appendList header.writtenItems.flatten ++ [0xc0, 0xc0])

/-- A block is verified and drained, and turns out to be bad when its child is queued. -/
def badParent : List Event :=
  [.setChain {hashOf 0}, .importBlock (blockOn 0 1) false 0, .take, .report 0, .drain 1,
    .importBlock (blockOn 1 2) false 0]

/-- `doneDrain`, with all the passes of two or three turns of the loop. -/
def purgeFirst (turns : ℕ) : List Event :=
  .doneDrain [hashOf 1] :: .beginPurge :: List.replicate (3 * turns) .pass

attribute [local instance] lastByteSha3

/-- The run from the empty queue, where every block passes. -/
def runOf (events : List Event) : System := events.foldl (System.step fun _ _ => true) {}

theorem reachable_consistent_badParent :
    Consistent (runOf (badParent ++ purgeFirst 2)).queue ∧
      (runOf (badParent ++ purgeFirst 2)).queue.m_readySet.card =
        (runOf (badParent ++ purgeFirst 2)).queue.count := by
  unfold runOf
  exact reachable_consistent (fun _ _ => true) (badParent ++ purgeFirst 2) (by decide +kernel)

/-- The child of the bad block has a child itself. -/
def badGrandparent : List Event :=
  badParent ++ .importBlock (blockOn 2 3) false 0 :: purgeFirst 3

/-- The child of the bad block is lost, and its hash stays in `m_readySet`. -/
theorem badGrandparent_inconsistent :
    (runOf badGrandparent).Unlocked ∧ ¬Consistent (runOf badGrandparent).queue := by
  refine ⟨by decide +kernel, not_consistent (h := hashOf 2) ?_⟩
  decide +kernel

end Aleth.Ethereum.BlockQueue
