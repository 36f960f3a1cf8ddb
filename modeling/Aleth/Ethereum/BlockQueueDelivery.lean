import Aleth.Ethereum.BlockQueueThreads
import Aleth.Structure.Lineage

/-! What becomes of the blocks that the queue accepts.

`reachable_delivered`: as long as blocks pass their verification, no block is
reported bad and the chain has what was drained, each accepted block is queued,
in the hands of `tick`, drained or in the chain; no block is queued or drained
twice; and its data are the imported bytes. Where `noteReady` is called for
blocks of the chain and `retryAllUnknown` is not called, the parent of a block
is drained before it, or is in the chain. -/
namespace Aleth.Ethereum.BlockQueue
open Devcore Ethcore Runs Lineage
variable {q q' : BlockQueue} {work : UnverifiedBlock} {h : H256}

/-! ### The line of blocks that are ready -/

def VerifiedBlock.finished (b : VerifiedBlock) : Bool := b.blockData ≠ []

/-- The block and its parent. -/
def VerifiedBlock.link (b : VerifiedBlock) : H256 × H256 := (b.infoHash, b.info.m_parentHash)

def VerifiedBlock.entryLink (b : VerifiedBlock) : H256 × H256 := (b.entryHash, b.info.m_parentHash)

def UnverifiedBlock.link (b : UnverifiedBlock) : H256 × H256 := (b.hash, b.parentHash)

def line (q : BlockQueue) : List (H256 × H256) :=
  q.m_verified.map VerifiedBlock.link ++ q.m_verifying.map VerifiedBlock.entryLink ++
    q.m_unverified.map UnverifiedBlock.link

theorem line_hashes (q : BlockQueue) : q.line.map Prod.fst = q.readyHashes := by
  simp only [line, readyHashes, List.map_append, List.map_map]
  rfl

theorem VerifiedBlock.entryHash_finished {b : VerifiedBlock} (hb : b.finished = true) :
    b.entryHash = b.infoHash :=
  if_pos fun h0 => of_decide_eq_true hb (List.length_eq_zero_iff.mp h0)

theorem VerifiedBlock.entryHash_unfinished {b : VerifiedBlock} (hb : b.finished = false) :
    b.entryHash = b.info.m_sha3Uncles :=
  if_neg fun h0 => h0 (List.length_eq_zero_iff.mpr (not_not.mp (of_decide_eq_false hb)))

/-- Where no block is known to be bad, a finished block is verified. -/
theorem release_eq (hbad : q.m_knownBad = ∅) (b : VerifiedBlock) :
    q.release b = {q with m_verified := q.m_verified ++ [b]} := by
  rw [release, if_neg]
  rw [hbad]
  exact Finset.notMem_empty _

/-- Draining moves the finished blocks at the front. -/
theorem drainLoop_eq {entries : List VerifiedBlock} (hbad : q.m_knownBad = ∅) :
    drainLoop entries q = {q with
      m_verified := q.m_verified ++ entries.takeWhile VerifiedBlock.finished
      m_verifying := entries.dropWhile VerifiedBlock.finished} := by
  induction entries generalizing q with
  | nil => simp [drainLoop]
  | cons b entries ih =>
    unfold drainLoop
    by_cases hb : b.blockData ≠ []
    · have hf : b.finished = true := decide_eq_true hb
      have hrest := @ih {q with m_verified := q.m_verified ++ [b]} hbad
      rw [if_pos hb, release_eq hbad, hrest, List.takeWhile_cons_of_pos hf,
        List.dropWhile_cons_of_pos hf, List.append_assoc, List.singleton_append]
    · have hf : ¬b.finished = true := fun hf => hb (of_decide_eq_true hf)
      rw [if_neg hb, List.takeWhile_cons_of_neg hf, List.dropWhile_cons_of_neg hf, List.append_nil]

theorem drainVerified_eq (hbad : q.m_knownBad = ∅) :
    q.drainVerified = {q with
      m_verified := q.m_verified ++ q.m_verifying.takeWhile VerifiedBlock.finished
      m_verifying := q.m_verifying.dropWhile VerifiedBlock.finished} := drainLoop_eq hbad

/-- A block takes the place of its entry. -/
def place (work : UnverifiedBlock) (res : VerifiedBlock) (q : BlockQueue) : BlockQueue :=
  {q with m_verifying := replace work.hash res q.m_verifying}

theorem reportGood_eq (hbad : q.m_knownBad = ∅) {res : VerifiedBlock} (hres : res.finished = true) :
    q.reportGood work res = q.place work res ∨
      q.reportGood work res = (q.place work res).drainVerified := by
  unfold reportGood
  by_cases hnext : (q.m_verifying.head?.map fun b => b.info.m_sha3Uncles) = some work.hash
  · obtain ⟨b, hhead, hname⟩ := Option.map_eq_some_iff.mp hnext
    obtain ⟨rest, hq⟩ := List.head?_eq_some_iff.mp hhead
    right
    have hreleased := @release_eq {q with m_verifying := rest} hbad res
    have hleft := @drainVerified_eq
      {q with m_verifying := rest, m_verified := q.m_verified ++ [res]} hbad
    have hright := @drainVerified_eq {q with m_verifying := res :: rest} hbad
    simp only [List.append_assoc, List.singleton_append] at hleft
    simp only [List.takeWhile_cons_of_pos hres, List.dropWhile_cons_of_pos hres] at hright
    rw [if_pos hnext, hq, List.tail_cons, place, hq, replace, if_pos hname, hreleased]
    exact hleft.trans hright.symm
  · rw [if_neg hnext]
    exact .inl rfl

theorem line_drainVerified (hbad : q.m_knownBad = ∅) : q.drainVerified.line = q.line := by
  have hfront : (q.m_verifying.takeWhile VerifiedBlock.finished).map VerifiedBlock.entryLink =
      (q.m_verifying.takeWhile VerifiedBlock.finished).map VerifiedBlock.link := by
    apply List.map_congr_left
    intro b hb
    rw [VerifiedBlock.entryLink, VerifiedBlock.entryHash_finished (List.mem_takeWhile_imp hb),
      VerifiedBlock.link]
  have hsplit := congrArg (List.map VerifiedBlock.entryLink)
    (@List.takeWhile_append_dropWhile _ VerifiedBlock.finished q.m_verifying)
  rw [List.map_append, hfront] at hsplit
  rw [drainVerified_eq hbad, line, line, ← hsplit, List.map_append]
  simp only [List.append_assoc]

theorem line_take {t : UnverifiedBlock × BlockQueue} (ht : q.take = some t) : t.2.line = q.line := by
  obtain ⟨w, hw, rfl⟩ := Option.map_eq_some_iff.mp ht
  obtain ⟨rest, hq⟩ := List.head?_eq_some_iff.mp hw
  have hentry : (placeholder w).entryLink = w.link := rfl
  simp only [line, hq, List.tail_cons, List.map_append, List.map_cons, List.map_nil, hentry,
    List.append_assoc, List.singleton_append]

theorem grounded_readyLoop {known : Finset H256} {front : List (H256 × H256)} {fuel : ℕ}
    {goodQueue : List H256} (hl : Grounded known (front ++ q.line))
    (hgood : ∀ g ∈ goodQueue, g ∈ known ∨ g ∈ (front ++ q.line).map Prod.fst) :
    Grounded known (front ++ (readyLoop fuel goodQueue q).line) := by
  induction fuel generalizing goodQueue q with
  | zero => exact hl
  | succ fuel ih =>
    cases goodQueue with
    | nil => exact hl
    | cons parent goodQueue =>
      let ready := (q.m_unknown.removeByKeyEqual parent).1
      have hline : ((q.m_unknown.removeByKeyEqual parent).1.foldl (noteNewReady parent)
          {q with m_unknown := (q.m_unknown.removeByKeyEqual parent).2}).line =
            q.line ++ (ready.map Prod.fst).map fun x => (x, parent) := by
        rw [foldl_noteNewReady]
        simp only [line, List.map_append, List.map_map, List.append_assoc]
        rfl
      rw [readyLoop_cons]
      apply ih
      · rw [hline, ← List.append_assoc]
        exact hl.append_children _ (hgood parent List.mem_cons_self)
      · intro g hg
        rw [hline, ← List.append_assoc, List.map_append, List.mem_append]
        cases List.mem_append.mp hg with
        | inl hg => exact (hgood g (List.mem_cons_of_mem parent hg)).imp_right .inl
        | inr hg =>
          refine .inr (.inr ?_)
          rw [List.map_map]
          exact List.mem_map.mpr ⟨g, hg, rfl⟩

/-- The blocks in the order in which they are drained. -/
def System.history (s : System) : List (H256 × H256) := s.drained.map VerifiedBlock.link ++ s.queue.line

theorem System.history_drain (s : System) (max : ℕ) :
    history {s with
      queue := (s.queue.drain max).2
      drained := s.drained ++ (s.queue.drain max).1} = s.history := by
  by_cases hempty : s.queue.m_drainingSet = ∅
  · obtain ⟨d, he⟩ := drain_eq hempty max
    have hsplit := congrArg (List.map VerifiedBlock.link)
      (List.take_append_drop max s.queue.m_verified)
    rw [List.map_append] at hsplit
    simp only [he, history, line, List.map_append, List.append_assoc, ← hsplit]
  · have hnone : s.queue.drain max = ([], s.queue) := if_neg hempty
    rw [hnone, List.append_nil]

/-! ### What the queue holds -/

/-- The property of the hash, the parent and the data of each block that the queue has. -/
structure Holds (P : H256 → H256 → Bytes → Prop) (q : BlockQueue) : Prop where
  verified : ∀ b ∈ q.m_verified, P b.infoHash b.info.m_parentHash b.blockData
  finished : ∀ b ∈ q.m_verifying, b.finished = true → P b.infoHash b.info.m_parentHash b.blockData
  unverified : ∀ b ∈ q.m_unverified, P b.hash b.parentHash b.blockData
  unknown : ∀ e ∈ q.m_unknown, P e.2.1 e.1 e.2.2
  future : ∀ e ∈ q.m_future, ∃ parent, P e.2.1 parent e.2.2

/-- The queue has a block with the hash. -/
def Has (q : BlockQueue) (h : H256) : Prop :=
  h ∈ q.m_readySet ∨ h ∈ q.m_unknownSet ∨ h ∈ q.m_futureSet

/-- A block that is drained is in no other set. -/
theorem not_has_of_draining {x : H256} (hs : Sound [] q) (hx : x ∈ q.m_drainingSet) : ¬q.Has x := by
  have hapart := hs.apart x
  simp only [places, if_pos hx] at hapart
  rintro (h | h | h)
  all_goals
    rw [if_pos h] at hapart
    omega

variable {P P' : H256 → H256 → Bytes → Prop}

theorem Holds.mono (hq : q.Holds P) (hp : ∀ x parent block, P x parent block → P' x parent block) :
    q.Holds P' where
  verified b hb := hp _ _ _ (hq.verified b hb)
  finished b hb hf := hp _ _ _ (hq.finished b hb hf)
  unverified b hb := hp _ _ _ (hq.unverified b hb)
  unknown e he := hp _ _ _ (hq.unknown e he)
  future e he := (hq.future e he).imp fun parent hf => hp _ parent _ hf

theorem Readies.holds (hq : Readies q q') (hp : q.Holds P) : q'.Holds P := by
  have hrest := hq.rest
  refine ⟨?_, ?_, fun b hb => ?_, fun e he => hp.unknown e (hq.unknown e he), ?_⟩
  · rw [hrest]
    exact hp.verified
  · rw [hrest]
    exact hp.finished
  · cases hq.unverified b hb with
    | inl hb => exact hp.unverified b hb
    | inr he => exact hp.unknown _ he
  · rw [hrest]
    exact hp.future

/-- Blocks become ready that were unknown. -/
theorem Readies.has (hq : Readies q q') (hs : Sound [] q) (hs' : Sound [] q') (x : H256) :
    q'.Has x ↔ q.Has x := by
  have hfuture : q'.m_futureSet = q.m_futureSet := by rw [hq.rest]
  constructor
  · rintro (hx | hx | hx)
    · have hx := (hs'.consistent.ready x).mp hx
      rw [readyHashes, List.mem_append, List.mem_map] at hx
      rcases hx with hx | ⟨b, hb, rfl⟩
      · refine .inl ((hs.consistent.ready x).mpr (List.mem_append_left _ ?_))
        rw [hq.rest] at hx
        exact hx
      · cases hq.unverified b hb with
        | inl hb =>
          refine .inl ((hs.consistent.ready _).mpr (List.mem_append_right _ ?_))
          exact List.mem_map_of_mem hb
        | inr he => exact .inr (.inl ((hs.consistent.unknown _).mpr (List.mem_map_of_mem he)))
    · obtain ⟨e, he, rfl⟩ := List.mem_map.mp ((hs'.consistent.unknown x).mp hx)
      exact .inr (.inl ((hs.consistent.unknown _).mpr (List.mem_map_of_mem (hq.unknown e he))))
    · exact .inr (.inr (hfuture ▸ hx))
  · rintro (hx | hx | hx)
    · exact .inl (hq.ready hx)
    · exact (hq.kept x (.inr hx)).imp_right .inl
    · exact .inr (.inr (hfuture ▸ hx))

theorem Holds.drainVerified (hp : q.Holds P) (hbad : q.m_knownBad = ∅) :
    q.drainVerified.Holds P := by
  rw [drainVerified_eq hbad]
  refine ⟨fun b hb => ?_, fun b hb => hp.finished b (List.dropWhile_subset _ hb),
    hp.unverified, hp.unknown, hp.future⟩
  cases List.mem_append.mp hb with
  | inl hb => exact hp.verified b hb
  | inr hb => exact hp.finished b (List.takeWhile_subset _ hb) (List.mem_takeWhile_imp hb)

theorem replace_mem {res b : VerifiedBlock} {l : List VerifiedBlock} (hb : b ∈ l)
    (hname : b.info.m_sha3Uncles = h) : res ∈ replace h res l := by
  induction l with
  | nil => cases hb
  | cons c l ih =>
    unfold replace
    by_cases hc : c.info.m_sha3Uncles = h
    · rw [if_pos hc]
      exact List.mem_cons_self
    · rw [if_neg hc]
      cases List.mem_cons.mp hb with
      | inl e => exact absurd (e ▸ hname) hc
      | inr hb => exact List.mem_cons_of_mem c (ih hb)

theorem Holds.place (hp : q.Holds P) {res : VerifiedBlock}
    (hres : P res.infoHash res.info.m_parentHash res.blockData) :
    (q.place work res).Holds P := by
  refine ⟨hp.verified, fun b hb hf => ?_, hp.unverified, hp.unknown, hp.future⟩
  cases mem_of_replace hb with
  | inl e => exact e ▸ hres
  | inr hb => exact hp.finished b hb hf

/-! ### Imports -/

section Delivery
variable [Sha3] (passes : ImportRequirements → Bytes → Bool)

/-- What `import` may do where no block is known to be bad. -/
inductive Imports (isKnown : H256 → Bool) (block : Bytes) (q : BlockQueue) :
    ImportResult × BlockQueue × List H256 → Prop where
  | refused {result : ImportResult} {h : H256} (hresult : result.accepts = false)
      (hcarries : Carries h block)
      (why : q.known h = true ∨ isKnown h = true ∨ verifyBlock passes .postGenesis block = none) :
      Imports isKnown block q (result, q, [])
  | future {result : ImportResult} {bi : BlockHeader} (hresult : result.accepts = true)
      (hverify : verifyBlock passes .postGenesis block = some bi)
      (hnew : ¬q.known bi.m_hash = true) (hchain : isKnown bi.m_hash = false) :
      Imports isKnown block q (result, (q.queueFuture isKnown bi.m_hash bi block).2, [])
  | unknown {bi : BlockHeader} (hverify : verifyBlock passes .postGenesis block = some bi)
      (hnew : ¬q.known bi.m_hash = true) (hchain : isKnown bi.m_hash = false) :
      Imports isKnown block q (.unknownParent, q.queueUnknown bi.m_hash bi block, [])
  | ready {bi : BlockHeader} (hverify : verifyBlock passes .postGenesis block = some bi)
      (hnew : ¬q.known bi.m_hash = true) (hchain : isKnown bi.m_hash = false)
      (hparent : bi.m_parentHash ∈ q.m_readySet ∨ bi.m_parentHash ∈ q.m_drainingSet ∨
        isKnown bi.m_parentHash = true) :
      Imports isKnown block q (.success, q.queueReady bi.m_hash bi block, [])

variable {passes}

theorem imports_of_ok {isKnown : H256 → Bool} {utcTime : ℤ} {isOurs : Bool} {block : Bytes}
    {r : ImportResult × BlockQueue × List H256} (hbad : q.m_knownBad = ∅)
    (hr : q.importBlock passes isKnown utcTime isOurs block = .ok r) :
    Imports passes isKnown block q r := by
  obtain ⟨h, hh, hr⟩ := bind_eq_ok.mp hr
  by_cases hk : q.known h = true
  · rw [if_pos hk] at hr
    cases hr
    exact .refused rfl hh (.inl hk)
  rw [if_neg hk] at hr
  cases hv : verifyBlock passes .postGenesis block with
  | none =>
    rw [hv] at hr
    cases hr
    exact .refused rfl hh (.inr (.inr hv))
  | some bi =>
    rw [hv] at hr
    cases hr
    have hbi : bi.m_hash = h := Except.ok.inj ((verifyBlock_some hv).1.symm.trans hh)
    subst hbi
    show Imports passes isKnown block q (q.importHeader _ _ _ _ _ _)
    unfold importHeader
    by_cases hc : isKnown bi.m_hash = true
    · rw [if_pos hc]
      exact .refused rfl hh (.inr (.inl hc))
    rw [if_neg hc]
    have hchain : isKnown bi.m_hash = false := eq_false_of_ne_true hc
    split
    · refine .future ?_ hv hk hchain
      split <;> rfl
    rw [if_neg (by rw [hbad]; exact Finset.notMem_empty _)]
    split
    · exact .unknown hv hk hchain
    · rename_i hparent
      refine .ready hv hk hchain ?_
      simp only [not_and_or, not_not, Bool.not_eq_false] at hparent
      exact hparent

/-! ### The invariant -/

/-- The block is one of those that were accepted, with its hash and parent. -/
def Original (passes : ImportRequirements → Bytes → Bool) (accepted : List Bytes)
    (hash parent : H256) (block : Bytes) : Prop :=
  block ∈ accepted ∧ ∃ info, verifyBlock passes .postGenesis block = some info ∧
    info.m_hash = hash ∧ info.m_parentHash = parent

theorem Original.carries {accepted : List Bytes} {hash parent : H256} {block : Bytes}
    (ho : Original passes accepted hash parent block) : Carries hash block := by
  obtain ⟨-, info, hv, rfl, -⟩ := ho
  exact (verifyBlock_some hv).1

theorem Original.mono {accepted accepted' : List Bytes} (ha : ∀ b ∈ accepted, b ∈ accepted')
    {hash parent : H256} {block : Bytes} (ho : Original passes accepted hash parent block) :
    Original passes accepted' hash parent block := ho.imp_left (ha block)

variable (passes) in
/-- What holds in a run where no block turns out to be bad. -/
structure Kept (s : System) : Prop where
  invariant : Invariant s.queue s.working
  unlocked : s.Unlocked
  good : s.queue.m_knownBad = ∅
  entries : ∀ b ∈ s.queue.m_verifying, b.finished = false → ∃ w ∈ s.working, b = placeholder w
  holds : s.queue.Holds (Original passes s.accepted)
  working : ∀ w ∈ s.working, Original passes s.accepted w.hash w.parentHash w.blockData
  due : ∀ block ∈ s.due, ∃ x parent, Original passes s.accepted x parent block
  drained : ∀ b ∈ s.drained,
    Original passes s.accepted b.infoHash b.info.m_parentHash b.blockData
  distinct : (s.drained.map VerifiedBlock.infoHash).Nodup
  draining : ∀ x ∈ s.queue.m_drainingSet, ∃ b ∈ s.drained, b.infoHash = x
  gone : ∀ b ∈ s.drained, (b.infoHash ∈ s.queue.m_drainingSet ∨ b.infoHash ∈ s.chain) ∧
    ¬s.queue.Has b.infoHash

variable {s : System}

theorem kept_empty : Kept passes {} where
  invariant := ⟨sound_empty, List.nodup_nil, fun _ h => (nomatch h), fun _ h => (nomatch h),
    fun _ h => (nomatch h), fun _ h => (nomatch h)⟩
  unlocked := ⟨rfl, rfl⟩
  good := rfl
  entries _ h := nomatch h
  holds := ⟨fun _ h => (nomatch h), fun _ h => (nomatch h), fun _ h => (nomatch h),
    fun _ h => (nomatch h), fun _ h => (nomatch h)⟩
  working _ h := nomatch h
  due _ h := nomatch h
  drained _ h := nomatch h
  distinct := List.nodup_nil
  draining _ h := absurd h (Finset.notMem_empty _)
  gone _ h := nomatch h

/-- A step that drains nothing and leaves `m_drainingSet`. -/
theorem Kept.requeue (hk : Kept passes s) {working : List UnverifiedBlock} {accepted : List Bytes}
    (hi : Invariant q' working) (hbad : q'.m_knownBad = ∅)
    (hdraining : q'.m_drainingSet = s.queue.m_drainingSet)
    (hentries : ∀ b ∈ q'.m_verifying, b.finished = false → ∃ w ∈ working, b = placeholder w)
    (haccepted : ∀ b ∈ s.accepted, b ∈ accepted) (hholds : q'.Holds (Original passes accepted))
    (hworking : ∀ w ∈ working, Original passes accepted w.hash w.parentHash w.blockData)
    (hhas : ∀ x, q'.Has x → s.queue.Has x ∨ ∀ b ∈ s.drained, b.infoHash ≠ x) :
    Kept passes {s with queue := q', working, accepted} where
  invariant := hi
  unlocked := hk.unlocked
  good := hbad
  entries := hentries
  holds := hholds
  working := hworking
  due block hb := by
    obtain ⟨x, parent, ho⟩ := hk.due block hb
    exact ⟨x, parent, ho.mono haccepted⟩
  drained b hb := (hk.drained b hb).mono haccepted
  distinct := hk.distinct
  draining := by
    rw [hdraining]
    exact hk.draining
  gone b hb := by
    obtain ⟨hplace, hgone⟩ := hk.gone b hb
    refine ⟨hdraining ▸ hplace, fun hx => ?_⟩
    cases hhas _ hx with
    | inl hx => exact hgone hx
    | inr hne => exact hne b hb rfl

/-- A block that is new to the queue and the chain was not drained. -/
theorem Kept.not_drained (hk : Kept passes s) {x : H256} (hnew : ¬s.queue.known x = true)
    (hchain : x ∉ s.chain) : ∀ b ∈ s.drained, b.infoHash ≠ x := by
  rintro b hb rfl
  cases (hk.gone b hb).1 with
  | inl hd =>
    apply hnew
    simp [known, hd]
  | inr hc => exact hchain hc

theorem Kept.eraseDue (hk : Kept passes s) (i : ℕ) : Kept passes {s with due := s.due.eraseIdx i} :=
  ⟨hk.invariant, hk.unlocked, hk.good, hk.entries, hk.holds, hk.working,
    fun b hb => hk.due b (List.mem_of_mem_eraseIdx hb), hk.drained, hk.distinct, hk.draining, hk.gone⟩

theorem Kept.readies (hk : Kept passes s) (hq : Readies s.queue q') (hs : Sound [] q') :
    Kept passes {s with queue := q'} := by
  have hrest := hq.rest
  apply hk.requeue (hk.invariant.readies hq hs) _ _ _ (fun _ hb => hb) (hq.holds hk.holds) hk.working
  · exact fun x hx => .inl ((hq.has hk.invariant.sound hs x).mp hx)
  · rw [hrest]
    exact hk.good
  · rw [hrest]
  · rw [hrest]
    exact hk.entries

theorem Kept.take (hk : Kept passes s) {t : UnverifiedBlock × BlockQueue}
    (ht : s.queue.take = some t) :
    Kept passes {s with queue := t.2, working := s.working ++ [t.1]} := by
  have hi := hk.invariant.take ht
  obtain ⟨w, hw, rfl⟩ := Option.map_eq_some_iff.mp ht
  have hmem : w ∈ s.queue.m_unverified := List.mem_of_head? hw
  refine hk.requeue hi hk.good rfl (fun b hb hf => ?_) (fun _ hb => hb) ?_ (fun v hv => ?_)
    fun x hx => .inl hx
  · cases List.mem_append.mp hb with
    | inl hb =>
      obtain ⟨v, hv, he⟩ := hk.entries b hb hf
      exact ⟨v, List.mem_append_left _ hv, he⟩
    | inr hb => exact ⟨w, List.mem_append_right _ (List.mem_singleton_self w), List.mem_singleton.mp hb⟩
  · refine ⟨hk.holds.verified, fun b hb hf => ?_,
      fun b hb => hk.holds.unverified b (List.mem_of_mem_tail hb), hk.holds.unknown, hk.holds.future⟩
    cases List.mem_append.mp hb with
    | inl hb => exact hk.holds.finished b hb hf
    | inr hb =>
      rw [List.mem_singleton.mp hb] at hf
      cases hf
  · cases List.mem_append.mp hv with
    | inl hv => exact hk.working v hv
    | inr hv =>
      rw [List.mem_singleton.mp hv]
      exact hk.holds.unverified w hmem

/-- What a verifier reports on a block that passes. -/
theorem report_original {accepted : List Bytes}
    (ho : Original passes accepted work.hash work.parentHash work.blockData)
    (hp : passes .outOfOrderChecks work.blockData = true) :
    ∃ res : VerifiedBlock, q.report passes work = q.reportGood work res ∧ res.finished = true ∧
      res.link = work.link ∧ res.blockData = work.blockData := by
  obtain ⟨-, info, hv, hhash, hparent⟩ := ho
  have hagain : verifyBlock passes .outOfOrderChecks work.blockData = some info := by
    unfold verifyBlock at hv ⊢
    rw [if_pos hp]
    split at hv
    · exact hv
    · cases hv
  refine ⟨⟨info, work.blockData⟩, ?_, decide_eq_true (verifyBlock_some hv).2,
    Prod.ext hhash hparent, rfl⟩
  rw [report, hagain, Option.elim_some]

/-- The entry of a block that a verifier has. -/
theorem Kept.entry (hk : Kept passes s) (hmem : work ∈ s.working) (hu : s.queue.Unaliased work.hash)
    {b : VerifiedBlock} (hb : b ∈ s.queue.m_verifying) (hname : b.info.m_sha3Uncles = work.hash) :
    b = placeholder work := by
  have hf : b.finished = false := decide_eq_false fun hdata => hu b hb hdata hname
  obtain ⟨w, hw, rfl⟩ := hk.entries b hb hf
  rw [List.inj_on_of_nodup_map hk.invariant.distinct hw hmem hname]

/-- The queue after a block took the place of its entry. -/
theorem Kept.placed (hk : Kept passes s) {i : ℕ} (hw : s.working[i]? = some work)
    (hu : s.queue.Unaliased work.hash) {res : VerifiedBlock} (hf : res.finished = true)
    (hlink : res.link = work.link) :
    (s.queue.place work res).line = s.queue.line ∧
      ∀ b ∈ replace work.hash res s.queue.m_verifying, b.finished = false →
        ∃ w ∈ s.working.eraseIdx i, b = placeholder w := by
  have hmem := List.mem_of_getElem? hw
  have hentry : res.entryLink = work.link := by
    rw [← hlink, VerifiedBlock.entryLink, VerifiedBlock.entryHash_finished hf, VerifiedBlock.link]
  have hmap : (replace work.hash res s.queue.m_verifying).map VerifiedBlock.entryLink =
      s.queue.m_verifying.map VerifiedBlock.entryLink := by
    apply map_replace
    intro b hb hname
    rw [hk.entry hmem hu hb hname, hentry]
    rfl
  have hline : (s.queue.place work res).line = s.queue.line := by
    simp only [line, place, hmap]
  refine ⟨hline, fun b hb hunfinished => ?_⟩
  have hmem_old : b ∈ s.queue.m_verifying := by
    refine (mem_of_replace hb).resolve_left fun e => ?_
    rw [e, hf] at hunfinished
    cases hunfinished
  obtain ⟨w, hwork, rfl⟩ := hk.entries b hmem_old hunfinished
  refine ⟨w, ?_, rfl⟩
  obtain ⟨j, hj⟩ := List.mem_iff_getElem?.mp hwork
  refine List.mem_eraseIdx_iff_getElem?.mpr ⟨j, ?_, hj⟩
  rintro rfl
  obtain rfl : w = work := Option.some.inj (hj.symm.trans hw)
  -- Otherwise the entry and the block would both stand in the queue.
  have hnodup := hk.invariant.sound.consistent.distinct
  rw [← line_hashes, ← hline, line_hashes, readyHashes, List.nodup_append, List.nodup_append]
    at hnodup
  have he := List.inj_on_of_nodup_map hnodup.1.2.1 hb (replace_mem hmem_old rfl)
    (VerifiedBlock.entryHash_finished hf ▸ (Prod.mk.inj hlink).1.symm)
  rw [he, hf] at hunfinished
  cases hunfinished

theorem Kept.report (hk : Kept passes s) {i : ℕ} (hw : s.working[i]? = some work)
    (hp : passes .outOfOrderChecks work.blockData = true) (hu : s.queue.Unaliased work.hash) :
    Kept passes {s with queue := s.queue.report passes work, working := s.working.eraseIdx i} ∧
      (s.queue.report passes work).line = s.queue.line ∧
      ∀ x, (s.queue.report passes work).Has x ↔ s.queue.Has x := by
  have hi := @Invariant.report _ _ _ passes _ _ hk.invariant hw hu
  have horiginal := hk.working work (List.mem_of_getElem? hw)
  obtain ⟨res, he, hf, hlink, hdata⟩ := @report_original s.queue work _ passes _ horiginal hp
  obtain ⟨hline, hentries⟩ := hk.placed hw hu hf hlink
  have hholds : (s.queue.place work res).Holds (Original passes s.accepted) := by
    obtain ⟨hhash, hparent⟩ := Prod.mk.inj hlink
    apply hk.holds.place
    rw [hhash, hparent, hdata]
    exact horiginal
  have hworking : ∀ w ∈ s.working.eraseIdx i,
      Original passes s.accepted w.hash w.parentHash w.blockData :=
    fun w hwork => hk.working w (List.mem_of_mem_eraseIdx hwork)
  rw [he] at hi ⊢
  cases reportGood_eq hk.good hf with
  | inl hq =>
    rw [hq] at hi ⊢
    exact ⟨hk.requeue hi hk.good rfl hentries (fun _ hb => hb) hholds hworking fun x hx => .inl hx,
      hline, fun x => Iff.rfl⟩
  | inr hq =>
    rw [hq] at hi ⊢
    have hdrained := hholds.drainVerified hk.good
    have hlined := (@line_drainVerified (s.queue.place work res) hk.good).trans hline
    have heq := @drainVerified_eq (s.queue.place work res) hk.good
    rw [heq] at hi hdrained hlined ⊢
    refine ⟨?_, hlined, fun x => Iff.rfl⟩
    exact hk.requeue hi hk.good rfl (fun b hb => hentries b (List.dropWhile_subset _ hb))
      (fun _ hb => hb) hdrained hworking fun x hx => .inl hx

/-! ### Steps -/

namespace System

/-- Where a block with the hash is. -/
def Found (s : System) (x : H256) : Prop :=
  s.queue.Has x ∨ (∃ b ∈ s.drained, b.infoHash = x) ∨ (∃ block ∈ s.due, Carries x block) ∨
    x ∈ s.chain

variable (passes) in
/-- A step that keeps the invariant and loses no block. -/
structure Carried (s s' : System) : Prop where
  kept : Kept passes s'
  found : ∀ x, s.Found x → s'.Found x
  accepted : ∃ new, s'.accepted = s.accepted ++ new ∧
    ∀ block ∈ new, ∀ x, Carries x block → s'.Found x

theorem Carried.refl (hk : Kept passes s) : Carried passes s s :=
  ⟨hk, fun _ hx => hx, [], (List.append_nil _).symm, fun _ h => (nomatch h)⟩

theorem Found.requeue {working : List UnverifiedBlock} {accepted : List Bytes} {x : H256}
    (hx : s.Found x) (hhas : ∀ x, s.queue.Has x → q'.Has x) :
    Found {s with queue := q', working, accepted} x := hx.imp_left (hhas x)

/-- A block that the queue has now is accepted. -/
theorem carried_of_accepted {block : Bytes} {bi : BlockHeader}
    (hk : Kept passes {s with queue := q', accepted := s.accepted ++ [block]})
    (hhas : ∀ x, s.queue.Has x → q'.Has x) (hnew : q'.Has bi.m_hash)
    (hv : verifyBlock passes .postGenesis block = some bi) :
    Carried passes s {s with queue := q', accepted := s.accepted ++ [block]} := by
  refine ⟨hk, fun x hx => hx.requeue hhas, [block], rfl, fun b hb x hx => ?_⟩
  rw [List.mem_singleton.mp hb] at hx
  have hname : bi.m_hash = x := Except.ok.inj ((verifyBlock_some hv).1.symm.trans hx)
  exact .inl (hname ▸ hnew)

theorem original_new {block : Bytes} {bi : BlockHeader}
    (hv : verifyBlock passes .postGenesis block = some bi) :
    Original passes (s.accepted ++ [block]) bi.m_hash bi.m_parentHash block :=
  ⟨List.mem_append_right _ (List.mem_singleton_self block), bi, hv, rfl, rfl⟩

theorem holds_more (hk : Kept passes s) (block : Bytes) :
    s.queue.Holds (Original passes (s.accepted ++ [block])) :=
  hk.holds.mono fun _ _ _ ho => ho.mono fun _ => List.mem_append_left [block]

theorem carried_future (hk : Kept passes s) {block : Bytes} {bi : BlockHeader}
    (isKnown : H256 → Bool) (hv : verifyBlock passes .postGenesis block = some bi)
    (hnew : ¬s.queue.known bi.m_hash = true) (hchain : bi.m_hash ∉ s.chain) :
    Carried passes s {s with
      queue := (s.queue.queueFuture isKnown bi.m_hash bi block).2
      accepted := s.accepted ++ [block]} := by
  have hi := hk.invariant.adds (hk.invariant.sound.queueFuture hnew isKnown bi block) rfl
    (Finset.Subset.refl _) (fun b hb => .inl hb) fun e he => .inl he
  have hmore := holds_more hk block
  refine carried_of_accepted (hk.requeue hi hk.good rfl hk.entries
    (fun _ => List.mem_append_left [block]) ?_ ?_ ?_) ?_ ?_ hv
  · refine ⟨hmore.verified, hmore.finished, hmore.unverified, hmore.unknown, fun e he => ?_⟩
    cases mem_insert he with
    | inl e =>
      rw [e]
      exact ⟨bi.m_parentHash, original_new hv⟩
    | inr he => exact hmore.future e he
  · exact fun w hw => (hk.working w hw).mono fun _ => List.mem_append_left [block]
  · rintro x (hx | hx | hx)
    · exact .inl (.inl hx)
    · exact .inl (.inr (.inl hx))
    · cases Finset.mem_insert.mp hx with
      | inl e => exact .inr (e ▸ hk.not_drained hnew hchain)
      | inr hx => exact .inl (.inr (.inr hx))
  · exact fun x hx => hx.imp_right fun hx => hx.imp_right (Finset.mem_insert_of_mem)
  · exact .inr (.inr (Finset.mem_insert_self _ _))

theorem carried_unknown (hk : Kept passes s) {block : Bytes} {bi : BlockHeader}
    (hv : verifyBlock passes .postGenesis block = some bi)
    (hnew : ¬s.queue.known bi.m_hash = true) (hchain : bi.m_hash ∉ s.chain) :
    Carried passes s {s with
      queue := s.queue.queueUnknown bi.m_hash bi block
      accepted := s.accepted ++ [block]} := by
  have hi : Invariant (s.queue.queueUnknown bi.m_hash bi block) s.working := by
    refine hk.invariant.adds (hk.invariant.sound.queueUnknown hnew bi block) rfl
      (Finset.Subset.refl _) (fun b hb => .inl hb) fun e he => ?_
    cases mem_insert he with
    | inl e =>
      rw [e]
      exact .inr (verifyBlock_some hv).1
    | inr he => exact .inl he
  have hmore := holds_more hk block
  refine carried_of_accepted (hk.requeue hi hk.good rfl hk.entries
    (fun _ => List.mem_append_left [block]) ?_ ?_ ?_) ?_ ?_ hv
  · refine ⟨hmore.verified, hmore.finished, hmore.unverified, fun e he => ?_, hmore.future⟩
    cases mem_insert he with
    | inl e =>
      rw [e]
      exact original_new hv
    | inr he => exact hmore.unknown e he
  · exact fun w hw => (hk.working w hw).mono fun _ => List.mem_append_left [block]
  · rintro x (hx | hx | hx)
    · exact .inl (.inl hx)
    · cases Finset.mem_insert.mp hx with
      | inl e => exact .inr (e ▸ hk.not_drained hnew hchain)
      | inr hx => exact .inl (.inr (.inl hx))
    · exact .inl (.inr (.inr hx))
  · exact fun x hx => hx.imp_right fun hx => hx.imp_left (Finset.mem_insert_of_mem)
  · exact .inr (.inl (Finset.mem_insert_self _ _))

theorem kept_enqueue (hk : Kept passes s) {block : Bytes} {bi : BlockHeader}
    (hv : verifyBlock passes .postGenesis block = some bi)
    (hnew : ¬s.queue.known bi.m_hash = true) (hchain : bi.m_hash ∉ s.chain) :
    Kept passes {s with
      queue := s.queue.enqueue bi.m_hash bi block
      accepted := s.accepted ++ [block]} := by
  have hi := hk.invariant.enqueue hnew bi (verifyBlock_some hv).1
  have hmore := holds_more hk block
  refine hk.requeue hi hk.good rfl hk.entries (fun _ => List.mem_append_left [block]) ?_ ?_ ?_
  · refine ⟨hmore.verified, hmore.finished, fun b hb => ?_, hmore.unknown, hmore.future⟩
    cases List.mem_append.mp hb with
    | inl hb => exact hmore.unverified b hb
    | inr hb =>
      rw [List.mem_singleton.mp hb]
      exact original_new hv
  · exact fun w hw => (hk.working w hw).mono fun _ => List.mem_append_left [block]
  · rintro x (hx | hx)
    · cases Finset.mem_insert.mp hx with
      | inl e => exact .inr (e ▸ hk.not_drained hnew hchain)
      | inr hx => exact .inl (.inl hx)
    · exact .inl (.inr hx)

theorem carried_ready (hk : Kept passes s) {block : Bytes} {bi : BlockHeader}
    (hv : verifyBlock passes .postGenesis block = some bi)
    (hnew : ¬s.queue.known bi.m_hash = true) (hchain : bi.m_hash ∉ s.chain) :
    Carried passes s {s with
      queue := s.queue.queueReady bi.m_hash bi block
      accepted := s.accepted ++ [block]} := by
  have hqueued := kept_enqueue hk hv hnew hchain
  have hready := readies_readyLoop ((s.queue.enqueue bi.m_hash bi block).m_unknown.length + 1)
    [bi.m_hash] (s.queue.enqueue bi.m_hash bi block)
  have hs := hqueued.invariant.sound.noteReady bi.m_hash
  have hhas := fun x => (hready.has hqueued.invariant.sound hs x).mpr
  refine carried_of_accepted (hqueued.readies hready hs) (fun x hx => hhas x ?_) (hhas _ ?_) hv
  · exact hx.imp_left Finset.mem_insert_of_mem
  · exact .inl (Finset.mem_insert_self _ _)

theorem grounded_ready (hk : Kept passes s) {block : Bytes} {bi : BlockHeader}
    (hparent : bi.m_parentHash ∈ s.queue.m_readySet ∨ bi.m_parentHash ∈ s.queue.m_drainingSet ∨
      bi.m_parentHash ∈ s.chain) (hl : Grounded s.chain s.history) :
    Grounded s.chain (history {s with
      queue := s.queue.queueReady bi.m_hash bi block
      accepted := s.accepted ++ [block]}) := by
  have hline : (s.queue.enqueue bi.m_hash bi block).line =
      s.queue.line ++ [(bi.m_hash, bi.m_parentHash)] := by
    simp only [line, enqueue, List.map_append, List.append_assoc]
    rfl
  have hlisted : bi.m_parentHash ∈ s.chain ∨ bi.m_parentHash ∈ s.history.map Prod.fst := by
    rw [history, List.map_append, List.mem_append, line_hashes, List.map_map]
    rcases hparent with hp | hp | hp
    · exact .inr (.inr ((hk.invariant.sound.consistent.ready _).mp hp))
    · exact .inr (.inl (List.mem_map.mpr (hk.draining _ hp)))
    · exact .inl hp
  have hgrown : Grounded s.chain
      (s.drained.map VerifiedBlock.link ++ (s.queue.enqueue bi.m_hash bi block).line) := by
    rw [hline, ← List.append_assoc]
    exact hl.snoc hlisted
  have hlast : bi.m_hash ∈ (s.drained.map VerifiedBlock.link ++
      (s.queue.enqueue bi.m_hash bi block).line).map Prod.fst := by
    rw [hline]
    simp
  exact grounded_readyLoop hgrown fun g hg => .inr (List.mem_singleton.mp hg ▸ hlast)

theorem Found.of_known (hk : Kept passes s) {x : H256} (hx : s.queue.known x = true) :
    s.Found x := by
  have hgood := hk.good
  simp only [known, hgood, Bool.or_eq_true, decide_eq_true_eq, Finset.notMem_empty, or_false] at hx
  rcases hx with ((hx | hx) | hx) | hx
  · exact .inl (.inl hx)
  · exact .inr (.inl (hk.draining x hx))
  · exact .inl (.inr (.inl hx))
  · exact .inl (.inr (.inr hx))

/-- A call of `import` is one of those of `Imports`. -/
theorem importing_cases (hk : Kept passes s) (block : Bytes) (isOurs : Bool) (utcTime : ℤ) :
    s.importing passes block isOurs utcTime = s ∧ (∀ x, Carries x block →
        s.queue.known x = true ∨ x ∈ s.chain ∨ verifyBlock passes .postGenesis block = none) ∨
      ∃ r, Imports passes (· ∈ s.chain) block s.queue r ∧ r.1.accepts = true ∧
        s.importing passes block isOurs utcTime =
          {s with queue := r.2.1, accepted := s.accepted ++ [block]} := by
  unfold importing
  cases hr : s.queue.importBlock passes (· ∈ s.chain) utcTime isOurs block with
  | error e =>
    refine .inl ⟨rfl, fun x hx => ?_⟩
    rw [importBlock, hx] at hr
    by_cases hknown : s.queue.known x = true
    · exact .inl hknown
    · simp only [bind, Except.bind, if_neg hknown] at hr
      cases hr
  | ok r =>
    have himports := imports_of_ok hk.good hr
    have hform : ∀ {r : ImportResult × BlockQueue × List H256}, r.1.accepts = true → r.2.2 = [] →
        {s with
          queue := r.2.1
          doomed := r.2.2
          accepted := if r.1.accepts then s.accepted ++ [block] else s.accepted} =
        {s with queue := r.2.1, accepted := s.accepted ++ [block]} := by
      intro r haccepts hdoomed
      rw [haccepts, if_pos rfl, hdoomed, ← hk.unlocked.1]
    cases himports with
    | @refused result h hresult hcarries why =>
      refine .inl ⟨?_, fun x hx => ?_⟩
      · show {s with
          doomed := []
          accepted := if result.accepts then s.accepted ++ [block] else s.accepted} = s
        rw [hresult, if_neg Bool.false_ne_true, ← hk.unlocked.1]
      · have hname : h = x := Except.ok.inj (hcarries.symm.trans hx)
        rw [← hname]
        exact why.imp_right fun why => why.imp_left of_decide_eq_true
    | future hresult hv hnew hchain =>
      exact .inr ⟨_, .future hresult hv hnew hchain, hresult, hform hresult rfl⟩
    | unknown hv hnew hchain => exact .inr ⟨_, .unknown hv hnew hchain, rfl, hform rfl rfl⟩
    | ready hv hnew hchain hparent =>
      exact .inr ⟨_, .ready hv hnew hchain hparent, rfl, hform rfl rfl⟩

theorem carried_importing (hk : Kept passes s) (block : Bytes) (isOurs : Bool) (utcTime : ℤ) :
    Carried passes s (s.importing passes block isOurs utcTime) := by
  cases importing_cases hk block isOurs utcTime with
  | inl h =>
    rw [h.1]
    exact .refl hk
  | inr h =>
    obtain ⟨r, himports, haccepts, he⟩ := h
    rw [he]
    cases himports with
    | refused hresult => exact absurd (hresult.symm.trans haccepts) Bool.false_ne_true
    | future hresult hv hnew hchain =>
      exact carried_future hk (· ∈ s.chain) hv hnew (of_decide_eq_false hchain)
    | unknown hv hnew hchain => exact carried_unknown hk hv hnew (of_decide_eq_false hchain)
    | ready hv hnew hchain => exact carried_ready hk hv hnew (of_decide_eq_false hchain)

theorem grounded_importing (hk : Kept passes s) (block : Bytes) (isOurs : Bool) (utcTime : ℤ)
    (hl : Grounded s.chain s.history) :
    Grounded s.chain (s.importing passes block isOurs utcTime).history := by
  cases importing_cases hk block isOurs utcTime with
  | inl h =>
    rw [h.1]
    exact hl
  | inr h =>
    obtain ⟨r, himports, haccepts, he⟩ := h
    rw [he]
    cases himports with
    | refused hresult => exact absurd (hresult.symm.trans haccepts) Bool.false_ne_true
    | future hresult hv hnew hchain => exact hl
    | unknown hv hnew hchain => exact hl
    | ready hv hnew hchain hparent =>
      exact grounded_ready hk (hparent.imp_right fun hp => hp.imp_right of_decide_eq_true) hl

/-- An accepted block that is imported again is found. -/
theorem found_importing (hk : Kept passes s) {block : Bytes} {x parent : H256}
    (ho : Original passes s.accepted x parent block) (isOurs : Bool) (utcTime : ℤ) :
    (s.importing passes block isOurs utcTime).Found x := by
  have hcarried := carried_importing hk block isOurs utcTime
  cases importing_cases hk block isOurs utcTime with
  | inl h =>
    obtain ⟨-, info, hv, -⟩ := id ho
    rcases h.2 x ho.carries with hx | hx | hx
    · exact hcarried.found x (.of_known hk hx)
    · exact hcarried.found x (.inr (.inr (.inr hx)))
    · rw [hv] at hx
      cases hx
  | inr h =>
    obtain ⟨r, -, -, he⟩ := h
    obtain ⟨new, happend, hnew⟩ := hcarried.accepted
    have hnew_eq : (s.importing passes block isOurs utcTime).accepted = s.accepted ++ [block] := by
      rw [he]
    have hsame : new = [block] := List.append_cancel_left (happend.symm.trans hnew_eq)
    exact hnew block (hsame ▸ List.mem_singleton_self block) x ho.carries

theorem carried_drain (hk : Kept passes s) (max : ℕ) :
    Carried passes s {s with
      queue := (s.queue.drain max).2
      drained := s.drained ++ (s.queue.drain max).1} := by
  by_cases hempty : s.queue.m_drainingSet = ∅
  · have hi := hk.invariant.drain max
    obtain ⟨d, he⟩ := drain_eq hempty max
    rw [he] at hi ⊢
    have hout : ∀ b ∈ s.queue.m_verified.take max, b.infoHash ∈ s.queue.readyHashes := fun b hb =>
      List.mem_append_left _ (List.mem_append_left _ (List.mem_map_of_mem (List.mem_of_mem_take hb)))
    refine ⟨⟨hi, hk.unlocked, hk.good, hk.entries, ?_, hk.working, hk.due, fun b hb => ?_, ?_,
      fun x hx => ?_, fun b hb => ?_⟩, fun x hx => ?_, [], (List.append_nil _).symm,
      fun _ h => (nomatch h)⟩
    · exact ⟨fun b hb => hk.holds.verified b (List.mem_of_mem_drop hb), hk.holds.finished,
        hk.holds.unverified, hk.holds.unknown, hk.holds.future⟩
    · cases List.mem_append.mp hb with
      | inl hb => exact hk.drained b hb
      | inr hb => exact hk.holds.verified b (List.mem_of_mem_take hb)
    · rw [List.map_append, List.nodup_append]
      refine ⟨hk.distinct, ?_, fun x hx y hy => ?_⟩
      · have hnodup := hk.invariant.sound.consistent.distinct
        rw [readyHashes, List.append_assoc, List.nodup_append] at hnodup
        exact hnodup.1.sublist ((List.take_sublist max _).map _)
      · obtain ⟨b, hb, rfl⟩ := List.mem_map.mp hx
        obtain ⟨c, hc, rfl⟩ := List.mem_map.mp hy
        intro hsame
        apply (hk.gone b hb).2
        rw [hsame]
        exact .inl ((hk.invariant.sound.consistent.ready _).mpr (hout c hc))
    · obtain ⟨b, hb, rfl⟩ := List.mem_map.mp (List.mem_toFinset.mp hx)
      exact ⟨b, List.mem_append_right _ hb, rfl⟩
    · cases List.mem_append.mp hb with
      | inl hb =>
        obtain ⟨hplace, hgone⟩ := hk.gone b hb
        rw [hempty] at hplace
        refine ⟨.inr (hplace.resolve_left (Finset.notMem_empty _)), fun hx => hgone ?_⟩
        exact hx.imp_left fun hx => (Finset.mem_sdiff.mp hx).1
      | inr hb =>
        have hin : b.infoHash ∈
            ((s.queue.m_verified.take max).map VerifiedBlock.infoHash).toFinset :=
          List.mem_toFinset.mpr (List.mem_map_of_mem hb)
        exact ⟨.inl hin, not_has_of_draining hi.sound hin⟩
    · rcases hx with (hx | hx) | ⟨b, hb, rfl⟩ | hx
      · by_cases hin : x ∈ ((s.queue.m_verified.take max).map VerifiedBlock.infoHash).toFinset
        · obtain ⟨b, hb, rfl⟩ := List.mem_map.mp (List.mem_toFinset.mp hin)
          exact .inr (.inl ⟨b, List.mem_append_right _ hb, rfl⟩)
        · exact .inl (.inl (Finset.mem_sdiff.mpr ⟨hx, hin⟩))
      · exact .inl (.inr hx)
      · exact .inr (.inl ⟨b, List.mem_append_left _ hb, rfl⟩)
      · exact .inr (.inr hx)
  · have hnone : s.queue.drain max = ([], s.queue) := if_neg hempty
    rw [hnone, List.append_nil]
    exact .refl hk

/-- The chain has the blocks that were drained. -/
theorem carried_doneDrain (hk : Kept passes s) (hchain : s.queue.m_drainingSet ⊆ s.chain) :
    Carried passes s {s with
      queue := (s.queue.doneDrain []).1
      doomed := (s.queue.doneDrain []).2} := by
  have hi := hk.invariant.adds (@Sound.doneDrain _ hk.invariant.sound [] fun _ h => (nomatch h))
    rfl Finset.subset_union_left (fun b hb => .inl hb) fun e he => .inl he
  refine ⟨⟨hi, ⟨rfl, hk.unlocked.2⟩, ?_, hk.entries, ?_, hk.working, hk.due, hk.drained,
    hk.distinct, fun x hx => absurd hx (Finset.notMem_empty _), fun b hb => ?_⟩, fun x hx => hx,
    [], (List.append_nil _).symm, fun _ h => (nomatch h)⟩
  · show s.queue.m_knownBad ∪ ([] : List H256).toFinset = ∅
    rw [hk.good]
    rfl
  · exact ⟨hk.holds.verified, hk.holds.finished, hk.holds.unverified, hk.holds.unknown,
      hk.holds.future⟩
  · obtain ⟨hplace, hgone⟩ := hk.gone b hb
    exact ⟨.inr (hplace.elim (fun hd => hchain hd) id), hgone⟩

theorem carried_tick (hk : Kept passes s) (utcTime : ℤ) :
    Carried passes s {s with
      queue := (s.queue.tick utcTime).2
      due := s.due ++ (s.queue.tick utcTime).1} := by
  have hi := hk.invariant.adds (hk.invariant.sound.tick utcTime) rfl (Finset.Subset.refl _)
    (fun b hb => .inl hb) fun e he => .inl he
  obtain ⟨hout, hleft⟩ := tick_eq utcTime s.queue
  have hdue : ∀ e ∈ s.queue.m_future.filter (fun e => ¬utcTime < e.1),
      e.2.2 ∈ s.due ++ (s.queue.tick utcTime).1 := fun e he => by
    rw [hout]
    exact List.mem_append_right _ (List.mem_map_of_mem he)
  have hhas : ∀ x, (s.queue.tick utcTime).2.Has x → s.queue.Has x := fun x hx => by
    rw [hleft] at hx
    exact hx.imp_right fun hx => hx.imp_right fun hx => (Finset.mem_sdiff.mp hx).1
  refine ⟨⟨hi, hk.unlocked, hk.good, hk.entries, ?_, hk.working, fun block hb => ?_, hk.drained,
    hk.distinct, hk.draining, fun b hb => ?_⟩, fun x hx => ?_, [], (List.append_nil _).symm,
    fun _ h => (nomatch h)⟩
  · rw [hleft]
    exact ⟨hk.holds.verified, hk.holds.finished, hk.holds.unverified, hk.holds.unknown,
      fun e he => hk.holds.future e (List.mem_of_mem_filter he)⟩
  · cases List.mem_append.mp hb with
    | inl hb => exact hk.due block hb
    | inr hb =>
      rw [hout] at hb
      obtain ⟨e, he, rfl⟩ := List.mem_map.mp hb
      obtain ⟨parent, ho⟩ := hk.holds.future e (List.mem_of_mem_filter he)
      exact ⟨e.2.1, parent, ho⟩
  · obtain ⟨hplace, hgone⟩ := hk.gone b hb
    exact ⟨hplace, fun hx => hgone (hhas _ hx)⟩
  · rcases hx with (hx | hx | hx) | hx | ⟨block, hb, hx⟩ | hx
    · exact .inl (.inl hx)
    · exact .inl (.inr (.inl hx))
    · by_cases hin : x ∈ ((s.queue.m_future.filter fun e => ¬utcTime < e.1).map
          fun e => e.2.1).toFinset
      · obtain ⟨e, he, rfl⟩ := List.mem_map.mp (List.mem_toFinset.mp hin)
        obtain ⟨parent, ho⟩ := hk.holds.future e (List.mem_of_mem_filter he)
        exact .inr (.inr (.inl ⟨e.2.2, hdue e he, ho.carries⟩))
      · refine .inl (.inr (.inr ?_))
        rw [hleft]
        exact Finset.mem_sdiff.mpr ⟨hx, hin⟩
    · exact .inr (.inl hx)
    · exact .inr (.inr (.inl ⟨block, List.mem_append_left _ hb, hx⟩))
    · exact .inr (.inr (.inr hx))

theorem carried_setChain (hk : Kept passes s) {chain : Finset H256} (hgrown : s.chain ⊆ chain) :
    Carried passes s {s with chain} := by
  refine ⟨⟨hk.invariant, hk.unlocked, hk.good, hk.entries, hk.holds, hk.working, hk.due, hk.drained,
    hk.distinct, hk.draining, fun b hb => ?_⟩, fun x hx => ?_, [], (List.append_nil _).symm,
    fun _ h => (nomatch h)⟩
  · obtain ⟨hplace, hgone⟩ := hk.gone b hb
    exact ⟨hplace.imp_right fun hc => hgrown hc, hgone⟩
  · exact hx.imp_right fun hx => hx.imp_right fun hx => hx.imp_right fun hc => hgrown hc

/-- Blocks that were taken pass their verification, and no verified block has their hash for its
uncles; the chain grows; it has the blocks that were drained when `doneDrain` is called, and none
of them is bad. -/
def Honest (passes : ImportRequirements → Bytes → Bool) (s : System) : Event → Prop
  | .report i => ∀ work ∈ s.working[i]?,
    passes .outOfOrderChecks work.blockData = true ∧ s.queue.Unaliased work.hash
  | .doneDrain bad => bad = [] ∧ s.queue.m_drainingSet ⊆ s.chain
  | .setChain chain => s.chain ⊆ chain
  | _ => True

/-- `noteReady` is called for blocks of the chain, and `retryAllUnknown` is not called. -/
def Orderly (s : System) : Event → Prop
  | .noteReady good => good ∈ s.chain
  | .retryAllUnknown => False
  | _ => True

theorem carried_importDue (hk : Kept passes s) {i : ℕ} {block : Bytes} (hi : s.due[i]? = some block)
    (utcTime : ℤ) :
    Carried passes s (importing passes block false utcTime {s with due := s.due.eraseIdx i}) := by
  have hk' := hk.eraseDue i
  have hcarried := carried_importing hk' block false utcTime
  obtain ⟨x, parent, ho⟩ := hk.due block (List.mem_of_getElem? hi)
  refine ⟨hcarried.kept, fun y hy => ?_, hcarried.accepted⟩
  rcases hy with hy | hy | ⟨b, hb, hy⟩ | hy
  · exact hcarried.found y (.inl hy)
  · exact hcarried.found y (.inr (.inl hy))
  · obtain ⟨j, hj⟩ := List.mem_iff_getElem?.mp hb
    by_cases hsame : j = i
    · subst hsame
      obtain rfl : b = block := Option.some.inj (hj.symm.trans hi)
      obtain rfl : x = y := Except.ok.inj (ho.carries.symm.trans hy)
      exact found_importing hk' ho false utcTime
    · refine hcarried.found y (.inr (.inr (.inl ⟨b, ?_, hy⟩)))
      exact List.mem_eraseIdx_iff_getElem?.mpr ⟨j, hsame, hj⟩
  · exact hcarried.found y (.inr (.inr (.inr hy)))

theorem carried_readies (hk : Kept passes s) (hq : Readies s.queue q') (hs : Sound [] q') :
    Carried passes s {s with queue := q'} :=
  ⟨hk.readies hq hs, fun _ hx => hx.requeue fun y => (hq.has hk.invariant.sound hs y).mpr, [],
    (List.append_nil _).symm, fun _ h => (nomatch h)⟩

theorem carried_step (hk : Kept passes s) {e : Event} (hp : s.Honest passes e) :
    Carried passes s (s.step passes e) := by
  have hlocked : ∀ {e : Event}, Carried passes s (s.lockedStep passes e) →
      Carried passes s (if s.Unlocked then s.lockedStep passes e else s) := by
    intro e h
    rwa [if_pos hk.unlocked]
  cases e with
  | importBlock block isOurs utcTime => exact hlocked (carried_importing hk block isOurs utcTime)
  | importDue i utcTime =>
    apply hlocked
    unfold lockedStep
    dsimp only
    cases hi : s.due[i]? with
    | none => exact .refl hk
    | some block => exact carried_importDue hk hi utcTime
  | take =>
    unfold step
    dsimp only
    rw [if_pos hk.unlocked.2]
    cases ht : s.queue.take with
    | none => exact .refl hk
    | some t =>
      refine ⟨hk.take ht, fun x hx => hx.requeue fun y hy => ?_, [], (List.append_nil _).symm,
        fun _ h => (nomatch h)⟩
      obtain ⟨w, -, rfl⟩ := Option.map_eq_some_iff.mp ht
      exact hy
  | report i =>
    apply hlocked
    unfold lockedStep
    dsimp only
    cases hw : s.working[i]? with
    | none => exact .refl hk
    | some work =>
      obtain ⟨hkept, -, hhas⟩ := hk.report hw (hp work hw).1 (hp work hw).2
      exact ⟨hkept, fun x hx => hx.requeue fun y => (hhas y).mpr, [], (List.append_nil _).symm,
        fun _ h => (nomatch h)⟩
  | drain max => exact hlocked (carried_drain hk max)
  | doneDrain bad =>
    obtain ⟨rfl, hchain⟩ := hp
    exact hlocked (carried_doneDrain hk hchain)
  | noteReady good =>
    exact hlocked (carried_readies hk (readies_readyLoop _ _ _)
      (hk.invariant.sound.noteReady good))
  | retryAllUnknown =>
    exact hlocked (carried_readies hk (readies_retryLoop _ _) hk.invariant.sound.retryAllUnknown)
  | tick utcTime => exact hlocked (carried_tick hk utcTime)
  | setChain chain => exact hlocked (carried_setChain hk hp)
  | beginPurge =>
    unfold step
    dsimp only
    rw [if_pos hk.unlocked.2, hk.unlocked.1]
    exact .refl hk
  | pass =>
    unfold step
    dsimp only
    rw [hk.unlocked.2]
    exact .refl hk

theorem chain_importing (hk : Kept passes s) (block : Bytes) (isOurs : Bool) (utcTime : ℤ) :
    (s.importing passes block isOurs utcTime).chain = s.chain := by
  cases importing_cases hk block isOurs utcTime with
  | inl h => rw [h.1]
  | inr h =>
    obtain ⟨r, -, -, he⟩ := h
    rw [he]

/-- Parents stay before their children. -/
def InOrder (s : System) : Prop := Grounded s.chain s.history

theorem inOrder_step (hk : Kept passes s) {e : Event} (hp : s.Honest passes e) (ho : s.Orderly e)
    (hl : s.InOrder) : (s.step passes e).InOrder := by
  have hlocked : ∀ {e : Event}, (s.lockedStep passes e).InOrder →
      InOrder (if s.Unlocked then s.lockedStep passes e else s) := by
    intro e h
    rwa [if_pos hk.unlocked]
  have himport : ∀ {t : System} block isOurs utcTime, Kept passes t → t.InOrder →
      (t.importing passes block isOurs utcTime).InOrder := by
    intro t block isOurs utcTime ht hl
    rw [InOrder, chain_importing ht]
    exact grounded_importing ht block isOurs utcTime hl
  cases e with
  | importBlock block isOurs utcTime => exact hlocked (himport block isOurs utcTime hk hl)
  | importDue i utcTime =>
    apply hlocked
    unfold lockedStep
    dsimp only
    cases hi : s.due[i]? with
    | none => exact hl
    | some block => exact himport block false utcTime (hk.eraseDue i) hl
  | take =>
    unfold step
    dsimp only
    rw [if_pos hk.unlocked.2]
    cases ht : s.queue.take with
    | none => exact hl
    | some t =>
      show Grounded s.chain (s.drained.map VerifiedBlock.link ++ t.2.line)
      rw [line_take ht]
      exact hl
  | report i =>
    apply hlocked
    unfold lockedStep
    dsimp only
    cases hw : s.working[i]? with
    | none => exact hl
    | some work =>
      obtain ⟨-, hline, -⟩ := hk.report hw (hp work hw).1 (hp work hw).2
      show Grounded s.chain (s.drained.map VerifiedBlock.link ++ (s.queue.report passes work).line)
      rw [hline]
      exact hl
  | drain max =>
    apply hlocked
    have he : (s.lockedStep passes (.drain max)).history = s.history := s.history_drain max
    show Grounded s.chain (s.lockedStep passes (.drain max)).history
    rw [he]
    exact hl
  | doneDrain bad => exact hlocked hl
  | noteReady good =>
    exact hlocked (grounded_readyLoop hl fun g hg => .inl (List.mem_singleton.mp hg ▸ ho))
  | retryAllUnknown => exact ho.elim
  | tick utcTime => exact hlocked hl
  | setChain chain => exact hlocked (hl.mono hp)
  | beginPurge =>
    unfold step
    dsimp only
    rw [if_pos hk.unlocked.2, hk.unlocked.1]
    exact hl
  | pass =>
    unfold step
    dsimp only
    rw [hk.unlocked.2]
    exact hl

end System

/-! ### Runs -/

/-- The hashes and the data of the blocks that the queue and its verifiers have. -/
def System.queued (s : System) : List (H256 × Bytes) :=
  s.queue.m_verified.map (fun b => (b.infoHash, b.blockData)) ++
    (s.queue.m_verifying.filter VerifiedBlock.finished).map (fun b => (b.infoHash, b.blockData)) ++
    s.working.map (fun w => (w.hash, w.blockData)) ++
    s.queue.m_unverified.map (fun b => (b.hash, b.blockData)) ++
    s.queue.m_unknown.map Prod.snd ++ s.queue.m_future.map Prod.snd

/-- The hashes and the data of the blocks that were drained. -/
def System.out (s : System) : List (H256 × Bytes) := s.drained.map fun b => (b.infoHash, b.blockData)

/-- Accepted blocks are queued, drained, in the hands of `tick` or in the chain, with their own
data, and none is queued or drained twice. -/
structure System.Delivered (s : System) : Prop where
  kept : ∀ block ∈ s.accepted, ∀ x, Carries x block →
    x ∈ (s.queued ++ s.out).map Prod.fst ∨ (∃ b ∈ s.due, Carries x b) ∨ x ∈ s.chain
  original : ∀ b ∈ s.queued ++ s.out, b.2 ∈ s.accepted ∧ Carries b.1 b.2
  distinct : ((s.queued ++ s.out).map Prod.fst).Nodup

/-- The entries of `m_verifying` are the blocks that are verified and those that verifiers have. -/
theorem Kept.perm_verifying (hk : Kept passes s) :
    (s.queue.m_verifying.map VerifiedBlock.entryHash).Perm
      ((s.queue.m_verifying.filter VerifiedBlock.finished).map VerifiedBlock.infoHash ++
        s.working.map UnverifiedBlock.hash) := by
  have hsplit := (List.filter_append_perm VerifiedBlock.finished s.queue.m_verifying).map
    VerifiedBlock.entryHash
  have hfinished : (s.queue.m_verifying.filter VerifiedBlock.finished).map VerifiedBlock.entryHash =
      (s.queue.m_verifying.filter VerifiedBlock.finished).map VerifiedBlock.infoHash :=
    List.map_congr_left fun b hb => VerifiedBlock.entryHash_finished (List.mem_filter.mp hb).2
  have hnodup := hk.invariant.sound.consistent.distinct
  rw [readyHashes, List.nodup_append, List.nodup_append] at hnodup
  have hentries : ((s.queue.m_verifying.filter (!VerifiedBlock.finished ·)).map
      VerifiedBlock.entryHash).Perm (s.working.map UnverifiedBlock.hash) := by
    apply (List.perm_ext_iff_of_nodup ?_ hk.invariant.distinct).mpr
    · intro x
      rw [List.mem_map, List.mem_map]
      constructor
      · rintro ⟨b, hb, rfl⟩
        obtain ⟨hmem, hf⟩ := List.mem_filter.mp hb
        obtain ⟨w, hw, rfl⟩ := hk.entries b hmem (Bool.not_eq_true' _ ▸ hf)
        exact ⟨w, hw, rfl⟩
      · rintro ⟨w, hw, rfl⟩
        have hheld := (hk.invariant.held w hw).resolve_right (hk.good ▸ Finset.notMem_empty _)
        exact ⟨placeholder w, List.mem_filter.mpr ⟨hheld, rfl⟩, rfl⟩
    · exact hnodup.1.2.1.sublist (List.filter_sublist.map _)
  rw [List.map_append, hfinished] at hsplit
  exact hsplit.symm.trans (hentries.append_left _)

theorem Kept.perm_queued (hk : Kept passes s) :
    (s.queued.map Prod.fst).Perm
      (s.queue.readyHashes ++ s.queue.m_unknown.hashes ++ s.queue.m_future.hashes) := by
  have hqueued : s.queued.map Prod.fst = s.queue.m_verified.map VerifiedBlock.infoHash ++
      ((s.queue.m_verifying.filter VerifiedBlock.finished).map VerifiedBlock.infoHash ++
        s.working.map UnverifiedBlock.hash) ++ s.queue.m_unverified.map UnverifiedBlock.hash ++
      s.queue.m_unknown.hashes ++ s.queue.m_future.hashes := by
    simp only [System.queued, List.map_append, List.map_map, List.append_assoc, SizedBlockMap.hashes]
    rfl
  rw [hqueued, readyHashes]
  exact (((hk.perm_verifying.symm.append_left _).append_right _).append_right _).append_right _

theorem Kept.has_iff (hk : Kept passes s) (x : H256) :
    x ∈ s.queued.map Prod.fst ↔ s.queue.Has x := by
  have hc := hk.invariant.sound.consistent
  rw [hk.perm_queued.mem_iff, List.mem_append, List.mem_append, ← hc.ready, ← hc.unknown,
    ← hc.future, or_assoc, Has]

theorem Kept.nodup_queued (hk : Kept passes s) : (s.queued.map Prod.fst).Nodup := by
  rw [hk.perm_queued.nodup_iff, List.nodup_iff_count_le_one]
  intro x
  have hready := hk.invariant.sound.ready x
  have happart := hk.invariant.sound.apart x
  rw [List.nil_append] at hready
  rw [List.count_append, List.count_append, hready, hk.invariant.sound.unknown x,
    hk.invariant.sound.future x]
  simp only [places] at happart
  omega

theorem Kept.original_queued (hk : Kept passes s) :
    ∀ b ∈ s.queued ++ s.out, b.2 ∈ s.accepted ∧ Carries b.1 b.2 := by
  have hof : ∀ {x parent block}, Original passes s.accepted x parent block →
      block ∈ s.accepted ∧ Carries x block := fun ho => ⟨ho.1, ho.carries⟩
  simp only [System.queued, System.out, List.forall_mem_append, List.forall_mem_map, List.mem_filter, and_imp]
  exact ⟨⟨⟨⟨⟨⟨fun b hb => hof (hk.holds.verified b hb), fun b hb hf => hof (hk.holds.finished b hb hf)⟩,
    fun w hw => hof (hk.working w hw)⟩, fun b hb => hof (hk.holds.unverified b hb)⟩,
    fun e he => hof (hk.holds.unknown e he)⟩, fun e he => hof (hk.holds.future e he).choose_spec⟩,
    fun b hb => hof (hk.drained b hb)⟩

theorem Kept.delivered (hk : Kept passes s)
    (hfound : ∀ block ∈ s.accepted, ∀ x, Carries x block → s.Found x) : s.Delivered where
  kept block hb x hx := by
    rw [List.map_append, List.mem_append, hk.has_iff]
    rcases hfound block hb x hx with h | ⟨b, hb, h⟩ | h | h
    · exact .inl (.inl h)
    · exact .inl (.inr (List.mem_map.mpr ⟨_, List.mem_map_of_mem hb, h⟩))
    · exact .inr (.inl h)
    · exact .inr (.inr h)
  original := hk.original_queued
  distinct := by
    rw [List.map_append, List.nodup_append]
    refine ⟨hk.nodup_queued, ?_, fun x hx y hy => ?_⟩
    · rw [System.out, List.map_map]
      exact hk.distinct
    · rw [System.out, List.map_map] at hy
      obtain ⟨b, hb, rfl⟩ := List.mem_map.mp hy
      rintro rfl
      exact (hk.gone b hb).2 ((hk.has_iff _).mp hx)

variable (passes) in
/-- The invariant, and where the accepted blocks are. -/
def System.Complete (s : System) : Prop :=
  Kept passes s ∧ ∀ block ∈ s.accepted, ∀ x, Carries x block → s.Found x

theorem System.complete_step (hs : System.Complete passes s) {e : Event} (hp : s.Honest passes e) :
    System.Complete passes (s.step passes e) := by
  obtain ⟨hkept, hfound, new, happend, hnew⟩ := System.carried_step hs.1 hp
  refine ⟨hkept, fun block hb x hx => ?_⟩
  rw [happend] at hb
  cases List.mem_append.mp hb with
  | inl hb => exact hfound x (hs.2 block hb x hx)
  | inr hb => exact hnew block hb x hx

theorem System.complete_run {events : List Event}
    (hrun : Along (System.step passes) (System.Honest passes) s events) (hs : System.Complete passes s) :
    System.Complete passes (events.foldl (System.step passes) s) :=
  @Along.foldl _ _ _ _ (System.Complete passes) (fun ht hp => complete_step ht hp) s events hrun hs

theorem System.inOrder_run {events : List Event}
    (hrun : Along (System.step passes) (System.Honest passes) s events)
    (horder : Along (System.step passes) System.Orderly s events) (hs : System.Complete passes s)
    (hl : s.InOrder) : (events.foldl (System.step passes) s).InOrder := by
  have hboth := @Along.foldl _ _ _ _ (fun t : System => System.Complete passes t ∧ t.InOrder)
    (fun ht hp => ⟨complete_step ht.1 hp.1, inOrder_step ht.1.1 hp.1 hp.2 ht.2⟩) s events
    (hrun.and horder) ⟨hs, hl⟩
  exact hboth.2

end Delivery

/-- In every state of a run in which blocks pass and the chain keeps what was drained, accepted
blocks are delivered once and unchanged; the parent of a drained block is in the chain, or was
drained before it and is not queued. -/
theorem reachable_delivered [Sha3] (passes : ImportRequirements → Bytes → Bool)
    (events : List Event) (hrun : Along (System.step passes) (System.Honest passes) {} events) :
    (events.foldl (System.step passes) {}).Delivered ∧
      (Along (System.step passes) System.Orderly {} events →
        ∀ pre b post, (events.foldl (System.step passes) {}).drained = pre ++ b :: post →
          b.info.m_parentHash ∈ (events.foldl (System.step passes) {}).chain ∨
            b.info.m_parentHash ∈ pre.map VerifiedBlock.infoHash ∧
              b.info.m_parentHash ∉
                (events.foldl (System.step passes) {}).queued.map Prod.fst) := by
  have hempty : System.Complete passes {} := ⟨kept_empty, fun _ h => (nomatch h)⟩
  have hcomplete := System.complete_run hrun hempty
  have hdelivered := Kept.delivered hcomplete.1 hcomplete.2
  refine ⟨hdelivered, fun horder pre b post hsplit => ?_⟩
  have hl : Grounded _ _ := System.inOrder_run hrun horder hempty trivial
  rw [System.history, hsplit, List.map_append, List.map_cons, List.append_assoc] at hl
  refine (hl.parent rfl).imp_right fun hparent => ?_
  rw [List.map_map] at hparent
  refine ⟨hparent, fun hqueued => ?_⟩
  have hdisjoint := hdelivered.distinct
  rw [List.map_append, List.nodup_append] at hdisjoint
  refine hdisjoint.2.2 _ hqueued _ ?_ rfl
  rw [System.out, hsplit, List.map_append, List.map_append, List.map_map]
  exact List.mem_append_left _ hparent

/-! ### Runs that deliver and that do not -/

instance System.Honest.decidable (passes : ImportRequirements → Bytes → Bool) (s : System) :
    (e : Event) → Decidable (s.Honest passes e)
  | .report i => inferInstanceAs (Decidable (∀ work ∈ s.working[i]?,
      passes .outOfOrderChecks work.blockData = true ∧ s.queue.Unaliased work.hash))
  | .doneDrain bad => inferInstanceAs (Decidable (bad = [] ∧ s.queue.m_drainingSet ⊆ s.chain))
  | .setChain chain => inferInstanceAs (Decidable (s.chain ⊆ chain))
  | .importBlock _ _ _ | .importDue _ _ | .take | .drain _ | .noteReady _ | .retryAllUnknown
  | .tick _ | .beginPurge | .pass => isTrue trivial

instance System.Orderly.decidable (s : System) : (e : Event) → Decidable (s.Orderly e)
  | .noteReady good => inferInstanceAs (Decidable (good ∈ s.chain))
  | .retryAllUnknown => isFalse id
  | .importBlock _ _ _ | .importDue _ _ | .take | .report _ | .drain _ | .doneDrain _ | .tick _
  | .setChain _ | .beginPurge | .pass => isTrue trivial

attribute [local instance] lastByteSha3

/-- A child comes before its parent, and its verifier reports first. -/
def childFirst : List Event :=
  [.setChain {hashOf 0}, .importBlock (blockOn 1 2) false 0, .importBlock (blockOn 0 1) false 0,
    .take, .take, .report 1, .report 0, .drain 2, .setChain {hashOf 0, hashOf 1, hashOf 2},
    .doneDrain []]

theorem reachable_delivered_childFirst :
    (runOf childFirst).Delivered ∧ ∀ pre b post, (runOf childFirst).drained = pre ++ b :: post →
      b.info.m_parentHash ∈ (runOf childFirst).chain ∨
        b.info.m_parentHash ∈ pre.map VerifiedBlock.infoHash ∧
          b.info.m_parentHash ∉ (runOf childFirst).queued.map Prod.fst := by
  unfold runOf
  obtain ⟨hdelivered, horder⟩ :=
    reachable_delivered (fun _ _ => true) childFirst (by decide +kernel)
  exact ⟨hdelivered, horder (by decide +kernel)⟩

/-- A block whose time has not come. -/
def futureBlock : Bytes :=
  let header : BlockHeader :=
    {BlockHeader.blank with m_parentHash := hashOf 0, m_timestamp := 1, m_extraData := [1]}
  Devcore.appendList (Devcore.appendList header.writtenItems.flatten ++ [0xc0, 0xc0])

/-- `tick` has taken the block out and not imported it. -/
def tickBegun : List Event :=
  [.setChain {hashOf 0}, .importBlock futureBlock false 0, .tick 1]

/-- The chain does not have the block when `doneDrain` is called. -/
def drainedTwice : List Event :=
  [.setChain {hashOf 0}, .importBlock (blockOn 0 1) false 0, .take, .report 0, .drain 1,
    .doneDrain [], .importBlock (blockOn 0 1) false 0, .take, .report 0, .drain 1]

/-- A child whose parent has the greater hash goes before it. -/
def childRetried : List Event :=
  [.importBlock (blockOn 3 2) false 0, .importBlock (blockOn 4 3) false 0, .retryAllUnknown,
    .take, .report 0, .drain 1]

/-- A block may be out of the queue for a while, drained twice, or drained before its parent. -/
theorem not_delivered :
    (futureBlock ∈ (runOf tickBegun).accepted ∧
      (runOf tickBegun).queued ++ (runOf tickBegun).out = []) ∧
    (runOf drainedTwice).drained.map VerifiedBlock.infoHash = [hashOf 1, hashOf 1] ∧
    ∃ b ∈ (runOf childRetried).drained, b.info.m_parentHash ∈ (runOf childRetried).queue.m_readySet := by
  decide +kernel

end Aleth.Ethereum.BlockQueue
