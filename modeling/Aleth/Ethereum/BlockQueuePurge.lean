import Aleth.Ethereum.BlockQueueDelivery

/-! What `doneDrain` takes down.

`reachable_purged`: where the bad blocks of each pass are the last of their
queue, the blocks that become known to be bad are the given ones and the queued
blocks that descend from these, or from blocks that were known to be bad, through
queued blocks; all others stay in their order with their data.

No block of `m_unknown` is ever among them: its parent is neither ready nor
drained (`Orphaned`). -/
namespace Aleth.Ethereum.BlockQueue
open Devcore Ethcore Runs Lineage
variable {q q' : BlockQueue} {work : UnverifiedBlock} {h : H256}

/-! ### Parents of unknown blocks -/

/-- The parents of unknown blocks are neither ready nor drained; one that is known to be bad has
yet to be looked for. -/
def Orphaned (doomed : List H256) (q : BlockQueue) : Prop :=
  ∀ e ∈ q.m_unknown, e.1 ∉ q.m_readySet ∧ e.1 ∉ q.m_drainingSet ∧
    (e.1 ∈ q.m_knownBad → e.1 ∈ doomed)

variable {doomed : List H256}

/-- What leaves the unknown blocks alone. -/
theorem Orphaned.of_subset (hq : q.Orphaned doomed) (hunknown : ∀ e ∈ q'.m_unknown, e ∈ q.m_unknown)
    (hready : q'.m_readySet ⊆ q.m_readySet)
    (hdraining : ∀ x ∈ q'.m_drainingSet, x ∈ q.m_drainingSet ∨ x ∈ q.m_readySet)
    (hbad : ∀ x ∈ q'.m_knownBad, x ∈ q.m_knownBad ∨ x ∈ q.m_readySet ∨ x ∈ q.m_drainingSet) :
    q'.Orphaned doomed := by
  intro e he
  obtain ⟨h1, h2, h3⟩ := hq e (hunknown e he)
  refine ⟨fun hr => h1 (hready hr), fun hd => ?_, fun hb => ?_⟩
  · exact (hdraining _ hd).elim h2 h1
  · rcases hbad _ hb with hb | hb | hb
    · exact h3 hb
    · exact absurd hb h1
    · exact absurd hb h2

theorem mem_removeByKeyEqual {key : H256} {m : SizedBlockMap H256} {e : H256 × H256 × Bytes}
    (he : e ∈ (m.removeByKeyEqual key).2) : e ∈ m ∧ e.1 ≠ key := by
  obtain ⟨hmem, hne⟩ := List.mem_filter.mp he
  exact ⟨hmem, of_decide_eq_true hne⟩

theorem length_removeByKeyEqual (key : H256) (m : SizedBlockMap H256) :
    (m.removeByKeyEqual key).1.length + (m.removeByKeyEqual key).2.length = m.length := by
  have hperm := (List.filter_append_perm (fun e : H256 × H256 × Bytes => e.1 = key) m).length_eq
  rw [List.length_append] at hperm
  unfold SizedBlockMap.removeByKeyEqual
  rw [List.length_map]
  simp only [← decide_not] at hperm
  exact hperm

/-- The loop ends when it has looked for the children of each block that it found bad. -/
theorem Orphaned.collectLoop {fuel : ℕ} {badQueue : List H256}
    (hfuel : badQueue.length + q.m_unknown.length ≤ fuel) (hq : q.Orphaned (doomed ++ badQueue)) :
    (collectLoop fuel badQueue q).Orphaned doomed := by
  induction fuel generalizing badQueue q with
  | zero =>
    have hnil : badQueue = [] := List.length_eq_zero_iff.mp (by omega)
    rwa [hnil, List.append_nil] at hq
  | succ fuel ih =>
    cases badQueue with
    | nil => rwa [List.append_nil] at hq
    | cons bad badQueue =>
      have hlength := length_removeByKeyEqual bad q.m_unknown
      rw [collectLoop_cons, foldl_noteUnknownBad]
      apply ih
      · simp only [List.length_cons, List.length_append, List.length_map] at hfuel ⊢
        omega
      · intro e he
        obtain ⟨hmem, hne⟩ := mem_removeByKeyEqual he
        obtain ⟨h1, h2, h3⟩ := hq e hmem
        refine ⟨h1, h2, fun hb => ?_⟩
        simp only [List.mem_append, List.mem_cons, Finset.mem_union, List.mem_toFinset] at h3 hb ⊢
        tauto

theorem Orphaned.collectUnknownBad {bad : H256} (hq : q.Orphaned (bad :: doomed)) :
    (q.collectUnknownBad bad).Orphaned doomed := by
  apply Orphaned.collectLoop
  · rw [List.length_singleton]
    omega
  · intro e he
    obtain ⟨h1, h2, h3⟩ := hq e he
    refine ⟨h1, h2, fun hb => ?_⟩
    rw [List.mem_append, List.mem_singleton]
    exact (List.mem_cons.mp (h3 hb)).symm

/-- So does the loop over the blocks that became ready. -/
theorem Orphaned.readyLoop {fuel : ℕ} {goodQueue : List H256}
    (hfuel : goodQueue.length + q.m_unknown.length ≤ fuel)
    (hq : ∀ e ∈ q.m_unknown, (e.1 ∈ q.m_readySet → e.1 ∈ goodQueue) ∧ e.1 ∉ q.m_drainingSet ∧
      (e.1 ∈ q.m_knownBad → e.1 ∈ doomed)) : (readyLoop fuel goodQueue q).Orphaned doomed := by
  induction fuel generalizing goodQueue q with
  | zero =>
    have hnil : goodQueue = [] := List.length_eq_zero_iff.mp (by omega)
    subst hnil
    exact fun e he => (hq e he).imp_left fun h hr => List.not_mem_nil (h hr)
  | succ fuel ih =>
    cases goodQueue with
    | nil => exact fun e he => (hq e he).imp_left fun h hr => List.not_mem_nil (h hr)
    | cons parent goodQueue =>
      have hlength := length_removeByKeyEqual parent q.m_unknown
      rw [readyLoop_cons, foldl_noteNewReady]
      apply ih
      · simp only [List.length_cons, List.length_append, List.length_map] at hfuel ⊢
        omega
      · intro e he
        obtain ⟨hmem, hne⟩ := mem_removeByKeyEqual he
        obtain ⟨h1, h2, h3⟩ := hq e hmem
        refine ⟨fun hr => ?_, h2, h3⟩
        simp only [List.mem_append, List.mem_cons, Finset.mem_union, List.mem_toFinset] at h1 hr ⊢
        tauto

theorem retryLoop_unknown {fuel : ℕ} (hfuel : q.m_unknown.length ≤ fuel) :
    (retryLoop fuel q).m_unknown = [] := by
  induction fuel generalizing q with
  | zero => exact List.length_eq_zero_iff.mp (Nat.le_zero.mp hfuel)
  | succ fuel ih =>
    unfold retryLoop
    cases hq : q.m_unknown with
    | nil => exact hq
    | cons e rest =>
      have hlength := length_removeByKeyEqual e.1 q.m_unknown
      have hpos : 0 < (q.m_unknown.removeByKeyEqual e.1).1.length := by
        have hkey : e ∈ q.m_unknown.filter fun f => f.1 = e.1 :=
          List.mem_filter.mpr ⟨hq ▸ List.mem_cons_self, decide_eq_true rfl⟩
        exact List.length_pos_of_mem (List.mem_map_of_mem hkey)
      rw [hq] at hlength hpos hfuel
      show (retryLoop fuel ((SizedBlockMap.removeByKeyEqual e.1 (e :: rest)).1.foldl _ _)).m_unknown = []
      apply ih
      rw [foldl_noteNewReady]
      show (SizedBlockMap.removeByKeyEqual e.1 (e :: rest)).2.length ≤ fuel
      rw [List.length_cons] at hfuel hlength
      omega

theorem Orphaned.noteBad (hq : q.Orphaned doomed) (bad : H256) :
    (q.noteBad bad).Orphaned doomed := by
  apply Orphaned.collectUnknownBad
  intro e he
  obtain ⟨h1, h2, h3⟩ := hq e he
  refine ⟨fun hr => h1 (Finset.mem_of_mem_erase hr), h2, fun hb => ?_⟩
  rw [List.mem_cons]
  exact (Finset.mem_insert.mp hb).imp id h3

theorem Orphaned.foldl_noteBad (hq : q.Orphaned doomed) (l : List H256) :
    (l.foldl BlockQueue.noteBad q).Orphaned doomed := by
  induction l generalizing q with
  | nil => exact hq
  | cons x l ih => exact ih (hq.noteBad x)

theorem Orphaned.pass (hq : q.Orphaned doomed) (p : Pass) : (q.pass p).2.Orphaned doomed := by
  apply Orphaned.foldl_noteBad
  cases p <;> exact hq

theorem Orphaned.noteReady (hq : q.Orphaned doomed) (good : H256) :
    (q.noteReady good).Orphaned doomed := by
  apply Orphaned.readyLoop
  · rw [List.length_singleton]
    omega
  · exact fun e he => (hq e he).imp_left fun h1 hr => absurd hr h1

theorem Orphaned.importHeader (hq : q.Orphaned []) (isKnown : H256 → Bool) (utcTime : ℤ)
    (isOurs : Bool) (bi : BlockHeader) (block : Bytes) :
    (q.importHeader isKnown utcTime isOurs h bi block).2.1.Orphaned
      (q.importHeader isKnown utcTime isOurs h bi block).2.2 := by
  unfold BlockQueue.importHeader
  split
  · exact hq
  split
  · exact hq
  split
  · intro e he
    obtain ⟨h1, h2, h3⟩ := hq e he
    refine ⟨h1, h2, fun hb => List.mem_singleton.mpr ?_⟩
    exact (Finset.mem_insert.mp hb).resolve_right fun hb => List.not_mem_nil (h3 hb)
  split
  · rename_i h1 h2 h3 h4
    intro e he
    cases mem_insert he with
    | inl hnew =>
      rw [hnew]
      exact ⟨h4.1, h4.2.1, fun hb => absurd hb h3⟩
    | inr he => exact hq e he
  · rw [queueReady_eq]
    apply Orphaned.readyLoop
    · rw [List.length_singleton]
      omega
    · intro e he
      obtain ⟨h1, h2, h3⟩ := hq e he
      refine ⟨fun hr => List.mem_singleton.mpr ?_, h2, h3⟩
      exact (Finset.mem_insert.mp hr).resolve_right h1

/-- Only entries of verified blocks that are drained turn out to be bad. -/
theorem bad_drainLoop {entries : List VerifiedBlock} {x : H256}
    (hx : x ∈ (drainLoop entries q).m_knownBad) :
    x ∈ q.m_knownBad ∨ x ∈ entries.map VerifiedBlock.entryHash := by
  induction entries generalizing q with
  | nil => exact .inl hx
  | cons b entries ih =>
    unfold drainLoop at hx
    by_cases hdata : b.blockData ≠ []
    · rw [if_pos hdata] at hx
      have hentry : b.entryHash = b.infoHash :=
        if_pos fun h0 => hdata (List.length_eq_zero_iff.mp h0)
      rw [List.map_cons, List.mem_cons, hentry]
      cases ih hx with
      | inl hx =>
        unfold release at hx
        split at hx
        · exact (Finset.mem_insert.mp hx).elim (fun e => .inr (.inl e)) .inl
        · exact .inl hx
      | inr hx => exact .inr (.inr hx)
    · rw [if_neg hdata] at hx
      exact .inl hx

section Runs
variable [Sha3] {passes : ImportRequirements → Bytes → Bool} {working : List UnverifiedBlock}

theorem Invariant.entry_ready (hi : Invariant q working) {x : H256}
    (hx : x ∈ q.m_verifying.map VerifiedBlock.entryHash) : x ∈ q.m_readySet :=
  (hi.sound.consistent.ready x).mpr (List.mem_append_left _ (List.mem_append_right _ hx))

theorem Invariant.bad_report (hi : Invariant q working) (hw : work ∈ working) {x : H256}
    (hx : x ∈ (q.report passes work).m_knownBad) : x ∈ q.m_knownBad ∨ x ∈ q.m_readySet := by
  have hwork : work.hash ∈ q.m_knownBad ∨ work.hash ∈ q.m_readySet := by
    refine (hi.held work hw).symm.imp_right fun hp => hi.entry_ready ?_
    exact List.mem_map.mpr ⟨placeholder work, hp, rfl⟩
  unfold BlockQueue.report at hx
  cases hv : verifyBlock passes .outOfOrderChecks work.blockData with
  | none =>
    rw [hv] at hx
    cases bad_drainLoop hx with
    | inl hx => exact (Finset.mem_insert.mp hx).elim (fun e => e ▸ hwork) .inl
    | inr hx =>
      obtain ⟨b, hb, rfl⟩ := List.mem_map.mp hx
      exact .inr (hi.entry_ready (List.mem_map_of_mem (List.mem_of_mem_filter hb)))
  | some info =>
    rw [hv, Option.elim_some] at hx
    have hhash : info.m_hash = work.hash :=
      Except.ok.inj ((verifyBlock_some hv).1.symm.trans (hi.working work hw))
    unfold reportGood at hx
    split at hx
    · cases bad_drainLoop hx with
      | inl hx =>
        unfold release at hx
        split at hx
        · exact (Finset.mem_insert.mp hx).elim (fun e => hhash.symm.trans e.symm ▸ hwork) .inl
        · exact .inl hx
      | inr hx =>
        obtain ⟨b, hb, rfl⟩ := List.mem_map.mp hx
        refine .inr (hi.entry_ready (List.mem_map_of_mem ?_))
        unfold release at hb
        split at hb <;> exact List.mem_of_mem_tail hb
    · exact .inl hx

namespace System
variable {s : System}

theorem orphaned_importing (hq : s.queue.Orphaned []) (hd : s.doomed = []) (block : Bytes)
    (isOurs : Bool) (utcTime : ℤ) :
    (s.importing passes block isOurs utcTime).queue.Orphaned
      (s.importing passes block isOurs utcTime).doomed := by
  unfold importing
  cases hr : s.queue.importBlock passes (· ∈ s.chain) utcTime isOurs block with
  | error e => exact hd ▸ hq
  | ok r =>
    obtain ⟨h, hh, hr⟩ := bind_eq_ok.mp hr
    show r.2.1.Orphaned r.2.2
    by_cases hk : s.queue.known h = true
    · rw [if_pos hk] at hr
      cases hr
      exact hq
    · rw [if_neg hk] at hr
      cases hv : verifyBlock passes .postGenesis block with
      | none =>
        rw [hv] at hr
        cases hr
        exact hq
      | some bi =>
        rw [hv] at hr
        cases hr
        exact hq.importHeader (· ∈ s.chain) utcTime isOurs bi block

theorem orphaned_locked {e : Event} (hi : Invariant s.queue s.working) (hd : s.doomed = [])
    (hq : s.queue.Orphaned []) (hp : s.Proper e) :
    (s.lockedStep passes e).queue.Orphaned (s.lockedStep passes e).doomed := by
  cases e with
  | importBlock block isOurs utcTime => exact orphaned_importing hq hd block isOurs utcTime
  | importDue i utcTime =>
    unfold lockedStep
    dsimp only
    cases s.due[i]? with
    | none => exact hd ▸ hq
    | some block => exact @orphaned_importing _ passes {s with due := s.due.eraseIdx i} hq hd block _ _
  | report i =>
    unfold lockedStep
    dsimp only
    cases hw : s.working[i]? with
    | none => exact hd ▸ hq
    | some work =>
      have hreleases : Releases s.queue (s.queue.report passes work) := by
        unfold BlockQueue.report
        cases verifyBlock passes .outOfOrderChecks work.blockData with
        | none => exact releases_reportBad work s.queue
        | some info => exact releases_reportGood work _ s.queue
      have hrest := hreleases.rest
      show (s.queue.report passes work).Orphaned s.doomed
      rw [hd]
      refine hq.of_subset (fun e he => ?_) hreleases.ready (fun x hx => .inl ?_) fun x hx =>
        (hi.bad_report (List.mem_of_getElem? hw) hx).imp_right .inl
      · rw [hrest] at he
        exact he
      · rw [hrest] at hx
        exact hx
  | drain max =>
    show (s.queue.drain max).2.Orphaned s.doomed
    rw [hd]
    by_cases hempty : s.queue.m_drainingSet = ∅
    · obtain ⟨d, he⟩ := drain_eq hempty max
      rw [he]
      refine hq.of_subset (fun _ he => he) Finset.sdiff_subset (fun x hx => .inr ?_)
        fun x hx => .inl hx
      obtain ⟨b, hb, rfl⟩ := List.mem_map.mp (List.mem_toFinset.mp hx)
      refine (hi.sound.consistent.ready _).mpr (List.mem_append_left _ (List.mem_append_left _ ?_))
      exact List.mem_map_of_mem (List.mem_of_mem_take hb)
    · rw [show s.queue.drain max = ([], s.queue) from if_neg hempty]
      exact hq
  | doneDrain bad =>
    intro e he
    obtain ⟨h1, h2, h3⟩ := hq e he
    refine ⟨h1, Finset.notMem_empty _, fun hb => ?_⟩
    cases Finset.mem_union.mp hb with
    | inl hb => exact absurd (h3 hb) List.not_mem_nil
    | inr hb => exact absurd (hp _ (List.mem_toFinset.mp hb)) h2
  | noteReady good =>
    show (s.queue.noteReady good).Orphaned s.doomed
    rw [hd]
    exact hq.noteReady good
  | retryAllUnknown =>
    intro e he
    have hnone : s.queue.retryAllUnknown.m_unknown = [] := retryLoop_unknown (Nat.le_refl _)
    change e ∈ s.queue.retryAllUnknown.m_unknown at he
    rw [hnone] at he
    cases he
  | tick utcTime => exact hd ▸ hq
  | setChain chain => exact hd ▸ hq
  | take => exact hd ▸ hq
  | beginPurge => exact hd ▸ hq
  | pass => exact hd ▸ hq

theorem orphaned_step {e : Event} (hi : Invariant s.queue s.working) (hq : s.queue.Orphaned s.doomed)
    (hp : s.Proper e) :
    (s.step passes e).queue.Orphaned (s.step passes e).doomed := by
  have hlocked : ∀ {e : Event}, s.Proper e →
      (if s.Unlocked then s.lockedStep passes e else s).queue.Orphaned
        (if s.Unlocked then s.lockedStep passes e else s).doomed := by
    intro e hp
    split
    · rename_i hunlocked
      exact orphaned_locked hi hunlocked.1 (hunlocked.1 ▸ hq) hp
    · exact hq
  cases e with
  | take =>
    unfold step
    dsimp only
    split
    · cases ht : s.queue.take with
      | none => exact hq
      | some t =>
        obtain ⟨w, -, rfl⟩ := Option.map_eq_some_iff.mp ht
        exact hq
    · exact hq
  | beginPurge =>
    unfold step
    dsimp only
    split
    · cases hd : s.doomed with
      | nil => exact hq
      | cons bad rest => exact Orphaned.collectUnknownBad (hd ▸ hq)
    · exact hq
  | pass =>
    unfold step
    dsimp only
    cases s.purging with
    | none => exact hq
    | some p => exact hq.pass p.1
  | _ => exact hlocked hp

end System
end Runs

/-! ### A pass -/

/-- Without unknown children nothing is found. -/
theorem collectUnknownBad_eq (hno : ∀ e ∈ q.m_unknown, e.1 ≠ h) : q.collectUnknownBad h = q := by
  have hnone : (q.m_unknown.filter fun e => e.1 = h) = [] :=
    List.filter_eq_nil_iff.mpr fun e he => by simpa using hno e he
  have hall : (q.m_unknown.filter fun e => e.1 ≠ h) = q.m_unknown :=
    List.filter_eq_self.mpr fun e he => decide_eq_true (hno e he)
  unfold BlockQueue.collectUnknownBad
  rw [collectLoop_cons]
  simp only [SizedBlockMap.removeByKeyEqual, hnone, hall, List.map_nil, List.foldl_nil]
  cases q.m_unknown.length <;> rfl

theorem noteBad_eq (hno : ∀ e ∈ q.m_unknown, e.1 ≠ h) :
    q.noteBad h = {q with
      m_knownBad := insert h q.m_knownBad
      m_readySet := q.m_readySet.erase h} :=
  @collectUnknownBad_eq {q with
    m_knownBad := insert h q.m_knownBad
    m_readySet := q.m_readySet.erase h} h hno

theorem foldl_noteBad_eq (l : List H256) (hno : ∀ e ∈ q.m_unknown, e.1 ∉ l) :
    l.foldl noteBad q = {q with
      m_knownBad := q.m_knownBad ∪ l.toFinset
      m_readySet := q.m_readySet \ l.toFinset} := by
  induction l generalizing q with
  | nil => simp
  | cons x l ih =>
    have hx : ∀ e ∈ q.m_unknown, e.1 ≠ x := fun e he hsame =>
      hno e he (hsame ▸ List.mem_cons_self)
    have hrest := @ih {q with
      m_knownBad := insert x q.m_knownBad
      m_readySet := q.m_readySet.erase x} fun e he hmem => hno e he (List.mem_cons_of_mem x hmem)
    rw [List.foldl_cons, noteBad_eq hx, hrest]
    simp only [List.toFinset_cons]
    congr 1
    · exact Finset.ext fun y => by simp; tauto
    · exact Finset.ext fun y => by simp

/-- Blocks are taken down whose parents are known to be bad. -/
structure Sheds (q q' : BlockQueue) : Prop where
  rest : q' = {q with
    m_verified := q.m_verified.filter fun b => b.infoHash ∉ q'.m_knownBad
    m_verifying := q.m_verifying.filter fun b => b.entryHash ∉ q'.m_knownBad
    m_unverified := q.m_unverified.filter fun b => b.hash ∉ q'.m_knownBad
    m_readySet := q.m_readySet \ q'.m_knownBad
    m_knownBad := q'.m_knownBad}
  grown : q.m_knownBad ⊆ q'.m_knownBad
  blamed : ∀ x ∈ q'.m_knownBad, x ∈ q.m_knownBad ∨ ∃ b ∈ q.line, b.1 = x ∧ b.2 ∈ q.m_knownBad

section Filter
variable {α : Type} {f : α → H256} {pred : α → Bool} {l : List α} {known : Finset H256}

/-- What is removed by the predicate is removed by its hashes. -/
theorem filter_by_hash (hnodup : (l.map f).Nodup) (hnew : ∀ b ∈ l, f b ∉ known) :
    l.filter (fun b => f b ∉ known ∪ ((l.filter pred).map f).toFinset) = l.filter (!pred ·) := by
  apply List.filter_congr
  intro b hb
  have hiff : f b ∈ known ∪ ((l.filter pred).map f).toFinset ↔ pred b = true := by
    rw [Finset.mem_union, List.mem_toFinset, List.mem_map]
    constructor
    · rintro (hk | ⟨c, hc, he⟩)
      · exact absurd hk (hnew b hb)
      · obtain ⟨hmem, hpred⟩ := List.mem_filter.mp hc
        rwa [← List.inj_on_of_nodup_map hnodup hmem hb he]
    · exact fun hpred => .inr ⟨b, List.mem_filter.mpr ⟨hb, hpred⟩, rfl⟩
  simp only [hiff]
  cases pred b <;> rfl

theorem filter_new (hnew : ∀ b ∈ l, f b ∉ known) : l.filter (fun b => f b ∉ known) = l :=
  List.filter_eq_self.mpr fun b hb => decide_eq_true (hnew b hb)

end Filter

/-- No block that is ready is known to be bad. -/
theorem Sound.not_bad (hs : Sound [] q) {x : H256} (hx : x ∈ q.readyHashes) : x ∉ q.m_knownBad := by
  intro hb
  have hapart := hs.apart x
  have hready := (hs.consistent.ready x).mpr hx
  simp only [places, if_pos hb, if_pos hready] at hapart
  omega

/-- No verified block in `m_verifying` has the hash of a bad block for its uncles. -/
def Separate (q : BlockQueue) : Prop :=
  ∀ b ∈ q.m_verifying, b.blockData ≠ [] → b.info.m_sha3Uncles ∉ q.m_knownBad

/-- The bad blocks of a queue are those whose parents are known to be bad. -/
theorem Sound.parent_bad (hs : Sound [] q) (hsep : q.Separate) :
    (∀ b ∈ q.m_verified, badVerified q.m_knownBad b = true → b.info.m_parentHash ∈ q.m_knownBad) ∧
    (∀ b ∈ q.m_unverified, badUnverified q.m_knownBad b = true → b.parentHash ∈ q.m_knownBad) ∧
    ∀ b ∈ q.m_verifying, badVerifying q.m_knownBad b = true →
      b.info.m_parentHash ∈ q.m_knownBad := by
  refine ⟨fun b hb hbad => ?_, fun b hb hbad => ?_, fun b hb hbad => ?_⟩
  · simp only [badVerified, Bool.or_eq_true, decide_eq_true_eq] at hbad
    refine hbad.resolve_right (hs.not_bad ?_)
    exact List.mem_append_left _ (List.mem_append_left _ (List.mem_map_of_mem hb))
  · simp only [badUnverified, Bool.or_eq_true, decide_eq_true_eq] at hbad
    exact hbad.resolve_right (hs.not_bad (List.mem_append_right _ (List.mem_map_of_mem hb)))
  · simp only [badVerifying, Bool.or_eq_true, decide_eq_true_eq] at hbad
    refine hbad.resolve_right fun hname => ?_
    by_cases hdata : b.blockData = []
    · have hentry : b.entryHash = b.info.m_sha3Uncles := if_neg fun h0 => h0 (by rw [hdata]; rfl)
      refine hs.not_bad (x := b.entryHash) ?_ (hentry ▸ hname)
      exact List.mem_append_left _ (List.mem_append_right _ (List.mem_map_of_mem hb))
    · exact hsep b hb hdata hname

/-- Blocks are taken out by their hashes. -/
theorem sheds_of_hashes (hs : Sound [] q) {l : List H256}
    (hq : q' = {q with
      m_verified := q.m_verified.filter fun b => b.infoHash ∉ q.m_knownBad ∪ l.toFinset
      m_verifying := q.m_verifying.filter fun b => b.entryHash ∉ q.m_knownBad ∪ l.toFinset
      m_unverified := q.m_unverified.filter fun b => b.hash ∉ q.m_knownBad ∪ l.toFinset
      m_knownBad := q.m_knownBad ∪ l.toFinset
      m_readySet := q.m_readySet \ l.toFinset})
    (hl : ∀ x ∈ l, ∃ b ∈ q.line, b.1 = x ∧ b.2 ∈ q.m_knownBad) : Sheds q q' := by
  have hready : q.m_readySet \ l.toFinset = q.m_readySet \ (q.m_knownBad ∪ l.toFinset) := by
    ext x
    simp only [Finset.mem_sdiff, Finset.mem_union, not_or]
    refine and_congr_right fun hx => (and_iff_right ?_).symm
    exact hs.not_bad ((hs.consistent.ready x).mp hx)
  rw [hready] at hq
  subst hq
  refine ⟨rfl, Finset.subset_union_left, fun x hx => ?_⟩
  exact (Finset.mem_union.mp hx).imp_right fun hx => hl x (List.mem_toFinset.mp hx)

theorem sheds_pass {p : Pass} (hs : Sound [] q) (ht : q.Trailing p) (ho : q.Orphaned doomed)
    (hsep : q.Separate) : Sheds q (q.pass p).2 := by
  obtain ⟨hverified, hunverified, hverifying⟩ := hs.parent_bad hsep
  have hno : ∀ e ∈ (q.sweep p).2.m_unknown, e.1 ∉ (q.sweep p).1 := by
    intro e he hmem
    have hcount := (sound_sweep hs ht).ready e.1
    have hpos : 0 < ((q.sweep p).1 ++ (q.sweep p).2.readyHashes).count e.1 :=
      List.count_pos_iff.mpr (List.mem_append_left _ hmem)
    have hunknown : e ∈ q.m_unknown := by cases p <;> exact he
    have hready : e.1 ∉ (q.sweep p).2.m_readySet := by
      cases p <;> exact (ho e hunknown).1
    rw [if_neg hready] at hcount
    omega
  have hpass : (q.pass p).2 = _ := foldl_noteBad_eq (q.sweep p).1 hno
  have hnodup := hs.consistent.distinct
  rw [readyHashes, List.nodup_append, List.nodup_append] at hnodup
  obtain ⟨⟨hnodup1, hnodup2, hapart12⟩, hnodup3, hapart3⟩ := hnodup
  have hnew1 : ∀ b ∈ q.m_verified, b.infoHash ∉ q.m_knownBad := fun b hb =>
    hs.not_bad (List.mem_append_left _ (List.mem_append_left _ (List.mem_map_of_mem hb)))
  have hnew2 : ∀ b ∈ q.m_verifying, b.entryHash ∉ q.m_knownBad := fun b hb =>
    hs.not_bad (List.mem_append_left _ (List.mem_append_right _ (List.mem_map_of_mem hb)))
  have hnew3 : ∀ b ∈ q.m_unverified, b.hash ∉ q.m_knownBad := fun b hb =>
    hs.not_bad (List.mem_append_right _ (List.mem_map_of_mem hb))
  have hkeep : ∀ {α : Type} {f : α → H256} {queue : List α} {l : List H256},
      (∀ b ∈ queue, f b ∉ q.m_knownBad) → (∀ b ∈ queue, f b ∉ l) →
        queue.filter (fun b => f b ∉ q.m_knownBad ∪ l.toFinset) = queue := fun h1 h2 =>
    filter_new fun b hb h3 => (Finset.mem_union.mp h3).elim (h1 b hb) fun h3 =>
      h2 b hb (List.mem_toFinset.mp h3)
  have hmatched : ∀ {α : Type} {f : α → H256} {pred : α → Bool} {queue : List α} {x : H256},
      x ∈ (queue.filter pred).map f → ∃ b ∈ queue, pred b = true ∧ f b = x := fun hx => by
    obtain ⟨b, hb, rfl⟩ := List.mem_map.mp hx
    exact ⟨b, (List.mem_filter.mp hb).1, (List.mem_filter.mp hb).2, rfl⟩
  rw [hpass]
  cases p with
  | verified =>
    have hl : (q.sweep .verified).1 =
        (q.m_verified.filter (badVerified q.m_knownBad)).map VerifiedBlock.infoHash :=
      congrArg (List.map VerifiedBlock.infoHash)
        (@SizedBlockQueue.remains_of_trailing _ _ VerifiedBlock.moved _ ht)
    have hmem : ∀ x ∈ (q.sweep .verified).1, x ∈ q.m_verified.map VerifiedBlock.infoHash :=
      fun x hx => by
        obtain ⟨b, hb, -, rfl⟩ := hmatched (hl ▸ hx)
        exact List.mem_map_of_mem hb
    refine sheds_of_hashes hs (l := (q.sweep .verified).1) ?_ fun x hx => ?_
    · have h1 := @filter_by_hash _ _ (badVerified q.m_knownBad) _ _ hnodup1 hnew1
      have h2 := hkeep (l := (q.sweep .verified).1) hnew2 fun b hb hx =>
        hapart12 _ (hmem _ hx) _ (List.mem_map_of_mem hb) rfl
      have h3 := hkeep (l := (q.sweep .verified).1) hnew3 fun b hb hx =>
        hapart3 _ (List.mem_append_left _ (hmem _ hx)) _ (List.mem_map_of_mem hb) rfl
      rw [← hl] at h1
      rw [h1, h2, h3]
      rfl
    · obtain ⟨b, hb, hbad, rfl⟩ := hmatched (hl ▸ hx)
      refine ⟨b.link, ?_, rfl, hverified b hb hbad⟩
      exact List.mem_append_left _ (List.mem_append_left _ (List.mem_map_of_mem hb))
  | unverified =>
    have hl : (q.sweep .unverified).1 =
        (q.m_unverified.filter (badUnverified q.m_knownBad)).map UnverifiedBlock.hash :=
      congrArg (List.map UnverifiedBlock.hash)
        (@SizedBlockQueue.remains_of_trailing _ _ UnverifiedBlock.moved _ ht)
    have hmem : ∀ x ∈ (q.sweep .unverified).1, x ∈ q.m_unverified.map UnverifiedBlock.hash :=
      fun x hx => by
        obtain ⟨b, hb, -, rfl⟩ := hmatched (hl ▸ hx)
        exact List.mem_map_of_mem hb
    refine sheds_of_hashes hs (l := (q.sweep .unverified).1) ?_ fun x hx => ?_
    · have h1 := hkeep (l := (q.sweep .unverified).1) hnew1 fun b hb hx =>
        hapart3 _ (List.mem_append_left _ (List.mem_map_of_mem hb)) _ (hmem _ hx) rfl
      have h2 := hkeep (l := (q.sweep .unverified).1) hnew2 fun b hb hx =>
        hapart3 _ (List.mem_append_right _ (List.mem_map_of_mem hb)) _ (hmem _ hx) rfl
      have h3 := @filter_by_hash _ _ (badUnverified q.m_knownBad) _ _ hnodup3 hnew3
      rw [← hl] at h3
      rw [h1, h2, h3]
      rfl
    · obtain ⟨b, hb, hbad, rfl⟩ := hmatched (hl ▸ hx)
      exact ⟨b.link, List.mem_append_right _ (List.mem_map_of_mem hb), rfl, hunverified b hb hbad⟩
  | verifying =>
    have hl : (q.sweep .verifying).1 =
        (q.m_verifying.filter (badVerifying q.m_knownBad)).map VerifiedBlock.entryHash :=
      congrArg (List.map VerifiedBlock.entryHash)
        (@SizedBlockQueue.remains_of_trailing _ _ VerifiedBlock.moved _ ht)
    have hmem : ∀ x ∈ (q.sweep .verifying).1, x ∈ q.m_verifying.map VerifiedBlock.entryHash :=
      fun x hx => by
        obtain ⟨b, hb, -, rfl⟩ := hmatched (hl ▸ hx)
        exact List.mem_map_of_mem hb
    refine sheds_of_hashes hs (l := (q.sweep .verifying).1) ?_ fun x hx => ?_
    · have h1 := hkeep (l := (q.sweep .verifying).1) hnew1 fun b hb hx =>
        hapart12 _ (List.mem_map_of_mem hb) _ (hmem _ hx) rfl
      have h2 := @filter_by_hash _ _ (badVerifying q.m_knownBad) _ _ hnodup2 hnew2
      have h3 := hkeep (l := (q.sweep .verifying).1) hnew3 fun b hb hx =>
        hapart3 _ (List.mem_append_right _ (hmem _ hx)) _ (List.mem_map_of_mem hb) rfl
      rw [← hl] at h2
      rw [h1, h2, h3]
      rfl
    · obtain ⟨b, hb, hbad, rfl⟩ := hmatched (hl ▸ hx)
      refine ⟨b.entryLink, ?_, rfl, hverifying b hb hbad⟩
      exact List.mem_append_left _ (List.mem_append_right _ (List.mem_map_of_mem hb))

/-! ### From the state after the given blocks were noted -/

/-- The blocks of the queue, but for those whose time has not come, and their parents. -/
def links (q : BlockQueue) : List (H256 × H256) :=
  q.line ++ q.m_unknown.map fun e => (e.2.1, e.1)

/-- What is left of a queue, after verifiers have taken blocks and others were found bad. -/
structure Purging (q₀ : BlockQueue) (taken : List UnverifiedBlock) (q : BlockQueue) : Prop where
  draining : q.m_drainingSet = q₀.m_drainingSet
  unknownSet : q.m_unknownSet = q₀.m_unknownSet
  unknown : q.m_unknown = q₀.m_unknown
  future : q.m_future = q₀.m_future
  futureSet : q.m_futureSet = q₀.m_futureSet
  ready : q.m_readySet = q₀.m_readySet \ q.m_knownBad
  verified : q.m_verified = q₀.m_verified.filter fun b => b.infoHash ∉ q.m_knownBad
  verifying : q.m_verifying =
    (q₀.m_verifying ++ taken.map placeholder).filter fun b => b.entryHash ∉ q.m_knownBad
  unverified : q₀.m_unverified.filter (fun b => b.hash ∉ q.m_knownBad) =
    taken.filter (fun b => b.hash ∉ q.m_knownBad) ++ q.m_unverified
  grown : q₀.m_knownBad ⊆ q.m_knownBad
  descends : ∀ x ∈ q.m_knownBad, x ∈ q₀.m_knownBad ∨ Descends q₀.links q₀.m_knownBad x

variable {q₀ : BlockQueue} {taken : List UnverifiedBlock}

theorem purging_refl (hs : Sound [] q) : Purging q [] q := by
  have h1 : (q.m_verified.filter fun b => b.infoHash ∉ q.m_knownBad) = q.m_verified :=
    filter_new fun b hb =>
      hs.not_bad (List.mem_append_left _ (List.mem_append_left _ (List.mem_map_of_mem hb)))
  have h2 : (q.m_verifying.filter fun b => b.entryHash ∉ q.m_knownBad) = q.m_verifying :=
    filter_new fun b hb =>
      hs.not_bad (List.mem_append_left _ (List.mem_append_right _ (List.mem_map_of_mem hb)))
  have h3 : (q.m_unverified.filter fun b => b.hash ∉ q.m_knownBad) = q.m_unverified :=
    filter_new fun b hb => hs.not_bad (List.mem_append_right _ (List.mem_map_of_mem hb))
  have h4 : q.m_readySet \ q.m_knownBad = q.m_readySet := by
    rw [Finset.sdiff_eq_self_iff_disjoint, Finset.disjoint_left]
    exact fun x hx => hs.not_bad ((hs.consistent.ready x).mp hx)
  refine ⟨rfl, rfl, rfl, rfl, rfl, h4.symm, h1.symm, ?_, h3, Finset.Subset.refl _,
    fun x hx => .inl hx⟩
  rw [List.map_nil, List.append_nil, h2]

theorem filter_filter_of_subset {α : Type} {f : α → H256} {known known' : Finset H256}
    (h : known ⊆ known') (l : List α) :
    (l.filter fun b => f b ∉ known).filter (fun b => f b ∉ known') =
      l.filter fun b => f b ∉ known' := by
  rw [List.filter_filter]
  apply List.filter_congr
  intro b _
  simp only [Bool.and_eq_left_iff_imp, decide_eq_true_eq]
  exact fun hb hk => hb (h hk)

/-- A block that is ready was ready before. -/
theorem Purging.mem_line (hp : Purging q₀ taken q) {b : H256 × H256} (hb : b ∈ q.line) :
    b ∈ q₀.line := by
  have hunverified : ∀ w, w ∈ q.m_unverified ∨ w ∈ taken ∧ w.hash ∉ q.m_knownBad →
      w ∈ q₀.m_unverified := by
    intro w hw
    have hmem : w ∈ taken.filter (fun b => b.hash ∉ q.m_knownBad) ++ q.m_unverified :=
      List.mem_append.mpr (hw.symm.imp_left fun hw =>
        List.mem_filter.mpr ⟨hw.1, decide_eq_true hw.2⟩)
    rw [← hp.unverified] at hmem
    exact List.mem_of_mem_filter hmem
  simp only [line, List.mem_append, List.mem_map] at hb ⊢
  rcases hb with (⟨c, hc, rfl⟩ | ⟨c, hc, rfl⟩) | ⟨w, hw, rfl⟩
  · rw [hp.verified] at hc
    exact .inl (.inl ⟨c, List.mem_of_mem_filter hc, rfl⟩)
  · rw [hp.verifying] at hc
    obtain ⟨hc, hnew⟩ := List.mem_filter.mp hc
    cases List.mem_append.mp hc with
    | inl hc => exact .inl (.inr ⟨c, hc, rfl⟩)
    | inr hc =>
      obtain ⟨w, hw, rfl⟩ := List.mem_map.mp hc
      exact .inr ⟨w, hunverified w (.inr ⟨hw, of_decide_eq_true hnew⟩), rfl⟩
  · exact .inr ⟨w, hunverified w (.inl hw), rfl⟩

theorem Purging.sheds (hp : Purging q₀ taken q) (hq : Sheds q q') : Purging q₀ taken q' := by
  have hfilter : ∀ {α : Type} {f : α → H256} {queue : List α},
      (queue.filter fun b => f b ∉ q.m_knownBad).filter (fun b => f b ∉ q'.m_knownBad) =
        queue.filter fun b => f b ∉ q'.m_knownBad := filter_filter_of_subset hq.grown _
  have hrest := hq.rest
  have hverified := congrArg BlockQueue.m_verified hrest
  have hverifying := congrArg BlockQueue.m_verifying hrest
  have hunverified := congrArg BlockQueue.m_unverified hrest
  have hready := congrArg BlockQueue.m_readySet hrest
  dsimp only at hverified hverifying hunverified hready
  rw [hp.verified, hfilter] at hverified
  rw [hp.verifying, hfilter] at hverifying
  refine ⟨(congrArg BlockQueue.m_drainingSet hrest).trans hp.draining,
    (congrArg BlockQueue.m_unknownSet hrest).trans hp.unknownSet,
    (congrArg BlockQueue.m_unknown hrest).trans hp.unknown,
    (congrArg BlockQueue.m_future hrest).trans hp.future,
    (congrArg BlockQueue.m_futureSet hrest).trans hp.futureSet,
    ?_, hverified, hverifying, ?_, hp.grown.trans hq.grown, fun x hx => ?_⟩
  · rw [hready, hp.ready, sdiff_sdiff_left]
    congr 1
    exact Finset.union_eq_right.mpr hq.grown
  · rw [hunverified, ← hfilter, hp.unverified, List.filter_append, hfilter]
  · rcases hq.blamed x hx with hx | ⟨b, hb, rfl, hparent⟩
    · exact hp.descends x hx
    · have hlink : b ∈ q₀.links := List.mem_append_left _ (hp.mem_line hb)
      exact .inr ((hp.descends _ hparent).elim (fun h => .child hlink h) fun h => .step hlink h)

theorem Purging.take (hp : Purging q₀ taken q) (hs : Sound [] q) {t : UnverifiedBlock × BlockQueue}
    (ht : q.take = some t) : Purging q₀ (taken ++ [t.1]) t.2 := by
  obtain ⟨w, hw, rfl⟩ := Option.map_eq_some_iff.mp ht
  obtain ⟨rest, hq⟩ := List.head?_eq_some_iff.mp hw
  have hnew : w.hash ∉ q.m_knownBad :=
    hs.not_bad (List.mem_append_right _ (List.mem_map_of_mem (hq ▸ List.mem_cons_self)))
  have htaken : ([w].filter fun b => b.hash ∉ q.m_knownBad) = [w] :=
    filter_new fun b hb => List.mem_singleton.mp hb ▸ hnew
  have hentry : ([placeholder w].filter fun b => b.entryHash ∉ q.m_knownBad) = [placeholder w] :=
    filter_new fun b hb => List.mem_singleton.mp hb ▸ hnew
  refine ⟨hp.draining, hp.unknownSet, hp.unknown, hp.future, hp.futureSet, hp.ready, hp.verified,
    ?_, ?_, hp.grown, hp.descends⟩
  · show q.m_verifying ++ [placeholder w] =
      (q₀.m_verifying ++ (taken ++ [w]).map placeholder).filter fun b => b.entryHash ∉ q.m_knownBad
    rw [hp.verifying, List.map_append, List.map_singleton, ← List.append_assoc,
      List.filter_append (q₀.m_verifying ++ taken.map placeholder) [placeholder w], hentry]
  · show q₀.m_unverified.filter (fun b => b.hash ∉ q.m_knownBad) =
      (taken ++ [w]).filter (fun b => b.hash ∉ q.m_knownBad) ++ q.m_unverified.tail
    rw [hp.unverified, hq, List.filter_append, htaken, List.append_assoc]
    rfl

/-! ### When the purge has ended -/

/-- No block of the queue that a pass goes through has a bad parent. -/
def Clean (q : BlockQueue) : Pass → Prop
  | .verified => ∀ b ∈ q.m_verified, b.info.m_parentHash ∉ q.m_knownBad
  | .unverified => ∀ b ∈ q.m_unverified, b.parentHash ∉ q.m_knownBad
  | .verifying => ∀ b ∈ q.m_verifying, b.info.m_parentHash ∉ q.m_knownBad

/-- A pass that finds no bad block changes nothing. -/
theorem pass_of_none {p : Pass} (hnone : (q.pass p).1 = false) : (q.pass p).2 = q ∧ q.Clean p := by
  have hempty : (q.sweep p).1 = [] := by
    by_contra hne
    have hsome : (q.pass p).1 = true := decide_eq_true hne
    rw [hnone] at hsome
    cases hsome
  have hpass : (q.pass p).2 = (q.sweep p).2 := by
    show (q.sweep p).1.foldl noteBad (q.sweep p).2 = _
    rw [hempty]
    rfl
  have hall : ∀ {α : Type} {f : α → H256} {moved : α → α} {pred : α → Bool} {queue : List α},
      (SizedBlockQueue.remains moved pred queue).map f = [] →
        (∀ b ∈ queue, pred b = false) ∧ queue.filter (!pred ·) = queue := by
    intro α f moved pred queue h
    rw [List.map_eq_nil_iff, SizedBlockQueue.remains, List.map_eq_nil_iff, List.drop_eq_nil_iff] at h
    have hsame := List.filter_sublist.eq_of_length_le h
    refine ⟨fun b hb => ?_, hsame⟩
    rw [← hsame] at hb
    simpa using (List.mem_filter.mp hb).2
  rw [hpass]
  cases p with
  | verified =>
    obtain ⟨hfree, hsame⟩ := hall hempty
    refine ⟨?_, fun b hb hparent => ?_⟩
    · show {q with m_verified := q.m_verified.filter (!badVerified q.m_knownBad ·)} = q
      rw [hsame]
    · have hb := hfree b hb
      simp [badVerified, hparent] at hb
  | unverified =>
    obtain ⟨hfree, hsame⟩ := hall hempty
    refine ⟨?_, fun b hb hparent => ?_⟩
    · show {q with m_unverified := q.m_unverified.filter (!badUnverified q.m_knownBad ·)} = q
      rw [hsame]
    · have hb := hfree b hb
      simp [badUnverified, hparent] at hb
  | verifying =>
    obtain ⟨hfree, hsame⟩ := hall hempty
    refine ⟨?_, fun b hb hparent => ?_⟩
    · show {q with m_verifying := q.m_verifying.filter (!badVerifying q.m_knownBad ·)} = q
      rw [hsame]
    · have hb := hfree b hb
      simp [badVerifying, hparent] at hb

/-- A pass that finds a bad block takes one out. -/
theorem count_pass (p : Pass) (q : BlockQueue) :
    (q.pass p).2.count + (if (q.pass p).1 then 1 else 0) ≤ q.count := by
  have hrest := (blames_foldl (q.sweep p).1 (q.sweep p).2).1.rest
  have hcount : (q.pass p).2.count = (q.sweep p).2.count := by
    show ((q.sweep p).1.foldl noteBad (q.sweep p).2).count = _
    rw [hrest]
    rfl
  have hshorter : ∀ {α : Type} {f : α → H256} {moved : α → α} {pred : α → Bool} {queue : List α}
      {found : Bool}, (found = true → (SizedBlockQueue.remains moved pred queue).map f ≠ []) →
        (queue.filter (!pred ·)).length + (if found then 1 else 0) ≤ queue.length := by
    intro α f moved pred queue found hfound
    have hle := List.length_filter_le (!pred ·) queue
    split
    · rename_i htrue
      by_contra hlt
      apply hfound htrue
      rw [List.map_eq_nil_iff, SizedBlockQueue.remains, List.map_eq_nil_iff, List.drop_eq_nil_iff]
      omega
    · omega
  rw [hcount]
  cases p with
  | verified =>
    have h := @hshorter _ VerifiedBlock.infoHash VerifiedBlock.moved (badVerified q.m_knownBad)
      q.m_verified (q.pass .verified).1 of_decide_eq_true
    simp only [sweep, count, SizedBlockQueue.removeIf] at h ⊢
    omega
  | unverified =>
    have h := @hshorter _ UnverifiedBlock.hash UnverifiedBlock.moved (badUnverified q.m_knownBad)
      q.m_unverified (q.pass .unverified).1 of_decide_eq_true
    simp only [sweep, count, SizedBlockQueue.removeIf] at h ⊢
    omega
  | verifying =>
    have h := @hshorter _ VerifiedBlock.entryHash VerifiedBlock.moved (badVerifying q.m_knownBad)
      q.m_verifying (q.pass .verifying).1 of_decide_eq_true
    simp only [sweep, count, SizedBlockQueue.removeIf] at h ⊢
    omega

/-- Where all queues are clean, the descendants have been found. -/
theorem Purging.complete (hp : Purging q₀ taken q) (hclean : ∀ p, q.Clean p)
    (hq : q.Orphaned []) {x : H256} (hx : Descends q₀.links q₀.m_knownBad x) :
    x ∈ q.m_knownBad := by
  refine hx.mem_of_closed (S := (· ∈ q.m_knownBad)) (fun x hx => hp.grown hx) fun b hb hparent => ?_
  by_contra hnew
  simp only [links, line, List.mem_append, List.mem_map] at hb
  rcases hb with ((⟨c, hc, rfl⟩ | ⟨c, hc, rfl⟩) | ⟨w, hw, rfl⟩) | ⟨e, he, rfl⟩
  · refine hclean .verified c ?_ hparent
    rw [hp.verified]
    exact List.mem_filter.mpr ⟨hc, decide_eq_true hnew⟩
  · refine hclean .verifying c ?_ hparent
    rw [hp.verifying]
    exact List.mem_filter.mpr ⟨List.mem_append_left _ hc, decide_eq_true hnew⟩
  · have hmem : w ∈ q₀.m_unverified.filter fun b => b.hash ∉ q.m_knownBad :=
      List.mem_filter.mpr ⟨hw, decide_eq_true hnew⟩
    rw [hp.unverified] at hmem
    cases List.mem_append.mp hmem with
    | inl hw =>
      refine hclean .verifying (placeholder w) ?_ hparent
      rw [hp.verifying]
      refine List.mem_filter.mpr ⟨List.mem_append_right _ ?_, decide_eq_true hnew⟩
      exact List.mem_map_of_mem (List.mem_of_mem_filter hw)
    | inr hw => exact hclean .unverified w hw hparent
  · rw [← hp.unknown] at he
    exact List.not_mem_nil ((hq e he).2.2 hparent)

/-! ### Calls of `doneDrain` -/

namespace System

/-- The state of a run that loses no block. -/
def Reached [Sha3] (passes : ImportRequirements → Bytes → Bool) (s : System) : Prop :=
  ∃ events, Along (step passes) Proper {} events ∧ events.foldl (step passes) {} = s

/-- The caller of `doneDrain` has the lock. The bad blocks of a pass are the last of their queue,
and no verified block has the hash of one for its uncles. -/
def Purges (s : System) : Event → Prop
  | .pass => ¬s.Unlocked ∧ (∀ p ∈ s.purging, s.queue.Trailing p.1) ∧ s.queue.Separate
  | e => ¬s.Unlocked ∧ s.Proper e

theorem Purges.proper {s : System} {e : Event} (h : s.Purges e) : s.Proper e := by
  cases e with
  | pass => exact h.2.1
  | _ => exact h.2

theorem Purges.locked {s : System} {e : Event} (h : s.Purges e) : ¬s.Unlocked := by
  cases e <;> exact h.1

end System

/-- The passes of a turn before one. -/
def earlier : Pass → List Pass
  | .verified => []
  | .unverified => [.verified]
  | .verifying => [.verified, .unverified]

/-- The queues that were clean in this turn still are; after a turn all are. -/
def Checked (bad : List H256) (s : System) : Prop :=
  s.purging.elim (s.doomed = bad ∨ ∀ p, s.queue.Clean p) fun t =>
    t.2 = false → ∀ p ∈ earlier t.1, s.queue.Clean p

section Purges
variable [Sha3] {passes : ImportRequirements → Bytes → Bool} {bad : List H256} {s₀ s : System}

/-- While `doneDrain` runs. -/
structure Midway (bad : List H256) (s₀ s : System) : Prop where
  invariant : Invariant s.queue s.working
  orphaned : s.queue.Orphaned s.doomed
  apart : ∀ e ∈ s.queue.m_unknown, e.1 ∉ bad
  doomed : ∀ x ∈ s.doomed, x ∈ bad
  purging : ∃ taken, s.working = s₀.working ++ taken ∧ Purging s₀.queue taken s.queue
  checked : Checked bad s

theorem Midway.take (hm : Midway bad s₀ s) (hidle : s.purging = none)
    {t : UnverifiedBlock × BlockQueue} (ht : s.queue.take = some t) :
    Midway bad s₀ {s with queue := t.2, working := s.working ++ [t.1]} := by
  obtain ⟨taken, hworking, hpurging⟩ := hm.purging
  have hinvariant := hm.invariant.take ht
  have hgrown := hpurging.take hm.invariant.sound ht
  have hchecked := hm.checked
  obtain ⟨w, hw, rfl⟩ := Option.map_eq_some_iff.mp ht
  refine ⟨hinvariant, hm.orphaned, hm.apart, hm.doomed, ⟨taken ++ [w], ?_, hgrown⟩, ?_⟩
  · rw [hworking, List.append_assoc]
  · simp only [Checked, hidle, Option.elim_none] at hchecked ⊢
    refine hchecked.imp_right fun hclean p => ?_
    cases p with
    | verified => exact hclean .verified
    | unverified => exact fun b hb => hclean .unverified b (List.mem_of_mem_tail hb)
    | verifying =>
      intro b hb
      cases List.mem_append.mp hb with
      | inl hb => exact hclean .verifying b hb
      | inr hb =>
        rw [List.mem_singleton.mp hb]
        exact hclean .unverified w (List.mem_of_head? hw)

theorem Midway.beginPurge (hm : Midway bad s₀ s) {x : H256} {rest : List H256}
    (hdoomed : s.doomed = x :: rest) :
    Midway bad s₀ {s with
      queue := s.queue.collectUnknownBad x
      doomed := rest
      purging := some (.verified, false)} := by
  have hx : x ∈ bad := hm.doomed x (hdoomed ▸ List.mem_cons_self)
  have horphaned : (s.queue.collectUnknownBad x).Orphaned rest :=
    Orphaned.collectUnknownBad (hdoomed ▸ hm.orphaned)
  have hsame : s.queue.collectUnknownBad x = s.queue :=
    collectUnknownBad_eq fun e he h => hm.apart e he (h ▸ hx)
  rw [hsame] at horphaned ⊢
  exact ⟨hm.invariant, horphaned, hm.apart,
    fun y hy => hm.doomed y (hdoomed ▸ List.mem_cons_of_mem x hy), hm.purging,
    fun _ _ hp => (nomatch hp)⟩

theorem Midway.pass (hm : Midway bad s₀ s) {p : Pass} {more : Bool}
    (hp : s.purging = some (p, more)) (ht : s.queue.Trailing p) (hsep : s.queue.Separate) :
    Midway bad s₀ {s with
      queue := (s.queue.pass p).2
      purging := nextPass p (more || (s.queue.pass p).1)} := by
  obtain ⟨taken, hworking, hpurging⟩ := hm.purging
  have hsheds := sheds_pass hm.invariant.sound ht hm.orphaned hsep
  have hunknown : (s.queue.pass p).2.m_unknown = s.queue.m_unknown := by rw [hsheds.rest]
  have hchecked := hm.checked
  simp only [Checked, hp, Option.elim_some] at hchecked
  refine ⟨hm.invariant.pass ht, hm.orphaned.pass p, hunknown ▸ hm.apart, hm.doomed,
    ⟨taken, hworking, hpurging.sheds hsheds⟩, ?_⟩
  have hquiet : (more || (s.queue.pass p).1) = false →
      (s.queue.pass p).2 = s.queue ∧ s.queue.Clean p ∧ ∀ p' ∈ earlier p, s.queue.Clean p' := by
    intro h
    obtain ⟨hmore, hnone⟩ := Bool.or_eq_false_iff.mp h
    exact ⟨(pass_of_none hnone).1, (pass_of_none hnone).2, hchecked hmore⟩
  cases p with
  | verified =>
    intro h p' hp'
    obtain ⟨hq, hclean, -⟩ := hquiet h
    show (s.queue.pass .verified).2.Clean p'
    rw [hq, List.mem_singleton.mp hp']
    exact hclean
  | unverified =>
    intro h p' hp'
    obtain ⟨hq, hclean, hbefore⟩ := hquiet h
    show (s.queue.pass .unverified).2.Clean p'
    rw [hq]
    cases List.mem_cons.mp hp' with
    | inl hp' => exact hp' ▸ hbefore _ (List.mem_singleton_self _)
    | inr hp' => exact List.mem_singleton.mp hp' ▸ hclean
  | verifying =>
    cases h : (more || (s.queue.pass .verifying).1) with
    | true => exact fun _ _ hp' => (nomatch hp')
    | false =>
      obtain ⟨hq, hclean, hbefore⟩ := hquiet h
      refine .inr fun p' => ?_
      show (s.queue.pass .verifying).2.Clean p'
      rw [hq]
      cases p' with
      | verified => exact hbefore _ List.mem_cons_self
      | unverified => exact hbefore _ (List.mem_cons_of_mem _ (List.mem_singleton_self _))
      | verifying => exact hclean

theorem Midway.step (hm : Midway bad s₀ s) {e : Event} (he : s.Purges e) :
    Midway bad s₀ (s.step passes e) := by
  have hlocked : ∀ e : Event, Midway bad s₀ (if s.Unlocked then s.lockedStep passes e else s) := by
    intro e
    rwa [if_neg he.locked]
  cases e with
  | take =>
    unfold System.step
    dsimp only
    split
    · rename_i hidle
      cases ht : s.queue.take with
      | none => exact hm
      | some t => exact hm.take hidle ht
    · exact hm
  | beginPurge =>
    unfold System.step
    dsimp only
    split
    · cases hd : s.doomed with
      | nil => exact hm
      | cons x rest => exact hm.beginPurge hd
    · exact hm
  | pass =>
    unfold System.step
    dsimp only
    cases hp : s.purging with
    | none => exact hm
    | some p => exact hm.pass hp (he.2.1 p hp) he.2.2
  | _ => exact hlocked _

/-! ### What is left -/

/-- The given blocks are the roots of what is taken down, and so are all bad ones if there are
any. -/
def roots (bad : List H256) (q : BlockQueue) : Finset H256 :=
  if bad = [] then ∅ else q.m_knownBad ∪ bad.toFinset

/-- The descendants of bad blocks are known to be bad, and gone. The other blocks are queued in
the same order and with their data, but for those that verifiers have taken. -/
structure Purged (bad : List H256) (s s' : System) : Prop where
  knownBad : ∀ x, x ∈ s'.queue.m_knownBad ↔ x ∈ s.queue.m_knownBad ∨ x ∈ bad ∨
    Descends s.queue.links (roots bad s.queue) x
  ready : s'.queue.m_readySet = s.queue.m_readySet \ s'.queue.m_knownBad
  unknownSet : s'.queue.m_unknownSet = s.queue.m_unknownSet \ s'.queue.m_knownBad
  unknown : s'.queue.m_unknown = s.queue.m_unknown.filter fun e => e.2.1 ∉ s'.queue.m_knownBad
  future : s'.queue.m_future = s.queue.m_future ∧ s'.queue.m_futureSet = s.queue.m_futureSet
  verified : s'.queue.m_verified =
    s.queue.m_verified.filter fun b => b.infoHash ∉ s'.queue.m_knownBad
  taken : ∃ taken, s'.working = s.working ++ taken ∧
    s'.queue.m_verifying = (s.queue.m_verifying ++ taken.map placeholder).filter
      (fun b => b.entryHash ∉ s'.queue.m_knownBad) ∧
    s.queue.m_unverified.filter (fun b => b.hash ∉ s'.queue.m_knownBad) =
      taken.filter (fun b => b.hash ∉ s'.queue.m_knownBad) ++ s'.queue.m_unverified

theorem System.Reached.sound (hs : s.Reached passes) :
    Invariant s.queue s.working ∧ s.queue.Orphaned s.doomed := by
  obtain ⟨events, hrun, rfl⟩ := hs
  have hempty : Invariant ({} : BlockQueue) [] ∧ Orphaned [] {} :=
    ⟨⟨sound_empty, List.nodup_nil, fun _ h => (nomatch h), fun _ h => (nomatch h),
      fun _ h => (nomatch h), fun _ h => (nomatch h)⟩, fun _ h => (nomatch h)⟩
  exact @Along.foldl _ _ _ _
    (fun t : System => Invariant t.queue t.working ∧ t.queue.Orphaned t.doomed)
    (fun ht hp => ⟨System.invariant_step ht.1 hp, System.orphaned_step ht.1 ht.2 hp⟩)
    {} events hrun hempty

/-- The state in which `updateBad` is called for the first block. -/
def System.draining (s : System) (bad : List H256) : System :=
  {s with queue := (s.queue.doneDrain bad).1, doomed := bad}

theorem midway_doneDrain (hs : s.Reached passes) (hunlocked : s.Unlocked)
    (hbad : ∀ x ∈ bad, x ∈ s.queue.m_drainingSet) :
    Midway bad (s.draining bad) (s.draining bad) := by
  obtain ⟨hi, ho⟩ := hs.sound
  rw [hunlocked.1] at ho
  have hi' : Invariant (s.queue.doneDrain bad).1 s.working :=
    hi.adds (hi.sound.doneDrain hbad) rfl Finset.subset_union_left (fun b hb => .inl hb)
      fun e he => .inl he
  refine ⟨hi', fun e he => ?_, fun e he hb => (ho e he).2.1 (hbad _ hb), fun x hx => hx,
    ⟨[], (List.append_nil _).symm, purging_refl hi'.sound⟩, ?_⟩
  · obtain ⟨h1, h2, h3⟩ := ho e he
    refine ⟨h1, Finset.notMem_empty _, fun hb => ?_⟩
    cases Finset.mem_union.mp hb with
    | inl hb => exact absurd (h3 hb) List.not_mem_nil
    | inr hb => exact List.mem_toFinset.mp hb
  · show s.purging.elim _ _
    rw [hunlocked.2]
    exact .inl rfl

/-- What the purge leaves when it is over. -/
theorem Midway.purged {s' : System} (hm : Midway bad (s.draining bad) s') (hdone : s'.Unlocked)
    (hnone : bad = [] → s' = s.draining bad) : Purged bad s s' := by
  obtain ⟨taken, hworking, hp⟩ := hm.purging
  have hs := hm.invariant.sound
  have hunknown : ∀ x ∈ s'.queue.m_unknownSet, x ∉ s'.queue.m_knownBad := by
    intro x hx hb
    have hapart := hs.apart x
    simp only [places, if_pos hx, if_pos hb] at hapart
    omega
  have hchecked := hm.checked
  simp only [Checked, hdone.2, Option.elim_none, hdone.1] at hchecked
  have hlinks : (s.draining bad).queue.links = s.queue.links := rfl
  have hfirst : (s.draining bad).queue.m_knownBad = s.queue.m_knownBad ∪ bad.toFinset := rfl
  refine ⟨fun x => ⟨fun hx => ?_, fun hx => ?_⟩, hp.ready, ?_, ?_, ⟨hp.future, hp.futureSet⟩,
    hp.verified, taken, hworking, hp.verifying, hp.unverified⟩
  · have hknown : x ∈ (s.draining bad).queue.m_knownBad →
        x ∈ s.queue.m_knownBad ∨ x ∈ bad := fun hx =>
      (Finset.mem_union.mp hx).imp_right List.mem_toFinset.mp
    cases hp.descends x hx with
    | inl hx => exact (hknown hx).imp_right .inl
    | inr hdescends =>
      by_cases hempty : bad = []
      · rw [hnone hempty] at hx
        exact (hknown hx).imp_right .inl
      · right
        right
        rw [roots, if_neg hempty]
        exact hdescends
  · rcases hx with hx | hx | hx
    · exact hp.grown (Finset.mem_union_left _ hx)
    · exact hp.grown (Finset.mem_union_right _ (List.mem_toFinset.mpr hx))
    · have hnonempty : bad ≠ [] := by
        rintro rfl
        exact hx.mem_of_closed (S := fun _ => False) (fun _ h => Finset.notMem_empty _ h)
          fun _ _ h => h
      rw [roots, if_neg hnonempty] at hx
      have hclean := hchecked.resolve_left fun h => hnonempty h.symm
      exact hp.complete hclean (hdone.1 ▸ hm.orphaned) hx
  · have hsame : s.queue.m_unknownSet = s'.queue.m_unknownSet := hp.unknownSet.symm
    rw [hsame, eq_comm, Finset.sdiff_eq_self_iff_disjoint, Finset.disjoint_left]
    exact hunknown
  · have hsame : s.queue.m_unknown = s'.queue.m_unknown := hp.unknown.symm
    rw [hsame]
    refine (filter_new fun e he => hunknown _ ?_).symm
    exact (hs.consistent.unknown _).mpr (List.mem_map_of_mem he)

/-! ### The loop ends -/

/-- Passes lead from one state to the other. -/
def Passes (passes : ImportRequirements → Bytes → Bool) (s s' : System) : Prop :=
  ∃ n, (List.replicate n Event.pass).foldl (System.step passes) s = s'

theorem Passes.trans {s' s'' : System} (h : Passes passes s s') (h' : Passes passes s' s'') :
    Passes passes s s'' := by
  obtain ⟨n, rfl⟩ := h
  obtain ⟨m, rfl⟩ := h'
  exact ⟨n + m, by rw [← List.replicate_append_replicate, List.foldl_append]⟩

theorem passes_one (s : System) : Passes passes s (s.step passes .pass) := ⟨1, rfl⟩

theorem step_pass {p : Pass} {more : Bool} (hp : s.purging = some (p, more)) :
    s.step passes .pass = {s with
      queue := (s.queue.pass p).2
      purging := nextPass p (more || (s.queue.pass p).1)} := by
  unfold System.step
  dsimp only
  rw [hp, Option.elim_some]

/-- How many passes may follow. -/
def passesLeft (s : System) : ℕ :=
  s.purging.elim 0 fun t => 4 * (s.queue.count + if t.2 then 1 else 0) +
    match t.1 with
    | .verified => 3
    | .unverified => 2
    | .verifying => 1

theorem passesLeft_step {p : Pass} {more : Bool} (hp : s.purging = some (p, more)) :
    passesLeft (s.step passes .pass) < passesLeft s := by
  have hcount := count_pass p s.queue
  rw [step_pass hp]
  unfold passesLeft
  rw [hp]
  cases p with
  | verified =>
    cases more <;> cases h : (s.queue.pass .verified).1 <;> simp [nextPass, h] at hcount ⊢ <;> omega
  | unverified =>
    cases more <;> cases h : (s.queue.pass .unverified).1 <;> simp [nextPass, h] at hcount ⊢ <;> omega
  | verifying =>
    cases more <;> cases h : (s.queue.pass .verifying).1 <;> simp [nextPass, h] at hcount ⊢ <;> omega

theorem passes_end (s : System) :
    ∃ s', Passes passes s s' ∧ s'.purging = none ∧ s'.doomed = s.doomed := by
  induction hn : passesLeft s using Nat.strong_induction_on generalizing s with
  | _ n ih =>
    cases hp : s.purging with
    | none => exact ⟨s, ⟨0, rfl⟩, hp, rfl⟩
    | some t =>
      have hless : passesLeft (s.step passes .pass) < n := hn ▸ passesLeft_step hp
      obtain ⟨s', hpasses, hdone, hdoomed⟩ := ih _ hless (s.step passes .pass) rfl
      refine ⟨s', (passes_one s).trans hpasses, hdone, hdoomed.trans ?_⟩
      rw [step_pass hp]

/-- The calls of `updateBad` end. -/
theorem purge_ends (s : System) :
    ∃ purge : List Event, (∀ e ∈ purge, e = .beginPurge ∨ e = .pass) ∧
      (purge.foldl (System.step passes) s).Unlocked := by
  induction hn : s.doomed.length generalizing s with
  | zero =>
    obtain ⟨s', ⟨n, hn'⟩, hdone, hdoomed⟩ := @passes_end _ passes s
    refine ⟨List.replicate n .pass, fun e he => .inr (List.eq_of_mem_replicate he), ?_, ?_⟩
    · rw [hn', hdoomed]
      exact List.length_eq_zero_iff.mp hn
    · rw [hn', hdone]
  | succ k ih =>
    obtain ⟨s', ⟨n, hn'⟩, hdone, hdoomed⟩ := @passes_end _ passes s
    cases hd : s'.doomed with
    | nil => rw [← hdoomed, hd] at hn; cases hn
    | cons x rest =>
      have hnext : s'.step passes .beginPurge = {s' with
          queue := s'.queue.collectUnknownBad x
          doomed := rest
          purging := some (.verified, false)} := by
        unfold System.step
        dsimp only
        rw [if_pos hdone, hd]
        rfl
      have hlength : rest.length = k := by
        rw [← hdoomed, hd] at hn
        exact Nat.succ.inj hn
      obtain ⟨purge, hpurge, hunlocked⟩ := ih (s'.step passes .beginPurge) (by rw [hnext, hlength])
      refine ⟨List.replicate n .pass ++ .beginPurge :: purge, fun e he => ?_, ?_⟩
      · rcases List.mem_append.mp he with he | he
        · exact .inr (List.eq_of_mem_replicate he)
        · exact (List.mem_cons.mp he).elim .inl (hpurge e)
      · rw [List.foldl_append, hn', List.foldl_cons]
        exact hunlocked

end Purges

/-- In every state of a run that loses no block, `doneDrain` ends; and where the bad blocks of its
passes are the last of their queues, exactly the descendants of bad blocks go. -/
theorem reachable_purged [Sha3] (passes : ImportRequirements → Bytes → Bool) {s : System}
    (hs : s.Reached passes) (hunlocked : s.Unlocked) {bad : List H256}
    (hbad : s.Proper (.doneDrain bad)) :
    (∃ purge : List Event, (∀ e ∈ purge, e = .beginPurge ∨ e = .pass) ∧
      (purge.foldl (System.step passes) (s.step passes (.doneDrain bad))).Unlocked) ∧
    ∀ purge, Along (System.step passes) System.Purges (s.step passes (.doneDrain bad)) purge →
      (purge.foldl (System.step passes) (s.step passes (.doneDrain bad))).Unlocked →
        Purged bad s (purge.foldl (System.step passes) (s.step passes (.doneDrain bad))) := by
  have hstart : s.step passes (.doneDrain bad) = s.draining bad := if_pos hunlocked
  rw [hstart]
  refine ⟨purge_ends _, fun purge hpurge hdone => ?_⟩
  have hm := @Along.foldl _ _ _ _ (Midway bad (s.draining bad))
    (fun hm he => hm.step he) _ purge hpurge (midway_doneDrain hs hunlocked hbad)
  refine hm.purged hdone fun hempty => ?_
  cases purge with
  | nil => rfl
  | cons e purge =>
    refine absurd ?_ hpurge.1.locked
    exact ⟨hempty, hunlocked.2⟩

/-! ### Runs of `doneDrain` -/

instance Separate.decidable (q : BlockQueue) : Decidable q.Separate :=
  inferInstanceAs (Decidable (∀ b ∈ q.m_verifying, b.blockData ≠ [] →
    b.info.m_sha3Uncles ∉ q.m_knownBad))

instance System.Purges.decidable (s : System) : (e : Event) → Decidable (s.Purges e)
  | .pass => inferInstanceAs (Decidable (¬s.Unlocked ∧ (∀ p ∈ s.purging, s.queue.Trailing p.1) ∧
      s.queue.Separate))
  | .importBlock _ _ _ | .importDue _ _ | .take | .report _ | .drain _ | .doneDrain _
  | .noteReady _ | .retryAllUnknown | .tick _ | .setChain _ | .beginPurge =>
    inferInstanceAs (Decidable (_ ∧ s.Proper _))

attribute [local instance] lastByteSha3

/-- A verifier takes a block when the purge is over but for the second call of `updateBad`. -/
def purgeWithTake : List Event :=
  .beginPurge :: List.replicate 6 .pass ++ .take :: .beginPurge :: List.replicate 3 .pass

/-- Two blocks were drained, and the child of one and another block are queued. -/
def twoDrained : List Event :=
  [.setChain {hashOf 0}, .importBlock (blockOn 0 1) false 0, .importBlock (blockOn 0 2) false 0,
    .take, .report 0, .take, .report 0, .drain 2, .importBlock (blockOn 0 4) false 0,
    .importBlock (blockOn 1 3) false 0]

theorem twoDrained_reached : (runOf twoDrained).Reached fun _ _ => true :=
  ⟨twoDrained, by decide +kernel, rfl⟩

theorem twoDrained_purges :
    Along (System.step fun _ _ => true) System.Purges
      ((runOf twoDrained).step (fun _ _ => true) (.doneDrain [hashOf 1, hashOf 2])) purgeWithTake := by
  decide +kernel

theorem twoDrained_unlocked :
    (purgeWithTake.foldl (System.step fun _ _ => true)
      ((runOf twoDrained).step (fun _ _ => true) (.doneDrain [hashOf 1, hashOf 2]))).Unlocked := by
  decide +kernel

theorem reachable_purged_twoDrained :
    Purged [hashOf 1, hashOf 2] (runOf twoDrained)
      (purgeWithTake.foldl (System.step fun _ _ => true)
        ((runOf twoDrained).step (fun _ _ => true) (.doneDrain [hashOf 1, hashOf 2]))) := by
  have hunlocked : (runOf twoDrained).Unlocked := by decide +kernel
  have h := @reachable_purged _ (fun _ _ => true) (runOf twoDrained) twoDrained_reached hunlocked
    [hashOf 1, hashOf 2] (by decide +kernel)
  exact h.2 purgeWithTake twoDrained_purges twoDrained_unlocked

/-- The second block of two fails its verification when its child is being verified. -/
def failedParent : List Event :=
  [.setChain {hashOf 0}, .importBlock (blockOn 0 4) false 0, .take, .report 0, .drain 1,
    .importBlock (blockOn 0 1) false 0, .importBlock (blockOn 1 2) false 0, .take, .take, .report 0]

/-- The block with the hash `hashOf 1` passes only when it is imported. -/
def passesBut (ir : ImportRequirements) (block : Bytes) : Bool :=
  ir = .postGenesis || block ≠ blockOn 0 1

def failedRun : System := failedParent.foldl (System.step passesBut) {}

/-- `doneDrain` for a block that has no descendants. -/
def failedPurge : System :=
  (.doneDrain [hashOf 4] :: .beginPurge :: List.replicate 6 .pass).foldl
    (System.step passesBut) failedRun

/-- `doneDrain` takes the child of a block that was known to be bad, and loses the child of one
that is given. -/
theorem not_exactly_descendants :
    (¬Descends failedRun.queue.links {hashOf 4} (hashOf 2) ∧ failedPurge.Unlocked ∧
      hashOf 2 ∈ failedPurge.queue.m_knownBad ∧ hashOf 2 ∉ failedRun.queue.m_knownBad) ∧
    Descends (runOf (badParent ++ [.importBlock (blockOn 2 3) false 0])).queue.links {hashOf 1}
      (hashOf 2) ∧
    (runOf badGrandparent).Unlocked ∧ hashOf 2 ∉ (runOf badGrandparent).queue.m_knownBad := by
  refine ⟨⟨fun h => ?_, by decide +kernel⟩, ?_, by decide +kernel⟩
  · have hno : ∀ b ∈ failedRun.queue.links, b.2 ≠ hashOf 4 := by decide +kernel
    cases h with
    | child hb hparent => exact hno _ hb (Finset.mem_singleton.mp hparent)
    | step hb hparent =>
      have hroot := hparent.mem_of_closed (S := (· = hashOf 4)) (fun _ => Finset.mem_singleton.mp)
        fun b hb h => absurd h (hno b hb)
      exact hno _ hb hroot
  · exact @Descends.child _ _ _ _ (hashOf 1) (by decide +kernel) (Finset.mem_singleton_self _)

end Aleth.Ethereum.BlockQueue
