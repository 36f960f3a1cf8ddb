import Aleth.Ethereum.WarpCapability
import Aleth.Structure.Runs

/-! The chunks of a snapshot while it is downloaded.

The fiber of `downloadChunks` ends when `m_neededChunks` is empty, whatever is
outstanding; `m_requestedChunks` has one chunk a peer; and `onPeerDisconnect`
puts a chunk back only if it is what the peer was asked for last. Where none of
this meets an outstanding chunk (`Careful`), no chunk is lost
(`run_loses_no_chunk`); a wrong reply for the last chunk loses it
(`run_loses_chunk`). -/
namespace Aleth.Ethereum.WarpCapability
open Devcore Ethcore Runs
open P2p (NodeID)
variable {params : WarpParams} {peerID : NodeID} {s s' s'' : WarpCapability} {h : H256}

/-! ### What is said of the chunks -/

/-- The download fiber has taken the manifest and is still going to request chunks. -/
def Requesting (s : WarpCapability) : Prop := ∃ chunkHash, s.m_downloadFiber = some (.pop chunkHash)

/-- The download fiber has taken the manifest. -/
def Accepted (s : WarpCapability) : Prop := s.Requesting ∨ s.m_downloadFiber = some .finished

inductive Kept (s : WarpCapability) (h : H256) : Prop
  | saved (hs : (s.files h).isSome)
  | outstanding (peerID : NodeID) (hr : s.m_requestedChunks.lookup peerID = some h)
      (hp : (s.m_peers peerID).isSome)
  | needed (hn : h ∈ s.m_neededChunks) (hf : s.Requesting)

def NoChunkLost (s : WarpCapability) : Prop :=
  s.Accepted → ∃ manifestBytes hashes, s.m_manifest = some manifestBytes ∧
    chunkHashes manifestBytes = .ok hashes ∧ ∀ h ∈ hashes, s.Kept h

instance Requesting.decidable (s : WarpCapability) : Decidable s.Requesting :=
  match h : s.m_downloadFiber with
  | some (.pop c) => isTrue ⟨c, h⟩
  | none | some .start | some .finished => isFalse fun ⟨_, hc⟩ => nomatch h.symm.trans hc

/-- The peer that the handler is going to erase. -/
def Handler.gone : Handler → Option NodeID
  | .erase peerID => some peerID
  | .next | .push _ => none

/-- A step meets an outstanding chunk only where it is still going to be requested again. -/
def Careful [Sha3] (s : WarpCapability) : Event → Prop
  | .packet peerID .snapshotData r => peerID ∉ s.disabled →
    ∀ askedHash ∈ s.m_requestedChunks.lookup peerID, ∀ data ∈ (replyData r).toOption.join,
      sha3 data ≠ askedHash → s.Requesting
  | .disconnect peerID => (s.peer peerID).m_asking = .warpData →
    (s.m_requestedChunks.lookup peerID).isSome → s.Requesting
  | .resume => ∀ peerID ∈ Handler.gone s.handler, s.m_requestedChunks.lookup peerID = none
  | .download => ∀ peerID ∈ s.m_freePeers.head?, s.Requesting → (s.m_peers peerID).isSome →
    s.m_requestedChunks.lookup peerID = none
  | .connect _ | .packet _ _ _ | .validate _ => True

instance Careful.decidable [Sha3] (s : WarpCapability) : (e : Event) → Decidable (s.Careful e)
  | .connect _ | .validate _ => isTrue trivial
  | .packet _ .snapshotData _ => inferInstanceAs (Decidable (_ → _))
  | .packet _ .warpStatus _ | .packet _ .blockHeaders _ | .packet _ .snapshotManifest _
  | .packet _ .other _ => isTrue trivial
  | .disconnect _ => inferInstanceAs (Decidable (_ → _))
  | .resume => inferInstanceAs (Decidable (∀ p ∈ Handler.gone s.handler, _))
  | .download => inferInstanceAs (Decidable (∀ p ∈ s.m_freePeers.head?, _))

/-! ### Steps that leave the chunks alone -/

structure Quiet (s s' : WarpCapability) : Prop where
  files : s'.files = s.files
  requested : s'.m_requestedChunks = s.m_requestedChunks
  needed : s'.m_neededChunks = s.m_neededChunks
  fiber : s'.m_downloadFiber = s.m_downloadFiber ∨
    s.m_downloadFiber = none ∧ s'.m_downloadFiber = some .start
  connected : ∀ peerID, (s.m_peers peerID).isSome → (s'.m_peers peerID).isSome
  manifest : ∀ b, s.m_manifest = some b → s'.m_manifest = some b

theorem Quiet.refl (s : WarpCapability) : Quiet s s :=
  ⟨rfl, rfl, rfl, .inl rfl, fun _ h => h, fun _ h => h⟩

theorem Quiet.trans (h : Quiet s s') (h' : Quiet s' s'') : Quiet s s'' where
  files := h'.files.trans h.files
  requested := h'.requested.trans h.requested
  needed := h'.needed.trans h.needed
  fiber := by
    rcases h.fiber, h'.fiber with ⟨hf | ⟨hn, hs⟩, hf' | ⟨hn', hs'⟩⟩
    · exact .inl (hf'.trans hf)
    · exact .inr ⟨hf ▸ hn', hs'⟩
    · exact .inr ⟨hn, hf'.trans hs⟩
    · exact absurd (hs.symm.trans hn') nofun
  connected p hp := h'.connected p (h.connected p hp)
  manifest b hb := h'.manifest b (h.manifest b hb)

theorem Quiet.setPeer (status : WarpPeerStatus) : Quiet s (s.setPeer peerID status) := by
  refine {Quiet.refl s with connected := fun p hp => ?_}
  by_cases hpp : p = peerID
  · subst hpp
    exact (congrArg Option.isSome (Function.update_self p (some status) s.m_peers)).trans rfl
  · exact (congrArg Option.isSome (Function.update_of_ne hpp (some status) s.m_peers)).trans hp

theorem Quiet.setAsking (a : Asking) : Quiet s (s.setAsking peerID a) := by
  unfold WarpCapability.setAsking
  rcases s.m_peers peerID with _ | status
  · exact Quiet.refl s
  · exact Quiet.setPeer _

theorem Quiet.disablePeer : Quiet s (s.disablePeer peerID) := {Quiet.refl s with}

theorem Quiet.onPeerStatus : Quiet s (s.onPeerStatus peerID) := by
  refine {Quiet.refl s with fiber := ?_}
  rcases hf : s.m_downloadFiber with _ | f
  · exact .inr ⟨rfl, by rw [WarpCapability.onPeerStatus, hf]; rfl⟩
  · exact .inl (by rw [WarpCapability.onPeerStatus, hf]; rfl)

theorem Quiet.onPeerManifest (r : RLPView) : Quiet s (s.onPeerManifest peerID r) := by
  unfold WarpCapability.onPeerManifest
  rcases ((s.m_manifests peerID).getD {}).set (some r.content) with _ | p
  · exact Quiet.refl s
  · exact {Quiet.refl s with}

theorem Quiet.onPeerBlockHeaders (r : RLPView) : Quiet s (s.onPeerBlockHeaders peerID r) := by
  unfold WarpCapability.onPeerBlockHeaders
  rcases ((s.m_daoForkHeaders peerID).getD {}).set (some r.content) with _ | p
  · exact Quiet.refl s
  · exact {Quiet.refl s with}

theorem Quiet.onConnect : Quiet s (s.onConnect peerID) :=
  (Quiet.setPeer (s.peer peerID)).trans {Quiet.refl _ with}

theorem Quiet.validateStatus : Quiet s (s.validateStatus params peerID).2 := by
  unfold WarpCapability.validateStatus
  rcases s.m_peers peerID with _ | status
  · exact Quiet.refl s
  · show Quiet s (if _ then (false, s.disablePeer peerID) else (true, s)).2
    split
    · exact Quiet.disablePeer
    · exact Quiet.refl s

section Validation
variable {v : Validating} {next : Option Validating}

theorem Quiet.acceptManifest {manifestBytes : Bytes} {snapshotHash : H256}
    (h : s.acceptManifest manifestBytes snapshotHash = some (s', next)) : Quiet s s' := by
  unfold WarpCapability.acceptManifest at h
  split at h
  · exact nomatch h
  · rename_i hnone
    cases h
    exact {Quiet.refl s with manifest := fun b hb => absurd (by rw [hb]; rfl) hnone}

theorem Quiet.onManifest {manifestBytes : Bytes}
    (h : s.onManifest params peerID manifestBytes = some (s', next)) : Quiet s s' := by
  simp only [WarpCapability.onManifest, Option.bind_eq_bind, Option.bind_eq_some_iff] at h
  obtain ⟨manifestRlp, -, valid, -, h⟩ := h
  split at h
  · obtain ⟨snapshotHash, -, h⟩ := Option.bind_eq_some_iff.mp h
    split at h
    · split at h <;> cases h
      · exact Quiet.refl _
      · exact Quiet.disablePeer
    · split at h
      · obtain ⟨headers, -, h⟩ := Option.bind_eq_some_iff.mp h
        cases h
        exact (Quiet.setAsking .blockHeaders).trans {Quiet.refl _ with}
      · exact Quiet.acceptManifest h
  · cases h
    exact Quiet.disablePeer

theorem Quiet.onDaoForkBlock [Sha3] {manifestBytes headerBytes : Bytes} {snapshotHash : H256}
    (h : s.onDaoForkBlock params peerID manifestBytes snapshotHash headerBytes = some (s', next)) :
    Quiet s s' := by
  simp only [WarpCapability.onDaoForkBlock, Option.bind_eq_bind, Option.bind_eq_some_iff] at h
  obtain ⟨headerRlp, -, valid, -, h⟩ := h
  split at h
  · exact Quiet.acceptManifest h
  · cases h
    exact Quiet.disablePeer

theorem Quiet.validatePeer [Sha3] (h : s.validatePeer params peerID v = some (s', next)) :
    Quiet s s' := by
  cases v with
  | start =>
    have hq : Quiet s (s.validateStatus params peerID).2 := Quiet.validateStatus
    simp only [WarpCapability.validatePeer] at h
    rcases hv : s.validateStatus params peerID with ⟨_ | _, t⟩ <;> rw [hv] at h hq
    · cases h
      exact hq
    · obtain ⟨manifests, -, he⟩ := Option.map_eq_some_iff.mp h
      cases he
      exact (hq.trans (Quiet.setAsking .warpManifest)).trans {Quiet.refl _ with}
  | waitForManifestResponse =>
    obtain ⟨result, -, h⟩ := Option.bind_eq_some_iff.mp h
    have hq : Quiet s {s with m_manifests := Function.update s.m_manifests peerID none} :=
      {Quiet.refl s with}
    rcases result with _ | _ | ⟨b, rest⟩
    · cases h
      exact hq
    · cases h
      exact hq
    · exact hq.trans (Quiet.onManifest h)
  | waitForDaoForkBlockResponse manifestBytes snapshotHash =>
    obtain ⟨result, -, h⟩ := Option.bind_eq_some_iff.mp h
    have hq : Quiet s {s with m_daoForkHeaders := Function.update s.m_daoForkHeaders peerID none} :=
      {Quiet.refl s with}
    rcases result with _ | _ | ⟨b, rest⟩
    · cases h
      exact hq
    · cases h
      exact hq
    · exact hq.trans (Quiet.onDaoForkBlock h)
  | push =>
    simp only [WarpCapability.validatePeer] at h
    split at h
    · cases h
      exact {Quiet.refl s with}
    · exact nomatch h

theorem Quiet.validate [Sha3] {i : ℕ} (h : s.validate params i = some s') : Quiet s s' := by
  simp only [WarpCapability.validate, Option.bind_eq_bind, Option.bind_eq_some_iff] at h
  obtain ⟨⟨p, v⟩, -, ⟨t, next⟩, ht, h⟩ := h
  cases h
  exact (Quiet.validatePeer ht).trans {Quiet.refl t with}

end Validation

/-! ### What a step keeps -/

theorem Quiet.accepted (hq : Quiet s s') (h : s'.Accepted) : s.Accepted := by
  rcases hq.fiber with hf | ⟨-, hs⟩
  · simpa only [Accepted, Requesting, hf] using h
  · rcases h with ⟨c, hc⟩ | hc
    · exact nomatch hs.symm.trans hc
    · exact nomatch hs.symm.trans hc

theorem Quiet.requesting (hq : Quiet s s') (h : s.Requesting) : s'.Requesting := by
  obtain ⟨c, hc⟩ := h
  rcases hq.fiber with hf | ⟨hn, -⟩
  · exact ⟨c, hf.trans hc⟩
  · exact nomatch hn.symm.trans hc

theorem Quiet.kept (hq : Quiet s s') (hk : s.Kept h) : s'.Kept h := by
  cases hk with
  | saved hs => exact .saved (hq.files ▸ hs)
  | outstanding p hr hp => exact .outstanding p (hq.requested ▸ hr) (hq.connected p hp)
  | needed hn hf => exact .needed (hq.needed ▸ hn) (hq.requesting hf)

/-- The download fiber waits for the peer that it asks for the first needed chunk. -/
structure Sound (s : WarpCapability) : Prop where
  kept : s.NoChunkLost
  first : ∀ chunkHash, s.m_downloadFiber = some (.pop chunkHash) →
    s.m_neededChunks.head? = some chunkHash

/-- A step after which the download fiber is where it was, or has not begun. -/
theorem Sound.of_kept (hs : s.Sound) (haccepted : s'.Accepted → s.Accepted)
    (hmanifest : ∀ b, s.m_manifest = some b → s'.m_manifest = some b)
    (hkept : ∀ h, s.Accepted → s.Kept h → s'.Kept h)
    (hfirst : ∀ chunkHash, s'.m_downloadFiber = some (.pop chunkHash) →
      s'.m_neededChunks.head? = some chunkHash) : s'.Sound := by
  refine ⟨fun ha => ?_, hfirst⟩
  obtain ⟨b, hashes, hb, hc, hall⟩ := hs.kept (haccepted ha)
  exact ⟨b, hashes, hmanifest b hb, hc, fun h hh => hkept h (haccepted ha) (hall h hh)⟩

theorem Sound.quiet (hs : s.Sound) (hq : Quiet s s') : s'.Sound := by
  refine hs.of_kept hq.accepted hq.manifest (fun h _ => hq.kept) fun c hc => ?_
  rcases hq.fiber with hf | ⟨-, hs'⟩
  · rw [hq.needed]
    exact hs.first c (hf.symm.trans hc)
  · exact nomatch hs'.symm.trans hc

theorem head_append {α : Type} {l l' : List α} {a : α} (h : l.head? = some a) :
    (l ++ l').head? = some a := by
  rw [List.head?_append, h]
  rfl

/-- A chunk that was outstanding is put back. -/
theorem Sound.putBack (hs : s.Sound) (hrequesting : s.Requesting)
    (hr : s.m_requestedChunks.lookup peerID = some h) (handler : Handler) :
    Sound {s with
      m_neededChunks := s.m_neededChunks ++ [h]
      m_requestedChunks := s.m_requestedChunks.erase peerID
      handler } := by
  refine hs.of_kept id (fun _ hb => hb) (fun k _ hk => ?_) fun c hc => head_append (hs.first c hc)
  cases hk with
  | saved hf => exact .saved hf
  | outstanding p hp hc =>
    by_cases hpp : p = peerID
    · subst hpp
      cases hr.symm.trans hp
      exact .needed (List.mem_append_right _ (List.mem_singleton_self h)) hrequesting
    · exact .outstanding p ((AList.lookup_erase_ne hpp).trans hp) hc
  | needed hn hf => exact .needed (List.mem_append_left _ hn) hf

/-- A chunk that was outstanding is saved. -/
theorem Sound.save (hs : s.Sound) (hr : s.m_requestedChunks.lookup peerID = some h) (data : Bytes)
    (handler : Handler) :
    Sound {s with
      files := Function.update s.files h (some data)
      m_requestedChunks := s.m_requestedChunks.erase peerID
      handler } := by
  refine hs.of_kept id (fun _ hb => hb) (fun k _ hk => ?_) hs.first
  by_cases hkh : k = h
  · subst hkh
    exact .saved (congrArg Option.isSome (Function.update_self k (some data) s.files))
  · cases hk with
    | saved hf =>
      exact .saved ((congrArg Option.isSome (Function.update_of_ne hkh (some data) s.files)).trans hf)
    | outstanding p hp hc =>
      have hpp : p ≠ peerID := by
        rintro rfl
        exact hkh (Option.some.inj (hp.symm.trans hr))
      exact .outstanding p ((AList.lookup_erase_ne hpp).trans hp) hc
    | needed hn hf => exact .needed hn hf

section Steps
variable [Sha3]

theorem Sound.onPeerData (hs : s.Sound) {data : Bytes}
    (hcareful : ∀ askedHash, s.m_requestedChunks.lookup peerID = some askedHash →
      sha3 data ≠ askedHash → s.Requesting) : (s.onPeerData peerID data).Sound := by
  unfold WarpCapability.onPeerData
  rcases hr : s.m_requestedChunks.lookup peerID with _ | askedHash
  · exact hs
  · simp only [Option.elim_some]
    split
    · exact hs.save hr data _
    · exact hs.putBack (hcareful askedHash hr ‹_›) hr _

theorem Sound.interpretCapabilityPacket (hs : s.Sound) (type : WarpPacket) (r : RLPView)
    (hcareful : type = .snapshotData → ∀ askedHash ∈ s.m_requestedChunks.lookup peerID,
      ∀ data ∈ (replyData r).toOption.join, sha3 data ≠ askedHash → s.Requesting) :
    (s.interpretCapabilityPacket peerID type r).Sound := by
  have hq : Quiet s (s.setPeer peerID (s.peer peerID)) := Quiet.setPeer _
  have hidle : Quiet s ((s.setPeer peerID (s.peer peerID)).setAsking peerID .nothing) :=
    hq.trans (Quiet.setAsking _)
  unfold WarpCapability.interpretCapabilityPacket
  cases type with
  | warpStatus =>
    simp only
    split
    · exact hs.quiet (hq.trans (Quiet.setPeer _))
    · exact hs.quiet (((hq.trans (Quiet.setPeer _)).trans (Quiet.setAsking .nothing)).trans
        Quiet.onPeerStatus)
  | blockHeaders => exact hs.quiet (hidle.trans (Quiet.onPeerBlockHeaders r))
  | snapshotManifest => exact hs.quiet (hidle.trans (Quiet.onPeerManifest r))
  | snapshotData =>
    simp only
    split
    · rename_i data hdata
      refine (hs.quiet hidle).onPeerData fun askedHash hr hne => hidle.requesting ?_
      exact hcareful rfl askedHash (hidle.requested ▸ hr) data (by rw [hdata]; rfl) hne
    · exact hs.quiet hidle
    · exact hs.quiet hidle
  | other => exact hs.quiet hq

theorem Sound.onDisconnect (hs : s.Sound)
    (hcareful : (s.peer peerID).m_asking = .warpData → (s.m_requestedChunks.lookup peerID).isSome →
      s.Requesting) (h : s.onDisconnect peerID = some s') : s'.Sound := by
  obtain ⟨t, ht, rfl⟩ := Option.map_eq_some_iff.mp h
  have hq : Quiet s (s.setPeer peerID (s.peer peerID)) := Quiet.setPeer _
  generalize s.setPeer peerID (s.peer peerID) = u at hq ht
  unfold onPeerDisconnect at ht
  split at ht
  · obtain ⟨manifests, -, rfl⟩ := Option.map_eq_some_iff.mp ht
    exact hs.quiet (hq.trans {Quiet.refl u with})
  · obtain ⟨headers, -, rfl⟩ := Option.map_eq_some_iff.mp ht
    exact hs.quiet (hq.trans {Quiet.refl u with})
  · cases ht
    rcases hr : u.m_requestedChunks.lookup peerID with _ | askedHash
    · exact hs.quiet (hq.trans {Quiet.refl u with})
    · have hrequesting := hcareful ‹_› (by rw [← hq.requested, hr]; rfl)
      exact (hs.quiet hq).putBack (hq.requesting hrequesting) hr _
  · cases ht
    exact hs.quiet (hq.trans {Quiet.refl t with})

omit [Sha3] in
theorem Sound.resume (hs : s.Sound)
    (hcareful : ∀ peerID ∈ Handler.gone s.handler, s.m_requestedChunks.lookup peerID = none)
    (h : s.resume params = some s') : s'.Sound := by
  unfold WarpCapability.resume at h
  split at h
  · exact nomatch h
  · split at h
    · cases h
      exact hs.quiet {Quiet.refl s with}
    · exact nomatch h
  · rename_i gone hgone
    cases h
    refine hs.of_kept id (fun _ hb => hb) (fun k _ hk => ?_) hs.first
    cases hk with
    | saved hf => exact .saved hf
    | outstanding p hp hc =>
      have hpp : p ≠ gone := by
        rintro rfl
        exact nomatch (hcareful p (by rw [hgone]; rfl)).symm.trans hp
      exact .outstanding p hp ((congrArg Option.isSome (Function.update_of_ne hpp _ _)).trans hc)
    | needed hn hf => exact .needed hn hf

end Steps

/-! ### The download fiber -/

theorem requesting_nextChunk (h : s.m_neededChunks ≠ []) : s.nextChunk.Requesting := by
  obtain ⟨c, l, hl⟩ := List.exists_cons_of_ne_nil h
  exact ⟨c, by rw [nextChunk, hl]; rfl⟩

theorem first_nextChunk {c : H256} (h : s.nextChunk.m_downloadFiber = some (.pop c)) :
    s.nextChunk.m_neededChunks.head? = some c := by
  show s.m_neededChunks.head? = some c
  rw [nextChunk] at h
  rcases hn : s.m_neededChunks.head? with _ | c'
  · rw [hn] at h
    exact nomatch h
  · rw [hn] at h
    cases h
    rfl

theorem Sound.downloadChunks (hs : s.Sound)
    (hcareful : ∀ peerID ∈ s.m_freePeers.head?, s.Requesting → (s.m_peers peerID).isSome →
      s.m_requestedChunks.lookup peerID = none)
    (h : s.downloadChunks = some s') : s'.Sound := by
  unfold WarpCapability.downloadChunks at h
  split at h
  · exact nomatch h
  · exact nomatch h
  · -- every chunk of the manifest is needed now
    obtain ⟨b, hb, h⟩ := Option.bind_eq_some_iff.mp h
    obtain ⟨hashes, hc, h⟩ := Option.bind_eq_some_iff.mp h
    cases h
    refine ⟨fun _ => ⟨b, hashes, hb, RLPView.toOption_eq_some.mp hc, fun k hk => ?_⟩,
      fun c => first_nextChunk⟩
    exact .needed hk (requesting_nextChunk (List.ne_nil_of_mem hk))
  · rename_i chunkHash hf
    split at h
    · exact nomatch h
    · rename_i p rest hfree
      unfold requestData at h
      rcases hp : s.m_peers p with _ | status
      · rw [show ({s with m_freePeers := rest} : WarpCapability).m_peers p = none from hp] at h
        cases h
        exact hs.quiet {Quiet.refl s with}
      · rw [show ({s with m_freePeers := rest} : WarpCapability).m_peers p = some status from hp] at h
        cases h
        have hq' : Quiet s {s with m_freePeers := rest} := {Quiet.refl s with}
        have hq : Quiet s (setAsking p .warpData {s with m_freePeers := rest}) :=
          hq'.trans (Quiet.setAsking _)
        generalize setAsking p .warpData {s with m_freePeers := rest} = t at hq
        have hnone := hcareful p (by rw [hfree]; rfl) ⟨chunkHash, hf⟩ (by rw [hp]; rfl)
        have hneeded : t.m_neededChunks = chunkHash :: t.m_neededChunks.tail := by
          rw [hq.needed]
          exact (List.cons_head?_tail (hs.first chunkHash hf)).symm
        refine hs.of_kept (fun _ => .inl ⟨chunkHash, hf⟩) hq.manifest (fun k _ hk => ?_)
          fun c => first_nextChunk
        cases hk with
        | saved hk => exact .saved (hq.files ▸ hk)
        | outstanding q hr hc =>
          have hqp : q ≠ p := by
            rintro rfl
            exact nomatch hnone.symm.trans hr
          refine .outstanding q ((AList.lookup_insert_ne hqp).trans ?_) (hq.connected q hc)
          rw [hq.requested]
          exact hr
        | needed hn _ =>
          rw [← hq.needed, hneeded] at hn
          rcases List.mem_cons.mp hn with rfl | hn
          · exact .outstanding p (AList.lookup_insert _) (hq.connected p (by rw [hp]; rfl))
          · exact .needed hn (requesting_nextChunk (List.ne_nil_of_mem hn))

/-! ### Runs -/

theorem Sound.step [Sha3] (hs : s.Sound) {e : Event} (hcareful : s.Careful e)
    (h : s.step params e = some s') : s'.Sound := by
  cases e with
  | connect p =>
    rw [WarpCapability.step, Option.ite_none_right_eq_some] at h
    cases h.2
    exact hs.quiet Quiet.onConnect
  | packet p type r =>
    rw [WarpCapability.step, Option.ite_none_right_eq_some] at h
    cases h.2
    unfold readPacket
    split
    · exact hs
    · rename_i henabled
      refine hs.interpretCapabilityPacket type r fun ht => ?_
      subst ht
      exact hcareful henabled
  | disconnect p =>
    rw [WarpCapability.step, Option.ite_none_right_eq_some] at h
    exact hs.onDisconnect hcareful h.2
  | resume => exact hs.resume hcareful h
  | validate i => exact hs.quiet (Quiet.validate h)
  | download => exact hs.downloadChunks hcareful h

/-- **No chunk is lost where the steps of a run are careful.** -/
theorem run_loses_no_chunk [Sha3] (params : WarpParams) {events pre : List Event}
    (hcareful : Along (advance params) (fun s e => ∀ x ∈ s, x.Careful e) (some {}) events)
    (hpre : pre <+: events) (hrun : run params pre = some s) : s.NoChunkLost := by
  have hsound : ∀ x, run params pre = some x → x.Sound := by
    refine Along.foldl (P := fun o => ∀ x, o = some x → x.Sound) (fun hs hc x hx => ?_)
      (hcareful.initial hpre) ?_
    · obtain ⟨y, rfl, hy⟩ := Option.bind_eq_some_iff.mp hx
      exact (hs y rfl).step (hc y rfl) hy
    · rintro x ⟨⟩
      refine ⟨fun ha => ?_, fun c hc => nomatch hc⟩
      rcases ha with ⟨c, hc⟩ | hc
      · exact nomatch hc
      · exact nomatch hc
  exact (hsound s hrun).kept

/-! ### A snapshot of one chunk -/

/-- A hash that reads off its input. -/
@[reducible] def plainSha3 : Sha3 := ⟨H256.alignRight⟩

def sampleParams : WarpParams where
  m_hostProtocolVersion := 1
  m_hostNetworkId := 1
  m_hostGenesisHash := H256.alignRight [9]
  m_daoForkBlock := 0
  room := 31

def samplePeer : NodeID := ⟨List.replicate 64 (UInt8.ofNat 1), List.length_replicate⟩

/-- What is sent as a list of these items. -/
def listOf (items : List Bytes) : RLPView := ⟨BytesConstRef.ofBytes (appendList items.flatten)⟩

def hashItem (b : UInt8) : Bytes := appendData (H256.alignRight [b]).bytes

def sampleStatus : RLPView :=
  listOf [numberItem 1, numberItem 1, numberItem 0, hashItem 0, hashItem 9, hashItem 8, numberItem 1]

/-- A manifest with the chunk of the byte seven. -/
def sampleManifest : RLPView :=
  listOf [appendList [numberItem 2, appendList (hashItem 7), appendList [], hashItem 6,
    numberItem 1, hashItem 8].flatten]

def sampleEvents : List Event :=
  [.connect samplePeer, .packet samplePeer .warpStatus sampleStatus, .validate 0,
    .packet samplePeer .snapshotManifest sampleManifest, .validate 0, .validate 0, .download,
    .download]

theorem chunkHashes_sample :
    chunkHashes sampleManifest.content = .ok [H256.alignRight [7]] := by
  decide +kernel

theorem careful_sample :
    Along (@advance plainSha3 sampleParams) (fun s e => ∀ x ∈ s, @Careful plainSha3 x e) (some {})
      (sampleEvents ++ [.packet samplePeer .snapshotData (listOf [numberItem 7]), .resume]) := by
  decide +kernel

theorem run_loses_no_chunk_sample :
    ∃ s, @run plainSha3 sampleParams (sampleEvents ++
      [.packet samplePeer .snapshotData (listOf [numberItem 7]), .resume]) = some s ∧
      s.NoChunkLost ∧ s.Accepted := by
  let _ := plainSha3
  have hrun : (run sampleParams (sampleEvents ++
      [.packet samplePeer .snapshotData (listOf [numberItem 7]), .resume])).any
      (fun s => s.m_downloadFiber = some .finished) = true := by decide +kernel
  obtain ⟨s, hs, hf⟩ := (Option.any_eq_true _ _).mp hrun
  refine ⟨s, hs, ?_, .inr (of_decide_eq_true hf)⟩
  exact run_loses_no_chunk sampleParams careful_sample (List.prefix_refl _) hs

/-- The last chunk comes wrong: it is put back, and the download fiber has ended. -/
theorem run_loses_chunk :
    ¬∀ (params : WarpParams) (events : List Event) (s : WarpCapability),
      @run plainSha3 params events = some s → s.NoChunkLost := by
  intro h
  let _ := plainSha3
  have hrun : (run sampleParams (sampleEvents ++
      [.packet samplePeer .snapshotData (listOf [numberItem 5]), .resume])).any
      (fun s => s.m_downloadFiber = some .finished ∧ s.m_manifest = some sampleManifest.content ∧
        s.files (H256.alignRight [7]) = none ∧ s.m_requestedChunks.entries = []) = true := by
    decide +kernel
  obtain ⟨s, hs, hf⟩ := (Option.any_eq_true _ _).mp hrun
  obtain ⟨hfiber, hmanifest, hfiles, hrequested⟩ := of_decide_eq_true hf
  obtain ⟨b, hashes, hb, hc, hkept⟩ := h sampleParams _ s hs (.inr hfiber)
  cases hmanifest.symm.trans hb
  cases chunkHashes_sample.symm.trans hc
  rcases hkept _ (List.mem_singleton_self _) with hs' | ⟨p, hp, -⟩ | ⟨-, c, hc⟩
  · rw [hfiles] at hs'
    exact nomatch hs'
  · rw [show s.m_requestedChunks = ∅ from AList.ext hrequested] at hp
    exact nomatch hp
  · exact nomatch hfiber.symm.trans hc

end Aleth.Ethereum.WarpCapability
