import Aleth.Ethereum.CanonicalIndex

/-! Runs of imports.

A request either inserts a block or leaves the chain as it is, its caches aside.
An invariant of runs is therefore an invariant of insertions. Total difficulties
are one: whatever is read of a block's details, they have its weight in the
tree. -/
namespace Aleth.Ethereum.BlockChain
open Devcore ReadThrough Throwing Ancestry
variable {bc : BlockChain}

/-- The block that a request imports. -/
def importedBy (bc : BlockChain) : Request → Option VerifiedBlock
  | .importBlock b mustBeNew verdict =>
    match ((BlockChain.importBlock b mustBeNew verdict).run bc).1 with
    | .ok _ => some b
    | .error _ => none
  | _ => none

/-- The blocks that a run imports, in order. -/
def imported : BlockChain → List Request → List VerifiedBlock
  | _, [] => []
  | bc, r :: l => (bc.importedBy r).toList ++ imported (bc.step r) l

/-- The caches are the only difference, and hold nothing that was not there to be read. -/
structure Idle (bc s : BlockChain) : Prop where
  headed : s.Headed
  genesis : s.m_genesis = bc.m_genesis
  tieBreakingGas : s.tieBreakingGas = bc.tieBreakingGas
  blocks : s.m_blocksDB = bc.m_blocksDB
  extras : s.m_extrasDB = bc.m_extrasDB
  head : s.m_lastBlockHash = bc.m_lastBlockHash
  details : ∀ h d, s.m_details h = some d → view bc.m_details bc.m_extrasDB.details h = some d
  transactionAddresses : ∀ t a, s.m_transactionAddresses t = some a →
    bc.m_transactionAddresses t = some a

theorem Idle.of_settled {s : BlockChain} (hh : bc.Headed) (hs : s.settled = bc.settled) :
    bc.Idle s := by
  obtain ⟨hg, htie, hb, he, _, htx, hlast, _⟩ := settled_eq hs.symm
  refine ⟨hh.of_settled hs.symm, hg, htie, hb, he, hlast, fun h d hd => ?_, fun t a ha => ?_⟩
  · have hv : view s.m_details s.m_extrasDB.details h = some d := by
      rw [view, hd]
      rfl
    rwa [show view s.m_details s.m_extrasDB.details = view bc.m_details bc.m_extrasDB.details from
      congrArg m_details hs] at hv
  · rwa [htx] at ha

/-- What a request does: nothing but reading, or the insertion of a block. -/
theorem step_cases (hh : bc.Headed) {r : Request} (hr : bc.Proper r) :
    (bc.Idle (bc.step r) ∧ bc.importedBy r = none) ∨
    ∃ b mustBeNew route, r = .importBlock b mustBeNew true ∧
      ((importBlock b mustBeNew true).run bc).1 = .ok route ∧ bc.importedBy r = some b ∧
      bc.Inserts b route (bc.step r) ∧ (mustBeNew = true → bc.Stored b.info.hash →
        bc.m_lastBlockNumber < bc.heightOf b.info.hash) := by
  cases r with
  | importBlock b mustBeNew verdict =>
    cases run_importBlock hh hr mustBeNew verdict with
    | inl h =>
      obtain ⟨e, s, hrun, hs⟩ := h
      refine Or.inl ⟨?_, ?_⟩
      · rw [step, hrun]
        exact Idle.of_settled hh hs
      · rw [importedBy, hrun]
    | inr h =>
      obtain ⟨route, s, hrun, hi, rfl, habove⟩ := h
      refine Or.inr ⟨b, mustBeNew, route, rfl, by rw [hrun], by rw [importedBy, hrun], ?_, habove⟩
      rw [step, hrun]
      exact hi
  | numberHash i =>
    refine Or.inl ⟨?_, rfl⟩
    by_cases hi : i = 0
    · have hs : bc.step (.numberHash i) = bc := by
        show (if i = 0 then (Except.ok bc.genesisHash, bc) else _).2 = bc
        rw [if_pos hi]
      rw [hs]
      exact Idle.of_settled hh rfl
    · have hs : bc.step (.numberHash i) =
          {bc with m_blockHashes := (query bc.m_blockHashes bc.m_extrasDB.blockHash i).2} := by
        show (if i = 0 then (Except.ok bc.genesisHash, bc) else _).2 = _
        rw [if_neg hi]
      rw [hs]
      refine ⟨⟨hh.linked.transfer rfl rfl hh.linked.cached hh.linked.describes fun _ h => h,
        hh.head, hh.number⟩, rfl, rfl, rfl, rfl, rfl, fun h d hd => ?_, fun _ _ h => h⟩
      rw [view, show bc.m_details h = some d from hd]
      rfl
  | details h => exact Or.inl ⟨Idle.of_settled hh (bc.asks_details h bc rfl).2, rfl⟩
  | block h => exact Or.inl ⟨Idle.of_settled hh (bc.asks_block h bc rfl).2, rfl⟩
  | garbageCollect blocks details transactions =>
    refine Or.inl ⟨⟨⟨?_, hh.head, hh.number⟩, rfl, rfl, rfl, rfl, rfl, fun h d hd => ?_,
      fun t a ha => ?_⟩, rfl⟩
    · refine hh.linked.transfer rfl rfl (hh.linked.cached.erase _) (fun h d hd => ?_) fun _ h => h
      cases hd with
      | inr hd => exact hh.linked.describes h d (Or.inr hd)
      | inl hd =>
        have hd' : (if h ∈ details then none else bc.m_details h) = some d := hd
        split at hd'
        case isTrue => cases hd'
        case isFalse => exact hh.linked.describes h d (Or.inl hd')
    · have hd' : (if h ∈ details then none else bc.m_details h) = some d := hd
      split at hd'
      case isTrue => cases hd'
      case isFalse =>
        rw [view, hd']
        rfl
    · have ha' : (if t ∈ transactions then none else bc.m_transactionAddresses t) = some a := ha
      split at ha'
      case isTrue => cases ha'
      case isFalse => exact ha'

theorem Along.and {p q : BlockChain → Request → Prop} {l : List Request} (hp : Along p bc l)
    (hq : Along q bc l) : Along (fun c r => p c r ∧ q c r) bc l := by
  induction l generalizing bc with
  | nil => exact trivial
  | cons r l ih => exact ⟨⟨hp.1, hq.1⟩, ih hp.2 hq.2⟩

/-- An invariant of the chain and the blocks imported so far, kept by every request that is made,
holds after the run. -/
theorem foldl_induction {P : BlockChain → List VerifiedBlock → Prop}
    {p : BlockChain → Request → Prop}
    (hstep : ∀ {c : BlockChain} {acc : List VerifiedBlock} {r : Request}, P c acc → p c r →
      P (c.step r) (acc ++ (c.importedBy r).toList)) {l : List Request} (hl : Along p bc l)
    {acc : List VerifiedBlock} (h : P bc acc) :
    P (l.foldl step bc) (acc ++ imported bc l) := by
  induction l generalizing bc acc with
  | nil =>
    rw [imported, List.append_nil]
    exact h
  | cons r l ih =>
    have hrest := ih hl.2 (hstep h hl.1)
    rw [List.append_assoc] at hrest
    exact hrest

/-! ### Total difficulty -/

def difficultyOf (bc : BlockChain) (h : H256) : ℕ := ((bc.header h).map BlockHeader.difficulty).getD 0

/-- The difficulties of a block and its ancestors, added up in 256 bits. -/
def weightOf (bc : BlockChain) (h : H256) : ℕ :=
  (bc.pathOf h 0).foldr (fun x w => (w + bc.difficultyOf x) % 2 ^ 256) bc.m_genesis.info.difficulty

theorem weightOf_genesis (hl : bc.Linked) :
    bc.weightOf bc.genesisHash = bc.m_genesis.info.difficulty := by
  rw [weightOf, ← hl.rooted.root_height, pathOf, path_self]
  rfl

theorem weightOf_parent (hl : bc.Linked) {h : H256} (hs : bc.Stored h) (hne : h ≠ bc.genesisHash) :
    bc.weightOf h = (bc.weightOf (bc.parentOf h) + bc.difficultyOf h) % 2 ^ 256 := by
  have hheight := (hl.rooted.up h hs hne).2
  have hpath : bc.pathOf h 0 = h :: bc.pathOf (bc.parentOf h) 0 :=
    hl.rooted.path_cons hs hne (by omega)
  rw [weightOf, hpath]
  rfl

theorem weightOf_congr {bc' : BlockChain} (hg : bc'.m_genesis = bc.m_genesis)
    (hb : bc'.m_blocksDB = bc.m_blocksDB) : bc'.weightOf = bc.weightOf := by
  have hd : bc'.difficultyOf = bc.difficultyOf := by
    funext h
    rw [difficultyOf, difficultyOf, header_congr hg hb]
  funext h
  rw [weightOf, weightOf, pathOf_congr hg hb, hd, hg]

section Adds
variable {bc' : BlockChain} {b : VerifiedBlock}

theorem Adds.weightOf_old (ha : Adds bc bc' b) (hl : bc.Linked) (hi : bc.Insertable b) {h : H256}
    (hs : bc.Stored h) : bc'.weightOf h = bc.weightOf h := by
  have hpath : bc'.pathOf h 0 = bc.pathOf h 0 :=
    hl.rooted.path_congr (fun _ hx _ => ha.parentOf_old hi hx) (fun _ hx => ha.heightOf_old hi hx)
      hs 0
  rw [weightOf, weightOf, hpath, ha.genesis]
  apply List.foldr_ext
  intro x hx w
  rw [difficultyOf, difficultyOf, ha.header_old hi (hl.rooted.mem_of_mem_path hs hx).1]

theorem Adds.weightOf_new (ha : Adds bc bc' b) (hl : bc.Linked) (hl' : bc'.Linked)
    (hi : bc.Insertable b) :
    bc'.weightOf b.info.hash = (bc.weightOf b.info.parentHash + b.info.difficulty) % 2 ^ 256 := by
  have hne : b.info.hash ≠ bc'.genesisHash := by
    rw [ha.genesisHash]
    exact hi.placed.ne_genesis
  rw [weightOf_parent hl' (ha.stored_new hi) hne, ha.parentOf_new hi,
    ha.weightOf_old hl hi hi.placed.parent, difficultyOf, ha.header_new hi]
  rfl

end Adds

/-- Wherever the details of a block are, they have its weight. -/
structure Weighed (bc : BlockChain) : Prop where
  headed : bc.Headed
  weight : ∀ h d, bc.m_details h = some d ∨ bc.m_extrasDB.details h = some d →
    d.totalDifficulty = bc.weightOf h

theorem Weighed.detailsOf (hw : bc.Weighed) {h : H256} (hs : bc.Stored h) :
    (bc.detailsOf h).totalDifficulty = bc.weightOf h := by
  obtain ⟨d, hd⟩ := Option.isSome_iff_exists.mp (hw.headed.linked.detailed h hs)
  cases hv : view bc.m_details bc.m_extrasDB.details h with
  | none =>
    rw [view] at hv
    cases hc : bc.m_details h with
    | none =>
      rw [hc, Option.none_or, hd] at hv
      cases hv
    | some e =>
      rw [hc] at hv
      cases hv
  | some e =>
    rw [BlockChain.detailsOf, hv]
    exact hw.weight h e (view_cases hv)

theorem Weighed.newDifficulty (hw : bc.Weighed) {b : VerifiedBlock} (hi : bc.Insertable b) :
    bc.newDifficulty b = (bc.weightOf b.info.parentHash + b.info.difficulty) % 2 ^ 256 := by
  rw [BlockChain.newDifficulty, hw.detailsOf hi.placed.parent]

theorem Weighed.idle (hw : bc.Weighed) {s : BlockChain} (hs : bc.Idle s) : s.Weighed := by
  refine ⟨hs.headed, fun h d hd => ?_⟩
  rw [weightOf_congr hs.genesis hs.blocks]
  cases hd with
  | inl hd => exact hw.weight h d (view_cases (hs.details h d hd))
  | inr hd =>
    rw [hs.extras] at hd
    exact hw.weight h d (Or.inr hd)

theorem Inserts.headed {b : VerifiedBlock} {r : ImportRoute} {s : BlockChain} (hh : bc.Headed)
    (hi : bc.Inserts b r s) : s.Headed := by
  by_cases himp : bc.improves b
  · have ha := hi.advances himp
    refine ⟨hi.linked, ?_, ?_⟩
    · rw [ha.head]
      exact hi.adds.stored_new hi.insertable
    · rw [ha.number, ha.head, hi.adds.heightOf_new hi.insertable]
  · have ht := hi.stays himp
    refine ⟨hi.linked, ?_, ?_⟩
    · rw [ht.head]
      exact hi.adds.stored hi.insertable hh.head
    · rw [ht.number, ht.head, hi.adds.heightOf_old hi.insertable hh.head, hh.number]

/-- A block inserted again has the weight it had. -/
theorem Weighed.inserts (hw : bc.Weighed) {b : VerifiedBlock} {r : ImportRoute} {s : BlockChain}
    (hi : bc.Inserts b r s) : s.Weighed := by
  have hl := hw.headed.linked
  have hins := hi.insertable
  have hp := hins.placed.parent
  have hold : ∀ h d, bc.m_details h = some d ∨ bc.m_extrasDB.details h = some d →
      d.totalDifficulty = s.weightOf h := by
    intro h d hd
    rw [hi.adds.weightOf_old hl hins (hl.describes h d hd).1]
    exact hw.weight h d hd
  have hparent : (bc.parentDetails b).totalDifficulty = s.weightOf b.info.parentHash := by
    rw [hi.adds.weightOf_old hl hins hp]
    exact hw.detailsOf hp
  refine ⟨hi.headed hw.headed, fun h d hd => ?_⟩
  cases hd with
  | inl hd =>
    have hd' := hi.cached h d hd
    rw [Function.update_apply] at hd'
    split at hd'
    case isTrue he =>
      cases hd'
      rw [he]
      exact hparent
    case isFalse => exact hold h d (view_cases hd')
  | inr hd =>
    rw [hi.details, Function.update_apply, Function.update_apply] at hd
    split at hd
    case isTrue he =>
      cases hd
      rw [he, hi.adds.weightOf_new hl hi.linked hins]
      exact hw.newDifficulty hins
    case isFalse =>
      split at hd
      case isTrue he =>
        cases hd
        rw [he]
        exact hparent
      case isFalse => exact hold h d (Or.inr hd)

theorem headed_fresh {genesis : VerifiedBlock} (tieBreakingGas : Bool)
    (h0 : genesis.info.number = 0) (hne : genesis.info.hash ≠ H256.zero) :
    (fresh genesis tieBreakingGas).Headed := (indexed_fresh tieBreakingGas h0 hne).headed

theorem weighed_fresh {genesis : VerifiedBlock} (tieBreakingGas : Bool)
    (h0 : genesis.info.number = 0) (hne : genesis.info.hash ≠ H256.zero) :
    (fresh genesis tieBreakingGas).Weighed := by
  have hh := headed_fresh tieBreakingGas h0 hne
  refine ⟨hh, fun h d hd => ?_⟩
  have hd' : Function.update (fun _ => none) genesis.info.hash
    (some (⟨0, genesis.info.difficulty, H256.zero, []⟩ : BlockDetails)) h = some d :=
    or_self_iff.mp hd
  rw [Function.update_apply] at hd'
  split at hd'
  case isTrue he =>
    cases hd'
    rw [he]
    exact (weightOf_genesis hh.linked).symm
  case isFalse => cases hd'

end Aleth.Ethereum.BlockChain
