import Aleth.Ethereum.ImportRuns

/-! The details of imported blocks.

The details of a block are written when it is imported: they carry its number
and total difficulty, and are listed among its parent's children. A block that
is known only counts as such up to the height of the head. One that stands
higher, on a lighter branch, is inserted a second time when it is offered again:
its parent lists it twice, and its own details start afresh in the database. -/
namespace Aleth.Ethereum.BlockChain
open Devcore ReadThrough Throwing Ancestry
variable {bc : BlockChain}

/-- The details of the imported blocks `l` make them a tree, in the database and in the cache. -/
structure WellFormed (bc : BlockChain) (l : List VerifiedBlock) : Prop where
  details : ∀ b ∈ l, ∃ d p, ((details b.info.hash).run bc).1 = .ok d ∧
    ((BlockChain.details b.info.parentHash).run bc).1 = .ok p ∧ d.number = p.number + 1 ∧
    d.totalDifficulty = (p.totalDifficulty + b.info.difficulty) % 2 ^ 256 ∧
    p.children.count b.info.hash = 1 ∧
    ∀ c ∈ p.children, ∃ t ∈ l, t.info.hash = c ∧ t.info.parentHash = b.info.parentHash
  cached : ∀ h d, bc.m_details h = some d → bc.m_extrasDB.details h = some d

/-- No block is inserted again: one that is stored is offered as new, and is not above the head. -/
def Novel (bc : BlockChain) : Request → Prop
  | .importBlock b mustBeNew verdict => bc.Stored b.info.hash → verdict = true →
    mustBeNew = true ∧ b.info.number ≤ bc.m_lastBlockNumber
  | _ => True

instance decidableStored (bc : BlockChain) (h : H256) : Decidable (bc.Stored h) :=
  inferInstanceAs (Decidable ((bc.header h).isSome = true))

instance decidableNovel : (bc : BlockChain) → (r : Request) → Decidable (bc.Novel r)
  | bc, .importBlock b mustBeNew verdict => inferInstanceAs (Decidable (bc.Stored b.info.hash →
    verdict = true → mustBeNew = true ∧ b.info.number ≤ bc.m_lastBlockNumber))
  | _, .numberHash _ => isTrue trivial
  | _, .details _ => isTrue trivial
  | _, .block _ => isTrue trivial
  | _, .garbageCollect _ _ _ => isTrue trivial

/-- The children of every block are the imported blocks with that parent, each once. -/
structure Familial (bc : BlockChain) (l : List VerifiedBlock) : Prop where
  weighed : bc.Weighed
  stored : ∀ b, b ∈ l ↔ bc.m_blocksDB b.info.hash = some b
  cached : Coherent bc.m_details bc.m_extrasDB.details
  nodup : ∀ h d, bc.m_extrasDB.details h = some d → d.children.Nodup
  children : ∀ h d, bc.m_extrasDB.details h = some d →
    ∀ c, c ∈ d.children ↔ ∃ b ∈ l, b.info.hash = c ∧ b.info.parentHash = h

section Familial
variable {l : List VerifiedBlock}

theorem Familial.detailsOf (hf : bc.Familial l) {h : H256} (hs : bc.Stored h) :
    bc.m_extrasDB.details h = some (bc.detailsOf h) := by
  obtain ⟨d, hd⟩ := Option.isSome_iff_exists.mp (hf.weighed.headed.linked.detailed h hs)
  rw [BlockChain.detailsOf, hf.cached.view, hd]
  rfl

theorem Familial.stored_of_mem (hf : bc.Familial l) {b : VerifiedBlock} (hb : b ∈ l) :
    bc.Stored b.info.hash ∧ bc.Placed b.info.hash b := by
  have hdb := (hf.stored b).mp hb
  have hp := hf.weighed.headed.linked.placed _ b hdb
  refine ⟨?_, hp⟩
  rw [Stored, header_of_ne hp.ne_genesis, hdb]
  rfl

theorem Familial.wellFormed (hf : bc.Familial l) : bc.WellFormed l := by
  refine ⟨fun b hb => ?_, hf.cached⟩
  have hl := hf.weighed.headed.linked
  obtain ⟨hs, hp⟩ := hf.stored_of_mem hb
  have hdb := (hf.stored b).mp hb
  have hheader : bc.header b.info.hash = some b.info := by
    rw [header_of_ne hp.ne_genesis, hdb]
    rfl
  have hparent : bc.parentOf b.info.hash = b.info.parentHash := by
    rw [parentOf, hheader]
    rfl
  have hdifficulty : bc.difficultyOf b.info.hash = b.info.difficulty := by
    rw [difficultyOf, hheader]
    rfl
  refine ⟨bc.detailsOf b.info.hash, bc.detailsOf b.info.parentHash,
    (bc.asks_details b.info.hash bc rfl).1, (bc.asks_details b.info.parentHash bc rfl).1,
    ?_, ?_, ?_, fun c hc => ?_⟩
  · rw [(hl.detailsOf hs).2.1, (hl.detailsOf hp.parent).2.1, heightOf, hheader]
    exact hp.number
  · rw [hf.weighed.detailsOf hs, hf.weighed.detailsOf hp.parent,
      weightOf_parent hl hs hp.ne_genesis, hparent, hdifficulty]
  · have hd := hf.detailsOf hp.parent
    have hmem := (hf.children _ _ hd b.info.hash).mpr ⟨b, hb, rfl, rfl⟩
    exact List.count_eq_one_of_mem (hf.nodup _ _ hd) hmem
  · exact (hf.children _ _ (hf.detailsOf hp.parent) c).mp hc

theorem Familial.idle (hf : bc.Familial l) {s : BlockChain} (hs : bc.Idle s) : s.Familial l := by
  refine ⟨hf.weighed.idle hs, fun b => ?_, fun h d hd => ?_, ?_, ?_⟩
  · rw [hs.blocks]
    exact hf.stored b
  · have hv := hs.details h d hd
    rwa [hf.cached.view, ← hs.extras] at hv
  · rw [hs.extras]
    exact hf.nodup
  · rw [hs.extras]
    exact hf.children

/-- A new block joins the children of its parent, and has none yet. -/
theorem Familial.inserts (hf : bc.Familial l) {b : VerifiedBlock} {r : ImportRoute}
    {s : BlockChain} (hi : bc.Inserts b r s) (hnew : ¬ bc.Stored b.info.hash) :
    s.Familial (l ++ [b]) := by
  have hl := hf.weighed.headed.linked
  have hins := hi.insertable
  have hp := hins.placed.parent
  have hparent := hf.detailsOf hp
  have hne : b.info.parentHash ≠ b.info.hash := fun he => hnew (he ▸ hp)
  -- no imported block has the hash of the new one, or the new one as its parent
  have hfresh : ∀ t ∈ l, t.info.hash ≠ b.info.hash ∧ t.info.parentHash ≠ b.info.hash := by
    intro t ht
    obtain ⟨hs, hplaced⟩ := hf.stored_of_mem ht
    exact ⟨fun he => hnew (he ▸ hs), fun he => hnew (he ▸ hplaced.parent)⟩
  have hmem : ∀ {t : VerifiedBlock}, t ∈ l ++ [b] ↔ t ∈ l ∨ t = b := by
    intro t
    rw [List.mem_append, List.mem_singleton]
  have hold : b.info.hash ∉ (bc.detailsOf b.info.parentHash).children := by
    intro hc
    obtain ⟨t, ht, he, _⟩ := (hf.children _ _ hparent _).mp hc
    exact (hfresh t ht).1 he
  have hstored : ∀ h d, s.m_extrasDB.details h = some d →
      h = b.info.hash ∧ d = bc.newDetails b ∨ h = b.info.parentHash ∧ d = bc.parentDetails b ∨
      h ≠ b.info.hash ∧ h ≠ b.info.parentHash ∧ bc.m_extrasDB.details h = some d := by
    intro h d hd
    rw [hi.details, Function.update_apply, Function.update_apply] at hd
    split at hd
    case isTrue he => exact Or.inl ⟨he, (Option.some.inj hd).symm⟩
    case isFalse hne =>
      split at hd
      case isTrue he => exact Or.inr (Or.inl ⟨he, (Option.some.inj hd).symm⟩)
      case isFalse hne' => exact Or.inr (Or.inr ⟨hne, hne', hd⟩)
  refine ⟨hf.weighed.inserts hi, fun t => ?_, fun h d hd => ?_, fun h d hd => ?_, fun h d hd c => ?_⟩
  · rw [hmem, hi.adds.blocks, Function.update_apply]
    split
    case isTrue he =>
      rw [Option.some.injEq]
      exact ⟨fun h => h.elim (fun ht => absurd he (hfresh t ht).1) Eq.symm, fun h => Or.inr h.symm⟩
    case isFalse he =>
      rw [hf.stored t]
      exact ⟨fun h => h.elim id fun hb => absurd (by rw [hb]) he, Or.inl⟩
  · have hd' := hi.cached h d hd
    rw [Function.update_apply] at hd'
    rw [hi.details, Function.update_apply, Function.update_apply]
    split at hd'
    case isTrue he => rw [if_neg (by rw [he]; exact hne), if_pos he, hd']
    case isFalse he =>
      rw [hf.cached.view] at hd'
      have hne' : h ≠ b.info.hash := fun hb => hnew (hb ▸ (hl.describes h d (Or.inr hd')).1)
      rw [if_neg hne', if_neg he, hd']
  · cases hstored h d hd with
    | inl h =>
      rw [h.2]
      exact List.nodup_nil
    | inr h =>
      cases h with
      | inl h =>
        have hnodup := (hf.nodup _ _ hparent).concat hold
        rw [List.concat_eq_append] at hnodup
        rw [h.2]
        exact hnodup
      | inr h => exact hf.nodup _ _ h.2.2
  · cases hstored h d hd with
    | inl h =>
      obtain ⟨rfl, rfl⟩ := h
      refine iff_of_false List.not_mem_nil ?_
      intro hex
      obtain ⟨t, ht, _, htp⟩ := hex
      cases hmem.mp ht with
      | inl ht => exact (hfresh t ht).2 htp
      | inr ht =>
        rw [ht] at htp
        exact hne htp
    | inr h =>
      cases h with
      | inl h =>
        obtain ⟨rfl, rfl⟩ := h
        show c ∈ (bc.detailsOf b.info.parentHash).children ++ [b.info.hash] ↔ _
        rw [List.mem_append, hf.children _ _ hparent, List.mem_singleton]
        constructor
        · intro hc
          cases hc with
          | inl hc =>
            obtain ⟨t, ht, he⟩ := hc
            exact ⟨t, hmem.mpr (Or.inl ht), he⟩
          | inr hc => exact ⟨b, hmem.mpr (Or.inr rfl), hc.symm, rfl⟩
        · intro hc
          obtain ⟨t, ht, he, htp⟩ := hc
          cases hmem.mp ht with
          | inl ht => exact Or.inl ⟨t, ht, he, htp⟩
          | inr ht => exact Or.inr (by rw [← he, ht])
      | inr h =>
        obtain ⟨_, hne', hd'⟩ := h
        rw [hf.children h d hd']
        constructor
        · intro hc
          obtain ⟨t, ht, he⟩ := hc
          exact ⟨t, hmem.mpr (Or.inl ht), he⟩
        · intro hc
          obtain ⟨t, ht, he, htp⟩ := hc
          cases hmem.mp ht with
          | inl ht => exact ⟨t, ht, he, htp⟩
          | inr ht => exact absurd (by rw [← htp, ht]) hne'

theorem familial_fresh {genesis : VerifiedBlock} (tieBreakingGas : Bool)
    (h0 : genesis.info.number = 0) (hne : genesis.info.hash ≠ H256.zero) :
    (fresh genesis tieBreakingGas).Familial [] := by
  have hdetails : ∀ h d, (fresh genesis tieBreakingGas).m_extrasDB.details h = some d →
      d.children = [] := by
    intro h d hd
    have hd' : Function.update (fun _ => none) genesis.info.hash
      (some (⟨0, genesis.info.difficulty, H256.zero, []⟩ : BlockDetails)) h = some d := hd
    rw [Function.update_apply] at hd'
    split at hd'
    case isTrue =>
      cases hd'
      rfl
    case isFalse => cases hd'
  refine ⟨weighed_fresh tieBreakingGas h0 hne, fun b => ?_, fun h d hd => hd, fun h d hd => ?_,
    fun h d hd c => ?_⟩
  · exact iff_of_false List.not_mem_nil fun h => by cases h
  · rw [hdetails h d hd]
    exact List.nodup_nil
  · rw [hdetails h d hd]
    refine iff_of_false List.not_mem_nil ?_
    intro hex
    obtain ⟨t, ht, _⟩ := hex
    cases ht

theorem familial_step (hf : bc.Familial l) {r : Request} (hr : bc.Proper r) (hn : bc.Novel r) :
    (bc.step r).Familial (l ++ (bc.importedBy r).toList) := by
  cases step_cases hf.weighed.headed hr with
  | inl h =>
    rw [h.2, Option.toList_none, List.append_nil]
    exact hf.idle h.1
  | inr h =>
    obtain ⟨b, mustBeNew, route, rfl, _, hby, hi, habove⟩ := h
    rw [hby, Option.toList_some]
    refine hf.inserts hi fun hs => ?_
    obtain ⟨hmust, hle⟩ := hn hs rfl
    have hheight : bc.heightOf b.info.hash = b.info.number := by
      obtain ⟨t, ht, hhead⟩ := hs.block hi.insertable.placed.ne_genesis
      rw [heightOf, hhead, hi.insertable.unique t ht]
      rfl
    have := habove hmust hs
    omega

end Familial

/-- In a run in which no block is inserted again, the details of the imported blocks make them a
tree after every request. -/
theorem wellFormed_of_novel (genesis : VerifiedBlock) (tieBreakingGas : Bool)
    (h0 : genesis.info.number = 0) (hne : genesis.info.hash ≠ H256.zero) (l : List Request)
    (hproper : Along Proper (fresh genesis tieBreakingGas) l)
    (hnovel : Along Novel (fresh genesis tieBreakingGas) l) :
    ∀ pre, pre <+: l → (runFromFresh genesis tieBreakingGas pre).WellFormed
      (imported (fresh genesis tieBreakingGas) pre) := by
  intro pre hpre
  have hrun := foldl_induction (P := Familial) (p := fun c r => c.Proper r ∧ c.Novel r)
    (fun hf hr => familial_step hf hr.1 hr.2) ((hproper.initial hpre).and (hnovel.initial hpre))
    (familial_fresh tieBreakingGas h0 hne)
  exact hrun.wellFormed

/-! ### A block inserted again -/

/-- A head at height 1 and a lighter branch of three blocks; then a block is offered again. -/
def offeredAgain (b : VerifiedBlock) : List Request :=
  [.importBlock (sampleBlock 0xa1 0x01 1 9) true true,
    .importBlock (sampleBlock 0xb1 0x01 1 1) true true,
    .importBlock (sampleBlock 0xb2 0xb1 2 1) true true,
    .importBlock (sampleBlock 0xb3 0xb2 3 1) true true,
    .importBlock b true true]

theorem wellFormed_of_novel_sample :
    (runFromFresh sampleGenesis false (offeredAgain (sampleBlock 0xb1 0x01 1 1))).WellFormed
      (imported (fresh sampleGenesis false) (offeredAgain (sampleBlock 0xb1 0x01 1 1))) :=
  wellFormed_of_novel sampleGenesis false rfl (by decide) (offeredAgain (sampleBlock 0xb1 0x01 1 1))
    (by decide +kernel) (by decide +kernel) _ (List.prefix_refl _)

/-- What the second insertion leaves: the parent lists the block twice, and the block's own child is
gone from its details in the database. -/
theorem children_inserted_again :
    ((runFromFresh sampleGenesis false (offeredAgain (sampleBlock 0xb2 0xb1 2 1))).detailsOf
      (H256.alignRight [0xb1])).children = [H256.alignRight [0xb2], H256.alignRight [0xb2]] ∧
    ((runFromFresh sampleGenesis false (offeredAgain (sampleBlock 0xb2 0xb1 2 1))).m_extrasDB.details
      (H256.alignRight [0xb2])).map BlockDetails.children = some [] ∧
    ((runFromFresh sampleGenesis false (offeredAgain (sampleBlock 0xb2 0xb1 2 1))).m_details
      (H256.alignRight [0xb2])).map BlockDetails.children = some [H256.alignRight [0xb3]] := by
  decide +kernel

theorem not_wellFormed_offeredAgain :
    Along Proper (fresh sampleGenesis false) (offeredAgain (sampleBlock 0xb2 0xb1 2 1)) ∧
    ¬ (runFromFresh sampleGenesis false (offeredAgain (sampleBlock 0xb2 0xb1 2 1))).WellFormed
      (imported (fresh sampleGenesis false) (offeredAgain (sampleBlock 0xb2 0xb1 2 1))) := by
  refine ⟨by decide +kernel, fun hw => ?_⟩
  obtain ⟨d, hd⟩ : ∃ d, (runFromFresh sampleGenesis false
      (offeredAgain (sampleBlock 0xb2 0xb1 2 1))).m_details (H256.alignRight [0xb2]) = some d :=
    Option.isSome_iff_exists.mp (by decide +kernel)
  obtain ⟨_, hstore, hcache⟩ := children_inserted_again
  rw [hw.cached _ d hd] at hstore
  rw [hd] at hcache
  have hsame := hstore.symm.trans hcache
  revert hsame
  decide

end Aleth.Ethereum.BlockChain
