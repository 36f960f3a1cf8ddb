import Aleth.Ethereum.BlockChain
import Aleth.Structure.Ancestry

/-! The stored blocks form a tree, and `treeRoute` walks it.

`Linked` says that the blocks in the database hang together and that the details
of a block, in the database and in the cache, are those of its header. Queries
fill caches only: what they can see, `settled`, stays. -/
namespace Aleth.Ethereum.BlockChain
open Devcore ReadThrough Throwing Ancestry

/-! ### What the database holds -/

/-- The header of a stored block, or of the genesis block, which need not be stored. -/
def header (bc : BlockChain) (h : H256) : Option BlockHeader :=
  if h = bc.genesisHash then some bc.m_genesis.info
  else (bc.m_blocksDB h).map VerifiedBlock.info

def parentOf (bc : BlockChain) (h : H256) : H256 :=
  ((bc.header h).map BlockHeader.parentHash).getD H256.zero

def heightOf (bc : BlockChain) (h : H256) : ℕ := ((bc.header h).map BlockHeader.number).getD 0

def Stored (bc : BlockChain) (h : H256) : Prop := (bc.header h).isSome

/-- The hash of the ancestor of a block at a height. -/
def ancestorOf (bc : BlockChain) (h : H256) (n : ℕ) : H256 := ancestor bc.parentOf bc.heightOf h n

/-- The details of the block `h` are those of its header. What the details of the genesis block
call its parent plays no role. -/
def Describes (bc : BlockChain) (h : H256) (d : BlockDetails) : Prop :=
  bc.Stored h ∧ d.number = bc.heightOf h ∧ (h ≠ bc.genesisHash → d.parent = bc.parentOf h)

/-- A block that may stand in the database under the hash `h`. -/
structure Placed (bc : BlockChain) (h : H256) (b : VerifiedBlock) : Prop where
  hash : b.info.hash = h
  ne_zero : h ≠ H256.zero
  ne_genesis : h ≠ bc.genesisHash
  number_lt : b.info.number < c_invalidNumber
  parent : bc.Stored b.info.parentHash
  number : b.info.number = bc.heightOf b.info.parentHash + 1

structure Linked (bc : BlockChain) : Prop where
  genesis_ne_zero : bc.genesisHash ≠ H256.zero
  genesis_number : bc.m_genesis.info.number = 0
  placed : ∀ h b, bc.m_blocksDB h = some b → bc.Placed h b
  cached : Coherent bc.m_blocks bc.m_blocksDB
  describes : ∀ h d, bc.m_details h = some d ∨ bc.m_extrasDB.details h = some d → bc.Describes h d
  detailed : ∀ h, bc.Stored h → (bc.m_extrasDB.details h).isSome

variable {bc : BlockChain}

theorem header_genesis (bc : BlockChain) : bc.header bc.genesisHash = some bc.m_genesis.info :=
  if_pos rfl

theorem stored_genesis (bc : BlockChain) : bc.Stored bc.genesisHash := by
  rw [Stored, header_genesis]
  rfl

theorem header_of_ne {h : H256} (hne : h ≠ bc.genesisHash) :
    bc.header h = (bc.m_blocksDB h).map VerifiedBlock.info := if_neg hne

theorem Stored.block {h : H256} (hs : bc.Stored h) (hne : h ≠ bc.genesisHash) :
    ∃ b, bc.m_blocksDB h = some b ∧ bc.header h = some b.info := by
  rw [Stored, header_of_ne hne] at hs
  rw [header_of_ne hne]
  cases hb : bc.m_blocksDB h with
  | none =>
    rw [hb] at hs
    cases hs
  | some b => exact ⟨b, rfl, rfl⟩

theorem Linked.rooted (hl : bc.Linked) :
    Rooted bc.parentOf bc.heightOf bc.Stored bc.genesisHash where
  root_mem := bc.stored_genesis
  root_height := by
    rw [heightOf, header_genesis]
    exact hl.genesis_number
  up h hs hne := by
    obtain ⟨b, hb, hh⟩ := hs.block hne
    have hp := hl.placed h b hb
    rw [parentOf, heightOf, hh]
    exact ⟨hp.parent, hp.number⟩

theorem Linked.height_lt (hl : bc.Linked) {h : H256} (hs : bc.Stored h) :
    bc.heightOf h < c_invalidNumber := by
  by_cases hne : h = bc.genesisHash
  · rw [hne, hl.rooted.root_height]
    decide
  · obtain ⟨b, hb, hh⟩ := hs.block hne
    rw [heightOf, hh]
    exact (hl.placed h b hb).number_lt

theorem Linked.ne_zero (hl : bc.Linked) {h : H256} (hs : bc.Stored h) : h ≠ H256.zero := by
  by_cases hne : h = bc.genesisHash
  · rw [hne]
    exact hl.genesis_ne_zero
  · obtain ⟨b, hb, _⟩ := hs.block hne
    exact (hl.placed h b hb).ne_zero

/-! ### What queries see -/

/-- The state as queries see it: everything that can be read is in the caches. -/
def settled (bc : BlockChain) : BlockChain :=
  {bc with
    m_blocks := view bc.m_blocks bc.m_blocksDB
    m_details := view bc.m_details bc.m_extrasDB.details}

theorem settled_eq {bc bc' : BlockChain} (h : bc.settled = bc'.settled) :
    bc'.m_genesis = bc.m_genesis ∧ bc'.tieBreakingGas = bc.tieBreakingGas ∧
    bc'.m_blocksDB = bc.m_blocksDB ∧ bc'.m_extrasDB = bc.m_extrasDB ∧
    bc'.m_blockHashes = bc.m_blockHashes ∧
    bc'.m_transactionAddresses = bc.m_transactionAddresses ∧
    bc'.m_lastBlockHash = bc.m_lastBlockHash ∧ bc'.m_lastBlockNumber = bc.m_lastBlockNumber := by
  cases bc
  cases bc'
  simp only [settled, mk.injEq] at h
  obtain ⟨h₁, h₂, h₃, h₄, _, _, h₅, h₆, h₇, h₈⟩ := h
  exact ⟨h₁.symm, h₂.symm, h₃.symm, h₄.symm, h₅.symm, h₆.symm, h₇.symm, h₈.symm⟩

theorem view_cases {κ β : Type} {cache store : κ → Option β} {k : κ} {v : β}
    (h : view cache store k = some v) : cache k = some v ∨ store k = some v := by
  rw [view] at h
  cases hc : cache k with
  | some w =>
    rw [hc] at h
    exact Or.inl h
  | none =>
    rw [hc] at h
    exact Or.inr h

/-- The tree depends on the genesis block and the stored blocks only. -/
theorem header_congr {bc' : BlockChain} (hg : bc'.m_genesis = bc.m_genesis)
    (hb : bc'.m_blocksDB = bc.m_blocksDB) : bc'.header = bc.header := by
  funext h
  rw [header, header, genesisHash, genesisHash, hg, hb]

theorem stored_congr {bc' : BlockChain} (hg : bc'.m_genesis = bc.m_genesis)
    (hb : bc'.m_blocksDB = bc.m_blocksDB) : bc'.Stored = bc.Stored := by
  funext h
  rw [Stored, Stored, header_congr hg hb]

theorem heightOf_congr {bc' : BlockChain} (hg : bc'.m_genesis = bc.m_genesis)
    (hb : bc'.m_blocksDB = bc.m_blocksDB) : bc'.heightOf = bc.heightOf := by
  funext h
  rw [heightOf, heightOf, header_congr hg hb]

theorem parentOf_congr {bc' : BlockChain} (hg : bc'.m_genesis = bc.m_genesis)
    (hb : bc'.m_blocksDB = bc.m_blocksDB) : bc'.parentOf = bc.parentOf := by
  funext h
  rw [parentOf, parentOf, header_congr hg hb]

theorem ancestorOf_congr {bc' : BlockChain} (hg : bc'.m_genesis = bc.m_genesis)
    (hb : bc'.m_blocksDB = bc.m_blocksDB) : bc'.ancestorOf = bc.ancestorOf := by
  funext h n
  rw [ancestorOf, ancestorOf, parentOf_congr hg hb, heightOf_congr hg hb]

theorem placed_congr {bc' : BlockChain} (hg : bc'.m_genesis = bc.m_genesis)
    (hb : bc'.m_blocksDB = bc.m_blocksDB) {h : H256} {b : VerifiedBlock} (hp : bc.Placed h b) :
    bc'.Placed h b where
  hash := hp.hash
  ne_zero := hp.ne_zero
  ne_genesis := by
    rw [genesisHash, hg]
    exact hp.ne_genesis
  number_lt := hp.number_lt
  parent := by
    rw [stored_congr hg hb]
    exact hp.parent
  number := by
    rw [heightOf_congr hg hb]
    exact hp.number

/-- The tree stays, whatever happens to the caches and the details, if these describe it. -/
theorem Linked.transfer {bc' : BlockChain} (hl : bc.Linked) (hg : bc'.m_genesis = bc.m_genesis)
    (hb : bc'.m_blocksDB = bc.m_blocksDB) (hcached : Coherent bc'.m_blocks bc.m_blocksDB)
    (hdescribes : ∀ h d, bc'.m_details h = some d ∨ bc'.m_extrasDB.details h = some d →
      bc.Describes h d)
    (hdetailed : ∀ h, (bc.m_extrasDB.details h).isSome → (bc'.m_extrasDB.details h).isSome) :
    bc'.Linked where
  genesis_ne_zero := by
    rw [genesisHash, hg]
    exact hl.genesis_ne_zero
  genesis_number := by
    rw [hg]
    exact hl.genesis_number
  placed h b hh := by
    rw [hb] at hh
    exact placed_congr hg hb (hl.placed h b hh)
  cached := by
    rw [hb]
    exact hcached
  describes h d hd := by
    rw [Describes, stored_congr hg hb, heightOf_congr hg hb, parentOf_congr hg hb, genesisHash, hg]
    exact hdescribes h d hd
  detailed h hs := by
    rw [stored_congr hg hb] at hs
    exact hdetailed h (hl.detailed h hs)

/-- Being linked depends on the blocks stored and on what is seen of their details. -/
theorem Linked.of_settled {bc' : BlockChain} (hl : bc.Linked) (h : bc.settled = bc'.settled) :
    bc'.Linked := by
  obtain ⟨hg, _, hb, he, _⟩ := settled_eq h
  have hblocks : view bc'.m_blocks bc'.m_blocksDB = view bc.m_blocks bc.m_blocksDB :=
    (congrArg m_blocks h).symm
  have hdetails : view bc'.m_details bc'.m_extrasDB.details =
      view bc.m_details bc.m_extrasDB.details := (congrArg m_details h).symm
  refine hl.transfer hg hb (fun x b hx => ?_) (fun x d hx => ?_) (fun x hx => by rwa [he])
  · have hv : view bc'.m_blocks bc'.m_blocksDB x = some b := by rw [view, hx]; rfl
    rwa [hblocks, hl.cached.view] at hv
  · cases hx with
    | inl hx =>
      have hv : view bc'.m_details bc'.m_extrasDB.details x = some d := by rw [view, hx]; rfl
      rw [hdetails] at hv
      exact hl.describes x d (view_cases hv)
    | inr hx =>
      rw [he] at hx
      exact hl.describes x d (Or.inr hx)

/-- A query of the kind `x` fills caches at most, and answers `r` on a state seen as `bc` is. -/
abbrev Asks {α : Type} (bc : BlockChain) (x : Chain α) (r : Except ImportException α) : Prop :=
  Sees settled bc.settled x r

/-- A query that begins by looking at the state, and answers the same on all states seen as one. -/
theorem asks_get_bind {α : Type} {f : BlockChain → Chain α} {r : Except ImportException α}
    (h : ∀ s, s.settled = bc.settled → bc.Asks (f s) r) : bc.Asks (Throwing.get >>= f) r :=
  fun s hs => h s hs s hs

/-- What `details` answers. -/
def detailsOf (bc : BlockChain) (h : H256) : BlockDetails :=
  (view bc.m_details bc.m_extrasDB.details h).getD NullBlockDetails

theorem asks_details (bc : BlockChain) (h : H256) : bc.Asks (details h) (.ok (bc.detailsOf h)) := by
  intro s hs
  have hv : view s.m_details s.m_extrasDB.details = view bc.m_details bc.m_extrasDB.details :=
    congrArg m_details hs
  constructor
  · show Except.ok ((query s.m_details s.m_extrasDB.details h).1.getD NullBlockDetails) = _
    rw [query_fst, hv, detailsOf]
  · rw [← hs]
    show settled {s with m_details := (query s.m_details s.m_extrasDB.details h).2} = _
    rw [settled, settled]
    dsimp only
    rw [view_query]

theorem asks_number (bc : BlockChain) (h : H256) :
    bc.Asks (number h) (.ok (bc.detailsOf h).number) :=
  (bc.asks_details h).bind (Sees.pure _)

theorem asks_block (bc : BlockChain) (h : H256) :
    bc.Asks (block h) (.ok (if h = bc.genesisHash then some bc.m_genesis
      else view bc.m_blocks bc.m_blocksDB h)) := by
  intro s hs
  obtain ⟨hg, _⟩ := settled_eq hs.symm
  have hgh : s.genesisHash = bc.genesisHash := by rw [genesisHash, hg, genesisHash]
  have hv : view s.m_blocks s.m_blocksDB = view bc.m_blocks bc.m_blocksDB := congrArg m_blocks hs
  show (if h = s.genesisHash then (Except.ok (some s.m_genesis), s)
    else (Except.ok (query s.m_blocks s.m_blocksDB h).1,
      {s with m_blocks := (query s.m_blocks s.m_blocksDB h).2})).1 = _ ∧
    settled (if h = s.genesisHash then (Except.ok (some s.m_genesis), s)
    else (Except.ok (query s.m_blocks s.m_blocksDB h).1,
      {s with m_blocks := (query s.m_blocks s.m_blocksDB h).2})).2 = _
  rw [hgh, hg]
  split
  case isTrue => exact ⟨rfl, hs⟩
  case isFalse =>
    refine ⟨by rw [query_fst, hv], ?_⟩
    rw [← hs, ← hg, settled, settled]
    dsimp only
    rw [view_query]

theorem asks_headerData (hl : bc.Linked) (h : H256) :
    bc.Asks (headerData h) (.ok (bc.header h)) := by
  have he : bc.header h = (if h = bc.genesisHash then some bc.m_genesis
      else view bc.m_blocks bc.m_blocksDB h).map VerifiedBlock.info := by
    rw [header, hl.cached.view]
    split
    case isTrue => rfl
    case isFalse => rfl
  rw [he]
  exact (bc.asks_block h).bind (Sees.pure _)

theorem Linked.detailsOf (hl : bc.Linked) {h : H256} (hs : bc.Stored h) :
    bc.Describes h (bc.detailsOf h) := by
  obtain ⟨d, hd⟩ := Option.isSome_iff_exists.mp (hl.detailed h hs)
  cases hv : view bc.m_details bc.m_extrasDB.details h with
  | none =>
    rw [view] at hv
    cases hc : bc.m_details h with
    | none =>
      rw [hc, Option.none_or, hd] at hv
      cases hv
    | some e =>
      rw [hc] at hv
      cases hv
  | some d' =>
    rw [BlockChain.detailsOf, hv]
    exact hl.describes h d' (view_cases hv)

theorem Linked.isNull_detailsOf (hl : bc.Linked) {h : H256} (hs : bc.Stored h) :
    (bc.detailsOf h).isNull = false := by
  have hd := hl.detailsOf hs
  rw [BlockDetails.isNull, hd.2.1]
  exact decide_eq_false (hl.height_lt hs).ne

/-- The known blocks are the stored ones; with `isCurrent`, those not above the head. -/
theorem asks_isKnown (hl : bc.Linked) (h : H256) (isCurrent : Bool) :
    ∃ r, bc.Asks (isKnown h isCurrent) (.ok r) ∧
      (r = true ↔ bc.Stored h ∧ (isCurrent = true → bc.heightOf h ≤ bc.m_lastBlockNumber)) := by
  refine ⟨(bc.header h).isSome && (!isCurrent || bc.heightOf h ≤ bc.m_lastBlockNumber), ?_, ?_⟩
  · apply asks_get_bind
    intro s hs
    obtain ⟨hg, _, hdb, he, _, _, _, hn⟩ := settled_eq hs.symm
    have hls := hl.of_settled hs.symm
    have hgh : s.genesisHash = bc.genesisHash := by rw [genesisHash, hg, genesisHash]
    rw [hgh, hdb, he, hn]
    by_cases hgen : h = bc.genesisHash
    · have h0 : bc.heightOf h = 0 := by rw [hgen, hl.rooted.root_height]
      rw [if_pos hgen, hgen, header_genesis, ← hgen, h0]
      have hpure : Sees settled bc.settled (pure true : Chain Bool) (.ok true) := Sees.pure true
      simpa using hpure
    · rw [if_neg hgen, header_of_ne hgen]
      cases hb : bc.m_blocksDB h with
      | none =>
        have hc : s.m_blocks h = none := by
          cases hc : s.m_blocks h with
          | none => rfl
          | some b =>
            have := hls.cached h b hc
            rw [hdb, hb] at this
            cases this
        rw [hc]
        exact Sees.pure _
      | some b =>
        have hst : bc.Stored h := by
          rw [Stored, header_of_ne hgen, hb]
          rfl
        obtain ⟨d, hd⟩ := Option.isSome_iff_exists.mp (hl.detailed h hst)
        rw [hd]
        simp only [Option.isNone_some, Bool.and_false, Bool.false_eq_true, if_false,
          Option.map_some, Option.isSome_some, Bool.true_and]
        cases isCurrent with
        | false => exact Sees.pure _
        | true =>
          have hnum : bc.Asks (do return decide ((← number h) ≤ bc.m_lastBlockNumber))
              (.ok (decide ((bc.detailsOf h).number ≤ bc.m_lastBlockNumber))) :=
            (bc.asks_number h).bind (Sees.pure _)
          rw [(hl.detailsOf hst).2.1] at hnum
          exact hnum
  · rw [Bool.and_eq_true, Bool.or_eq_true, decide_eq_true_iff, Stored]
    cases isCurrent with
    | false => simp
    | true => simp

/-! ### Walking -/

/-- The path from a block down to, and without, its ancestor at a height. -/
def pathOf (bc : BlockChain) (h : H256) (n : ℕ) : List H256 := path bc.parentOf bc.heightOf h n

theorem Linked.ne_genesis (hl : bc.Linked) {h : H256} (hpos : 0 < bc.heightOf h) :
    h ≠ bc.genesisHash := by
  intro he
  rw [he, hl.rooted.root_height] at hpos
  exact absurd hpos (lt_irrefl 0)

/-- A block noted, and then the rest of the blocks noted. -/
theorem visit_append {α : Type} (visit : Bool) (ret rest : List α) (h : α) :
    (if visit then ret ++ [h] else ret) ++ (if visit then rest else []) =
      ret ++ if visit then h :: rest else [] := by
  cases visit with
  | false => rfl
  | true => exact List.append_assoc ret [h] rest

theorem asks_climb (hl : bc.Linked) (visit : Bool) {n k : ℕ} {h : H256} (hs : bc.Stored h)
    (hn : bc.heightOf h = k + n) (ret : List H256) :
    bc.Asks (climb visit n h ret)
      (.ok (ret ++ (if visit then bc.pathOf h k else []), bc.ancestorOf h k)) := by
  induction n generalizing h ret with
  | zero =>
    have he : k = bc.heightOf h := by omega
    rw [he, pathOf, path_self, ancestorOf, ancestor_self, ite_self, List.append_nil]
    exact Sees.pure _
  | succ n ih =>
    have hne := hl.ne_genesis (show 0 < bc.heightOf h by omega)
    obtain ⟨hup, hheight⟩ := hl.rooted.up h hs hne
    have hd := hl.detailsOf hs
    refine (bc.asks_details h).bind ?_
    rw [hd.2.2 hne]
    have hrest := ih hup (show bc.heightOf (bc.parentOf h) = k + n by omega)
      (if visit then ret ++ [h] else ret)
    have hpath : bc.pathOf h k = h :: bc.pathOf (bc.parentOf h) k :=
      hl.rooted.path_cons hs hne (by omega)
    have hanc : bc.ancestorOf h k = bc.ancestorOf (bc.parentOf h) k :=
      hl.rooted.ancestor_parent hs hne (by omega)
    rw [visit_append] at hrest
    rw [hpath, hanc]
    exact hrest

/-- Two blocks of one height meet where their ancestors agree, at the height `k`. -/
theorem asks_meet (hl : bc.Linked) (common pre post : Bool) {k : ℕ} (fuel : ℕ) {h to_ : H256}
    (hs : bc.Stored h) (ht : bc.Stored to_) (heq : bc.heightOf h = bc.heightOf to_)
    (hk : k ≤ bc.heightOf h)
    (hagree : ∀ j, j ≤ bc.heightOf h → (bc.ancestorOf h j = bc.ancestorOf to_ j ↔ j ≤ k))
    (hfuel : bc.heightOf h - k < fuel) (ret back : List H256) :
    bc.Asks (meet common pre post fuel h to_ ret back)
      (.ok (ret ++ (if pre then bc.pathOf h k ++ if common then [bc.ancestorOf h k] else [] else []),
        back ++ (if post then bc.pathOf to_ k ++
          if !pre && common then [bc.ancestorOf h k] else [] else []),
        bc.ancestorOf h k)) := by
  induction fuel generalizing h to_ ret back with
  | zero => exact absurd hfuel (Nat.not_lt_zero _)
  | succ fuel ih =>
    have hself : h = to_ ↔ bc.heightOf h ≤ k := by
      rw [← hagree _ le_rfl, ancestorOf, ancestor_self, heq, ancestorOf, ancestor_self]
    by_cases he : h = to_
    · have hke : k = bc.heightOf h := le_antisymm hk (hself.mp he)
      have hpath : bc.pathOf h k = [] := by rw [hke, pathOf, path_self]
      have hanc : bc.ancestorOf h k = h := by rw [hke, ancestorOf, ancestor_self]
      have hret : ret ++ (if pre then [] ++ (if common then [h] else []) else []) =
          if pre && common then ret ++ [h] else ret := by
        cases pre <;> cases common <;> simp
      have hback : back ++ (if post then [] ++ (if !pre && common then [h] else []) else []) =
          if post && (!pre && common) then back ++ [h] else back := by
        cases post <;> cases pre <;> cases common <;> simp
      rw [← he, hpath, hanc, hret, hback]
      unfold meet
      simp only [ne_eq, not_true_eq_false, decide_false, Bool.false_or, if_true]
      exact Sees.pure _
    · have hlt : k < bc.heightOf h := Nat.lt_of_not_le fun hle => he (hself.mpr hle)
      have hne := hl.ne_genesis (Nat.zero_lt_of_lt hlt)
      have hne' := hl.ne_genesis (show 0 < bc.heightOf to_ by omega)
      obtain ⟨hup, hheight⟩ := hl.rooted.up h hs hne
      obtain ⟨hup', hheight'⟩ := hl.rooted.up to_ ht hne'
      have hanc : ∀ j, j ≤ bc.heightOf (bc.parentOf h) →
          bc.ancestorOf h j = bc.ancestorOf (bc.parentOf h) j := fun j hj =>
        hl.rooted.ancestor_parent hs hne hj
      have hanc' : ∀ j, j ≤ bc.heightOf (bc.parentOf h) →
          bc.ancestorOf to_ j = bc.ancestorOf (bc.parentOf to_) j := fun j hj =>
        hl.rooted.ancestor_parent ht hne' (by omega)
      have hpath : bc.pathOf h k = h :: bc.pathOf (bc.parentOf h) k :=
        hl.rooted.path_cons hs hne hlt
      have hpath' : bc.pathOf to_ k = to_ :: bc.pathOf (bc.parentOf to_) k :=
        hl.rooted.path_cons ht hne' (by omega)
      have hrest := ih hup hup' (by omega) (by omega)
        (fun j hj => by rw [← hanc j hj, ← hanc' j hj]; exact hagree j (by omega)) (by omega)
        (if pre then ret ++ [h] else ret) (if post then back ++ [to_] else back)
      rw [visit_append, visit_append] at hrest
      unfold meet
      simp only [ne_eq, he, not_false_eq_true, decide_true, Bool.true_or, Bool.and_true, if_false]
      refine (bc.asks_details h).bind ((bc.asks_details to_).bind ?_)
      rw [(hl.detailsOf hs).2.2 hne, (hl.detailsOf ht).2.2 hne', hpath, hpath', hanc k (by omega)]
      exact hrest

/-- The height at which two blocks part. -/
def forkOf (bc : BlockChain) (h to_ : H256) : ℕ := fork bc.parentOf bc.heightOf h to_

/-- The route leads down to the last common ancestor and up again. -/
theorem asks_treeRoute (hl : bc.Linked) (common pre post : Bool) {h to_ : H256}
    (hs : bc.Stored h) (ht : bc.Stored to_) :
    let k := bc.forkOf h to_
    let a := bc.ancestorOf h k
    let ret := if pre then bc.pathOf h k ++ if common then [a] else [] else []
    let back := if post then bc.pathOf to_ k ++ if !pre && common then [a] else [] else []
    bc.Asks (treeRoute h to_ common pre post) (.ok (ret ++ back.reverse, a,
      ret.length - if common && !ret.isEmpty && !back.isEmpty then 1 else 0)) := by
  intro k a ret back
  have hr := hl.rooted
  have hd := hl.detailsOf hs
  have hd' := hl.detailsOf ht
  obtain ⟨m, hm⟩ : ∃ m, m = min (bc.heightOf h) (bc.heightOf to_) := ⟨_, rfl⟩
  have hmh : m ≤ bc.heightOf h := by omega
  have hmt : m ≤ bc.heightOf to_ := by omega
  have hkm : k ≤ m := by
    rw [hm]
    exact le_min (fork_le_left _ _) (fork_le_right _ _)
  have hheight : bc.heightOf (bc.ancestorOf h m) = m := hr.height_ancestor hs hmh
  have hheight' : bc.heightOf (bc.ancestorOf to_ m) = m := hr.height_ancestor ht hmt
  have hanc : ∀ j, j ≤ m → bc.ancestorOf (bc.ancestorOf h m) j = bc.ancestorOf h j := fun j hj =>
    hr.ancestor_ancestor hs hj hmh
  have hanc' : ∀ j, j ≤ m → bc.ancestorOf (bc.ancestorOf to_ m) j = bc.ancestorOf to_ j :=
    fun j hj => hr.ancestor_ancestor ht hj hmt
  have hpath : bc.pathOf h k = bc.pathOf h m ++ bc.pathOf (bc.ancestorOf h m) k :=
    path_eq_append h hkm hmh hheight
  have hpath' : bc.pathOf to_ k = bc.pathOf to_ m ++ bc.pathOf (bc.ancestorOf to_ m) k :=
    path_eq_append to_ hkm hmt hheight'
  have hsm : bc.Stored (bc.ancestorOf h m) := hr.mem_ancestor hs m
  have htm : bc.Stored (bc.ancestorOf to_ m) := hr.mem_ancestor ht m
  have hagree : ∀ j, j ≤ bc.heightOf (bc.ancestorOf h m) →
      (bc.ancestorOf (bc.ancestorOf h m) j = bc.ancestorOf (bc.ancestorOf to_ m) j ↔ j ≤ k) := by
    intro j hj
    rw [hheight] at hj
    rw [hanc j hj, hanc' j hj]
    exact hr.agree_iff hs ht (hj.trans hmh) (hj.trans hmt)
  have hmeet := asks_meet hl common pre post (m + 1) hsm htm (hheight.trans hheight'.symm)
    (by rw [hheight]; exact hkm) hagree (by rw [hheight]; omega)
    ([] ++ if pre then bc.pathOf h m else []) ([] ++ if post then bc.pathOf to_ m else [])
  rw [hanc k hkm] at hmeet
  have hret : ret = ([] ++ if pre then bc.pathOf h m else []) ++
      (if pre then bc.pathOf (bc.ancestorOf h m) k ++ (if common then [a] else []) else []) := by
    show (if pre then bc.pathOf h k ++ (if common then [a] else []) else []) = _
    rw [hpath]
    cases pre with
    | false => rfl
    | true => simp
  have hback : back = ([] ++ if post then bc.pathOf to_ m else []) ++
      (if post then bc.pathOf (bc.ancestorOf to_ m) k ++ (if !pre && common then [a] else [])
        else []) := by
    show (if post then bc.pathOf to_ k ++ (if !pre && common then [a] else []) else []) = _
    rw [hpath']
    cases post with
    | false => rfl
    | true => simp
  rw [← hret, ← hback] at hmeet
  unfold treeRoute
  simp only [hl.ne_zero hs, hl.ne_zero ht, decide_false, Bool.or_false, Bool.false_eq_true, if_false]
  refine (bc.asks_details h).bind ((bc.asks_details to_).bind ?_)
  simp only [hl.isNull_detailsOf hs, hl.isNull_detailsOf ht, Bool.or_false, Bool.false_eq_true,
    if_false, hd.2.1, hd'.2.1]
  refine (asks_climb hl pre hs (show bc.heightOf h = m + (bc.heightOf h - bc.heightOf to_) by
    omega) []).bind ?_
  refine (asks_climb hl post ht (show bc.heightOf to_ = m + (bc.heightOf to_ - bc.heightOf h) by
    omega) []).bind ?_
  rw [← hm]
  exact hmeet.bind (Sees.pure _)

/-- The whole route, with the common ancestor in it. -/
theorem asks_wholeRoute (hl : bc.Linked) {h to_ : H256} (hs : bc.Stored h) (ht : bc.Stored to_) :
    let k := bc.forkOf h to_
    ∃ i, bc.Asks (treeRoute h to_ true true true)
      (.ok (bc.pathOf h k ++ bc.ancestorOf h k :: (bc.pathOf to_ k).reverse,
        bc.ancestorOf h k, i)) := by
  intro k
  have hroute := asks_treeRoute hl true true true hs ht
  dsimp only at hroute
  simp only [if_true, Bool.not_true, Bool.false_and, Bool.false_eq_true, if_false,
    List.append_nil, List.append_assoc, List.singleton_append] at hroute
  exact ⟨_, hroute⟩

end Aleth.Ethereum.BlockChain
