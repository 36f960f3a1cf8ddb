import Aleth.Ethereum.CanonicalIndex

/-! Headers for a peer (`EthereumHostData::blockHeaders`).

What a peer asks for in rising order is looked up in falling order: the top block
is computed, and from there the chain is followed down. Where the block is given
by its hash the top is computed as if the steps were taken between the last
header and the next one too, so that it is too high unless the chain ends before
it. A header stands for its bytes, whose number is `size`. -/
namespace Aleth.Ethereum
open Devcore Throwing ReadThrough Ancestry

def c_maxHeadersToSend : ℕ := 1024

def c_maxPayload : ℕ := 262144

def c_blockNumberUsageLimit : ℕ := 1000

/-- A block id of 32 bytes is a hash, any other a number. -/
inductive BlockId where
  | hash (h : H256)
  | number (n : ℕ)
deriving DecidableEq

namespace BlockChain

/-- The traversal by parent hashes: the block where it stops, and the steps that are left. -/
def traverseParents (limitBlock : ℕ) : (step : ℕ) → (h : H256) → Chain (H256 × ℕ)
  | 0, h => return (h, 0)
  | step + 1, h => do
    let details ← details h
    if details.number < limitBlock then return (h, step + 1)
    else traverseParents limitBlock step details.parent

def nextHash (h : H256) (step : ℕ) : Chain H256 := do
  let bc ← Throwing.get
  let lastBlock := bc.m_lastBlockNumber
  let limitBlock :=
    if c_blockNumberUsageLimit < lastBlock then lastBlock - c_blockNumberUsageLimit else 0
  let (h, step) ← traverseParents limitBlock step h
  if step = 0 then return h
  else
    let n ← number h
    if step ≤ n then numberHash (n - step) else return H256.zero

/-- The loop over the headers to send. -/
def collect (step : ℕ) : (numHeadersToSend : ℕ) → (blockHash : H256) → Chain (List H256)
  | 0, _ => return []
  | left + 1, blockHash => do
    if blockHash = H256.zero then return []
    else if ← isKnown blockHash true then
      let next ← nextHash blockHash step
      let hashes ← collect step left next
      return blockHash :: hashes
    else return []

/-- The loop that appends the headers, with the bytes that are there. -/
def appendHeaders (size : BlockHeader → ℕ) :
    (hashes : List H256) → (rlp : ℕ) → Chain (List BlockHeader)
  | [], _ => return []
  | h :: hashes, rlp =>
    if rlp < c_maxPayload then do
      let data ← headerData h
      let headers ← appendHeaders size hashes (rlp + (data.map size).getD 0)
      return data.toList ++ headers
    else return []

/-- The block that a request by hash begins at, and the headers to send. -/
def startOfHash (blockHash : H256) (numHeadersToSend step : ℕ) (reverse : Bool) :
    Chain (H256 × ℕ) := do
  if ← isKnown blockHash true then
    if reverse then return (blockHash, numHeadersToSend)
    else
      let bc ← Throwing.get
      let n ← number blockHash
      if numHeadersToSend = 0 then return (H256.zero, numHeadersToSend)
      else if n ≠ 0 ∨ blockHash = bc.genesisHash then
        let lastBlock := bc.m_lastBlockNumber
        let top := (n + step * numHeadersToSend - 1) % 2 ^ 64
        let clipped := (lastBlock - n) / step + 1
        let (top, numHeadersToSend) :=
          if lastBlock < top then ((n + step * (clipped - 1)) % 2 ^ 32, clipped)
          else (top, numHeadersToSend)
        if lastBlock < top then Throwing.throw .exit
        else
          let blockHash ← numberHash (top % 2 ^ 32)
          return (blockHash, numHeadersToSend)
      else return (H256.zero, numHeadersToSend)
  else return (H256.zero, numHeadersToSend)

/-- The block that a request by number begins at, and the headers to send. -/
def startOfNumber (n numHeadersToSend step : ℕ) (reverse : Bool) : Chain (H256 × ℕ) := do
  if reverse then
    if n ≤ 2 ^ 32 - 1 then
      let blockHash ← numberHash n
      return (blockHash, numHeadersToSend)
    else return (H256.zero, numHeadersToSend)
  else
    let bc ← Throwing.get
    let lastBlock := bc.m_lastBlockNumber
    if lastBlock < n ∨ numHeadersToSend = 0 then return (H256.zero, numHeadersToSend)
    else
      let top := n + step * (numHeadersToSend - 1) % 2 ^ 64
      let clipped := (lastBlock - n) / step + 1
      let (top, numHeadersToSend) :=
        if lastBlock < top then (n + step * (clipped - 1) % 2 ^ 32, clipped)
        else (top, numHeadersToSend)
      if lastBlock < top then Throwing.throw .exit
      else
        let blockHash ← numberHash (top % 2 ^ 32)
        return (blockHash, numHeadersToSend)

def startBlock (blockId : BlockId) (numHeadersToSend step : ℕ) (reverse : Bool) :
    Chain (H256 × ℕ) :=
  match blockId with
  | .hash h => startOfHash h numHeadersToSend step reverse
  | .number n => startOfNumber n numHeadersToSend step reverse

/-- The loops, from the block that a request begins at: the headers in the order they are sent, and
how many blocks were found. -/
def send (size : BlockHeader → ℕ) (step : ℕ) (reverse : Bool) (start : H256 × ℕ) :
    Chain (List BlockHeader × ℕ) := do
  let hashes ← collect step start.2 start.1
  let headers ← appendHeaders size (if reverse then hashes else hashes.reverse) 0
  return (headers, hashes.length)

/-- An assertion that fails ends the process. -/
def blockHeaders (size : BlockHeader → ℕ) (blockId : BlockId) (maxHeaders skip : ℕ)
    (reverse : Bool) : Chain (List BlockHeader × ℕ) := do
  let step := (skip % 2 ^ 32 + 1) % 2 ^ 32
  if step = 0 then Throwing.throw .exit
  else
    let start ← startBlock blockId maxHeaders step reverse
    send size step reverse start

/-! ### The canonical chain -/

/-- The canonical block at a height. -/
def canon (bc : BlockChain) (n : ℕ) : H256 := bc.ancestorOf bc.m_lastBlockHash n

/-- The index lists the canonical blocks and nothing above them, and the genesis block has no
parent. -/
structure Exact (bc : BlockChain) : Prop where
  indexed : bc.Indexed
  unspoiled : bc.Unspoiled
  above : ∀ n, bc.m_lastBlockNumber < n → bc.m_extrasDB.blockHash n = none
  origin : ∀ d, bc.m_details bc.genesisHash = some d ∨
    bc.m_extrasDB.details bc.genesisHash = some d → d.parent = H256.zero

/-- The same chain, with other caches. -/
structure Like (bc s : BlockChain) : Prop where
  exact : s.Exact
  genesis : s.m_genesis = bc.m_genesis
  blocks : s.m_blocksDB = bc.m_blocksDB
  lastBlockHash : s.m_lastBlockHash = bc.m_lastBlockHash
  lastBlockNumber : s.m_lastBlockNumber = bc.m_lastBlockNumber

variable {bc s s' : BlockChain} {n k : ℕ}

theorem Exact.like (hx : bc.Exact) : bc.Like bc := ⟨hx, rfl, rfl, rfl, rfl⟩

theorem Exact.canon (hx : bc.Exact) (hn : n ≤ bc.m_lastBlockNumber) :
    bc.Stored (bc.canon n) ∧ bc.heightOf (bc.canon n) = n := by
  have hrooted := hx.indexed.linked.rooted
  refine ⟨hrooted.mem_ancestor hx.indexed.head n, hrooted.height_ancestor hx.indexed.head ?_⟩
  rwa [← hx.indexed.number]

theorem Exact.canon_zero (hx : bc.Exact) : bc.canon 0 = bc.genesisHash :=
  hx.indexed.linked.rooted.eq_root (hx.canon (Nat.zero_le _)).1 (hx.canon (Nat.zero_le _)).2

theorem Exact.canon_ne_genesis (hx : bc.Exact) (hn : n + 1 ≤ bc.m_lastBlockNumber) :
    bc.canon (n + 1) ≠ bc.genesisHash := by
  refine hx.indexed.linked.ne_genesis ?_
  rw [(hx.canon hn).2]
  exact Nat.succ_pos n

theorem Exact.parentOf_canon (hx : bc.Exact) (hn : n + 1 ≤ bc.m_lastBlockNumber) :
    bc.parentOf (bc.canon (n + 1)) = bc.canon n := by
  refine parent_ancestor ?_
  rw [← hx.indexed.number]
  exact hn

theorem Exact.of_settled (hx : bc.Exact) (h : bc.settled = s.settled) : s.Exact := by
  obtain ⟨hg, -, -, he, -, -, -, hnum⟩ := settled_eq h
  refine ⟨hx.indexed.of_settled h, hx.unspoiled.of_settled h, ?_, fun d hd => ?_⟩
  · rw [he, hnum]
    exact hx.above
  · have hview : view s.m_details s.m_extrasDB.details = view bc.m_details bc.m_extrasDB.details :=
      (congrArg m_details h).symm
    have hgenesis : s.genesisHash = bc.genesisHash := by rw [genesisHash, hg, genesisHash]
    rw [hgenesis] at hd
    rcases hd with hd | hd
    · refine hx.origin d (view_cases ?_)
      rw [← hview, view, hd, Option.some_or]
    · rw [he] at hd
      exact hx.origin d (.inr hd)

theorem Like.of_settled (hs : bc.Like s) (h : s.settled = s'.settled) : bc.Like s' := by
  obtain ⟨hg, -, hb, -, -, -, hlast, hnum⟩ := settled_eq h
  exact ⟨hs.exact.of_settled h, hg.trans hs.genesis, hb.trans hs.blocks,
    hlast.trans hs.lastBlockHash, hnum.trans hs.lastBlockNumber⟩

theorem Like.canon (hs : bc.Like s) : s.canon = bc.canon := by
  funext n
  rw [BlockChain.canon, BlockChain.canon, ancestorOf_congr hs.genesis hs.blocks, hs.lastBlockHash]

theorem Like.genesisHash (hs : bc.Like s) : s.genesisHash = bc.genesisHash := by
  rw [BlockChain.genesisHash, hs.genesis, BlockChain.genesisHash]

/-! ### What is looked up -/

/-- A query that changes nothing but caches. -/
theorem returns_of_asks {α : Type} {x : Chain α} {P : α → Prop}
    (h : ∀ s, bc.Like s → ∃ a, s.Asks x (.ok a) ∧ P a) : Returns bc.Like P x := by
  intro s hs
  obtain ⟨a, hasks, ha⟩ := h s hs
  obtain ⟨s', hrun, hs'⟩ := hasks.run rfl
  exact ⟨a, s', hrun, hs.of_settled hs'.symm, ha⟩

theorem returns_details (hn : n ≤ bc.m_lastBlockNumber) :
    Returns bc.Like (fun d => d.number = n ∧
      d.parent = if n = 0 then H256.zero else bc.canon (n - 1)) (details (bc.canon n)) := by
  refine returns_of_asks fun s hs => ⟨_, s.asks_details _, ?_⟩
  rw [← hs.lastBlockNumber] at hn
  rw [← hs.canon]
  obtain ⟨hstored, hheight⟩ := hs.exact.canon hn
  obtain ⟨-, hnumber, hparent⟩ := hs.exact.indexed.linked.detailsOf hstored
  refine ⟨hnumber.trans hheight, ?_⟩
  cases n with
  | zero =>
    rw [if_pos rfl, hs.exact.canon_zero, detailsOf]
    obtain ⟨d, hd⟩ := Option.isSome_iff_exists.mp
      (hs.exact.indexed.linked.detailed _ (stored_genesis s))
    cases hv : view s.m_details s.m_extrasDB.details s.genesisHash with
    | none =>
      rw [view, hd] at hv
      exact absurd (Option.or_eq_none_iff.mp hv).2 (Option.some_ne_none d)
    | some d' => exact hs.exact.origin d' (view_cases hv)
  | succ n =>
    rw [if_neg n.succ_ne_zero, hparent (hs.exact.canon_ne_genesis hn),
      hs.exact.parentOf_canon hn]
    rfl

/-- No block has the hash zero. -/
theorem returns_details_zero :
    Returns bc.Like (fun d => d = NullBlockDetails) (details H256.zero) := by
  refine returns_of_asks fun s hs => ⟨_, s.asks_details _, ?_⟩
  rw [detailsOf]
  cases hv : view s.m_details s.m_extrasDB.details H256.zero with
  | none => rfl
  | some d =>
    have hdescribes := hs.exact.indexed.linked.describes _ d (view_cases hv)
    exact absurd rfl (hs.exact.indexed.linked.ne_zero hdescribes.1)

theorem returns_number (hn : n ≤ bc.m_lastBlockNumber) :
    Returns bc.Like (fun k => k = n) (number (bc.canon n)) :=
  (returns_details hn).bind fun _ hd => .pure hd.1

theorem returns_isKnown (hn : n ≤ bc.m_lastBlockNumber) :
    Returns bc.Like (fun r => r = true) (isKnown (bc.canon n) true) := by
  refine returns_of_asks fun s hs => ?_
  rw [← hs.lastBlockNumber] at hn
  rw [← hs.canon]
  obtain ⟨hstored, hheight⟩ := hs.exact.canon hn
  obtain ⟨r, hasks, hr⟩ := asks_isKnown hs.exact.indexed.linked (s.canon n) true
  exact ⟨r, hasks, hr.mpr ⟨hstored, fun _ => by rwa [hheight]⟩⟩

theorem returns_isKnown_unknown {h : H256}
    (hh : ¬(bc.Stored h ∧ bc.heightOf h ≤ bc.m_lastBlockNumber)) :
    Returns bc.Like (fun r => r = false) (isKnown h true) := by
  refine returns_of_asks fun s hs => ?_
  obtain ⟨r, hasks, hr⟩ := asks_isKnown hs.exact.indexed.linked h true
  refine ⟨r, hasks, Bool.eq_false_iff.mpr fun htrue => hh ?_⟩
  have hknown := hr.mp htrue
  rw [stored_congr hs.genesis hs.blocks, heightOf_congr hs.genesis hs.blocks,
    hs.lastBlockNumber] at hknown
  exact ⟨hknown.1, hknown.2 rfl⟩

theorem returns_headerData (h : H256) :
    Returns bc.Like (fun data => data = bc.header h) (headerData h) :=
  returns_of_asks fun s hs => ⟨_, asks_headerData hs.exact.indexed.linked h, by
    rw [header_congr hs.genesis hs.blocks]⟩

/-- The index has the canonical block, and nothing above the chain. -/
theorem run_numberHash_exact (hx : s.Exact) (n : ℕ) : ((numberHash n).run s).1 =
    .ok (if n ≤ s.m_lastBlockNumber then s.canon n else H256.zero) := by
  by_cases hn : n ≤ s.m_lastBlockNumber
  · rw [if_pos hn]
    by_cases hzero : n = 0
    · rw [hzero, hx.canon_zero]
      rfl
    · exact run_numberHash hx.indexed hx.unspoiled (Nat.pos_of_ne_zero hzero) hn
  · rw [if_neg hn]
    have hempty : s.m_blockHashes n = none := by
      cases hc : s.m_blockHashes n with
      | none => rfl
      | some h => exact absurd (hx.unspoiled n h hc).1 hn
    show (if n = 0 then (Except.ok s.genesisHash, s)
      else (Except.ok ((query s.m_blockHashes s.m_extrasDB.blockHash n).1.getD H256.zero), _)).1 = _
    rw [if_neg (by omega), query_fst, view, hempty, hx.above n (Nat.lt_of_not_le hn)]
    rfl

theorem run_numberHash_snd (s : BlockChain) (n : ℕ) :
    ∃ cache, ((numberHash n).run s).2 = {s with m_blockHashes := cache} := by
  by_cases hzero : n = 0
  · refine ⟨s.m_blockHashes, ?_⟩
    show (if n = 0 then (Except.ok s.genesisHash, s) else _).2 = _
    rw [if_pos hzero]
  · refine ⟨(query s.m_blockHashes s.m_extrasDB.blockHash n).2, ?_⟩
    show (if n = 0 then (Except.ok s.genesisHash, s) else _).2 = _
    rw [if_neg hzero]

theorem returns_numberHash (n : ℕ) : Returns bc.Like
    (fun h => h = if n ≤ bc.m_lastBlockNumber then bc.canon n else H256.zero) (numberHash n) := by
  intro s hs
  have hrun := run_numberHash_exact hs.exact n
  obtain ⟨hindexed, hunspoiled⟩ := indexed_numberHash hs.exact.indexed n
  have hcareful : s.Careful (.numberHash n) :=
    (Nat.lt_or_ge s.m_lastBlockNumber n).symm.imp_right (hs.exact.above n)
  have hunspoiled := hunspoiled hcareful hs.exact.unspoiled
  obtain ⟨cache, hsnd⟩ := run_numberHash_snd s n
  have hstep : s.step (.numberHash n) = {s with m_blockHashes := cache} := hsnd
  rw [hstep] at hindexed hunspoiled
  refine ⟨_, {s with m_blockHashes := cache}, Prod.ext hrun hsnd, ?_, ?_⟩
  · exact ⟨⟨hindexed, hunspoiled, hs.exact.above, hs.exact.origin⟩, hs.genesis, hs.blocks,
      hs.lastBlockHash, hs.lastBlockNumber⟩
  · rw [hs.lastBlockNumber, hs.canon]

/-! ### Down the chain -/

/-- The block so many steps below a canonical one, if there is one. -/
def below (bc : BlockChain) (n step : ℕ) : H256 :=
  if step ≤ n then bc.canon (n - step) else H256.zero

theorem returns_traverseParents_zero {limitBlock : ℕ} (hlimit : limitBlock ≤ c_invalidNumber)
    (step : ℕ) : Returns bc.Like (fun r => r = (H256.zero, 0))
      (traverseParents limitBlock step H256.zero) := by
  induction step with
  | zero => exact .pure rfl
  | succ step ih =>
    refine returns_details_zero.bind fun d hd => ?_
    rw [hd, if_neg (show ¬NullBlockDetails.number < limitBlock from Nat.not_lt.mpr hlimit)]
    exact ih

/-- The traversal ends where it should, or stops at a canonical block on the way. -/
theorem returns_traverseParents {limitBlock : ℕ} (hlimit : limitBlock ≤ c_invalidNumber)
    (step : ℕ) (hn : n ≤ bc.m_lastBlockNumber) : Returns bc.Like
      (fun r => r = (bc.below n step, 0) ∨
        ∃ k left, r = (bc.canon k, left) ∧ k ≤ bc.m_lastBlockNumber ∧ 0 < left ∧
          k + step = n + left)
      (traverseParents limitBlock step (bc.canon n)) := by
  induction step generalizing n with
  | zero => exact .pure (.inl (by rw [below, if_pos (Nat.zero_le n), Nat.sub_zero]))
  | succ step ih =>
    refine (returns_details hn).bind fun d ⟨hnumber, hparent⟩ => ?_
    split
    · exact .pure (.inr ⟨n, step + 1, rfl, hn, Nat.succ_pos step, rfl⟩)
    · rw [hparent]
      cases n with
      | zero =>
        rw [if_pos rfl]
        refine (returns_traverseParents_zero hlimit step).mono fun r hr => .inl ?_
        rw [hr, below, if_neg (Nat.not_succ_le_zero step)]
      | succ n =>
        rw [if_neg n.succ_ne_zero, Nat.add_sub_cancel]
        refine (ih (by omega)).mono fun r hr => ?_
        rcases hr with rfl | ⟨k, left, rfl, hk, hleft, hsum⟩
        · refine .inl ?_
          rw [below, below, Nat.add_sub_add_right]
          simp only [Nat.add_le_add_iff_right]
        · exact .inr ⟨k, left, rfl, hk, hleft, by omega⟩

theorem Exact.lastBlockNumber_lt (hx : bc.Exact) : bc.m_lastBlockNumber < c_invalidNumber := by
  rw [hx.indexed.number]
  exact hx.indexed.linked.height_lt hx.indexed.head

theorem returns_nextHash (hx : bc.Exact) (step : ℕ) (hn : n ≤ bc.m_lastBlockNumber) :
    Returns bc.Like (fun h => h = bc.below n step) (nextHash (bc.canon n) step) := by
  have hlast := hx.lastBlockNumber_lt
  refine .get_bind fun s hs => ?_
  dsimp only
  rw [hs.lastBlockNumber]
  refine (returns_traverseParents ?_ step hn).bind fun r hr => ?_
  · split <;> omega
  rcases hr with rfl | ⟨k, left, rfl, hk, hleft, hsum⟩
  · exact .pure rfl
  · dsimp only
    rw [if_neg hleft.ne']
    refine (returns_number hk).bind fun k' hk' => ?_
    rw [hk']
    split
    case isTrue hle =>
      refine (returns_numberHash _).mono fun h hh => ?_
      rw [hh, if_pos (by omega), below, if_pos (by omega)]
      congr 1
      omega
    case isFalse hle => exact .pure (by rw [below, if_neg (by omega)])

/-- The heights from `n` down. -/
def descent (n step count : ℕ) : List ℕ :=
  ((List.range count).filter fun i => step * i ≤ n).map fun i => n - step * i

theorem descent_succ (n step count : ℕ) : descent n step (count + 1) =
    n :: if step ≤ n then descent (n - step) step count else [] := by
  rw [descent, List.range_succ_eq_map, List.filter_cons_of_pos (by simp), List.map_cons,
    List.filter_map, List.map_map]
  congr 1
  split
  case isTrue hle =>
    have hfilter : ((fun i => decide (step * i ≤ n)) ∘ Nat.succ) =
        fun i => decide (step * i ≤ n - step) := by
      funext i
      simp only [Function.comp_apply, Nat.mul_succ]
      congr 1
      exact propext (by omega)
    rw [hfilter, descent]
    refine List.map_congr_left fun i _ => ?_
    simp only [Function.comp_apply, Nat.mul_succ]
    omega
  case isFalse hlt =>
    rw [List.map_eq_nil_iff, List.filter_eq_nil_iff]
    intro i _
    simp only [Function.comp_apply, Nat.mul_succ, decide_eq_true_eq]
    omega

theorem returns_collect_zero (step count : ℕ) :
    Returns bc.Like (fun hashes => hashes = []) (collect step count H256.zero) := by
  cases count with
  | zero => exact .pure rfl
  | succ count =>
    unfold collect
    rw [if_pos rfl]
    exact .pure rfl

theorem returns_collect (hx : bc.Exact) (step count : ℕ) (hn : n ≤ bc.m_lastBlockNumber) :
    Returns bc.Like (fun hashes => hashes = (descent n step count).map bc.canon)
      (collect step count (bc.canon n)) := by
  induction count generalizing n with
  | zero => exact .pure rfl
  | succ count ih =>
    unfold collect
    rw [if_neg (hx.indexed.linked.ne_zero (hx.canon hn).1), descent_succ]
    refine (returns_isKnown hn).bind fun r hr => ?_
    rw [if_pos hr]
    refine (returns_nextHash hx step hn).bind fun next hnext => ?_
    have hrest : Returns bc.Like (fun hashes => hashes =
        (if step ≤ n then descent (n - step) step count else []).map bc.canon)
        (collect step count next) := by
      rw [hnext, below]
      split
      · exact ih (by omega)
      · exact returns_collect_zero step count
    refine hrest.bind fun hashes hhashes => .pure ?_
    rw [hhashes, List.map_cons]

/-- The headers of the canonical blocks at the heights. -/
def headersAt (bc : BlockChain) (heights : List ℕ) : List BlockHeader :=
  heights.filterMap fun n => bc.header (bc.canon n)

/-- The headers up to the one that reaches the limit. -/
def cut (size : BlockHeader → ℕ) : List BlockHeader → (rlp : ℕ) → List BlockHeader
  | [], _ => []
  | h :: l, rlp => if rlp < c_maxPayload then h :: cut size l (rlp + size h) else []

/-- They are the first ones, and all of them where the limit is not reached. -/
theorem cut_prefix (size : BlockHeader → ℕ) (l : List BlockHeader) (rlp : ℕ) :
    cut size l rlp <+: l ∧ (cut size l rlp = l ∨
      c_maxPayload ≤ rlp + ((cut size l rlp).map size).sum) := by
  induction l generalizing rlp with
  | nil => exact ⟨List.nil_prefix, .inl rfl⟩
  | cons h l ih =>
    unfold cut
    split
    case isTrue hlt =>
      obtain ⟨hfirst, hall⟩ := ih (rlp + size h)
      refine ⟨List.cons_prefix_cons.mpr ⟨rfl, hfirst⟩,
        hall.imp (congrArg (List.cons h)) fun hle => ?_⟩
      rw [List.map_cons, List.sum_cons]
      omega
    case isFalse hle => exact ⟨List.nil_prefix, .inr (by simpa using hle)⟩

theorem returns_appendHeaders (hx : bc.Exact) (size : BlockHeader → ℕ) {heights : List ℕ}
    (h : ∀ n ∈ heights, n ≤ bc.m_lastBlockNumber) (rlp : ℕ) :
    Returns bc.Like (fun headers => headers = cut size (bc.headersAt heights) rlp)
      (appendHeaders size (heights.map bc.canon) rlp) := by
  induction heights generalizing rlp with
  | nil => exact .pure rfl
  | cons n heights ih =>
    obtain ⟨header, hheader⟩ := Option.isSome_iff_exists.mp (hx.canon (h n List.mem_cons_self)).1
    unfold appendHeaders headersAt
    rw [List.map_cons, List.filterMap_cons, hheader]
    unfold cut
    dsimp only
    split
    · refine (returns_headerData _).bind fun data hdata => ?_
      rw [hdata, hheader]
      refine (ih (fun n hn => h n (List.mem_cons_of_mem _ hn)) _).bind fun headers hheaders => ?_
      exact .pure (by rw [hheaders]; rfl)
    · exact .pure rfl

/-! ### What is asked for -/

/-- The heights of the headers that are asked for, from a block of the chain on. -/
def wanted (lastBlock n step maxHeaders : ℕ) (reverse : Bool) : List ℕ :=
  if reverse then descent n step maxHeaders
  else ((List.range maxHeaders).map fun i => n + step * i).filter fun k => k ≤ lastBlock

/-- The height of a block id that is in the chain. -/
def heightAsked (bc : BlockChain) : BlockId → Option ℕ
  | .hash h => if bc.canon (bc.heightOf h) = h then some (bc.heightOf h) else none
  | .number n => if n ≤ bc.m_lastBlockNumber then some n else none

/-- The id is a canonical block, an unknown hash or a number. -/
def Asked (bc : BlockChain) : BlockId → Prop
  | .hash h => bc.canon (bc.heightOf h) = h ∨
    ¬(bc.Stored h ∧ bc.heightOf h ≤ bc.m_lastBlockNumber)
  | .number _ => True

def answer (size : BlockHeader → ℕ) (bc : BlockChain) (blockId : BlockId) (maxHeaders skip : ℕ)
    (reverse : Bool) : List BlockHeader :=
  match bc.heightAsked blockId with
  | none => []
  | some n =>
    cut size (bc.headersAt (wanted bc.m_lastBlockNumber n (skip + 1) maxHeaders reverse)) 0

/-- The headers that are asked for are sent. -/
def Answered (size : BlockHeader → ℕ) (bc : BlockChain) (blockId : BlockId)
    (maxHeaders skip : ℕ) (reverse : Bool) : Prop :=
  ∃ count s, (blockHeaders size blockId maxHeaders skip reverse).run bc =
    (.ok (bc.answer size blockId maxHeaders skip reverse, count), s)

/-- Headers with gaps are asked for from a hash on, and the chain goes on to the block before the
one that would come after the last of them. -/
def Overshoots (bc : BlockChain) (maxHeaders skip : ℕ) (reverse : Bool) : BlockId → Prop
  | .hash h => bc.canon (bc.heightOf h) = h ∧ reverse = false ∧ 0 < maxHeaders ∧ 0 < skip ∧
    bc.heightOf h + (skip + 1) * maxHeaders - 1 ≤ bc.m_lastBlockNumber
  | .number _ => False

theorem Exact.heightOf_le (hx : bc.Exact) {h : H256} (hh : bc.canon (bc.heightOf h) = h) :
    bc.Stored h ∧ bc.heightOf h ≤ bc.m_lastBlockNumber := by
  have hrooted := hx.indexed.linked.rooted
  refine ⟨hh ▸ hrooted.mem_ancestor hx.indexed.head _, ?_⟩
  by_contra hlt
  have htop : bc.canon (bc.heightOf h) = bc.m_lastBlockHash := by
    rw [BlockChain.canon, ancestorOf, ancestor, Nat.sub_eq_zero_of_le]
    · rfl
    · rw [← hx.indexed.number]
      omega
  rw [htop] at hh
  rw [← hh, ← hx.indexed.number] at hlt
  exact hlt le_rfl

theorem descent_le {n step count : ℕ} : ∀ k ∈ descent n step count, k ≤ n := by
  intro k hk
  obtain ⟨i, -, rfl⟩ := List.mem_map.mp hk
  omega

/-- From the top down and back are the heights from the bottom up. -/
theorem reverse_descent (n step count : ℕ) : (descent (n + step * (count - 1)) step count).reverse =
    (List.range count).map fun i => n + step * i := by
  have hle : ∀ i < count, step * i + step * (count - 1 - i) = step * (count - 1) := fun i hi => by
    rw [← Nat.mul_add, Nat.add_sub_of_le (by omega)]
  have hall : (List.range count).filter (fun i => step * i ≤ n + step * (count - 1)) =
      List.range count := by
    refine List.filter_eq_self.mpr fun i hi => decide_eq_true ?_
    have := hle i (List.mem_range.mp hi)
    omega
  rw [descent, hall]
  refine List.ext_getElem (by simp) fun i hi hi' => ?_
  simp only [List.length_map, List.length_range] at hi'
  simp only [List.getElem_reverse, List.getElem_map, List.getElem_range, List.length_map,
    List.length_range]
  have := hle i hi'
  omega

/-- The heights that are wanted are as many as there are before the end of the chain. -/
theorem wanted_forward {lastBlock n step maxHeaders count : ℕ} (hcount : count ≤ maxHeaders)
    (hiff : ∀ i < maxHeaders, n + step * i ≤ lastBlock ↔ i < count) :
    wanted lastBlock n step maxHeaders false = (List.range count).map fun i => n + step * i := by
  rw [wanted, if_neg Bool.false_ne_true, List.filter_map]
  congr 1
  obtain ⟨rest, rfl⟩ := Nat.exists_eq_add_of_le hcount
  rw [List.range_add, List.filter_append]
  have hfirst : (List.range count).filter ((fun k => decide (k ≤ lastBlock)) ∘
      fun i => n + step * i) = List.range count := by
    refine List.filter_eq_self.mpr fun i hi => ?_
    have hi := List.mem_range.mp hi
    exact decide_eq_true ((hiff i (by omega)).mpr hi)
  have hlast : ((List.range rest).map (count + ·)).filter ((fun k => decide (k ≤ lastBlock)) ∘
      fun i => n + step * i) = [] := by
    refine List.filter_eq_nil_iff.mpr fun i hi => ?_
    obtain ⟨j, hj, rfl⟩ := List.mem_map.mp hi
    have hj := List.mem_range.mp hj
    intro hle
    have hlt := (hiff (count + j) (by omega)).mp (of_decide_eq_true hle)
    omega
  rw [hfirst, hlast, List.append_nil]

/-- The number of headers when the chain ends before the last. -/
theorem clipped_iff {lastBlock n step i : ℕ} (hstep : 0 < step) (hn : n ≤ lastBlock) :
    n + step * i ≤ lastBlock ↔ i < (lastBlock - n) / step + 1 := by
  rw [Nat.lt_succ_iff, Nat.le_div_iff_mul_le hstep, Nat.mul_comm i step]
  omega

/-- The top block and the number of headers to send are right for the block at height `n`. -/
structure Begins (bc : BlockChain) (n step maxHeaders : ℕ) (r : H256 × ℕ) : Prop where
  pos : 0 < r.2
  le : r.2 ≤ maxHeaders
  top : r.1 = bc.canon (n + step * (r.2 - 1))
  top_le : n + step * (r.2 - 1) ≤ bc.m_lastBlockNumber
  count : ∀ i < maxHeaders, n + step * i ≤ bc.m_lastBlockNumber ↔ i < r.2

section Requests
variable {step maxHeaders : ℕ}

/-- The chain ends before the last header. -/
theorem begins_clipped (hstep : 0 < step) (hn : n ≤ bc.m_lastBlockNumber)
    (hlt : bc.m_lastBlockNumber < n + step * maxHeaders) :
    Begins bc n step maxHeaders (bc.canon (n + step * ((bc.m_lastBlockNumber - n) / step)),
      (bc.m_lastBlockNumber - n) / step + 1) where
  pos := Nat.succ_pos _
  le := by
    rw [Nat.succ_le_iff]
    exact Nat.div_lt_of_lt_mul (by omega)
  top := by rw [Nat.add_sub_cancel]
  top_le := by
    rw [Nat.add_sub_cancel]
    exact (clipped_iff hstep hn).mpr (Nat.lt_succ_self _)
  count i _ := clipped_iff hstep hn

/-- All headers are there. -/
theorem begins_all (hpos : 0 < maxHeaders)
    (hle : n + step * (maxHeaders - 1) ≤ bc.m_lastBlockNumber) :
    Begins bc n step maxHeaders (bc.canon (n + step * (maxHeaders - 1)), maxHeaders) where
  pos := hpos
  le := le_rfl
  top := rfl
  top_le := hle
  count i hi := by
    have := Nat.mul_le_mul_left step (show i ≤ maxHeaders - 1 by omega)
    exact iff_of_true (by omega) hi

theorem mul_lt_word (hmax : maxHeaders ≤ c_maxHeadersToSend) (hstep : step < 2 ^ 32) :
    step * maxHeaders < 2 ^ 43 := by
  have := Nat.mul_le_mul hstep.le hmax
  rw [c_maxHeadersToSend] at this
  omega

/-- What follows the computation of the top block. -/
theorem returns_top (hx : bc.Exact) {top count : ℕ} {P : H256 × ℕ → Prop}
    (htop : top ≤ bc.m_lastBlockNumber) (h : P (bc.canon top, count)) :
    Returns bc.Like P (if bc.m_lastBlockNumber < top then Throwing.throw .exit
      else do
        let blockHash ← numberHash (top % 2 ^ 32)
        return (blockHash, count)) := by
  have hlast := hx.lastBlockNumber_lt
  rw [c_invalidNumber] at hlast
  rw [if_neg (Nat.not_lt.mpr htop), Nat.mod_eq_of_lt (by omega)]
  refine (returns_numberHash top).bind fun blockHash hhash => .pure ?_
  rwa [hhash, if_pos htop]

theorem returns_startOfNumber (hx : bc.Exact) (hmax : maxHeaders ≤ c_maxHeadersToSend)
    (hpos : 0 < maxHeaders) (hstep : 0 < step) (hword : step < 2 ^ 32)
    (hn : n ≤ bc.m_lastBlockNumber) :
    Returns bc.Like (Begins bc n step maxHeaders) (startOfNumber n maxHeaders step false) := by
  have hlast := hx.lastBlockNumber_lt
  rw [c_invalidNumber] at hlast
  have hmul := mul_lt_word hmax hword
  have hmul' := Nat.mul_le_mul_left step (Nat.sub_le maxHeaders 1)
  unfold startOfNumber
  rw [if_neg Bool.false_ne_true]
  refine .get_bind fun s hs => ?_
  rw [hs.lastBlockNumber, if_neg (by omega),
    Nat.mod_eq_of_lt (show step * (maxHeaders - 1) < 2 ^ 64 by omega)]
  dsimp only
  by_cases hlt : bc.m_lastBlockNumber < n + step * (maxHeaders - 1)
  · have hbegins : Begins bc n step maxHeaders _ := begins_clipped hstep hn (by omega)
    have htop := hbegins.top_le
    dsimp only at htop
    rw [Nat.add_sub_cancel] at htop
    rw [if_pos hlt, Nat.add_sub_cancel, Nat.mod_eq_of_lt (by omega)]
    exact returns_top hx htop hbegins
  · rw [if_neg hlt]
    exact returns_top hx (Nat.not_lt.mp hlt) (begins_all hpos (Nat.not_lt.mp hlt))

theorem returns_startOfHash (hx : bc.Exact) (hmax : maxHeaders ≤ c_maxHeadersToSend)
    (hpos : 0 < maxHeaders) (hstep : 0 < step) (hword : step < 2 ^ 32)
    (hn : n ≤ bc.m_lastBlockNumber) {P : H256 × ℕ → Prop}
    (hclipped : bc.m_lastBlockNumber < n + step * maxHeaders - 1 →
      P (bc.canon (n + step * ((bc.m_lastBlockNumber - n) / step)),
        (bc.m_lastBlockNumber - n) / step + 1))
    (hall : n + step * maxHeaders - 1 ≤ bc.m_lastBlockNumber →
      P (bc.canon (n + step * maxHeaders - 1), maxHeaders)) :
    Returns bc.Like P (startOfHash (bc.canon n) maxHeaders step false) := by
  have hlast := hx.lastBlockNumber_lt
  rw [c_invalidNumber] at hlast
  have hmul := mul_lt_word hmax hword
  unfold startOfHash
  refine (returns_isKnown hn).bind fun r hr => ?_
  rw [if_pos hr, if_neg Bool.false_ne_true]
  refine .get_bind fun s hs => (returns_number hn).bind fun k hk => ?_
  have hreal : k ≠ 0 ∨ bc.canon n = s.genesisHash := by
    rw [hk, hs.genesisHash, ← hx.canon_zero]
    exact (Decidable.em (n = 0)).symm.imp_right (congrArg bc.canon)
  rw [if_neg hpos.ne', if_pos hreal, hk, hs.lastBlockNumber,
    Nat.mod_eq_of_lt (show n + step * maxHeaders - 1 < 2 ^ 64 by omega)]
  dsimp only
  by_cases hlt : bc.m_lastBlockNumber < n + step * maxHeaders - 1
  · have htop := (clipped_iff hstep hn).mpr (Nat.lt_succ_self ((bc.m_lastBlockNumber - n) / step))
    rw [if_pos hlt, Nat.add_sub_cancel, Nat.mod_eq_of_lt (by omega)]
    exact returns_top hx htop (hclipped hlt)
  · rw [if_neg hlt]
    exact returns_top hx (Nat.not_lt.mp hlt) (hall (Nat.not_lt.mp hlt))

/-! ### The answer -/

/-- The headers from a top block down, sent in rising order. -/
theorem returns_forward (hx : bc.Exact) (size : BlockHeader → ℕ) {bottom count : ℕ}
    (htop : bottom + step * (count - 1) ≤ bc.m_lastBlockNumber) :
    Returns bc.Like (fun r => r.1 =
      cut size (bc.headersAt ((List.range count).map fun i => bottom + step * i)) 0)
      (send size step false (bc.canon (bottom + step * (count - 1)), count)) := by
  refine (returns_collect hx step count htop).bind fun hashes hhashes => ?_
  rw [hhashes, if_neg Bool.false_ne_true, ← List.map_reverse, reverse_descent]
  refine (returns_appendHeaders hx size (fun k hk => ?_) 0).bind fun _ hheaders => .pure hheaders
  obtain ⟨i, hi, rfl⟩ := List.mem_map.mp hk
  have := Nat.mul_le_mul_left step (show i ≤ count - 1 by have := List.mem_range.mp hi; omega)
  omega

theorem returns_reverse (hx : bc.Exact) (size : BlockHeader → ℕ) (count : ℕ)
    (hn : n ≤ bc.m_lastBlockNumber) : Returns bc.Like
      (fun r => r.1 = cut size (bc.headersAt (descent n step count)) 0)
      (send size step true (bc.canon n, count)) := by
  refine (returns_collect hx step count hn).bind fun hashes hhashes => ?_
  rw [hhashes, if_pos rfl]
  refine (returns_appendHeaders hx size (fun k hk => ?_) 0).bind fun _ hheaders => .pure hheaders
  exact (descent_le k hk).trans hn

theorem returns_nothing (size : BlockHeader → ℕ) (reverse : Bool) (count : ℕ) :
    Returns bc.Like (fun r => r.1 = []) (send size step reverse (H256.zero, count)) := by
  refine (returns_collect_zero step count).bind fun hashes hhashes => ?_
  rw [hhashes, List.reverse_nil, ite_self]
  exact .pure rfl

theorem returns_begins (hx : bc.Exact) (size : BlockHeader → ℕ) {r : H256 × ℕ}
    (h : Begins bc n step maxHeaders r) : Returns bc.Like (fun r => r.1 =
      cut size (bc.headersAt (wanted bc.m_lastBlockNumber n step maxHeaders false)) 0)
      (send size step false r) := by
  obtain ⟨top, count⟩ := r
  have htop := h.top
  dsimp only at htop
  rw [htop, wanted_forward h.le h.count]
  exact returns_forward hx size h.top_le

theorem blockHeaders_eq {skip : ℕ} (hskip : skip < 2 ^ 32 - 1) (size : BlockHeader → ℕ)
    (blockId : BlockId) (reverse : Bool) : blockHeaders size blockId maxHeaders skip reverse =
      startBlock blockId maxHeaders (skip + 1) reverse >>= send size (skip + 1) reverse := by
  have hstep : (skip % 2 ^ 32 + 1) % 2 ^ 32 = skip + 1 := by omega
  unfold blockHeaders
  rw [hstep, if_neg skip.succ_ne_zero]

theorem answer_none {size : BlockHeader → ℕ} {blockId : BlockId} {skip : ℕ} {reverse : Bool}
    (h : bc.heightAsked blockId = none) : bc.answer size blockId maxHeaders skip reverse = [] := by
  rw [answer, h]

theorem answer_some {size : BlockHeader → ℕ} {blockId : BlockId} {skip : ℕ} {reverse : Bool}
    (h : bc.heightAsked blockId = some n) : bc.answer size blockId maxHeaders skip reverse =
      cut size (bc.headersAt (wanted bc.m_lastBlockNumber n (skip + 1) maxHeaders reverse)) 0 := by
  rw [answer, h]

theorem wanted_zero (lastBlock n step : ℕ) (reverse : Bool) :
    wanted lastBlock n step 0 reverse = [] := by
  cases reverse <;> rfl

/-- A start that gives no block is answered with no headers. -/
theorem returns_of_zero {size : BlockHeader → ℕ} {reverse : Bool} {start : Chain (H256 × ℕ)}
    (h : Returns bc.Like (fun r => r.1 = H256.zero) start) :
    Returns bc.Like (fun r => r.1 = []) (start >>= send size step reverse) := by
  refine h.bind fun r hr => ?_
  obtain ⟨hash, count⟩ := r
  dsimp only at hr
  rw [hr]
  exact returns_nothing size reverse count

/-- A block is asked for by its number. -/
theorem returns_number_request (hx : bc.Exact) (size : BlockHeader → ℕ) (n : ℕ) {skip : ℕ}
    (hmax : maxHeaders ≤ c_maxHeadersToSend) (hskip : skip < 2 ^ 32 - 1) (reverse : Bool) :
    Returns bc.Like (fun r => r.1 = bc.answer size (.number n) maxHeaders skip reverse)
      (blockHeaders size (.number n) maxHeaders skip reverse) := by
  have hlast := hx.lastBlockNumber_lt
  rw [c_invalidNumber] at hlast
  rw [blockHeaders_eq hskip]
  by_cases hn : n ≤ bc.m_lastBlockNumber
  · rw [answer_some (show bc.heightAsked (.number n) = some n from if_pos hn)]
    cases reverse with
    | true =>
      have hstart : Returns bc.Like (fun r => r = (bc.canon n, maxHeaders))
          (startBlock (.number n) maxHeaders (skip + 1) true) := by
        unfold startBlock
        dsimp only
        unfold startOfNumber
        rw [if_pos rfl, if_pos (by omega)]
        exact (returns_numberHash n).bind fun h hh => .pure (by rw [hh, if_pos hn])
      refine hstart.bind fun r hr => ?_
      rw [hr]
      exact returns_reverse hx size maxHeaders hn
    | false =>
      rcases Nat.eq_zero_or_pos maxHeaders with rfl | hpos
      · rw [wanted_zero]
        refine returns_of_zero ?_
        unfold startBlock
        dsimp only
        unfold startOfNumber
        rw [if_neg Bool.false_ne_true]
        refine .get_bind fun s _ => ?_
        rw [if_pos (.inr rfl)]
        exact .pure rfl
      · exact (returns_startOfNumber hx hmax hpos skip.succ_pos (by omega) hn).bind fun r hr =>
          returns_begins hx size hr
  · rw [answer_none (show bc.heightAsked (.number n) = none from if_neg hn)]
    refine returns_of_zero ?_
    unfold startBlock
    dsimp only
    unfold startOfNumber
    cases reverse with
    | true =>
      rw [if_pos rfl]
      split
      · exact (returns_numberHash n).bind fun h hh => .pure (by rw [hh, if_neg hn])
      · exact .pure rfl
    | false =>
      rw [if_neg Bool.false_ne_true]
      refine .get_bind fun s hs => ?_
      rw [if_pos (.inl (by rw [hs.lastBlockNumber]; omega))]
      exact .pure rfl

/-- A block is asked for by a hash that is not known. -/
theorem returns_unknown_request (size : BlockHeader → ℕ) {h : H256} {skip : ℕ}
    (hh : ¬(bc.Stored h ∧ bc.heightOf h ≤ bc.m_lastBlockNumber)) (hskip : skip < 2 ^ 32 - 1)
    (reverse : Bool) :
    Returns bc.Like (fun r => r.1 = []) (blockHeaders size (.hash h) maxHeaders skip reverse) := by
  rw [blockHeaders_eq hskip]
  refine returns_of_zero ?_
  unfold startBlock
  dsimp only
  unfold startOfHash
  refine (returns_isKnown_unknown hh).bind fun r hr => ?_
  rw [if_neg (Bool.eq_false_iff.mp hr)]
  exact .pure rfl

/-- A canonical block is asked for by its hash: right, unless the top block is too high. -/
theorem returns_hash_request (hx : bc.Exact) (size : BlockHeader → ℕ) {skip : ℕ}
    (hmax : maxHeaders ≤ c_maxHeadersToSend) (hskip : skip < 2 ^ 32 - 1) (reverse : Bool)
    (hn : n ≤ bc.m_lastBlockNumber)
    (h : ¬bc.Overshoots maxHeaders skip reverse (.hash (bc.canon n))) :
    Returns bc.Like (fun r => r.1 = bc.answer size (.hash (bc.canon n)) maxHeaders skip reverse)
      (blockHeaders size (.hash (bc.canon n)) maxHeaders skip reverse) := by
  have hheight := (hx.canon hn).2
  have hasked : bc.heightAsked (.hash (bc.canon n)) = some n := by
    rw [heightAsked, hheight, if_pos rfl]
  rw [blockHeaders_eq hskip, answer_some hasked]
  cases reverse with
  | true =>
    have hstart : Returns bc.Like (fun r => r = (bc.canon n, maxHeaders))
        (startBlock (.hash (bc.canon n)) maxHeaders (skip + 1) true) := by
      unfold startBlock
      dsimp only
      unfold startOfHash
      refine (returns_isKnown hn).bind fun r hr => ?_
      rw [if_pos hr, if_pos rfl]
      exact .pure rfl
    refine hstart.bind fun r hr => ?_
    rw [hr]
    exact returns_reverse hx size maxHeaders hn
  | false =>
    rcases Nat.eq_zero_or_pos maxHeaders with rfl | hpos
    · rw [wanted_zero]
      refine returns_of_zero ?_
      unfold startBlock
      dsimp only
      unfold startOfHash
      refine (returns_isKnown hn).bind fun r hr => ?_
      rw [if_pos hr, if_neg Bool.false_ne_true]
      refine .get_bind fun s _ => (returns_number hn).bind fun k _ => ?_
      rw [if_pos rfl]
      exact .pure rfl
    · have hbegins : Returns bc.Like (Begins bc n (skip + 1) maxHeaders)
          (startBlock (.hash (bc.canon n)) maxHeaders (skip + 1) false) := by
        refine returns_startOfHash hx hmax hpos (show 0 < skip + 1 from skip.succ_pos)
          (by omega) hn (fun hlt => ?_) fun hle => ?_
        · exact begins_clipped skip.succ_pos hn (by omega)
        · -- where the top is in the chain there are no gaps
          rcases Nat.eq_zero_or_pos skip with rfl | hskip'
          · have hall : Begins bc n (0 + 1) maxHeaders _ := begins_all hpos (by omega)
            have htop : n + (0 + 1) * (maxHeaders - 1) = n + (0 + 1) * maxHeaders - 1 := by omega
            rwa [htop] at hall
          · refine absurd ⟨?_, rfl, hpos, hskip', ?_⟩ h
            · rw [hheight]
            · rwa [hheight]
      exact hbegins.bind fun r hr => returns_begins hx size hr

theorem head_cut (size : BlockHeader → ℕ) (l : List BlockHeader) :
    (cut size l 0).head? = l.head? := by
  cases l with
  | nil => rfl
  | cons h l =>
    unfold cut
    rw [if_pos (by decide)]
    rfl

theorem head_headersAt (hx : bc.Exact) {f : ℕ → ℕ} {count : ℕ} (hpos : 0 < count)
    (hf : f 0 ≤ bc.m_lastBlockNumber) :
    (bc.headersAt ((List.range count).map f)).head? = bc.header (bc.canon (f 0)) := by
  obtain ⟨header, hheader⟩ := Option.isSome_iff_exists.mp (hx.canon hf).1
  obtain ⟨count, rfl⟩ := Nat.exists_eq_succ_of_ne_zero hpos.ne'
  rw [headersAt, List.range_succ_eq_map, List.map_cons, List.filterMap_cons, hheader]
  rfl

/-- With a top block too high the first header is that of another block. -/
theorem returns_overshoot (hx : bc.Exact) (size : BlockHeader → ℕ) {skip : ℕ}
    (hmax : maxHeaders ≤ c_maxHeadersToSend) (hskip : skip < 2 ^ 32 - 1)
    (hn : n ≤ bc.m_lastBlockNumber)
    (h : bc.Overshoots maxHeaders skip false (.hash (bc.canon n))) :
    Returns bc.Like (fun r => r.1 ≠ bc.answer size (.hash (bc.canon n)) maxHeaders skip false)
      (blockHeaders size (.hash (bc.canon n)) maxHeaders skip false) := by
  obtain ⟨-, -, hpos, hgap, hle⟩ := h
  have hheight := (hx.canon hn).2
  rw [hheight] at hle
  have hmul : (skip + 1) * maxHeaders = (skip + 1) * (maxHeaders - 1) + (skip + 1) := by
    rw [← Nat.mul_succ, Nat.succ_eq_add_one, Nat.sub_add_cancel hpos]
  have hasked : bc.heightAsked (.hash (bc.canon n)) = some n := by
    rw [heightAsked, hheight, if_pos rfl]
  have hbegins : Begins bc n (skip + 1) maxHeaders _ := begins_all hpos
    (show n + (skip + 1) * (maxHeaders - 1) ≤ bc.m_lastBlockNumber by omega)
  rw [blockHeaders_eq hskip, answer_some hasked, wanted_forward hbegins.le hbegins.count]
  have htop : n + (skip + 1) * maxHeaders - 1 = n + skip + (skip + 1) * (maxHeaders - 1) := by omega
  have hstart : Returns bc.Like
      (fun r => r = (bc.canon (n + skip + (skip + 1) * (maxHeaders - 1)), maxHeaders))
      (startBlock (.hash (bc.canon n)) maxHeaders (skip + 1) false) := by
    refine returns_startOfHash hx hmax hpos (show 0 < skip + 1 from skip.succ_pos) (by omega) hn
      (fun hlt => absurd hle (by omega)) fun _ => ?_
    rw [htop]
  refine hstart.bind fun r hr => ?_
  rw [hr]
  refine (returns_forward hx size (by omega)).mono fun r hr heq => ?_
  rw [hr] at heq
  have hhead := congrArg List.head? heq
  rw [head_cut, head_cut, head_headersAt hx hpos (by omega),
    head_headersAt hx hpos (by omega)] at hhead
  have hheights : bc.heightOf (bc.canon (n + skip + (skip + 1) * 0)) =
      bc.heightOf (bc.canon (n + (skip + 1) * 0)) := by
    rw [heightOf, heightOf, hhead]
  rw [(hx.canon (by omega)).2, (hx.canon (by omega)).2] at hheights
  omega

/-- **The headers that are asked for are sent unless the top block is computed too high.** -/
theorem answered_iff (size : BlockHeader → ℕ) {blockId : BlockId} {maxHeaders skip : ℕ}
    (hx : bc.Exact) (hid : bc.Asked blockId) (hmax : maxHeaders ≤ c_maxHeadersToSend)
    (hskip : skip < 2 ^ 32 - 1) (reverse : Bool) :
    bc.Answered size blockId maxHeaders skip reverse ↔
      ¬bc.Overshoots maxHeaders skip reverse blockId := by
  have hanswered : Returns bc.Like
      (fun r => r.1 = bc.answer size blockId maxHeaders skip reverse)
      (blockHeaders size blockId maxHeaders skip reverse) →
      bc.Answered size blockId maxHeaders skip reverse := fun h => by
    obtain ⟨⟨headers, count⟩, s, hrun, -, heq⟩ := h bc hx.like
    dsimp only at heq
    exact ⟨count, s, by rw [hrun, heq]⟩
  cases blockId with
  | number n =>
    exact iff_of_true (hanswered (returns_number_request hx size n hmax hskip reverse)) id
  | hash h =>
    rcases hid with hcanon | hunknown
    · have hn := (hx.heightOf_le hcanon).2
      by_cases hover : bc.Overshoots maxHeaders skip reverse (.hash h)
      · refine iff_of_false (fun ⟨count, s, hrun⟩ => ?_) (not_not.mpr hover)
        obtain rfl := hover.2.1
        rw [← hcanon] at hover hrun
        obtain ⟨r, s', hrun', -, hne⟩ := returns_overshoot hx size hmax hskip hn hover bc hx.like
        rw [hrun] at hrun'
        obtain rfl := Except.ok.inj (Prod.mk.inj hrun').1
        exact hne rfl
      · refine iff_of_true (hanswered ?_) hover
        rw [← hcanon] at hover ⊢
        exact returns_hash_request hx size hmax hskip reverse hn hover
    · refine iff_of_true (hanswered ?_) fun hover => hunknown (hx.heightOf_le hover.1)
      have hnone : bc.heightAsked (.hash h) = none :=
        if_neg fun hcanon => hunknown (hx.heightOf_le hcanon)
      rw [answer_none hnone]
      exact returns_unknown_request size hunknown hskip reverse

end Requests

/-! ### Chains with an exact index -/

theorem Exact.detailsOf_genesis (hx : bc.Exact) :
    (bc.detailsOf bc.genesisHash).parent = H256.zero := by
  obtain ⟨d, hd⟩ := Option.isSome_iff_exists.mp
    (hx.indexed.linked.detailed _ (stored_genesis bc))
  rw [detailsOf]
  cases hv : view bc.m_details bc.m_extrasDB.details bc.genesisHash with
  | none =>
    rw [view, hd] at hv
    exact absurd (Option.or_eq_none_iff.mp hv).2 (Option.some_ne_none d)
  | some d' => exact hx.origin d' (view_cases hv)

theorem exact_fresh {genesis : VerifiedBlock} (tieBreakingGas : Bool)
    (h0 : genesis.info.number = 0) (hne : genesis.info.hash ≠ H256.zero) :
    (fresh genesis tieBreakingGas).Exact where
  indexed := indexed_fresh tieBreakingGas h0 hne
  unspoiled _ _ h := nomatch h
  above _ _ := rfl
  origin d hd := by
    have hd' : Function.update (fun _ => none) genesis.info.hash
      (some (⟨0, genesis.info.difficulty, H256.zero, []⟩ : BlockDetails)) genesis.info.hash =
        some d := or_self_iff.mp hd
    rw [Function.update_self] at hd'
    obtain rfl := Option.some.inj hd'
    rfl

/-- A block that is not below the head leaves nothing of an abandoned branch above itself. -/
theorem exact_inserts (hx : bc.Exact) {b : VerifiedBlock} {r : ImportRoute}
    (hi : bc.Inserts b r s) (hlong : bc.m_lastBlockNumber ≤ b.info.number ∨ ¬bc.improves b) :
    s.Exact where
  indexed := indexed_inserts hx.indexed hi
  unspoiled := unspoiled_inserts hx.indexed hi hx.unspoiled
  above n hn := by
    by_cases himp : bc.improves b
    · have ha := hi.advances himp
      rw [ha.number] at hn
      have hfork : bc.forkBelow b ≤ bc.heightOf b.info.parentHash := fork_le_right _ _
      rw [ha.blockHash, blockHash_commit hx.indexed.linked hi.insertable hfork, if_neg (by omega)]
      exact hx.above n (by have := hlong.resolve_right (not_not.mpr himp); omega)
    · have ht := hi.stays himp
      rw [ht.blockHash]
      exact hx.above n (by rwa [ht.number] at hn)
  origin d hd := by
    have hgenesis : s.genesisHash = bc.genesisHash := by
      rw [genesisHash, hi.adds.genesis, genesisHash]
    have hparent : bc.genesisHash = b.info.parentHash →
        (bc.parentDetails b).parent = H256.zero := by
      intro he
      rw [parentDetails, ← he]
      exact hx.detailsOf_genesis
    rw [hgenesis] at hd
    rcases hd with hd | hd
    · have hold := hi.cached _ d hd
      rw [Function.update_apply] at hold
      split at hold
      case isTrue he =>
        obtain rfl := Option.some.inj hold
        exact hparent he
      case isFalse => exact hx.origin d (view_cases hold)
    · rw [hi.details, Function.update_of_ne hi.insertable.placed.ne_genesis.symm,
        Function.update_apply] at hd
      split at hd
      case isTrue he =>
        obtain rfl := Option.some.inj hd
        exact hparent he
      case isFalse => exact hx.origin d (.inr hd)

/-- A request that leaves the index exact: a block that becomes the head is not below the old
one. -/
def Lengthens (bc : BlockChain) : Request → Prop
  | .importBlock b _ _ => bc.Admissible b ∧
    (bc.m_lastBlockNumber ≤ b.info.number ∨ ¬bc.improves b)
  | _ => True

theorem exact_step (hx : bc.Exact) {r : Request} (hr : bc.Lengthens r) : (bc.step r).Exact := by
  cases r with
  | importBlock b mustBeNew verdict =>
    rcases run_importBlock hx.indexed.headed hr.1 mustBeNew verdict with
      ⟨e, s, hrun, hs⟩ | ⟨r, s, hrun, hi, -⟩
    · rw [step, hrun]
      exact hx.of_settled hs.symm
    · rw [step, hrun]
      exact exact_inserts hx hi hr.2
  | numberHash i =>
    obtain ⟨h, s', hrun, hs', -⟩ := returns_numberHash i bc hx.like
    rw [step, hrun]
    exact hs'.exact
  | details h => exact hx.of_settled (bc.asks_details h bc rfl).2.symm
  | block h => exact hx.of_settled (bc.asks_block h bc rfl).2.symm
  | garbageCollect blocks details transactions =>
    obtain ⟨hindexed, hunspoiled⟩ := indexed_step hx.indexed
      (r := .garbageCollect blocks details transactions) trivial
    refine ⟨hindexed, hunspoiled trivial hx.unspoiled, hx.above, fun d hd => ?_⟩
    refine hx.origin d (hd.imp_left fun hd => ?_)
    have hd' : (if bc.genesisHash ∈ details then none else bc.m_details bc.genesisHash) = some d :=
      hd
    split at hd'
    case isTrue => cases hd'
    case isFalse => exact hd'

/-- The index is exact after a run in which the chain does not get shorter. -/
theorem exact_run {l : List Request} (hx : bc.Exact) (hl : Along Lengthens bc l) :
    (l.foldl step bc).Exact := by
  induction l generalizing bc with
  | nil => exact hx
  | cons r l ih => exact ih (exact_step hx hl.1) hl.2

/-! ### A chain of four blocks -/

def fourBlocks : List Request :=
  [.importBlock (sampleBlock 0xa1 0x01 1 1) true true,
    .importBlock (sampleBlock 0xa2 0xa1 2 1) true true,
    .importBlock (sampleBlock 0xa3 0xa2 3 1) true true]

theorem exact_fourBlocks : (runFromFresh sampleGenesis false fourBlocks).Exact :=
  exact_run (exact_fresh false rfl (by decide))
    ⟨⟨by decide +kernel, .inl (by decide +kernel)⟩,
      ⟨by decide +kernel, .inl (by decide +kernel)⟩,
      ⟨by decide +kernel, .inl (by decide +kernel)⟩, trivial⟩

theorem answered_iff_sample :
    (runFromFresh sampleGenesis false fourBlocks).Answered (fun _ => 500) (.number 1) 2 1 false ↔
      ¬(runFromFresh sampleGenesis false fourBlocks).Overshoots 2 1 false (.number 1) :=
  answered_iff (fun _ => 500) exact_fourBlocks
    (show (runFromFresh sampleGenesis false fourBlocks).Asked (.number 1) from trivial)
    (by decide) (by decide) false

/-- Two headers from the genesis block on, with one left out between them: not those at the heights
0 and 2 but those at 1 and 3 are sent. -/
theorem second_header_first :
    (runFromFresh sampleGenesis false fourBlocks).canon 0 = H256.alignRight [0x01] ∧
    ¬(runFromFresh sampleGenesis false fourBlocks).Answered (fun _ => 500)
      (.hash (H256.alignRight [0x01])) 2 1 false := by
  refine ⟨by decide +kernel, fun ⟨count, s, hrun⟩ => ?_⟩
  have hsent : ((blockHeaders (fun _ => 500) (.hash (H256.alignRight [0x01])) 2 1 false).run
      (runFromFresh sampleGenesis false fourBlocks)).1.toOption.map (fun r =>
        r.1.map BlockHeader.number) = some [1, 3] := by decide +kernel
  generalize hanswer : (runFromFresh sampleGenesis false fourBlocks).answer (fun _ => 500)
    (.hash (H256.alignRight [0x01])) 2 1 false = headers at hrun
  rw [hrun] at hsent
  have heights : headers.map BlockHeader.number = [1, 3] := Option.some.inj hsent
  rw [← hanswer] at heights
  revert heights
  decide +kernel

end BlockChain
end Aleth.Ethereum
