import Aleth.Ethereum.BlockQueue
import Aleth.Structure.Runs

/-! The sizes that the block queue adds up (`BlockQueue.h`).

`SizedBlockQueue` and `SizedBlockMap` keep the number of bytes that they hold in
a `size_t` beside the blocks. It is adjusted by the sizes of blocks that have
been moved: `insert` reads the size of data that it has just given away, and
`removeIf` what `std::remove_if` leaves at the end of the queue. The total is
off by `lost` then. `sizes_exact_iff` says in which runs it never is. -/
namespace Aleth.Ethereum.QueueSizes
open Devcore BlockQueue Runs

/-- What the queues ask of their blocks. -/
class QueuedBlock (α : Type) where
  blockData : α → Bytes
  /-- What is left of a block after a move. -/
  moved : α → α
  blockData_moved : ∀ b, blockData (moved b) = []

instance : QueuedBlock UnverifiedBlock := ⟨UnverifiedBlock.blockData, .moved, fun _ => rfl⟩

instance : QueuedBlock VerifiedBlock := ⟨VerifiedBlock.blockData, .moved, fun _ => rfl⟩

open QueuedBlock

/-- The bytes of a list of blocks. -/
def bytes {α : Type} [QueuedBlock α] (l : List α) : ℕ := (l.map fun b => (blockData b).length).sum

/-- `blockData.size()`. -/
def dataSize {α : Type} [QueuedBlock α] (b : α) : BitVec 64 := .ofNat 64 (blockData b).length

structure SizedBlockQueue (α : Type) where
  m_queue : List α := []
  m_size : BitVec 64 := 0

namespace SizedBlockQueue
variable {α : Type} [QueuedBlock α]

def enqueue (t : α) (q : SizedBlockQueue α) : SizedBlockQueue α :=
  ⟨q.m_queue ++ [t], q.m_size + dataSize t⟩

/-- A queue without blocks has no front; nothing is done then. -/
def dequeue (q : SizedBlockQueue α) : Option α × SizedBlockQueue α :=
  match q.m_queue with
  | [] => (none, q)
  | t :: queue => (some t, ⟨queue, q.m_size - dataSize t⟩)

/-- `removeRange`: what stands in the range, and what is outside. -/
def removeRange (ret queue : List α) (q : SizedBlockQueue α) : List α × SizedBlockQueue α :=
  (ret, ⟨queue, ret.foldl (fun m_size b => m_size - dataSize b) q.m_size⟩)

/-- The range ends with the queue at the latest. -/
def dequeueMultiple (n : ℕ) (q : SizedBlockQueue α) : List α × SizedBlockQueue α :=
  q.removeRange (q.m_queue.take n) (q.m_queue.drop n)

def removeIf (pred : α → Bool) (q : SizedBlockQueue α) : List α × SizedBlockQueue α :=
  let (ret, queue) := Ethereum.SizedBlockQueue.removeIf moved pred q.m_queue
  q.removeRange ret queue

def sha3UnclesEquals (hash : H256) (t : VerifiedBlock) : Bool := t.info.m_sha3Uncles = hash

def remove (hash : H256) (q : SizedBlockQueue VerifiedBlock) :
    Bool × SizedBlockQueue VerifiedBlock :=
  let (removed, q) := q.removeIf (sha3UnclesEquals hash)
  (removed ≠ [], q)

/-- `replace`, with what is looked for in place of `sha3UnclesEquals`. -/
def replaceIf (pred : α → Bool) (t : α) (q : SizedBlockQueue α) : Bool × SizedBlockQueue α :=
  match q.m_queue.find? pred with
  | none => (false, q)
  | some it =>
    (true, ⟨q.m_queue.set (q.m_queue.findIdx pred) t, q.m_size - dataSize it + dataSize t⟩)

def replace (hash : H256) (t : VerifiedBlock) (q : SizedBlockQueue VerifiedBlock) :
    Bool × SizedBlockQueue VerifiedBlock := q.replaceIf (sha3UnclesEquals hash) t

end SizedBlockQueue

structure SizedBlockMap (K : Type) where
  m_map : Ethereum.SizedBlockMap K := []
  m_size : BitVec 64 := 0

namespace SizedBlockMap
variable {K : Type}

/-- The bytes of a multimap. -/
def bytes (m : Ethereum.SizedBlockMap K) : ℕ := (m.map fun e => e.2.2.length).sum

/-- What `std::move` leaves of a vector. -/
def movedFrom (_blockData : Bytes) : Bytes := []

def insert [LT K] [DecidableLT K] (key : K) (hash : H256) (blockData : Bytes)
    (m : SizedBlockMap K) : SizedBlockMap K :=
  ⟨m.m_map.insert key hash blockData, m.m_size + .ofNat 64 (movedFrom blockData).length⟩

/-- `removeRange`: what stands in the range, and what is outside. -/
def removeRange (removed : List (H256 × Bytes)) (map : Ethereum.SizedBlockMap K)
    (m : SizedBlockMap K) : List (H256 × Bytes) × SizedBlockMap K :=
  let removedSize := removed.foldl (fun size e => size + .ofNat 64 e.2.length) (0 : BitVec 64)
  (removed, ⟨map, m.m_size - removedSize⟩)

def removeByKeyEqual [DecidableEq K] (key : K) (m : SizedBlockMap K) :
    List (H256 × Bytes) × SizedBlockMap K :=
  let (removed, map) := m.m_map.removeByKeyEqual key
  m.removeRange removed map

def removeByKeyNotGreater [LT K] [DecidableLT K] (key : K) (m : SizedBlockMap K) :
    List (H256 × Bytes) × SizedBlockMap K :=
  let (removed, map) := m.m_map.removeByKeyNotGreater key
  m.removeRange removed map

end SizedBlockMap

/-! ### Calls -/

inductive QueueCall (α : Type) where
  | enqueue (t : α)
  | dequeue
  | dequeueMultiple (n : ℕ)
  /-- Also `remove`, for `sha3UnclesEquals`. -/
  | removeIf (pred : α → Bool)
  /-- Also `replace`, for `sha3UnclesEquals`. -/
  | replaceIf (pred : α → Bool) (t : α)
  | clear

def QueueCall.run {α : Type} [QueuedBlock α] (q : SizedBlockQueue α) :
    QueueCall α → SizedBlockQueue α
  | .enqueue t => q.enqueue t
  | .dequeue => q.dequeue.2
  | .dequeueMultiple n => (q.dequeueMultiple n).2
  | .removeIf pred => (q.removeIf pred).2
  | .replaceIf pred t => (q.replaceIf pred t).2
  | .clear => {}

inductive MapCall (K : Type) where
  | insert (key : K) (hash : H256) (blockData : Bytes)
  | removeByKeyEqual (key : K)
  | removeByKeyNotGreater (key : K)
  | clear

def MapCall.run {K : Type} [LT K] [DecidableLT K] [DecidableEq K] (m : SizedBlockMap K) :
    MapCall K → SizedBlockMap K
  | .insert key hash blockData => m.insert key hash blockData
  | .removeByKeyEqual key => (m.removeByKeyEqual key).2
  | .removeByKeyNotGreater key => (m.removeByKeyNotGreater key).2
  | .clear => {}

/-! ### Sums -/

section Sums
variable {α : Type} [QueuedBlock α] {l l' : List α} {b : α}

theorem bytes_cons (b : α) (l : List α) : bytes (b :: l) = (blockData b).length + bytes l := by
  rw [bytes, List.map_cons, List.sum_cons, bytes]

theorem bytes_append (l l' : List α) : bytes (l ++ l') = bytes l + bytes l' := by
  rw [bytes, List.map_append, List.sum_append, bytes, bytes]

theorem bytes_filter (pred : α → Bool) (l : List α) :
    bytes (l.filter pred) + bytes (l.filter (!pred ·)) = bytes l := by
  rw [← bytes_append]
  exact ((List.filter_append_perm pred l).map _).sum_eq

theorem bytes_eq_zero : bytes l = 0 ↔ ∀ b ∈ l, blockData b = [] := by
  unfold bytes
  rw [List.sum_eq_zero_iff]
  simp

theorem foldl_sub (l : List α) (m_size : BitVec 64) :
    l.foldl (fun m_size b => m_size - dataSize b) m_size = m_size - .ofNat 64 (bytes l) := by
  induction l generalizing m_size with
  | nil => simp [bytes]
  | cons b l ih =>
    rw [List.foldl_cons, ih, bytes_cons, BitVec.ofNat_add, dataSize]
    abel

/-- The blocks that a removal returns in the place of what is behind the kept ones. -/
theorem bytes_remains (pred : α → Bool) (l : List α) :
    bytes (Ethereum.SizedBlockQueue.remains moved pred l) =
      bytes ((l.drop (l.filter (!pred ·)).length).filter pred) := by
  unfold Ethereum.SizedBlockQueue.remains
  induction l.drop (l.filter (!pred ·)).length with
  | nil => rfl
  | cons b l ih =>
    rw [List.map_cons, bytes_cons, ih]
    cases hb : pred b with
    | true => rw [if_pos rfl, List.filter_cons_of_pos hb, bytes_cons]
    | false =>
      rw [if_neg Bool.false_ne_true, blockData_moved, List.filter_cons_of_neg (by simp [hb])]
      simp

end Sums

/-! ### One queue -/

theorem toNat_sub {s : BitVec 64} {n k : ℕ} (h : s.toNat = n + k) :
    (s - .ofNat 64 k).toNat = n := by
  have hlt := s.isLt
  rw [BitVec.toNat_sub, BitVec.toNat_ofNat]
  omega

theorem toNat_add {s : BitVec 64} {n k : ℕ} (h : s.toNat = n) (hlt : n + k < 2 ^ 64) :
    (s + .ofNat 64 k).toNat = n + k := by
  rw [BitVec.toNat_add, BitVec.toNat_ofNat]
  omega

namespace SizedBlockQueue
variable {α : Type} [QueuedBlock α] {q : SizedBlockQueue α}

def Exact (q : SizedBlockQueue α) : Prop := q.m_size.toNat = bytes q.m_queue

/-- The blocks that are removed in front of where the end of the queue will be. -/
def lost (pred : α → Bool) (q : SizedBlockQueue α) : List α :=
  (q.m_queue.take (q.m_queue.filter (!pred ·)).length).filter pred

theorem toNat_removeRange {ret queue : List α} {k : ℕ} (hq : q.Exact)
    (hsplit : bytes q.m_queue = bytes queue + k + bytes ret) :
    (q.removeRange ret queue).2.m_size.toNat = bytes queue + k := by
  show (ret.foldl _ q.m_size).toNat = _
  rw [foldl_sub]
  exact toNat_sub (hq.trans hsplit)

/-- The total still counts the blocks that are lost. -/
theorem toNat_removeIf (hq : q.Exact) (pred : α → Bool) :
    (q.removeIf pred).2.m_size.toNat =
      bytes (q.removeIf pred).2.m_queue + bytes (q.lost pred) := by
  refine toNat_removeRange hq ?_
  have hremoved := bytes_filter pred q.m_queue
  have hsplit := congrArg (fun l => bytes (l.filter pred))
    (List.take_append_drop (q.m_queue.filter (!pred ·)).length q.m_queue)
  simp only [List.filter_append, bytes_append] at hsplit
  rw [bytes_remains]
  unfold lost
  omega

theorem exact_replaceIf (hq : q.Exact) (pred : α → Bool) (t : α)
    (hfits : bytes (q.replaceIf pred t).2.m_queue < 2 ^ 64) : (q.replaceIf pred t).2.Exact := by
  unfold replaceIf at hfits ⊢
  cases hfind : q.m_queue.find? pred with
  | none => exact hq
  | some it =>
    rw [hfind] at hfits
    obtain ⟨hlt, hget⟩ : ∃ hlt : q.m_queue.findIdx pred < q.m_queue.length,
        q.m_queue[q.m_queue.findIdx pred] = it := by
      rw [List.find?_eq_getElem?_findIdx] at hfind
      exact List.getElem?_eq_some_iff.mp hfind
    have hold : bytes q.m_queue = bytes (q.m_queue.take (q.m_queue.findIdx pred)) +
        bytes (q.m_queue.drop (q.m_queue.findIdx pred + 1)) + (blockData it).length := by
      conv_lhs => rw [← List.take_append_drop (q.m_queue.findIdx pred) q.m_queue]
      rw [List.drop_eq_getElem_cons hlt, hget, bytes_append, bytes_cons]
      omega
    have hnew : bytes (q.m_queue.set (q.m_queue.findIdx pred) t) =
        bytes (q.m_queue.take (q.m_queue.findIdx pred)) +
          bytes (q.m_queue.drop (q.m_queue.findIdx pred + 1)) + (blockData t).length := by
      rw [List.set_eq_take_append_cons_drop, if_pos hlt, bytes_append, bytes_cons]
      omega
    dsimp only at hfits
    rw [hnew] at hfits
    show (q.m_size - dataSize it + dataSize t).toNat = _
    rw [hnew]
    exact toNat_add (toNat_sub (hq.trans hold)) hfits

end SizedBlockQueue

section Queue
variable {α : Type} [QueuedBlock α] {q : SizedBlockQueue α}

/-- What is removed in front of where the end of the queue will be has no data. -/
def QueueCall.Sound (q : SizedBlockQueue α) : QueueCall α → Prop
  | .removeIf pred => ∀ b ∈ q.lost pred, blockData b = []
  | _ => True

theorem QueueCall.exact_run_iff (hq : q.Exact) (call : QueueCall α)
    (hfits : bytes (call.run q).m_queue < 2 ^ 64) : (call.run q).Exact ↔ call.Sound q := by
  cases call with
  | enqueue t =>
    refine iff_of_true ?_ trivial
    have hnew : bytes (q.m_queue ++ [t]) = bytes q.m_queue + (blockData t).length := by
      rw [bytes_append, bytes_cons]
      rfl
    show (q.m_size + dataSize t).toNat = bytes (q.m_queue ++ [t])
    rw [hnew]
    exact toNat_add hq (by rw [← hnew]; exact hfits)
  | dequeue =>
    refine iff_of_true ?_ trivial
    unfold QueueCall.run SizedBlockQueue.dequeue
    obtain ⟨queue, m_size⟩ := q
    cases queue with
    | nil => exact hq
    | cons t queue =>
      refine toNat_sub (hq.trans ?_)
      rw [bytes_cons]
      exact Nat.add_comm _ _
  | dequeueMultiple n =>
    refine iff_of_true (SizedBlockQueue.toNat_removeRange (k := 0) hq ?_) trivial
    conv_lhs => rw [← List.take_append_drop n q.m_queue]
    rw [bytes_append]
    omega
  | removeIf pred =>
    show (q.removeIf pred).2.m_size.toNat = bytes (q.removeIf pred).2.m_queue ↔ _
    rw [SizedBlockQueue.toNat_removeIf hq pred, Nat.add_eq_left, bytes_eq_zero]
    rfl
  | replaceIf pred t => exact iff_of_true (SizedBlockQueue.exact_replaceIf hq pred t hfits) trivial
  | clear => exact iff_of_true rfl trivial

end Queue

/-! ### One map -/

section Map
variable {K : Type} {m : SizedBlockMap K}

def SizedBlockMap.Exact (m : SizedBlockMap K) : Prop := m.m_size.toNat = SizedBlockMap.bytes m.m_map

theorem SizedBlockMap.bytes_append (m m' : Ethereum.SizedBlockMap K) :
    SizedBlockMap.bytes (m ++ m') = SizedBlockMap.bytes m + SizedBlockMap.bytes m' := by
  rw [SizedBlockMap.bytes, List.map_append, List.sum_append, SizedBlockMap.bytes,
    SizedBlockMap.bytes]

theorem SizedBlockMap.bytes_filter (pred : K × H256 × Bytes → Bool)
    (m : Ethereum.SizedBlockMap K) :
    SizedBlockMap.bytes m =
      SizedBlockMap.bytes (m.filter (!pred ·)) + SizedBlockMap.bytes (m.filter pred) := by
  rw [Nat.add_comm, ← SizedBlockMap.bytes_append]
  exact ((List.filter_append_perm pred m).map _).sum_eq.symm

theorem SizedBlockMap.foldl_add (removed : List (H256 × Bytes)) (size : BitVec 64) :
    removed.foldl (fun size e => size + .ofNat 64 e.2.length) size =
      size + .ofNat 64 (removed.map fun e => e.2.length).sum := by
  induction removed generalizing size with
  | nil => simp
  | cons e removed ih =>
    rw [List.foldl_cons, ih, List.map_cons, List.sum_cons, BitVec.ofNat_add, BitVec.add_assoc]

/-- The elements of the multimap with a property are removed. -/
theorem SizedBlockMap.exact_removeRange (hm : m.Exact) (pred : K × H256 × Bytes → Bool) :
    (m.removeRange ((m.m_map.filter pred).map Prod.snd) (m.m_map.filter (!pred ·))).2.Exact := by
  unfold SizedBlockMap.removeRange SizedBlockMap.Exact
  dsimp only
  rw [SizedBlockMap.foldl_add, zero_add, List.map_map]
  exact toNat_sub (hm.trans (SizedBlockMap.bytes_filter pred m.m_map))

variable [LT K] [DecidableLT K]

theorem SizedBlockMap.bytes_insert (key : K) (hash : H256) (blockData : Bytes)
    (m : Ethereum.SizedBlockMap K) : SizedBlockMap.bytes (m.insert key hash blockData) =
      SizedBlockMap.bytes m + blockData.length := by
  have hsplit := congrArg SizedBlockMap.bytes
    (@List.takeWhile_append_dropWhile _ (fun e : K × H256 × Bytes => ¬key < e.1) m)
  rw [SizedBlockMap.bytes_append] at hsplit
  rw [Ethereum.SizedBlockMap.insert, SizedBlockMap.bytes_append, ← hsplit]
  simp only [SizedBlockMap.bytes, List.map_cons, List.sum_cons]
  omega

/-- Only data of no bytes are inserted. -/
def MapCall.Sound : MapCall K → Prop
  | .insert _ _ blockData => blockData = []
  | _ => True

theorem MapCall.exact_run_iff [DecidableEq K] (hm : m.Exact) (call : MapCall K) :
    (call.run m).Exact ↔ call.Sound := by
  cases call with
  | insert key hash blockData =>
    show (m.m_size + 0#64).toNat = SizedBlockMap.bytes (m.m_map.insert key hash blockData) ↔ _
    rw [BitVec.add_zero, SizedBlockMap.bytes_insert, show m.m_size.toNat = _ from hm,
      Nat.left_eq_add, List.length_eq_zero_iff]
    rfl
  | removeByKeyEqual key =>
    have hrest : m.m_map.filter (fun e => e.1 ≠ key) =
        m.m_map.filter fun e => !decide (e.1 = key) := by simp
    refine iff_of_true ?_ trivial
    show (m.removeRange _ (m.m_map.filter fun e => e.1 ≠ key)).2.Exact
    rw [hrest]
    exact SizedBlockMap.exact_removeRange hm fun e => e.1 = key
  | removeByKeyNotGreater key =>
    have hrest : m.m_map.filter (fun e => key < e.1) =
        m.m_map.filter fun e => !decide ¬key < e.1 := by simp
    refine iff_of_true ?_ trivial
    show (m.removeRange _ (m.m_map.filter fun e => key < e.1)).2.Exact
    rw [hrest]
    exact SizedBlockMap.exact_removeRange hm fun e => ¬key < e.1
  | clear => exact iff_of_true rfl trivial

end Map

/-! ### The queues of the block queue -/

def c_maxKnownCount : ℕ := 100000
def c_maxKnownSize : ℕ := 128 * 1024 * 1024
def c_maxUnknownCount : ℕ := 100000
def c_maxUnknownSize : ℕ := 512 * 1024 * 1024

structure Queues where
  m_verified : SizedBlockQueue VerifiedBlock := {}
  m_verifying : SizedBlockQueue VerifiedBlock := {}
  m_unverified : SizedBlockQueue UnverifiedBlock := {}
  m_unknown : SizedBlockMap H256 := {}
  m_future : SizedBlockMap ℤ := {}

inductive Call where
  | verified (call : QueueCall VerifiedBlock)
  | verifying (call : QueueCall VerifiedBlock)
  | unverified (call : QueueCall UnverifiedBlock)
  | unknown (call : MapCall H256)
  | future (call : MapCall ℤ)

namespace Queues

def run (s : Queues) : Call → Queues
  | .verified call => {s with m_verified := call.run s.m_verified}
  | .verifying call => {s with m_verifying := call.run s.m_verifying}
  | .unverified call => {s with m_unverified := call.run s.m_unverified}
  | .unknown call => {s with m_unknown := call.run s.m_unknown}
  | .future call => {s with m_future := call.run s.m_future}

def knownSize (s : Queues) : BitVec 64 :=
  s.m_verified.m_size + s.m_unverified.m_size + s.m_verifying.m_size

def knownCount (s : Queues) : ℕ :=
  s.m_verified.m_queue.length + s.m_unverified.m_queue.length + s.m_verifying.m_queue.length

def knownFull (s : Queues) : Bool :=
  c_maxKnownSize < s.knownSize.toNat || c_maxKnownCount < s.knownCount

def unknownSize (s : Queues) : BitVec 64 := s.m_future.m_size + s.m_unknown.m_size

def unknownCount (s : Queues) : ℕ := s.m_future.m_map.length + s.m_unknown.m_map.length

def unknownFull (s : Queues) : Bool :=
  c_maxUnknownSize < s.unknownSize.toNat || c_maxUnknownCount < s.unknownCount

/-- The bytes of the blocks that wait for a verifier or have been with one. -/
def knownBytes (s : Queues) : ℕ :=
  bytes s.m_verified.m_queue + bytes s.m_unverified.m_queue + bytes s.m_verifying.m_queue

/-- The bytes of the blocks that wait for their parent or their time. -/
def unknownBytes (s : Queues) : ℕ :=
  SizedBlockMap.bytes s.m_future.m_map + SizedBlockMap.bytes s.m_unknown.m_map

/-- All sizes are those of the data. -/
structure Exact (s : Queues) : Prop where
  verified : s.m_verified.Exact
  verifying : s.m_verifying.Exact
  unverified : s.m_unverified.Exact
  unknown : s.m_unknown.Exact
  future : s.m_future.Exact
  knownSize : s.knownSize.toNat = s.knownBytes
  unknownSize : s.unknownSize.toNat = s.unknownBytes
  knownFull : s.knownFull = true ↔ c_maxKnownSize < s.knownBytes ∨ c_maxKnownCount < s.knownCount
  unknownFull : s.unknownFull = true ↔
    c_maxUnknownSize < s.unknownBytes ∨ c_maxUnknownCount < s.unknownCount

/-- The data can be counted in a `size_t`. -/
def Fits (s : Queues) : Prop := s.knownBytes < 2 ^ 64 ∧ s.unknownBytes < 2 ^ 64

def Sound (s : Queues) : Call → Prop
  | .verified call => call.Sound s.m_verified
  | .verifying call => call.Sound s.m_verifying
  | .unverified call => call.Sound s.m_unverified
  | .unknown call => call.Sound
  | .future call => call.Sound

variable {s : Queues}

theorem Exact.fits (h : s.Exact) : s.Fits :=
  ⟨h.knownSize ▸ s.knownSize.isLt, h.unknownSize ▸ s.unknownSize.isLt⟩

/-- The rest follows from the five sizes. -/
theorem Exact.of_sizes (verified : s.m_verified.Exact) (verifying : s.m_verifying.Exact)
    (unverified : s.m_unverified.Exact) (unknown : s.m_unknown.Exact) (future : s.m_future.Exact)
    (hfits : s.Fits) : s.Exact := by
  have hknown : s.knownSize.toNat = s.knownBytes := by
    have hlt := hfits.1
    unfold Queues.knownBytes at hlt ⊢
    rw [Queues.knownSize, BitVec.toNat_add, BitVec.toNat_add, show _ = _ from verified,
      show _ = _ from verifying, show _ = _ from unverified]
    omega
  have hunknown : s.unknownSize.toNat = s.unknownBytes := by
    have hlt := hfits.2
    unfold Queues.unknownBytes at hlt ⊢
    rw [Queues.unknownSize, BitVec.toNat_add, show _ = _ from future, show _ = _ from unknown]
    omega
  refine ⟨verified, verifying, unverified, unknown, future, hknown, hunknown, ?_, ?_⟩
  · simp [Queues.knownFull, hknown]
  · simp [Queues.unknownFull, hunknown]

/-- One call. -/
theorem exact_run_iff (h : s.Exact) (call : Call) :
    (s.run call).Exact ↔ s.Sound call ∧ (s.run call).Fits := by
  have hiff : (s.run call).Fits → ((s.run call).Exact ↔ s.Sound call) := by
    intro hfits
    have hbytes := hfits
    unfold Fits knownBytes unknownBytes at hbytes
    cases call with
    | verified call =>
      have hone := QueueCall.exact_run_iff h.verified call (by
        simp only [run] at hbytes
        omega)
      exact ⟨fun hx => hone.mp hx.verified,
        fun hc => .of_sizes (hone.mpr hc) h.verifying h.unverified h.unknown h.future hfits⟩
    | verifying call =>
      have hone := QueueCall.exact_run_iff h.verifying call (by
        simp only [run] at hbytes
        omega)
      exact ⟨fun hx => hone.mp hx.verifying,
        fun hc => .of_sizes h.verified (hone.mpr hc) h.unverified h.unknown h.future hfits⟩
    | unverified call =>
      have hone := QueueCall.exact_run_iff h.unverified call (by
        simp only [run] at hbytes
        omega)
      exact ⟨fun hx => hone.mp hx.unverified,
        fun hc => .of_sizes h.verified h.verifying (hone.mpr hc) h.unknown h.future hfits⟩
    | unknown call =>
      have hone := MapCall.exact_run_iff h.unknown call
      exact ⟨fun hx => hone.mp hx.unknown,
        fun hc => .of_sizes h.verified h.verifying h.unverified (hone.mpr hc) h.future hfits⟩
    | future call =>
      have hone := MapCall.exact_run_iff h.future call
      exact ⟨fun hx => hone.mp hx.future,
        fun hc => .of_sizes h.verified h.verifying h.unverified h.unknown (hone.mpr hc) hfits⟩
  exact ⟨fun hx => ⟨(hiff hx.fits).mp hx, hx.fits⟩, fun hc => (hiff hc.2).mpr hc.1⟩

theorem exact_empty : Exact {} := .of_sizes rfl rfl rfl rfl rfl ⟨by decide, by decide⟩

/-- **The sizes are exact in every state of a run when and only when the run inserts no data into
a map, removes no data from in front of where the end of a queue will be, and never holds more
data than a `size_t` can count.** -/
theorem sizes_exact_iff (calls : List Call) :
    (∀ pre, pre <+: calls → (pre.foldl run {}).Exact) ↔
      Along run (fun s call => s.Sound call ∧ (s.run call).Fits) {} calls :=
  @Along.iff_foldl _ _ run (fun s call => s.Sound call ∧ (s.run call).Fits) Exact
    (fun h => exact_run_iff h _) {} calls exact_empty

end Queues

/-- A block of one byte waits for its parent, and its parent comes. -/
def oneUnknown : List Call :=
  [.unknown (.insert .zero .zero [1]), .unknown (.removeByKeyEqual .zero)]

/-- The map is empty again and says that it has almost 2^64 bytes. -/
theorem oneUnknown_wraps :
    (oneUnknown.foldl Queues.run {}).m_unknown.m_map = [] ∧
      (oneUnknown.foldl Queues.run {}).m_unknown.m_size.toNat = 2 ^ 64 - 1 ∧
      (oneUnknown.foldl Queues.run {}).unknownFull = true ∧
      ¬∀ pre, pre <+: oneUnknown → (pre.foldl Queues.run {}).Exact := by
  refine ⟨by decide, by decide, by decide, fun hall => ?_⟩
  have hsize : (oneUnknown.foldl Queues.run {}).m_unknown.m_size.toNat = 0 :=
    (hall oneUnknown List.prefix_rfl).unknown
  revert hsize
  decide

end Aleth.Ethereum.QueueSizes
