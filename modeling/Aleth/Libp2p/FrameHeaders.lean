import Aleth.Libp2p.PeerInput

/-! Headers of frames (`RLPXFrameCoder.cpp`).

A header is the length of the payload in three bytes and a list of up to three
numbers. `construct_bytes` reads it back, whatever fills the 16 bytes. -/
namespace Aleth.P2p
open Devcore RLPView BytesConstRef

/-- The bytes that a multiple of 16 lacks. -/
def framePadding (length : ℕ) : ℕ := (16 - length % 16) % 16

/-- The headers of `writeFrame` in its variants, and of `writeSingleFramePacket`. -/
inductive FrameHeader where
  | frame (protocolType : UInt16)
  | continuation (protocolType seqId : UInt16)
  | first (protocolType seqId : UInt16) (totalSize : UInt32)
  | singleFramePacket
deriving DecidableEq

namespace FrameHeader

def lengthBytes (len : ℕ) : Bytes :=
  [UInt8.ofNat (len >>> 16), UInt8.ofNat (len >>> 8), UInt8.ofNat len]

def stream (payloadSize : ℕ) : FrameHeader → Except RLPException RLPStream
  | .frame protocolType => do
    let header ← RLPStream.appendRaw (lengthBytes (payloadSize % 2 ^ 32)) 1 .empty
    RLPStream.calls [RLPStream.appendUnsigned protocolType.toNat]
      (← RLPStream.appendList 1 header)
  | .continuation protocolType seqId => do
    let header ← RLPStream.appendRaw (lengthBytes (payloadSize % 2 ^ 32)) 1 .empty
    RLPStream.calls
      [RLPStream.appendUnsigned protocolType.toNat, RLPStream.appendUnsigned seqId.toNat]
      (← RLPStream.appendList 2 header)
  | .first protocolType seqId totalSize => do
    let header ← RLPStream.appendRaw (lengthBytes (payloadSize % 2 ^ 32)) 1 .empty
    RLPStream.calls
      [RLPStream.appendUnsigned protocolType.toNat, RLPStream.appendUnsigned seqId.toNat,
        RLPStream.appendUnsigned totalSize.toNat]
      (← RLPStream.appendList 3 header)
  | .singleFramePacket => do
    let header ← RLPStream.appendRaw (lengthBytes (payloadSize % 2 ^ 32)) 1 .empty
    RLPStream.appendRaw [0xc2, 0x80, 0x80] 1 header

end FrameHeader

/-! ### What a header says -/

namespace FrameHeader

/-- The numbers in the list of a header. -/
def numbers : FrameHeader → List ℕ
  | .frame protocolType => [protocolType.toNat]
  | .continuation protocolType seqId => [protocolType.toNat, seqId.toNat]
  | .first protocolType seqId totalSize => [protocolType.toNat, seqId.toNat, totalSize.toNat]
  | .singleFramePacket => [0, 0]

/-- The list of a header. -/
def items (header : FrameHeader) : List Bytes := header.numbers.map numberItem

/-- What the reader makes of a header. -/
def info (length : ℕ) (header : FrameHeader) : RLPXFrameInfo where
  length := length
  padding := framePadding length
  protocolId := header.numbers.getD 0 0
  multiFrame := 1 < header.numbers.length
  sequenceId := header.numbers.getD 1 0
  totalLength := header.numbers.getD 2 0

/-- The bytes of a header. -/
def bytes (length : ℕ) (header : FrameHeader) : Bytes :=
  lengthBytes length ++ Devcore.appendList header.items.flatten

theorem numbers_lt (header : FrameHeader) : ∀ n ∈ header.numbers, n < 2 ^ 32 := by
  cases header with
  | frame p => simpa [numbers] using p.toNat_lt.trans (by norm_num)
  | continuation p s =>
    simpa [numbers] using ⟨p.toNat_lt.trans (by norm_num), s.toNat_lt.trans (by norm_num)⟩
  | first p s t =>
    simpa [numbers] using
      ⟨p.toNat_lt.trans (by norm_num), s.toNat_lt.trans (by norm_num), t.toNat_lt⟩
  | singleFramePacket => simp [numbers]

/-- Each number that is appended is written as an item. -/
theorem writes_numbers {l : List ℕ} (hl : ∀ n ∈ l, n < 2 ^ 32) :
    List.Forall₂ RLPStream.Writes (l.map RLPStream.appendUnsigned) (l.map numberItem) := by
  induction l with
  | nil => exact .nil
  | cons n l ih =>
    have hn := hl n List.mem_cons_self
    refine .cons ?_ (ih fun m hm => hl m (List.mem_cons_of_mem n hm))
    unfold RLPStream.appendUnsigned
    rw [Nat.mod_eq_of_lt hn]
    exact RLPStream.writes_appendInt
      ((bytesRequired_le (k := 4) (hn.trans_eq (by norm_num))).trans_lt (by norm_num))

/-- A number takes five bytes at most. -/
theorem length_items_le (header : FrameHeader) : header.items.flatten.length ≤ 11 := by
  have h2 : ∀ n : UInt16, (numberItem n.toNat).length ≤ 3 := fun n =>
    length_numberItem_le (bytesRequired_le (n.toNat_lt.trans_eq (by norm_num))) (by norm_num)
  have h4 : ∀ n : UInt32, (numberItem n.toNat).length ≤ 5 := fun n =>
    length_numberItem_le (bytesRequired_le (n.toNat_lt.trans_eq (by norm_num))) (by norm_num)
  cases header with
  | frame p =>
    have hp := h2 p
    simp only [items, numbers, List.map_cons, List.map_nil, List.flatten_cons, List.flatten_nil,
      List.length_append, List.length_nil]
    omega
  | continuation p s =>
    have hp := h2 p
    have hs := h2 s
    simp only [items, numbers, List.map_cons, List.map_nil, List.flatten_cons, List.flatten_nil,
      List.length_append, List.length_nil]
    omega
  | first p s t =>
    have hp := h2 p
    have hs := h2 s
    have ht := h4 t
    simp only [items, numbers, List.map_cons, List.map_nil, List.flatten_cons, List.flatten_nil,
      List.length_append, List.length_nil]
    omega
  | singleFramePacket => decide

theorem length_bytes_le (header : FrameHeader) (length : ℕ) :
    (header.bytes length).length ≤ 16 := by
  have hitems := header.length_items_le
  unfold bytes Devcore.appendList
  rw [List.length_append, List.length_append, RLP.header_short _ _ (by omega)]
  simp only [lengthBytes, List.length_cons, List.length_nil]
  omega

/-- What the calls on the stream of a header write. -/
theorem stream_eq (header : FrameHeader) (payloadSize : ℕ) :
    (header.stream payloadSize >>= RLPStream.out) =
      .ok (header.bytes (payloadSize % 2 ^ 32)) := by
  have hlist : header.numbers ≠ [] → ∀ m_out,
      (RLPStream.appendList header.numbers.length ⟨m_out, []⟩ >>=
        RLPStream.calls (header.numbers.map RLPStream.appendUnsigned)) =
      .ok ⟨m_out ++ Devcore.appendList header.items.flatten, []⟩ := by
    intro hne m_out
    have hwrites := RLPStream.writes_list (writes_numbers header.numbers_lt)
      (by simpa using hne) (header.length_items_le.trans_lt (by norm_num)) ⟨m_out, []⟩
    rw [List.length_map] at hwrites
    exact hwrites
  have hout : ∀ {x : Except RLPException RLPStream} {m_out : Bytes}, x = .ok ⟨m_out, []⟩ →
      (x >>= RLPStream.out) = .ok m_out := by
    rintro x m_out rfl
    rfl
  cases header with
  | frame p => exact hout (hlist (List.cons_ne_nil _ _) _)
  | continuation p s => exact hout (hlist (List.cons_ne_nil _ _) _)
  | first p s t => exact hout (hlist (List.cons_ne_nil _ _) _)
  | singleFramePacket => rfl

theorem begins_items (header : FrameHeader) : Begins header.items.flatten header.items [] := by
  have hitems : header.items = (header.numbers.map toCompactBigEndian).map appendData := by
    rw [items, List.map_map]
    rfl
  have hfit : ∀ b ∈ header.numbers.map toCompactBigEndian, b.length < 2 ^ 64 - 1 - 0x100 := by
    intro b hb
    obtain ⟨n, hn, rfl⟩ := List.mem_map.mp hb
    have hle : bytesRequired n ≤ 4 :=
      bytesRequired_le ((header.numbers_lt n hn).trans_eq (by norm_num))
    rw [toCompactBigEndian_length]
    omega
  have hbegins := begins_appendData hfit []
  rw [List.append_nil, ← hitems] at hbegins
  exact hbegins

theorem fromBigEndian_lengthBytes {length : ℕ} (h : length < 2 ^ 24) :
    fromBigEndian (lengthBytes length) = length := by
  simp only [lengthBytes, fromBigEndian, List.foldl_cons, List.foldl_nil, UInt8.toNat_ofNat',
    Nat.shiftRight_eq_div_pow]
  omega

/-- The reader of a header finds what the writer put there, whatever follows the header. -/
theorem construct_bytes (header : FrameHeader) {length : ℕ} (h : length < 2 ^ 24)
    (tail : Bytes) :
    RLPXFrameInfo.construct (header.bytes length ++ tail) = .ok (header.info length) := by
  have hp : header.items.flatten.length < 2 ^ 64 - 1 - 0x100 :=
    header.length_items_le.trans_lt (by norm_num)
  have hb := header.begins_items
  have htake : (header.bytes length ++ tail).take 3 = lengthBytes length := rfl
  have hdrop : (header.bytes length ++ tail).drop 3 =
      Devcore.appendList header.items.flatten ++ tail := rfl
  have hcount := @padded_itemCount _ tail _ hp hb
  unfold RLPXFrameInfo.construct
  rw [htake, hdrop, fromBigEndian_lengthBytes h, construct_padded hp]
  simp only [ok_bind, hcount]
  cases header with
  | frame p =>
    have h0 := @padded_toInt _ tail _ _ 0 hp hb 2 p.toNat rfl
      (bytesRequired_le (p.toNat_lt.trans_eq (by norm_num))) (by norm_num)
    rw [h0]
    rfl
  | continuation p s =>
    have h0 := @padded_toInt _ tail _ _ 0 hp hb 2 p.toNat rfl
      (bytesRequired_le (p.toNat_lt.trans_eq (by norm_num))) (by norm_num)
    have h1 := @padded_toInt _ tail _ _ 1 hp hb 2 s.toNat rfl
      (bytesRequired_le (s.toNat_lt.trans_eq (by norm_num))) (by norm_num)
    rw [h0, h1]
    rfl
  | first p s t =>
    have h0 := @padded_toInt _ tail _ _ 0 hp hb 2 p.toNat rfl
      (bytesRequired_le (p.toNat_lt.trans_eq (by norm_num))) (by norm_num)
    have h1 := @padded_toInt _ tail _ _ 1 hp hb 2 s.toNat rfl
      (bytesRequired_le (s.toNat_lt.trans_eq (by norm_num))) (by norm_num)
    have h2 := @padded_toInt _ tail _ _ 2 hp hb 4 t.toNat rfl
      (bytesRequired_le (t.toNat_lt.trans_eq (by norm_num))) (by norm_num)
    rw [h0, h1, h2]
    rfl
  | singleFramePacket =>
    have h0 := @padded_toInt _ tail _ _ 0 hp hb 2 0 rfl (by decide) (by norm_num)
    have h1 := @padded_toInt _ tail _ _ 1 hp hb 2 0 rfl (by decide) (by norm_num)
    rw [h0, h1]
    rfl

end FrameHeader

end Aleth.P2p
