import Aleth.Devcore.Bytes

/-! Recursive length prefix data (`RLP.h`, `RLP.cpp`).

An `RLP` is what the code's view of a byte string amounts to once it is fully
traversed; `encode` is what `RLPStream` writes for it, `decode` what the
constructor and the item accessors read, with every check they make. The
round trip `decode_encode` needs the encoding to stay below the 64-bit sizes
that `RLP::length` accepts (`Fits`). -/
namespace Aleth.Devcore

inductive RLP where
  | data (payload : Bytes)
  | list (items : List RLP)

/-- `c_rlpDataImmLenStart`, `c_rlpListStart`. -/
def c_rlpDataImmLenStart : Nat := 0x80
def c_rlpListStart : Nat := 0xc0
/-- Lengths below this are part of the first byte: `c_rlpDataImmLenCount`, `c_rlpListImmLenCount`. -/
def c_rlpImmLenCount : Nat := 56
/-- `c_rlpDataIndLenZero`, `c_rlpListIndLenZero`: the first byte of longer items counts from here. -/
def c_rlpDataIndLenZero : Nat := 0xb7
def c_rlpListIndLenZero : Nat := 0xf7

/-- The first bytes of an item: the length itself, or the number of bytes of the length. -/
def header (immStart indZero len : Nat) : Bytes :=
  if len < c_rlpImmLenCount then [UInt8.ofNat (immStart + len)]
  else UInt8.ofNat (indZero + bytesRequired len) :: toCompactBigEndian len

/-- `RLPStream::append(bytesConstRef)`. -/
def appendData (s : Bytes) : Bytes :=
  match s with
  | [b] => if b.toNat < c_rlpDataImmLenStart then [b]
    else header c_rlpDataImmLenStart c_rlpDataIndLenZero 1 ++ [b]
  | _ => header c_rlpDataImmLenStart c_rlpDataIndLenZero s.length ++ s

/-- The list header put in front of the items when the last one is appended. -/
def appendList (payload : Bytes) : Bytes :=
  header c_rlpListStart c_rlpListIndLenZero payload.length ++ payload

namespace RLP

mutual
def encode : RLP → Bytes
  | data s => appendData s
  | list l => appendList (encodeItems l)

def encodeItems : List RLP → Bytes
  | [] => []
  | i :: l => i.encode ++ encodeItems l
end

/-! ### Reading -/

/-- `RLP::lengthSize`. -/
def lengthSize (n : Nat) : Nat :=
  if n < c_rlpListStart then n - c_rlpDataIndLenZero else n - c_rlpListIndLenZero

/-- The explicit length of an item whose first byte is `n`, followed by `rest`; `none` when
`RLP::length` throws. -/
def explicitLength (n : Nat) (rest : Bytes) : Option Nat :=
  let size := lengthSize n
  let ret := fromBigEndian (rest.take size)
  if rest.length < size then none
  else if rest.head? = some 0 then none
  else if 8 < size then none
  else if ret < c_rlpImmLenCount then none
  else if 2 ^ 64 - 1 - 0x100 ≤ ret then none
  else some ret

/-- Offset and length of the payload of the item that `m_data` starts with (`payloadOffset`,
`length`, with the check of `requireGood`). -/
def extent : Bytes → Option (Nat × Nat)
  | [] => none
  | b :: rest =>
    let n := b.toNat
    if n < c_rlpDataImmLenStart then some (0, 1)
    else if n = c_rlpDataImmLenStart + 1 ∧ (rest.head?.all fun x => x.toNat < c_rlpDataImmLenStart)
      then none
    else if n ≤ c_rlpDataIndLenZero then some (1, n - c_rlpDataImmLenStart)
    else if n < c_rlpListStart then (explicitLength n rest).map fun l => (1 + lengthSize n, l)
    else if n ≤ c_rlpListIndLenZero then some (1, n - c_rlpListStart)
    else (explicitLength n rest).map fun l => (1 + lengthSize n, l)

mutual
/-- The item at the front of a string and what follows it. -/
def decodeItem : (fuel : Nat) → Bytes → Option (RLP × Bytes)
  | 0, _ => none
  | fuel + 1, m_data => do
    let (off, len) ← extent m_data
    if m_data.length < off + len then none
    else
      let payload := (m_data.drop off).take len
      let rest := m_data.drop (off + len)
      if (m_data.head?.all fun b => b.toNat < c_rlpListStart) then some (data payload, rest)
      else (decodeItems fuel payload).map fun l => (list l, rest)

def decodeItems : (fuel : Nat) → Bytes → Option (List RLP)
  | 0, _ => none
  | fuel + 1, d =>
    if d = [] then some []
    else do
      let (i, rest) ← decodeItem fuel d
      let l ← decodeItems fuel rest
      some (i :: l)
end

/-- `RLP(bytes, VeryStrict)`, traversed: the string is one item, no more and no less. Every
nested item takes at least a byte, which is what the bound on the descent counts. -/
def decode (b : Bytes) : Option RLP :=
  match decodeItem (2 * b.length + 1) b with
  | some (i, []) => some i
  | _ => none

/-- Sizes `RLP::length` accepts. -/
def Fits (b : Bytes) : Prop := b.length < 2 ^ 64 - 1 - 0x100

instance (b : Bytes) : Decidable (Fits b) := inferInstanceAs (Decidable (_ < _))

/-! ### Sizes -/

theorem header_length_pos (immStart indZero len : Nat) : 0 < (header immStart indZero len).length := by
  unfold header
  split <;> simp

theorem appendData_ne_nil (s : Bytes) : appendData s ≠ [] := by
  have := header_length_pos c_rlpDataImmLenStart c_rlpDataIndLenZero
  unfold appendData
  split
  · split
    · simp
    · simp
  · intro h
    have h' := congrArg List.length h
    rw [List.length_append, List.length_nil] at h'
    have := header_length_pos c_rlpDataImmLenStart c_rlpDataIndLenZero s.length
    omega

theorem appendData_length_le (s : Bytes) : s.length ≤ (appendData s).length := by
  unfold appendData
  split
  · split <;> simp
  · simp

theorem encode_length_pos (i : RLP) : 0 < i.encode.length := by
  cases i with
  | data s => exact List.length_pos_of_ne_nil (appendData_ne_nil s)
  | list l =>
    simp only [encode, appendList, List.length_append]
    have := header_length_pos c_rlpListStart c_rlpListIndLenZero (encodeItems l).length
    omega

theorem encodeItems_append (l m : List RLP) :
    encodeItems (l ++ m) = encodeItems l ++ encodeItems m := by
  induction l with
  | nil => simp [encodeItems]
  | cons i l ih => simp [encodeItems, ih]

/-! ### Round trip -/

theorem toNat_ofNat {n : Nat} (h : n < 256) : (UInt8.ofNat n).toNat = n := by
  rw [UInt8.toNat_ofNat', Nat.mod_eq_of_lt h]

theorem explicitLength_header (indZero : Nat) {len : Nat} (hind : indZero = 0xb7 ∨ indZero = 0xf7)
    (hlen : c_rlpImmLenCount ≤ len) (hfit : len < 2 ^ 64 - 1 - 0x100) (tail : Bytes) :
    explicitLength (indZero + bytesRequired len) (toCompactBigEndian len ++ tail) = some len := by
  have h56 : 56 ≤ len := hlen
  have hbr : bytesRequired len ≤ 8 := bytesRequired_le (by omega)
  have hpos : 0 < bytesRequired len := bytesRequired_pos (by omega)
  have hsize : lengthSize (indZero + bytesRequired len) = bytesRequired len := by
    unfold lengthSize c_rlpListStart c_rlpDataIndLenZero c_rlpListIndLenZero
    rcases hind with rfl | rfl <;> split <;> omega
  have hclen := toCompactBigEndian_length len
  have htake : (toCompactBigEndian len ++ tail).take (bytesRequired len) = toCompactBigEndian len := by
    rw [← hclen, List.take_left]
  obtain ⟨x, hx, hx0⟩ := toCompactBigEndian_head (i := len) (by omega)
  have hhead : (toCompactBigEndian len ++ tail).head? = some x := by rw [List.head?_append, hx]; rfl
  unfold explicitLength
  simp only [hsize, htake, fromBigEndian_toCompactBigEndian, hhead]
  rw [if_neg (by rw [List.length_append, hclen]; omega), if_neg (by simpa using hx0),
    if_neg (by omega), if_neg (by omega), if_neg (by omega)]

/-! The five kinds of first byte. -/

section Extent
variable {b : UInt8} {rest : Bytes} {len br : Nat}

theorem extent_data_short (hb : b.toNat = 0x80 + len) (hlen : len < 56)
    (hgood : len = 1 → ∃ x, rest.head? = some x ∧ ¬ x.toNat < 0x80) :
    extent (b :: rest) = some (1, len) := by
  unfold extent c_rlpDataImmLenStart c_rlpDataIndLenZero
  dsimp only
  rw [if_neg (by omega), if_neg ?_, if_pos (by omega), hb, Nat.add_sub_cancel_left]
  rintro ⟨h1, hall⟩
  obtain ⟨x, hx, hge⟩ := hgood (by omega)
  rw [hx] at hall
  exact hge (by simpa using hall)

theorem extent_data_long (hb : b.toNat = 0xb7 + br) (hpos : 0 < br) (hle : br ≤ 8)
    (hex : explicitLength b.toNat rest = some len) : extent (b :: rest) = some (1 + br, len) := by
  unfold extent c_rlpDataImmLenStart c_rlpDataIndLenZero c_rlpListStart
  dsimp only
  rw [if_neg (by omega), if_neg (by omega), if_neg (by omega), if_pos (by omega), hex, hb]
  have : lengthSize (0xb7 + br) = br := by
    unfold lengthSize c_rlpListStart c_rlpDataIndLenZero
    rw [if_pos (by omega), Nat.add_sub_cancel_left]
  rw [this]
  rfl

theorem extent_list_short (hb : b.toNat = 0xc0 + len) (hlen : len < 56) :
    extent (b :: rest) = some (1, len) := by
  unfold extent c_rlpDataImmLenStart c_rlpDataIndLenZero c_rlpListStart c_rlpListIndLenZero
  dsimp only
  rw [if_neg (by omega), if_neg (by omega), if_neg (by omega), if_neg (by omega),
    if_pos (by omega), hb, Nat.add_sub_cancel_left]

theorem extent_list_long (hb : b.toNat = 0xf7 + br) (hpos : 0 < br)
    (hex : explicitLength b.toNat rest = some len) : extent (b :: rest) = some (1 + br, len) := by
  unfold extent c_rlpDataImmLenStart c_rlpDataIndLenZero c_rlpListStart c_rlpListIndLenZero
  dsimp only
  rw [if_neg (by omega), if_neg (by omega), if_neg (by omega), if_neg (by omega),
    if_neg (by omega), hex, hb]
  have : lengthSize (0xf7 + br) = br := by
    unfold lengthSize c_rlpListStart c_rlpListIndLenZero
    rw [if_neg (by omega), Nat.add_sub_cancel_left]
  rw [this]
  rfl

end Extent

theorem header_short (immStart indZero : Nat) {len : Nat} (h : len < 56) :
    header immStart indZero len = [UInt8.ofNat (immStart + len)] := if_pos h

theorem header_long (immStart indZero : Nat) {len : Nat} (h : ¬ len < 56) :
    header immStart indZero len =
      UInt8.ofNat (indZero + bytesRequired len) :: toCompactBigEndian len := if_neg h

theorem extent_list (payload tail : Bytes) (hfit : payload.length < 2 ^ 64 - 1 - 0x100) :
    extent (appendList payload ++ tail) =
      some ((header c_rlpListStart c_rlpListIndLenZero payload.length).length, payload.length) := by
  rw [appendList, List.append_assoc]
  by_cases h : payload.length < 56
  · rw [header_short _ _ h]
    exact extent_list_short (toNat_ofNat (by unfold c_rlpListStart; omega)) h
  · have hbr : bytesRequired payload.length ≤ 8 := bytesRequired_le (by omega)
    have hn : (UInt8.ofNat (c_rlpListIndLenZero + bytesRequired payload.length)).toNat =
        0xf7 + bytesRequired payload.length := toNat_ofNat (by unfold c_rlpListIndLenZero; omega)
    have hex := explicitLength_header 0xf7 (.inr rfl) (not_lt.mp h) hfit (payload ++ tail)
    rw [header_long _ _ h, List.length_cons, toCompactBigEndian_length,
      Nat.add_comm (bytesRequired payload.length) 1]
    exact extent_list_long hn (bytesRequired_pos (by omega)) (by rw [hn]; exact hex)

/-- The header `appendData` puts in front of a string. -/
def dataHeader (s : Bytes) : Bytes :=
  match s with
  | [b] => if b.toNat < c_rlpDataImmLenStart then []
    else header c_rlpDataImmLenStart c_rlpDataIndLenZero 1
  | _ => header c_rlpDataImmLenStart c_rlpDataIndLenZero s.length

theorem appendData_eq (s : Bytes) : appendData s = dataHeader s ++ s := by
  unfold appendData dataHeader
  split
  · split <;> rfl
  · rfl

theorem extent_data (s tail : Bytes) (hfit : s.length < 2 ^ 64 - 1 - 0x100) :
    extent (appendData s ++ tail) = some ((dataHeader s).length, s.length) := by
  rw [appendData_eq, List.append_assoc]
  unfold dataHeader
  split
  case h_1 b =>
    split
    case isTrue h =>
      have h' : b.toNat < c_rlpDataImmLenStart := h
      simp [extent, h']
    case isFalse h =>
      rw [header_short _ _ (show 1 < 56 by decide)]
      exact extent_data_short rfl (show 1 < 56 by decide) fun _ => ⟨b, rfl, h⟩
  case h_2 hs =>
    by_cases h : s.length < 56
    · rw [header_short _ _ h]
      refine extent_data_short (toNat_ofNat (by unfold c_rlpDataImmLenStart; omega)) h fun h1 => ?_
      obtain ⟨b, rfl⟩ := List.length_eq_one_iff.mp h1
      exact (hs b rfl).elim
    · have hbr : bytesRequired s.length ≤ 8 := bytesRequired_le (by omega)
      have hn : (UInt8.ofNat (c_rlpDataIndLenZero + bytesRequired s.length)).toNat =
          0xb7 + bytesRequired s.length := toNat_ofNat (by unfold c_rlpDataIndLenZero; omega)
      have hex := explicitLength_header 0xb7 (.inl rfl) (not_lt.mp h) hfit (s ++ tail)
      rw [header_long _ _ h, List.length_cons, toCompactBigEndian_length,
        Nat.add_comm (bytesRequired s.length) 1]
      exact extent_data_long hn (bytesRequired_pos (by omega)) hbr (by rw [hn]; exact hex)

theorem head_header {immStart indZero len : Nat} (tail : Bytes) :
    (header immStart indZero len ++ tail).head? = some (UInt8.ofNat
      (if len < c_rlpImmLenCount then immStart + len else indZero + bytesRequired len)) := by
  unfold header
  split <;> rfl

theorem head_appendList (payload tail : Bytes) (hfit : payload.length < 2 ^ 64 - 1 - 0x100) :
    ∃ b, (appendList payload ++ tail).head? = some b ∧ ¬ b.toNat < c_rlpListStart := by
  have hbr : bytesRequired payload.length ≤ 8 := bytesRequired_le (by omega)
  refine ⟨_, by rw [appendList, List.append_assoc, head_header], ?_⟩
  unfold c_rlpImmLenCount c_rlpListStart c_rlpListIndLenZero
  split <;> rw [toNat_ofNat (by omega)] <;> omega

theorem head_appendData (s tail : Bytes) (hfit : s.length < 2 ^ 64 - 1 - 0x100) :
    ∃ b, (appendData s ++ tail).head? = some b ∧ b.toNat < c_rlpListStart := by
  have hbr : bytesRequired s.length ≤ 8 := bytesRequired_le (by omega)
  rw [appendData_eq, List.append_assoc]
  unfold dataHeader
  split
  case h_1 b =>
    split
    case isTrue h =>
      refine ⟨b, rfl, ?_⟩
      unfold c_rlpDataImmLenStart at h
      unfold c_rlpListStart
      omega
    case isFalse =>
      refine ⟨_, head_header _, ?_⟩
      decide
  case h_2 =>
    refine ⟨_, head_header _, ?_⟩
    unfold c_rlpImmLenCount c_rlpListStart c_rlpDataImmLenStart c_rlpDataIndLenZero
    split <;> rw [toNat_ofNat (by omega)] <;> omega

theorem drop_take_middle (h p t : Bytes) :
    ((h ++ p ++ t).drop h.length).take p.length = p ∧ (h ++ p ++ t).drop (h.length + p.length) = t := by
  constructor
  · rw [List.append_assoc, List.drop_left, List.take_left]
  · rw [← List.length_append, List.drop_left]

mutual
theorem decodeItem_encode (i : RLP) (tail : Bytes) (fuel : Nat)
    (hfit : i.encode.length < 2 ^ 64 - 1 - 0x100) (hfuel : 2 * i.encode.length ≤ fuel) :
    decodeItem fuel (i.encode ++ tail) = some (i, tail) := by
  obtain ⟨fuel, rfl⟩ : ∃ f, fuel = f + 1 :=
    ⟨fuel - 1, by have := encode_length_pos i; omega⟩
  cases i with
  | data s =>
    simp only [encode] at hfit hfuel ⊢
    have hs : s.length < 2 ^ 64 - 1 - 0x100 := (appendData_length_le s).trans_lt hfit
    obtain ⟨b, hb, hlt⟩ := head_appendData s tail hs
    obtain ⟨hmid, hrest⟩ := drop_take_middle (dataHeader s) s tail
    rw [← appendData_eq] at hmid hrest
    have hlen : ¬ (appendData s ++ tail).length < (dataHeader s).length + s.length := by
      rw [appendData_eq]
      simp only [List.length_append]
      omega
    simp only [decodeItem, extent_data s tail hs, Option.bind_eq_bind, Option.bind_some, hb,
      Option.all_some, hlt, hmid, hrest, hlen, if_false, decide_true, if_true]
  | list l =>
    simp only [encode] at hfit hfuel ⊢
    have hhead := header_length_pos c_rlpListStart c_rlpListIndLenZero (encodeItems l).length
    have hll : (appendList (encodeItems l)).length =
        (header c_rlpListStart c_rlpListIndLenZero (encodeItems l).length).length +
          (encodeItems l).length := by rw [appendList, List.length_append]
    have hs : (encodeItems l).length < 2 ^ 64 - 1 - 0x100 := by omega
    obtain ⟨b, hb, hge⟩ := head_appendList (encodeItems l) tail hs
    obtain ⟨hmid, hrest⟩ := drop_take_middle
      (header c_rlpListStart c_rlpListIndLenZero (encodeItems l).length) (encodeItems l) tail
    rw [← appendList] at hmid hrest
    have hlen : ¬ (appendList (encodeItems l) ++ tail).length <
        (header c_rlpListStart c_rlpListIndLenZero (encodeItems l).length).length +
          (encodeItems l).length := by
      rw [List.length_append]
      omega
    have hitems := decodeItems_encode l fuel hs (by omega)
    simp only [decodeItem, extent_list _ tail hs, Option.bind_eq_bind, Option.bind_some, hb,
      Option.all_some, hge, hmid, hrest, hlen, if_false, decide_false, Bool.false_eq_true, hitems,
      Option.map_some]

theorem decodeItems_encode (l : List RLP) (fuel : Nat)
    (hfit : (encodeItems l).length < 2 ^ 64 - 1 - 0x100)
    (hfuel : 2 * (encodeItems l).length + 1 ≤ fuel) :
    decodeItems fuel (encodeItems l) = some l := by
  obtain ⟨fuel, rfl⟩ : ∃ f, fuel = f + 1 := ⟨fuel - 1, by omega⟩
  cases l with
  | nil => simp [encodeItems, decodeItems]
  | cons i l =>
    simp only [encodeItems, List.length_append] at hfit hfuel ⊢
    have hpos := encode_length_pos i
    have hne : i.encode ++ encodeItems l ≠ [] := by
      intro h
      have := congrArg List.length h
      simp only [List.length_append, List.length_nil] at this
      omega
    have hi := decodeItem_encode i (encodeItems l) fuel (by omega) (by omega)
    have hl := decodeItems_encode l fuel (by omega) (by omega)
    simp only [decodeItems, hne, if_false, hi, hl, Option.bind_eq_bind, Option.bind_some]
end

/-- Reading what was written gives the item back. -/
theorem decode_encode (i : RLP) (h : Fits i.encode) : decode i.encode = some i := by
  have := decodeItem_encode i [] (2 * i.encode.length + 1) h (by omega)
  rw [List.append_nil] at this
  simp only [decode, this]

end RLP
end Aleth.Devcore
