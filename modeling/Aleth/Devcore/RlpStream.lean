import Aleth.Devcore.Rlp

/-! Writing recursive length prefix data (`RLPStream`).

A list is announced by its number of items and gets its header when the last of
them has been appended: `noteAppended` closes every list that is complete then,
innermost first, by shifting what was written since its start. Writing an item
therefore comes to appending its encoding and noting one item (`write_eq`). -/
namespace Aleth.Devcore

/-- What `RLP` and `RLPStream` throw. -/
inductive RLPException where
  | badCast
  | badRLP
  | oversizeRLP
  | undersizeRLP
  | itemCountTooLarge
  | itemCountTooLargeForRLP
  | numberTooLarge
  | countTooLarge
  /-- A write in front of the buffer. -/
  | undefined
  | nontermination
deriving DecidableEq

/-- The back of `m_listStack` comes first: items still to come, and where the list starts. -/
structure RLPStream where
  m_out : Bytes
  m_listStack : List (ℕ × ℕ)
deriving DecidableEq

namespace RLPStream

def empty : RLPStream := ⟨[], []⟩

/-- The header of a list of `s` bytes. -/
def listHeader (s : ℕ) : Except RLPException Bytes :=
  if s < c_rlpImmLenCount then .ok [UInt8.ofNat (c_rlpListStart + s)]
  else if c_rlpListIndLenZero + bytesRequired s ≤ 0xff then
    .ok (UInt8.ofNat (c_rlpListIndLenZero + bytesRequired s) :: toCompactBigEndian s)
  else .error .itemCountTooLargeForRLP

/-- The loop of `noteAppended`: a list that is complete is an item of the next one. -/
def complete : (itemCount : ℕ) → Bytes → List (ℕ × ℕ) → Except RLPException RLPStream
  | _, m_out, [] => .ok ⟨m_out, []⟩
  | itemCount, m_out, (count, p) :: m_listStack =>
    if count < itemCount then .error .itemCountTooLarge
    else if count - itemCount ≠ 0 then .ok ⟨m_out, (count - itemCount, p) :: m_listStack⟩
    else do
      let header ← listHeader (m_out.length - p)
      complete 1 (m_out.take p ++ header ++ m_out.drop p) m_listStack

def noteAppended (itemCount : ℕ) (s : RLPStream) : Except RLPException RLPStream :=
  if itemCount = 0 then .ok s else complete itemCount s.m_out s.m_listStack

def appendRaw (d : Bytes) (itemCount : ℕ) (s : RLPStream) : Except RLPException RLPStream :=
  noteAppended itemCount {s with m_out := s.m_out ++ d}

/-- The bytes of a number, written from the last one down. -/
def writeDown (i : ℕ) : Bytes → Except RLPException Bytes
  | [] => if i = 0 then .ok [] else .error .undefined
  | x :: rev =>
    if i = 0 then .ok (x :: rev)
    else do return UInt8.ofNat (i % 256) :: (← writeDown (i / 256) rev)

def pushInt (i br : ℕ) (s : RLPStream) : Except RLPException RLPStream := do
  let rev ← writeDown i (s.m_out ++ List.replicate br 0).reverse
  return {s with m_out := rev.reverse}

def pushByte (n : ℕ) (s : RLPStream) : RLPStream := {s with m_out := s.m_out ++ [UInt8.ofNat n]}

def pushCount (count base : ℕ) (s : RLPStream) : Except RLPException RLPStream :=
  if 0xff < bytesRequired count + base then .error .countTooLarge
  else pushInt count (bytesRequired count) (s.pushByte (bytesRequired count + base))

/-- A short count is part of the first byte. -/
def pushHeader (count immStart indZero : ℕ) (s : RLPStream) : Except RLPException RLPStream :=
  if count < c_rlpImmLenCount then .ok (s.pushByte (count + immStart))
  else pushCount count indZero s

/-- `append(bytesConstRef, compact)`. -/
def append (b : Bytes) (compact : Bool) (s : RLPStream) : Except RLPException RLPStream :=
  let d := if compact then b.dropWhile (· = 0) else b
  if d.length = 1 ∧ d.headD 0 < UInt8.ofNat c_rlpDataImmLenStart then
    noteAppended 1 {s with m_out := s.m_out ++ d}
  else do
    let s ← pushHeader d.length c_rlpDataImmLenStart c_rlpDataIndLenZero s
    noteAppended 1 (← appendRaw d 0 s)

/-- What `append(bigint)` puts in front of a number of `br` bytes. -/
def pushIntHeader (br : ℕ) (s : RLPStream) : Except RLPException RLPStream :=
  if br < c_rlpImmLenCount then .ok (s.pushByte (br + c_rlpDataImmLenStart))
  else if 0xff < c_rlpDataIndLenZero + bytesRequired br then .error .numberTooLarge
  else pushInt br (bytesRequired br) (s.pushByte (c_rlpDataIndLenZero + bytesRequired br))

/-- `append(bigint)`; the number of bytes is an `unsigned`. -/
def appendInt (i : ℕ) (s : RLPStream) : Except RLPException RLPStream :=
  if i = 0 then noteAppended 1 (s.pushByte c_rlpDataImmLenStart)
  else if i < c_rlpDataImmLenStart then noteAppended 1 (s.pushByte i)
  else do
    let br := bytesRequired i % 2 ^ 32
    let s ← pushIntHeader br s
    noteAppended 1 (← pushInt i br s)

/-- `appendList(bytesConstRef)`. -/
def appendListBytes (rlp : Bytes) (s : RLPStream) : Except RLPException RLPStream := do
  appendRaw rlp 1 (← pushHeader rlp.length c_rlpListStart c_rlpListIndLenZero s)

/-- `appendList(size_t)`. -/
def appendList (items : ℕ) (s : RLPStream) : Except RLPException RLPStream :=
  if items ≠ 0 then .ok {s with m_listStack := (items, s.m_out.length) :: s.m_listStack}
  else appendListBytes [] s

def out (s : RLPStream) : Except RLPException Bytes :=
  if s.m_listStack ≠ [] then .error .itemCountTooLarge else .ok s.m_out

/-- What a caller appends. -/
inductive Item where
  | data (s : Bytes)
  | int (i : ℕ)
  | list (l : List Item)

mutual
def write : Item → RLPStream → Except RLPException RLPStream
  | .data d, s => append d false s
  | .int i, s => appendInt i s
  | .list l, s => do writeItems l (← appendList l.length s)

def writeItems : List Item → RLPStream → Except RLPException RLPStream
  | [], s => .ok s
  | i :: l, s => do writeItems l (← write i s)
end

/-! ### The encoding -/

namespace Item

mutual
/-- The structure that the item is written as: a number is the string of its bytes. -/
def toRLP : Item → RLP
  | .data d => .data d
  | .int i => .data (toCompactBigEndian i)
  | .list l => .list (toRLPs l)

def toRLPs : List Item → List RLP
  | [] => []
  | i :: l => i.toRLP :: toRLPs l
end

mutual
/-- The numbers in it have less than 2^32 bytes. -/
def Small : Item → Prop
  | .data _ => True
  | .int i => bytesRequired i < 2 ^ 32
  | .list l => Smalls l

def Smalls : List Item → Prop
  | [] => True
  | i :: l => i.Small ∧ Smalls l
end

theorem toRLPs_eq_map (l : List Item) : toRLPs l = l.map toRLP := by
  induction l with
  | nil => rfl
  | cons i l ih => rw [toRLPs, ih, List.map_cons]

end Item

theorem bind_ok {ε α : Type} (x : Except ε α) : (x >>= fun s => Except.ok s) = x := by
  cases x <;> rfl

@[simp] theorem noteAppended_one (s : RLPStream) :
    noteAppended 1 s = complete 1 s.m_out s.m_listStack := rfl

theorem listHeader_eq {n : ℕ} (h : n < 2 ^ 64) :
    listHeader n = .ok (header c_rlpListStart c_rlpListIndLenZero n) := by
  have hbr : bytesRequired n ≤ 8 := bytesRequired_le (by omega)
  unfold listHeader header
  split
  · rfl
  · rw [if_pos (by unfold c_rlpListIndLenZero; omega)]

theorem toBigEndian_zero (br : ℕ) : toBigEndian br 0 = List.replicate br 0 := by
  induction br with
  | zero => rfl
  | succ br ih =>
    rw [toBigEndian, Nat.zero_div, ih, List.replicate_succ']
    rfl

theorem writeDown_eq {i br : ℕ} (h : i < 256 ^ br) (rev : Bytes) :
    writeDown i (List.replicate br 0 ++ rev) = .ok ((toBigEndian br i).reverse ++ rev) := by
  induction br generalizing i with
  | zero =>
    have hi : i = 0 := by simpa using h
    subst hi
    cases rev <;> rfl
  | succ br ih =>
    by_cases hi : i = 0
    · subst hi
      rw [toBigEndian_zero, List.reverse_replicate]
      rfl
    · have hlt : i / 256 < 256 ^ br := by
        rw [Nat.div_lt_iff_lt_mul (by decide), ← Nat.pow_succ]
        exact h
      rw [List.replicate_succ, List.cons_append, writeDown, if_neg hi, ih hlt, toBigEndian,
        List.reverse_append]
      rfl

theorem pushInt_eq {i br : ℕ} (h : i < 256 ^ br) (s : RLPStream) :
    pushInt i br s = .ok {s with m_out := s.m_out ++ toBigEndian br i} := by
  unfold pushInt
  rw [List.reverse_append, List.reverse_replicate, writeDown_eq h]
  show Except.ok _ = _
  rw [List.reverse_append, List.reverse_reverse, List.reverse_reverse]

theorem pushCount_eq {n base : ℕ} (h : n < 2 ^ 64) (hbase : base ≤ 0xf7) (s : RLPStream) :
    pushCount n base s = .ok {s with
      m_out := s.m_out ++ UInt8.ofNat (base + bytesRequired n) :: toCompactBigEndian n} := by
  have hbr : bytesRequired n ≤ 8 := bytesRequired_le (by omega)
  unfold pushCount
  rw [if_neg (by omega), pushInt_eq (lt_pow_bytesRequired n), pushByte, List.append_assoc,
    Nat.add_comm]
  rfl

theorem pushHeader_eq {n immStart indZero : ℕ} (h : n < 2 ^ 64) (hind : indZero ≤ 0xf7)
    (s : RLPStream) :
    pushHeader n immStart indZero s =
      .ok {s with m_out := s.m_out ++ header immStart indZero n} := by
  unfold pushHeader header
  split
  · rw [pushByte, Nat.add_comm]
  · exact pushCount_eq h hind s

theorem pushIntHeader_eq {br : ℕ} (h : br < 2 ^ 64) (s : RLPStream) :
    pushIntHeader br s = .ok {s with
      m_out := s.m_out ++ header c_rlpDataImmLenStart c_rlpDataIndLenZero br} := by
  have hbr : bytesRequired br ≤ 8 := bytesRequired_le (by omega)
  rw [← pushHeader_eq h (by decide), pushIntHeader, pushHeader, pushCount,
    Nat.add_comm c_rlpDataIndLenZero]
  have hn : ¬0xff < bytesRequired br + c_rlpDataIndLenZero := by
    unfold c_rlpDataIndLenZero
    omega
  simp only [if_neg hn]

theorem lt_of_uint8 {x : UInt8} : x < UInt8.ofNat c_rlpDataImmLenStart ↔
    x.toNat < c_rlpDataImmLenStart := by
  rw [UInt8.lt_iff_toNat_lt]
  rfl

theorem append_eq {d : Bytes} (h : d.length < 2 ^ 64) (s : RLPStream) :
    append d false s = noteAppended 1 {s with m_out := s.m_out ++ appendData d} := by
  have hhead : (pushHeader d.length c_rlpDataImmLenStart c_rlpDataIndLenZero s >>= fun s =>
      appendRaw d 0 s >>= fun s => noteAppended 1 s) = noteAppended 1 {s with
        m_out := s.m_out ++ (header c_rlpDataImmLenStart c_rlpDataIndLenZero d.length ++ d)} := by
    rw [pushHeader_eq h (by decide), ← List.append_assoc]
    rfl
  unfold append
  simp only [Bool.false_eq_true, if_false]
  rw [hhead]
  cases d with
  | nil =>
    rw [if_neg (by simp)]
    rfl
  | cons b d =>
    cases d with
    | nil =>
      rw [List.headD_cons, List.length_singleton, appendData]
      by_cases hb : b.toNat < c_rlpDataImmLenStart
      · rw [if_pos ⟨rfl, lt_of_uint8.mpr hb⟩, if_pos hb]
      · rw [if_neg fun hc => hb (lt_of_uint8.mp hc.2), if_neg hb]
    | cons c d =>
      rw [if_neg (by simp)]
      rfl

theorem appendInt_eq {i : ℕ} (h : bytesRequired i < 2 ^ 32) (s : RLPStream) :
    appendInt i s =
      noteAppended 1 {s with m_out := s.m_out ++ appendData (toCompactBigEndian i)} := by
  unfold appendInt
  by_cases h0 : i = 0
  · rw [if_pos h0, h0]
    rfl
  · rw [if_neg h0]
    have hlen := toCompactBigEndian_length i
    by_cases h1 : i < c_rlpDataImmLenStart
    · have hbr : bytesRequired i = 1 := by
        have hpos := bytesRequired_pos h0
        have hle : bytesRequired i ≤ 1 := bytesRequired_le (by unfold c_rlpDataImmLenStart at h1; omega)
        omega
      have hb : toCompactBigEndian i = [UInt8.ofNat i] := by
        unfold c_rlpDataImmLenStart at h1
        rw [toCompactBigEndian, hbr, toBigEndian, Nat.mod_eq_of_lt (show i < 256 by omega)]
        rfl
      have hn : (UInt8.ofNat i).toNat < c_rlpDataImmLenStart := by
        rw [UInt8.toNat_ofNat', Nat.mod_eq_of_lt (by unfold c_rlpDataImmLenStart at h1; omega)]
        exact h1
      rw [if_pos h1, hb, appendData, if_pos hn, pushByte]
    · rw [if_neg h1]
      have hdata : appendData (toCompactBigEndian i) =
          header c_rlpDataImmLenStart c_rlpDataIndLenZero (bytesRequired i) ++
            toCompactBigEndian i := by
        unfold appendData
        split
        case h_1 b hb =>
          have hi := fromBigEndian_toCompactBigEndian i
          rw [hb] at hi hlen
          have hbi : b.toNat = i := by simpa [fromBigEndian] using hi
          rw [if_neg (by rw [hbi]; exact h1), ← hlen, hb]
          rfl
        case h_2 => rw [hlen]
      rw [Nat.mod_eq_of_lt h]
      show (pushIntHeader (bytesRequired i) s >>= fun s =>
        pushInt i (bytesRequired i) s >>= fun s => noteAppended 1 s) = _
      rw [pushIntHeader_eq (by omega)]
      show (pushInt i (bytesRequired i) _ >>= fun s => noteAppended 1 s) = _
      rw [pushInt_eq (lt_pow_bytesRequired i), hdata, ← List.append_assoc]
      rfl

/-- A list is closed by its last item, which completes it. -/
theorem complete_list {payload : Bytes} (h : payload.length < 2 ^ 64) (m_out : Bytes)
    (stack : List (ℕ × ℕ)) :
    complete 1 (m_out ++ payload) ((1, m_out.length) :: stack) =
      complete 1 (m_out ++ Devcore.appendList payload) stack := by
  rw [complete, if_neg (by omega), if_neg (by omega), List.length_append, Nat.add_sub_cancel_left,
    listHeader_eq h, List.take_left, List.drop_left]
  show complete 1 (m_out ++ header c_rlpListStart c_rlpListIndLenZero payload.length ++ payload)
    stack = _
  rw [List.append_assoc, Devcore.appendList]

mutual
/-- Writing an item is appending its encoding, and noting that. -/
theorem write_eq (i : Item) (hs : i.Small) (h : i.toRLP.encode.length < 2 ^ 64) (s : RLPStream) :
    write i s = noteAppended 1 {s with m_out := s.m_out ++ i.toRLP.encode} := by
  cases i with
  | data d =>
    rw [write]
    rw [Item.toRLP, RLP.encode] at h ⊢
    exact append_eq ((RLP.appendData_length_le d).trans_lt h) s
  | int n =>
    rw [write]
    exact appendInt_eq hs s
  | list l =>
    rw [write]
    rw [Item.toRLP, RLP.encode] at h ⊢
    have hl : (RLP.encodeItems (Item.toRLPs l)).length < 2 ^ 64 := by
      rw [Devcore.appendList, List.length_append] at h
      omega
    cases hnil : l with
    | nil =>
      show (appendListBytes [] s >>= fun s => Except.ok s) = _
      rw [bind_ok]
      show noteAppended 1 ⟨s.m_out ++ [UInt8.ofNat c_rlpListStart] ++ [], s.m_listStack⟩ = _
      rw [List.append_assoc]
      rfl
    | cons i l' =>
      rw [← hnil]
      show (appendList l.length s >>= fun s => writeItems l s) = _
      have hne : l.length ≠ 0 := by simp [hnil]
      rw [appendList, if_pos hne]
      show writeItems l ⟨s.m_out, (l.length, s.m_out.length) :: s.m_listStack⟩ = _
      rw [writeItems_eq l (by simp [hnil]) hs hl]
      exact complete_list hl s.m_out s.m_listStack

theorem writeItems_eq (l : List Item) (hne : l ≠ []) (hs : Item.Smalls l)
    (h : (RLP.encodeItems (Item.toRLPs l)).length < 2 ^ 64) (m_out : Bytes) (p : ℕ)
    (stack : List (ℕ × ℕ)) :
    writeItems l ⟨m_out, (l.length, p) :: stack⟩ =
      complete 1 (m_out ++ RLP.encodeItems (Item.toRLPs l)) ((1, p) :: stack) := by
  cases l with
  | nil => exact absurd rfl hne
  | cons i l =>
    rw [Item.toRLPs, RLP.encodeItems, List.length_append] at h
    rw [writeItems, write_eq i hs.1 (by omega), Item.toRLPs, RLP.encodeItems]
    cases hnil : l with
    | nil =>
      rw [Item.toRLPs, RLP.encodeItems, List.append_nil, noteAppended_one]
      show (complete 1 (m_out ++ i.toRLP.encode) ((1, p) :: stack) >>= fun s => Except.ok s) = _
      exact bind_ok _
    | cons j l' =>
      rw [← hnil]
      have hpos : 0 < l.length := by simp [hnil]
      have hone : complete 1 (m_out ++ i.toRLP.encode) ((l.length + 1, p) :: stack) =
          .ok ⟨m_out ++ i.toRLP.encode, (l.length, p) :: stack⟩ := by
        rw [complete, if_neg (by omega), if_pos (by omega), Nat.add_sub_cancel]
      show (complete 1 (m_out ++ i.toRLP.encode) ((l.length + 1, p) :: stack) >>=
        fun s => writeItems l s) = _
      rw [hone]
      show writeItems l ⟨m_out ++ i.toRLP.encode, (l.length, p) :: stack⟩ = _
      rw [writeItems_eq l (by simp [hnil]) hs.2 (by omega), List.append_assoc]
end

/-- The stream holds the encoding, and no list is left open. -/
theorem write_empty {i : Item} (hs : i.Small) (h : i.toRLP.encode.length < 2 ^ 64) :
    write i empty = .ok ⟨i.toRLP.encode, []⟩ := by
  rw [write_eq i hs h]
  rfl

end RLPStream
end Aleth.Devcore
