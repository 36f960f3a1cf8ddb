import Aleth.Devcore.Bytes
import Mathlib.Tactic

/-! Base 64 (`Base64.cpp`).

Both directions are loops that fill an array and turn it over when it is full:
three bytes into four digits, four digits into three bytes. `fromBase64` counts
the digits with an `int`; `fromBase64_toBase64` is the way there and back, and
says for which data that count is enough. -/
namespace Aleth.Devcore.Base64

/-! ### The code -/

def isalnum (c : UInt8) : Bool :=
  (0x30 ≤ c && c ≤ 0x39) || (0x41 ≤ c && c ≤ 0x5a) || (0x61 ≤ c && c ≤ 0x7a)

/-- `+` and `/` are digits, too. -/
def is_base64 (c : UInt8) : Bool := isalnum c || c = 0x2b || c = 0x2f

/-- One behind the last digit for a character that is none. -/
def find_base64_char_index (c : UInt8) : UInt8 :=
  if 0x41 ≤ c ∧ c ≤ 0x5a then c - 0x41
  else if 0x61 ≤ c ∧ c ≤ 0x7a then c - 0x61 + 1 + 25
  else if 0x30 ≤ c ∧ c ≤ 0x39 then c - 0x30 + 1 + 51
  else if c = 0x2b then 1 + 61
  else if c = 0x2f then 1 + 62
  else 1 + 63

def base64_chars : Bytes :=
  (List.range' 0x41 26 ++ List.range' 0x61 26 ++ List.range' 0x30 10 ++ [0x2b, 0x2f]).map
    UInt8.ofNat

/-- `=`. -/
def filling : UInt8 := 0x3d

/-- `char_array_4` of the bytes in `char_array_3`. -/
def indexes (c0 c1 c2 : UInt8) : Bytes :=
  [(c0 &&& 0xfc) >>> 2, ((c0 &&& 0x03) <<< 4) + ((c1 &&& 0xf0) >>> 4),
    ((c1 &&& 0x0f) <<< 2) + ((c2 &&& 0xc0) >>> 6), c2 &&& 0x3f]

/-- `char_array_3` of the indexes in `char_array_4`. -/
def octets (c0 c1 c2 c3 : UInt8) : Bytes :=
  [(c0 <<< 2) + ((c1 &&& 0x30) >>> 4), ((c1 &&& 0xf) <<< 4) + ((c2 &&& 0x3c) >>> 2),
    ((c2 &&& 0x3) <<< 6) + c3]

def digit (index : UInt8) : UInt8 := base64_chars.getD index.toNat 0

/-- The array that is being filled, up to `i`, and what has been written. -/
structure Filling where
  char_array : Bytes
  ret : Bytes

def encodeTurn (s : Filling) (b : UInt8) : Filling :=
  match s.char_array with
  | [c0, c1] => ⟨[], s.ret ++ (indexes c0 c1 b).map digit⟩
  | _ => ⟨s.char_array ++ [b], s.ret⟩

/-- What is left in the array, filled up with zeros. -/
def encodeRest (char_array : Bytes) : Bytes :=
  ((indexes (char_array.getD 0 0) (char_array.getD 1 0) (char_array.getD 2 0)).map digit).take
    (char_array.length + 1) ++ List.replicate (3 - char_array.length) filling

def encodeFinish (s : Filling) : Bytes :=
  if s.char_array = [] then s.ret else s.ret ++ encodeRest s.char_array

def toBase64 (data : Bytes) : Bytes := encodeFinish (data.foldl encodeTurn ⟨[], []⟩)

def decodeTurn (s : Filling) (c : UInt8) : Filling :=
  match s.char_array with
  | [c0, c1, c2] =>
    ⟨[], s.ret ++ octets (find_base64_char_index c0) (find_base64_char_index c1)
      (find_base64_char_index c2) (find_base64_char_index c)⟩
  | _ => ⟨s.char_array ++ [c], s.ret⟩

/-- The zeros that fill the array are no digits. -/
def decodeRest (char_array : Bytes) : Bytes :=
  (octets (find_base64_char_index (char_array.getD 0 0))
    (find_base64_char_index (char_array.getD 1 0)) (find_base64_char_index (char_array.getD 2 0))
    (find_base64_char_index (char_array.getD 3 0))).take (char_array.length - 1)

def isDigit (c : UInt8) : Bool := c ≠ filling && is_base64 c

/-- The loop; nothing where `in_` gets larger than an `int`. -/
def decodeLoop : Bytes → (in_ : ℕ) → Filling → Option Filling
  | [], _, s => some s
  | c :: encoded, in_, s =>
    if isDigit c then
      if in_ + 1 < 2 ^ 31 then decodeLoop encoded (in_ + 1) (decodeTurn s c) else none
    else some s

def decodeFinish (s : Filling) : Bytes :=
  if s.char_array = [] then s.ret else s.ret ++ decodeRest s.char_array

def fromBase64 (encoded : Bytes) : Option Bytes := (decodeLoop encoded 0 ⟨[], []⟩).map decodeFinish

/-! ### Three bytes and four digits -/

theorem of_ofNat {p : UInt8 → Prop} (h : ∀ n < 256, p (UInt8.ofNat n)) (c : UInt8) : p c := by
  have hc := h c.toNat c.toNat_lt
  rwa [UInt8.ofNat_toNat] at hc

theorem digit_spec {i : UInt8} (h : i.toNat < 64) :
    find_base64_char_index (digit i) = i ∧ isDigit (digit i) = true := by
  have hall : ∀ n < 64, find_base64_char_index (digit (UInt8.ofNat n)) = UInt8.ofNat n ∧
      isDigit (digit (UInt8.ofNat n)) = true := by
    decide +kernel
  have hi := hall i.toNat h
  rwa [UInt8.ofNat_toNat] at hi

theorem find_digit {i : UInt8} (h : i.toNat < 64) : find_base64_char_index (digit i) = i :=
  (digit_spec h).1

/-- The bits of a byte that the indexes are made of. -/
theorem toNat_parts (c : UInt8) :
    ((c &&& 0xfc) >>> 2).toNat = c.toNat / 4 ∧ ((c &&& 0x03) <<< 4).toNat = c.toNat % 4 * 16 ∧
      ((c &&& 0xf0) >>> 4).toNat = c.toNat / 16 ∧ ((c &&& 0x0f) <<< 2).toNat = c.toNat % 16 * 4 ∧
      ((c &&& 0xc0) >>> 6).toNat = c.toNat / 64 ∧ (c &&& 0x3f).toNat = c.toNat % 64 := by
  revert c
  exact of_ofNat (by decide +kernel)

/-- The bits of an index that the bytes are made of. -/
theorem toNat_moved (c : UInt8) :
    (c <<< 2).toNat = c.toNat * 4 % 256 ∧ ((c &&& 0x30) >>> 4).toNat = c.toNat / 16 % 4 ∧
      ((c &&& 0xf) <<< 4).toNat = c.toNat % 16 * 16 ∧
      ((c &&& 0x3c) >>> 2).toNat = c.toNat / 4 % 16 ∧
      ((c &&& 0x3) <<< 6).toNat = c.toNat % 4 * 64 := by
  revert c
  exact of_ofNat (by decide +kernel)

theorem toNat_index0 (a : UInt8) : ((a &&& 0xfc) >>> 2).toNat = a.toNat / 4 := (toNat_parts a).1

/-- The second index has the last two bits of the first byte, and four of the second. -/
theorem toNat_index1 (a b : UInt8) :
    (((a &&& 0x03) <<< 4) + ((b &&& 0xf0) >>> 4)).toNat = a.toNat % 4 * 16 + b.toNat / 16 := by
  have hb := b.toNat_lt
  rw [UInt8.toNat_add, (toNat_parts a).2.1, (toNat_parts b).2.2.1]
  omega

theorem toNat_index2 (b c : UInt8) :
    (((b &&& 0x0f) <<< 2) + ((c &&& 0xc0) >>> 6)).toNat = b.toNat % 16 * 4 + c.toNat / 64 := by
  have hc := c.toNat_lt
  rw [UInt8.toNat_add, (toNat_parts b).2.2.2.1, (toNat_parts c).2.2.2.2.1]
  omega

theorem toNat_index3 (c : UInt8) : (c &&& 0x3f).toNat = c.toNat % 64 := (toNat_parts c).2.2.2.2.2

theorem index_lt (a b c : UInt8) :
    ((a &&& 0xfc) >>> 2).toNat < 64 ∧ (((a &&& 0x03) <<< 4) + ((b &&& 0xf0) >>> 4)).toNat < 64 ∧
      (((b &&& 0x0f) <<< 2) + ((c &&& 0xc0) >>> 6)).toNat < 64 ∧ (c &&& 0x3f).toNat < 64 := by
  have ha := a.toNat_lt
  have hb := b.toNat_lt
  have hc := c.toNat_lt
  rw [toNat_index0, toNat_index1, toNat_index2, toNat_index3]
  omega

theorem indexes_lt (a b c : UInt8) : ∀ i ∈ indexes a b c, i.toNat < 64 := by
  simp only [indexes, List.mem_cons, List.not_mem_nil, or_false, forall_eq_or_imp, forall_eq]
  exact index_lt a b c

theorem first_octet (a b : UInt8) :
    (((a &&& 0xfc) >>> 2) <<< 2) +
      (((((a &&& 0x03) <<< 4) + ((b &&& 0xf0) >>> 4)) &&& 0x30) >>> 4) = a := by
  have ha := a.toNat_lt
  have hb := b.toNat_lt
  have hbits : (a.toNat % 4 * 16 + b.toNat / 16) / 16 = a.toNat % 4 := by omega
  refine UInt8.toNat_inj.mp ?_
  rw [UInt8.toNat_add, (toNat_moved _).1, (toNat_moved _).2.1, toNat_index0, toNat_index1, hbits]
  omega

theorem second_octet (a b c : UInt8) :
    (((((a &&& 0x03) <<< 4) + ((b &&& 0xf0) >>> 4)) &&& 0xf) <<< 4) +
      (((((b &&& 0x0f) <<< 2) + ((c &&& 0xc0) >>> 6)) &&& 0x3c) >>> 2) = b := by
  have hb := b.toNat_lt
  have hc := c.toNat_lt
  have hhigh : (a.toNat % 4 * 16 + b.toNat / 16) % 16 = b.toNat / 16 := by omega
  have hlow : (b.toNat % 16 * 4 + c.toNat / 64) / 4 = b.toNat % 16 := by omega
  refine UInt8.toNat_inj.mp ?_
  rw [UInt8.toNat_add, (toNat_moved _).2.2.1, (toNat_moved _).2.2.2.1, toNat_index1, toNat_index2,
    hhigh, hlow]
  omega

theorem third_octet (b c : UInt8) :
    (((((b &&& 0x0f) <<< 2) + ((c &&& 0xc0) >>> 6)) &&& 0x3) <<< 6) + (c &&& 0x3f) = c := by
  have hc := c.toNat_lt
  have hbits : (b.toNat % 16 * 4 + c.toNat / 64) % 4 = c.toNat / 64 := by omega
  refine UInt8.toNat_inj.mp ?_
  rw [UInt8.toNat_add, (toNat_moved _).2.2.2.2, toNat_index2, toNat_index3, hbits]
  omega

/-! ### The loops, three bytes at a time -/

/-- The digits of the data, without what fills them up. -/
def digits : Bytes → Bytes
  | a :: b :: c :: rest => (indexes a b c).map digit ++ digits rest
  | [a, b] => ((indexes a b 0).map digit).take 3
  | [a] => ((indexes a 0 0).map digit).take 2
  | [] => []

def missing : Bytes → ℕ
  | _ :: _ :: _ :: rest => missing rest
  | [_, _] => 1
  | [_] => 2
  | [] => 0

theorem isDigit_digits (data : Bytes) : ∀ c ∈ digits data, isDigit c = true := by
  have hmap : ∀ a b c : UInt8, ∀ d ∈ (indexes a b c).map digit, isDigit d = true := by
    rintro a b c d hd
    obtain ⟨i, hi, rfl⟩ := List.mem_map.mp hd
    exact (digit_spec (indexes_lt a b c i hi)).2
  induction data using digits.induct with
  | case1 a b c rest ih =>
    rintro d hd
    rcases List.mem_append.mp hd with hfirst | hrest
    · exact hmap a b c d hfirst
    · exact ih d hrest
  | case2 a b => exact fun d hd => hmap a b 0 d (List.mem_of_mem_take hd)
  | case3 a => exact fun d hd => hmap a 0 0 d (List.mem_of_mem_take hd)
  | case4 => exact fun d hd => absurd hd List.not_mem_nil

theorem length_digits (data : Bytes) : (digits data).length = (4 * data.length + 2) / 3 := by
  induction data using digits.induct with
  | case1 a b c rest ih =>
    rw [digits, List.length_append, ih]
    simp only [indexes, List.map_cons, List.map_nil, List.length_cons, List.length_nil]
    omega
  | case2 a b => simp [digits, indexes]
  | case3 a => simp [digits, indexes]
  | case4 => rfl

theorem foldl_encodeTurn (data ret : Bytes) :
    encodeFinish (data.foldl encodeTurn ⟨[], ret⟩) =
      ret ++ (digits data ++ List.replicate (missing data) filling) := by
  induction data using digits.induct generalizing ret with
  | case1 a b c rest ih =>
    show encodeFinish (rest.foldl encodeTurn ⟨[], ret ++ (indexes a b c).map digit⟩) = _
    rw [ih, digits, missing, List.append_assoc, List.append_assoc]
  | case2 a b => rfl
  | case3 a => rfl
  | case4 => exact (List.append_nil ret).symm

theorem decodeTurns_indexes (a b c : UInt8) (ret : Bytes) :
    ((indexes a b c).map digit).foldl decodeTurn ⟨[], ret⟩ = ⟨[], ret ++ [a, b, c]⟩ := by
  obtain ⟨h0, h1, h2, h3⟩ := index_lt a b c
  simp only [indexes, List.map_cons, List.map_nil, List.foldl_cons, List.foldl_nil, decodeTurn,
    List.nil_append, List.cons_append, find_digit h0, find_digit h1, find_digit h2, find_digit h3,
    octets, first_octet, second_octet, third_octet]

/-- Three digits are enough for two bytes. -/
theorem decodeRest_three (a b c : UInt8) :
    decodeRest (((indexes a b c).map digit).take 3) = [a, b] := by
  obtain ⟨h0, h1, h2, -⟩ := index_lt a b c
  simp only [decodeRest, indexes, List.map_cons, List.take_succ_cons, List.take_zero,
    List.getD_cons_zero, List.getD_cons_succ, find_digit h0, find_digit h1, find_digit h2, octets,
    first_octet, second_octet]
  rfl

/-- Two digits are enough for one byte. -/
theorem decodeRest_two (a b c : UInt8) :
    decodeRest (((indexes a b c).map digit).take 2) = [a] := by
  obtain ⟨h0, h1, -, -⟩ := index_lt a b c
  simp only [decodeRest, indexes, List.map_cons, List.take_succ_cons, List.take_zero,
    List.getD_cons_zero, List.getD_cons_succ, find_digit h0, find_digit h1, octets, first_octet]
  rfl

theorem foldl_decodeTurn (data ret : Bytes) :
    decodeFinish ((digits data).foldl decodeTurn ⟨[], ret⟩) = ret ++ data := by
  induction data using digits.induct generalizing ret with
  | case1 a b c rest ih =>
    rw [digits, List.foldl_append, decodeTurns_indexes, ih, List.append_assoc]
    rfl
  | case2 a b => exact congrArg (ret ++ ·) (decodeRest_three a b 0)
  | case3 a => exact congrArg (ret ++ ·) (decodeRest_two a 0 0)
  | case4 => exact (List.append_nil ret).symm

theorem decodeLoop_eq {in_ : ℕ} (encoded : Bytes) (s : Filling) (h : in_ < 2 ^ 31) :
    decodeLoop encoded in_ s = if in_ + (encoded.takeWhile isDigit).length < 2 ^ 31
      then some ((encoded.takeWhile isDigit).foldl decodeTurn s) else none := by
  induction encoded generalizing in_ s with
  | nil => exact (if_pos h).symm
  | cons c encoded ih =>
    unfold decodeLoop
    by_cases hc : isDigit c = true
    · rw [if_pos hc, List.takeWhile_cons_of_pos hc, List.length_cons, List.foldl_cons]
      by_cases hin : in_ + 1 < 2 ^ 31
      · rw [if_pos hin, ih _ hin, Nat.add_assoc, Nat.add_comm 1]
      · rw [if_neg hin, if_neg (by omega)]
    · rw [if_neg hc, List.takeWhile_cons_of_neg hc]
      exact (if_pos h).symm

/-- Encoded data is decoded to what it was, if its digits can be counted. -/
theorem fromBase64_toBase64 (data : Bytes) :
    fromBase64 (toBase64 data) =
      if (4 * data.length + 2) / 3 < 2 ^ 31 then some data else none := by
  have henc : toBase64 data = digits data ++ List.replicate (missing data) filling := by
    rw [toBase64, foldl_encodeTurn, List.nil_append]
  have htake : (toBase64 data).takeWhile isDigit = digits data := by
    have hfill : (List.replicate (missing data) filling).takeWhile isDigit = [] := by
      cases missing data with
      | zero => rfl
      | succ n => rfl
    rw [henc, List.takeWhile_append_of_pos (isDigit_digits data), hfill, List.append_nil]
  rw [fromBase64, decodeLoop_eq _ _ (by norm_num), htake, length_digits, Nat.zero_add]
  split
  · rw [Option.map_some, foldl_decodeTurn, List.nil_append]
  · rfl

end Aleth.Devcore.Base64
