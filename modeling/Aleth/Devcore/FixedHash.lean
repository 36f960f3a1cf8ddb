import Aleth.Devcore.Hex
import Mathlib

/-! Hashes of a fixed size and those that are wiped (`FixedHash.h`).

`SecureFixedHash` forwards every operation to the `FixedHash` that it is made
of. Its `|=` and `&=` are forwarded to `^=`, with either kind of operand, and
`|` and `&` are made of those. `Coincides` compares an operation with the one of
the same name, `Unaffected` is when the two agree (`coincides_iff`). -/
namespace Aleth.Devcore.Hashes

/-- `ConstructFromHashType`. -/
inductive Alignment where
  | alignLeft
  | alignRight
  | failIfDifferent
deriving DecidableEq

/-- `ConstructFromStringType`. -/
inductive Notation where
  | fromHex
  | fromBinary
deriving DecidableEq

structure FixedHash (N : ℕ) where
  m_data : Vector UInt8 N
deriving DecidableEq

namespace FixedHash
variable {N M : ℕ}

/-! ### Constructors -/

def zero : FixedHash N := ⟨Vector.replicate N 0⟩

/-- The loop that copies `c` bytes of `source`, from the front or from the back. -/
def fill (source : Bytes) (c : ℕ) (t : Alignment) : FixedHash N :=
  ⟨(List.range c).foldl (fun m_data i => m_data.setIfInBounds
    (if t = .alignRight then N - 1 - i else i)
    (source.getD (if t = .alignRight then source.length - 1 - i else i) 0))
    (Vector.replicate N 0)⟩

/-- The number of bytes to be copied is an `unsigned`. -/
def ofBytes (b : Bytes) (t : Alignment) : FixedHash N :=
  if h : b.length = N then ⟨⟨b.toArray, h⟩⟩
  else if t ≠ .failIfDifferent then fill b (min (b.length % 2 ^ 32) N) t
  else zero

/-- From a hash of any size. -/
def ofHash (h : FixedHash M) (t : Alignment) : FixedHash N := fill h.m_data.toList (min M N) t

/-- From a pointer to as many bytes. -/
def ofPointer (bs : Vector UInt8 N) : FixedHash N := ⟨bs⟩

def ofString (s : Bytes) (t : Notation) (ht : Alignment) : Except HexError (FixedHash N) :=
  match t with
  | .fromHex => do return ofBytes (← Devcore.fromHex s) ht
  | .fromBinary => .ok (ofBytes s ht)

/-! ### Comparisons -/

def toBool (h : FixedHash N) : Bool := h.m_data.toList.any (· ≠ 0)

/-- `operator==`; the one for 32 bytes takes them eight at a time. -/
def eq (h c : FixedHash N) : Bool := h.m_data = c.m_data

def ne (h c : FixedHash N) : Bool := h.m_data ≠ c.m_data

/-- The loop of `operator<`. -/
def lessFrom : Bytes → Bytes → Bool
  | x :: xs, y :: ys => if x < y then true else if y < x then false else lessFrom xs ys
  | _, _ => false

def lt (h c : FixedHash N) : Bool := lessFrom h.m_data.toList c.m_data.toList

def ge (h c : FixedHash N) : Bool := !h.lt c

def le (h c : FixedHash N) : Bool := h.eq c || h.lt c

def gt (h c : FixedHash N) : Bool := !h.le c

/-! ### Bits -/

def xorAssign (h c : FixedHash N) : FixedHash N := ⟨h.m_data.zipWith (· ^^^ ·) c.m_data⟩

def xor (h c : FixedHash N) : FixedHash N := h.xorAssign c

def orAssign (h c : FixedHash N) : FixedHash N := ⟨h.m_data.zipWith (· ||| ·) c.m_data⟩

def or (h c : FixedHash N) : FixedHash N := h.orAssign c

def andAssign (h c : FixedHash N) : FixedHash N := ⟨h.m_data.zipWith (· &&& ·) c.m_data⟩

def and (h c : FixedHash N) : FixedHash N := h.andAssign c

def complement (h : FixedHash N) : FixedHash N := ⟨h.m_data.map (~~~ ·)⟩

/-- The loop that shifts a byte up to its highest bit. -/
def shiftUp : (fuel : ℕ) → (d : UInt8) → (ret : ℕ) → ℕ
  | 0, _, ret => ret
  | fuel + 1, d, ret => if d &&& 0x80 ≠ 0 then ret else shiftUp fuel (d <<< 1) (ret + 1)

def firstBitFrom : Bytes → (ret : ℕ) → ℕ
  | [], ret => ret
  | d :: ds, ret => if d ≠ 0 then shiftUp 8 d ret else firstBitFrom ds (ret + 8)

def firstBitSet (h : FixedHash N) : ℕ := firstBitFrom h.m_data.toList 0

end FixedHash

/-! ### SecureFixedHash -/

/-- The base class. -/
structure SecureFixedHash (N : ℕ) where
  base : FixedHash N
deriving DecidableEq

namespace SecureFixedHash
variable {N M : ℕ}

def makeInsecure (h : SecureFixedHash N) : FixedHash N := h.base

def ofBytes (b : Bytes) (t : Alignment) : SecureFixedHash N := ⟨.ofBytes b t⟩

/-- From a `bytesConstRef`. -/
def ofRef (b : Bytes) (t : Alignment) : SecureFixedHash N := ⟨.ofBytes b t⟩

/-- From a `bytesSec`. -/
def ofBytesSec (b : Bytes) (t : Alignment) : SecureFixedHash N := ⟨.ofBytes b t⟩

def ofHash (h : FixedHash M) (t : Alignment) : SecureFixedHash N := ⟨.ofHash h t⟩

def ofSecureHash (h : SecureFixedHash M) (t : Alignment) : SecureFixedHash N :=
  ⟨.ofHash h.makeInsecure t⟩

def ofString (s : Bytes) (t : Notation) (ht : Alignment) :
    Except HexError (SecureFixedHash N) := do
  return ⟨← FixedHash.ofString s t ht⟩

def ofPointer (d : Vector UInt8 N) : SecureFixedHash N := ⟨.ofPointer d⟩

/-- What was there before is wiped. -/
def assign (_ c : SecureFixedHash N) : SecureFixedHash N := ⟨c.base⟩

def toBool (h : SecureFixedHash N) : Bool := h.base.toBool

def eq (h c : SecureFixedHash N) : Bool := h.base.eq c.base
def ne (h c : SecureFixedHash N) : Bool := h.base.ne c.base
def lt (h c : SecureFixedHash N) : Bool := h.base.lt c.base
def ge (h c : SecureFixedHash N) : Bool := h.base.ge c.base
def le (h c : SecureFixedHash N) : Bool := h.base.le c.base
def gt (h c : SecureFixedHash N) : Bool := h.base.gt c.base

/-! The comparisons with a `FixedHash` are those of the base class. -/

def eqPlain (h : SecureFixedHash N) (c : FixedHash N) : Bool := h.base.eq c
def nePlain (h : SecureFixedHash N) (c : FixedHash N) : Bool := h.base.ne c
def ltPlain (h : SecureFixedHash N) (c : FixedHash N) : Bool := h.base.lt c
def gePlain (h : SecureFixedHash N) (c : FixedHash N) : Bool := h.base.ge c
def lePlain (h : SecureFixedHash N) (c : FixedHash N) : Bool := h.base.le c
def gtPlain (h : SecureFixedHash N) (c : FixedHash N) : Bool := h.base.gt c

/-! The operators with a `FixedHash`. -/

def xorAssignPlain (h : SecureFixedHash N) (c : FixedHash N) : SecureFixedHash N :=
  ⟨h.base.xorAssign c⟩

def xorPlain (h : SecureFixedHash N) (c : FixedHash N) : SecureFixedHash N := h.xorAssignPlain c

/-- The base class is asked for `^=`. -/
def orAssignPlain (h : SecureFixedHash N) (c : FixedHash N) : SecureFixedHash N :=
  ⟨h.base.xorAssign c⟩

def orPlain (h : SecureFixedHash N) (c : FixedHash N) : SecureFixedHash N := h.orAssignPlain c

/-- The base class is asked for `^=`. -/
def andAssignPlain (h : SecureFixedHash N) (c : FixedHash N) : SecureFixedHash N :=
  ⟨h.base.xorAssign c⟩

def andPlain (h : SecureFixedHash N) (c : FixedHash N) : SecureFixedHash N := h.andAssignPlain c

/-! The operators with a `SecureFixedHash`. -/

def xorAssign (h c : SecureFixedHash N) : SecureFixedHash N := ⟨h.base.xorAssign c.base⟩

def xor (h c : SecureFixedHash N) : SecureFixedHash N := h.xorAssign c

/-- The base class is asked for `^=`. -/
def orAssign (h c : SecureFixedHash N) : SecureFixedHash N := ⟨h.base.xorAssign c.base⟩

def or (h c : SecureFixedHash N) : SecureFixedHash N := h.orAssign c

/-- The base class is asked for `^=`. -/
def andAssign (h c : SecureFixedHash N) : SecureFixedHash N := ⟨h.base.xorAssign c.base⟩

def and (h c : SecureFixedHash N) : SecureFixedHash N := h.andAssign c

def complement (h : SecureFixedHash N) : SecureFixedHash N := ⟨h.base.complement⟩

def firstBitSet (h : SecureFixedHash N) : ℕ := h.base.firstBitSet

end SecureFixedHash

/-! ### The operations -/

/-- What a hash of `N` bytes is constructed from. -/
inductive Source (N : ℕ) where
  | bytes (b : Bytes) (t : Alignment)
  | ref (b : Bytes) (t : Alignment)
  | bytesSec (b : Bytes) (t : Alignment)
  | hash {M : ℕ} (h : FixedHash M) (t : Alignment)
  | secureHash {M : ℕ} (h : SecureFixedHash M) (t : Alignment)
  | string (s : Bytes) (t : Notation) (ht : Alignment)
  | pointer (d : Vector UInt8 N)

inductive Operand (N : ℕ) where
  | plain (c : FixedHash N)
  | secure (c : SecureFixedHash N)

namespace Operand
variable {N : ℕ} {α : Type}

def value : Operand N → FixedHash N
  | plain c => c
  | secure c => c.makeInsecure

/-- The overload for the operand. -/
def choose (forPlain : FixedHash N → α) (forSecure : SecureFixedHash N → α) : Operand N → α
  | plain c => forPlain c
  | secure c => forSecure c

end Operand

inductive Comparison where
  | eq
  | ne
  | lt
  | ge
  | le
  | gt
deriving DecidableEq

inductive Operator where
  | xor
  | or
  | and
deriving DecidableEq

/-- A call with its arguments, apart from the hash it is for. -/
inductive Operation (N : ℕ) where
  | construct (s : Source N)
  | assign (c : SecureFixedHash N)
  | toBool
  | compare (k : Comparison) (c : Operand N)
  | binary (k : Operator) (c : Operand N)
  | compound (k : Operator) (c : Operand N)
  | complement
  | firstBitSet

/-- What a call gives, in terms of the insecure values. -/
inductive Value (N : ℕ) where
  | hash (h : FixedHash N)
  | bool (b : Bool)
  | index (i : ℕ)
deriving DecidableEq

section Calls
variable {N : ℕ}

def FixedHash.construct : Source N → Except HexError (FixedHash N)
  | .bytes b t | .ref b t | .bytesSec b t => .ok (ofBytes b t)
  | .hash h t => .ok (ofHash h t)
  | .secureHash h t => .ok (ofHash h.makeInsecure t)
  | .string s t ht => ofString s t ht
  | .pointer d => .ok (ofPointer d)

def SecureFixedHash.construct : Source N → Except HexError (SecureFixedHash N)
  | .bytes b t => .ok (ofBytes b t)
  | .ref b t => .ok (ofRef b t)
  | .bytesSec b t => .ok (ofBytesSec b t)
  | .hash h t => .ok (ofHash h t)
  | .secureHash h t => .ok (ofSecureHash h t)
  | .string s t ht => ofString s t ht
  | .pointer d => .ok (ofPointer d)

def FixedHash.compare (h c : FixedHash N) : Comparison → Bool
  | .eq => h.eq c
  | .ne => h.ne c
  | .lt => h.lt c
  | .ge => h.ge c
  | .le => h.le c
  | .gt => h.gt c

def SecureFixedHash.compare (h : SecureFixedHash N) (c : Operand N) : Comparison → Bool
  | .eq => c.choose h.eqPlain h.eq
  | .ne => c.choose h.nePlain h.ne
  | .lt => c.choose h.ltPlain h.lt
  | .ge => c.choose h.gePlain h.ge
  | .le => c.choose h.lePlain h.le
  | .gt => c.choose h.gtPlain h.gt

def FixedHash.binary (h c : FixedHash N) : Operator → FixedHash N
  | .xor => h.xor c
  | .or => h.or c
  | .and => h.and c

def FixedHash.compound (h c : FixedHash N) : Operator → FixedHash N
  | .xor => h.xorAssign c
  | .or => h.orAssign c
  | .and => h.andAssign c

def SecureFixedHash.binary (h : SecureFixedHash N) (c : Operand N) : Operator → SecureFixedHash N
  | .xor => c.choose h.xorPlain h.xor
  | .or => c.choose h.orPlain h.or
  | .and => c.choose h.andPlain h.and

def SecureFixedHash.compound (h : SecureFixedHash N) (c : Operand N) :
    Operator → SecureFixedHash N
  | .xor => c.choose h.xorAssignPlain h.xorAssign
  | .or => c.choose h.orAssignPlain h.orAssign
  | .and => c.choose h.andAssignPlain h.andAssign

/-- The operation of the class `FixedHash`. -/
def FixedHash.call (h : FixedHash N) : Operation N → Except HexError (Value N)
  | .construct s => do return .hash (← construct s)
  | .assign c => .ok (.hash c.makeInsecure)
  | .toBool => .ok (.bool h.toBool)
  | .compare k c => .ok (.bool (h.compare c.value k))
  | .binary k c => .ok (.hash (h.binary c.value k))
  | .compound k c => .ok (.hash (h.compound c.value k))
  | .complement => .ok (.hash h.complement)
  | .firstBitSet => .ok (.index h.firstBitSet)

/-- The operation of the class `SecureFixedHash`. -/
def SecureFixedHash.call (h : SecureFixedHash N) : Operation N → Except HexError (Value N)
  | .construct s => do return .hash (← construct s).makeInsecure
  | .assign c => .ok (.hash (h.assign c).makeInsecure)
  | .toBool => .ok (.bool h.toBool)
  | .compare k c => .ok (.bool (h.compare c k))
  | .binary k c => .ok (.hash (h.binary c k).makeInsecure)
  | .compound k c => .ok (.hash (h.compound c k).makeInsecure)
  | .complement => .ok (.hash h.complement.makeInsecure)
  | .firstBitSet => .ok (.index h.firstBitSet)

/-- The operation gives what the one of the same name gives for the insecure values. -/
def Coincides (h : SecureFixedHash N) (op : Operation N) : Prop :=
  h.call op = h.makeInsecure.call op

/-- `^` is the operator: for `|` no bit is set on both sides, for `&` none is set at all. -/
def Operator.Unaffected (h c : FixedHash N) : Operator → Prop
  | .xor => True
  | .or => h.and c = .zero
  | .and => h = .zero ∧ c = .zero

def Unaffected (h : SecureFixedHash N) : Operation N → Prop
  | .binary k c | .compound k c => k.Unaffected h.makeInsecure c.value
  | _ => True

end Calls

/-! ### Exclusive or in place of the other operators -/

theorem xor_eq_or_iff (x y : UInt8) : x ^^^ y = x ||| y ↔ x &&& y = 0 := by
  simp only [← UInt8.toBitVec_inj, UInt8.toBitVec_xor, UInt8.toBitVec_or, UInt8.toBitVec_and,
    UInt8.toBitVec_zero, BitVec.eq_of_getElem_eq_iff]
  apply forall_congr'
  intro i
  apply forall_congr'
  intro hi
  simp only [BitVec.getElem_xor, BitVec.getElem_or, BitVec.getElem_and, BitVec.getElem_zero]
  cases x.toBitVec[i] <;> cases y.toBitVec[i] <;> decide

theorem xor_eq_and_iff (x y : UInt8) : x ^^^ y = x &&& y ↔ x = 0 ∧ y = 0 := by
  simp only [← UInt8.toBitVec_inj, UInt8.toBitVec_xor, UInt8.toBitVec_and, UInt8.toBitVec_zero,
    BitVec.eq_of_getElem_eq_iff, ← forall_and]
  apply forall_congr'
  intro i
  apply forall_congr'
  intro hi
  simp only [BitVec.getElem_xor, BitVec.getElem_and, BitVec.getElem_zero]
  cases x.toBitVec[i] <;> cases y.toBitVec[i] <;> decide

namespace FixedHash
variable {N : ℕ} (h c : FixedHash N)

theorem eq_iff {h c : FixedHash N} : h = c ↔ ∀ i (hi : i < N), h.m_data[i] = c.m_data[i] := by
  cases h
  cases c
  simp only [FixedHash.mk.injEq, Vector.ext_iff]

theorem xorAssign_eq_orAssign_iff : h.xorAssign c = h.orAssign c ↔ h.and c = .zero := by
  simp [eq_iff, xorAssign, orAssign, and, andAssign, zero, xor_eq_or_iff]

theorem xorAssign_eq_andAssign_iff :
    h.xorAssign c = h.andAssign c ↔ h = .zero ∧ c = .zero := by
  simp [eq_iff, xorAssign, andAssign, zero, xor_eq_and_iff, forall_and]

theorem xorAssign_eq_compound_iff (k : Operator) :
    h.xorAssign c = h.compound c k ↔ k.Unaffected h c := by
  cases k with
  | xor => exact iff_of_true rfl trivial
  | or => exact xorAssign_eq_orAssign_iff h c
  | and => exact xorAssign_eq_andAssign_iff h c

theorem binary_eq_compound (k : Operator) : h.binary c k = h.compound c k := by
  cases k <;> rfl

end FixedHash

/-! ### What is forwarded -/

namespace SecureFixedHash
variable {N : ℕ} (h : SecureFixedHash N)

theorem construct_eq (s : Source N) :
    (construct s).map makeInsecure = FixedHash.construct s := by
  cases s with
  | string s t ht =>
    show (FixedHash.ofString s t ht >>= fun b => .ok ⟨b⟩).map makeInsecure =
      FixedHash.ofString s t ht
    cases FixedHash.ofString (N := N) s t ht <;> rfl
  | _ => rfl

theorem compare_eq (c : Operand N) (k : Comparison) :
    h.compare c k = h.makeInsecure.compare c.value k := by
  cases k <;> cases c <;> rfl

/-- Whatever the operator, the base class is asked for `^=`. -/
theorem compound_eq (c : Operand N) (k : Operator) :
    (h.compound c k).makeInsecure = h.makeInsecure.xorAssign c.value := by
  cases k <;> cases c <;> rfl

theorem binary_eq (c : Operand N) (k : Operator) : h.binary c k = h.compound c k := by
  cases k <;> cases c <;> rfl

/-- **`SecureFixedHash` behaves as `FixedHash`** in every operation but `|`, `|=`, `&` and `&=`,
and in those exactly where `^` gives the same. -/
theorem coincides_iff (op : Operation N) : Coincides h op ↔ Unaffected h op := by
  cases op with
  | construct s =>
    apply iff_of_true _ trivial
    rw [Coincides, call, FixedHash.call, ← construct_eq]
    cases construct s <;> rfl
  | compare k c =>
    apply iff_of_true _ trivial
    exact congrArg (fun b => Except.ok (Value.bool b)) (compare_eq h c k)
  | binary k c =>
    rw [Unaffected, ← FixedHash.xorAssign_eq_compound_iff, ← compound_eq h c k, ← binary_eq,
      ← FixedHash.binary_eq_compound, Coincides, call, FixedHash.call, Except.ok.injEq,
      Value.hash.injEq]
  | compound k c =>
    rw [Unaffected, ← FixedHash.xorAssign_eq_compound_iff, ← compound_eq h c k, Coincides, call,
      FixedHash.call, Except.ok.injEq, Value.hash.injEq]
  | assign c => exact iff_of_true rfl trivial
  | toBool => exact iff_of_true rfl trivial
  | complement => exact iff_of_true rfl trivial
  | firstBitSet => exact iff_of_true rfl trivial

/-- A bit or the same bit is no bit. -/
theorem or_not_coincides :
    ¬Coincides (N := 1) ⟨⟨#v[1]⟩⟩ (.binary .or (.secure ⟨⟨#v[1]⟩⟩)) := by
  unfold Coincides
  decide +kernel

end SecureFixedHash

end Aleth.Devcore.Hashes
