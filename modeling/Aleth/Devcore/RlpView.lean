import Aleth.Devcore.RlpStream

/-! Reading recursive length prefix data (the class `RLP`).

A view is a reference into a buffer, and what it says about itself it reads from
the bytes behind the reference: `length` with every check on the header,
`payload`, the items of a list one after another. An iterator compares
references, so they carry the address they point at. -/
namespace Aleth.Devcore

/-- `bytesConstRef`: a pointer, what lies there and after it, and how much of that is meant. -/
structure BytesConstRef where
  /-- `none` is the null pointer. -/
  address : Option ℕ
  memory : Bytes
  m_count : ℕ
deriving DecidableEq

namespace BytesConstRef

def null : BytesConstRef := ⟨none, [], 0⟩

/-- A reference to a whole vector. -/
def ofBytes (b : Bytes) : BytesConstRef := ⟨some 0, b, b.length⟩

def content (r : BytesConstRef) : Bytes := r.memory.take r.m_count

/-- `cropped(begin, count)`. -/
def cropped (r : BytesConstRef) (begin count : ℕ) : BytesConstRef :=
  if r.address.isSome ∧ begin ≤ r.m_count ∧ count ≤ r.m_count ∧ begin + count ≤ r.m_count then
    ⟨r.address.map (· + begin), r.memory.drop begin, count⟩
  else null

/-- `cropped(begin)`. -/
def croppedFrom (r : BytesConstRef) (begin : ℕ) : BytesConstRef :=
  if r.address.isSome ∧ begin ≤ r.m_count then
    ⟨r.address.map (· + begin), r.memory.drop begin, r.m_count - begin⟩
  else null

/-- `operator==`, which compares the pointers. -/
def same (r s : BytesConstRef) : Bool := r.address = s.address && r.m_count = s.m_count

def next (r : BytesConstRef) : BytesConstRef :=
  if r.address.isNone then r
  else ⟨r.address.map (· + r.m_count), r.memory.drop r.m_count, r.m_count⟩

end BytesConstRef

/-- The flags of `RLP::Strictness`. -/
structure Strictness where
  allowNonCanon : Bool := false
  throwOnFail : Bool := false
  failIfTooBig : Bool := false
  failIfTooSmall : Bool := false
deriving DecidableEq

def Strict : Strictness := {throwOnFail := true, failIfTooBig := true}
def VeryStrict : Strictness := {throwOnFail := true, failIfTooBig := true, failIfTooSmall := true}
def LaissezFaire : Strictness := {allowNonCanon := true}

/-- An object of the class `RLP`. -/
structure RLPView where
  m_data : BytesConstRef
deriving DecidableEq

namespace RLPView

/-! ### The header -/

def isNull (d : Bytes) : Bool := d.isEmpty

def isSingleByte (d : Bytes) : Bool := d.head?.any fun b => b.toNat < c_rlpDataImmLenStart

def isData (d : Bytes) : Bool := d.head?.any fun b => b.toNat < c_rlpListStart

def isList (d : Bytes) : Bool := d.head?.any fun b => c_rlpListStart ≤ b.toNat

def requireGood : Bytes → Except RLPException Unit
  | [] => .error .badRLP
  | b :: rest =>
    if b.toNat ≠ c_rlpDataImmLenStart + 1 then .ok ()
    else match rest with
      | [] => .error .badRLP
      | x :: _ => if x.toNat < c_rlpDataImmLenStart then .error .badRLP else .ok ()

/-- A length of `lengthSize` bytes after the first one. -/
def indirectLength (rest : Bytes) (lengthSize : ℕ) : Except RLPException ℕ :=
  if rest.length < lengthSize then .error .badRLP
  else if rest.head? = some 0 then .error .badRLP
  else if 8 < lengthSize then .error .undersizeRLP
  else if fromBigEndian (rest.take lengthSize) < c_rlpImmLenCount then .error .badRLP
  else if 2 ^ 64 - 1 - 0x100 ≤ fromBigEndian (rest.take lengthSize) then .error .undersizeRLP
  else .ok (fromBigEndian (rest.take lengthSize))

def length (d : Bytes) : Except RLPException ℕ :=
  match d with
  | [] => .ok 0
  | b :: rest => do
    requireGood d
    if b.toNat < c_rlpDataImmLenStart then return 1
    else if b.toNat ≤ c_rlpDataIndLenZero then return b.toNat - c_rlpDataImmLenStart
    else if b.toNat < c_rlpListStart then indirectLength rest (b.toNat - c_rlpDataIndLenZero)
    else if b.toNat ≤ c_rlpListIndLenZero then return b.toNat - c_rlpListStart
    else indirectLength rest (b.toNat - c_rlpListIndLenZero)

def lengthSize : Bytes → ℕ
  | [] => 0
  | b :: _ =>
    if b.toNat < c_rlpListStart then b.toNat - c_rlpDataIndLenZero
    else b.toNat - c_rlpListIndLenZero

def payloadOffset (d : Bytes) : ℕ := if isSingleByte d then 0 else 1 + lengthSize d

def actualSize (d : Bytes) : Except RLPException ℕ :=
  if isNull d then .ok 0
  else if isSingleByte d then .ok 1
  else if isData d || isList d then do return payloadOffset d + (← length d)
  else .ok 0

/-! ### Views -/

def content (r : RLPView) : Bytes := r.m_data.content

/-- A size that does not match: an exception, or the null view. -/
def fail (s : Strictness) (e : RLPException) : Except RLPException RLPView :=
  if s.throwOnFail then .error e else .ok ⟨.null⟩

def checkTooBig (s : Strictness) (r : RLPView) : Except RLPException RLPView :=
  if s.failIfTooBig then do
    if (← actualSize r.content) < r.m_data.m_count then fail s .oversizeRLP else return r
  else .ok r

def checkTooSmall (s : Strictness) (size : ℕ) (r : RLPView) : Except RLPException RLPView :=
  if s.failIfTooSmall then do
    if size < (← actualSize r.content) then fail s .undersizeRLP else return r
  else .ok r

/-- The constructor. -/
def construct (d : BytesConstRef) (s : Strictness) : Except RLPException RLPView := do
  checkTooSmall s d.m_count (← checkTooBig s ⟨d⟩)

def payload (r : RLPView) : Except RLPException BytesConstRef := do
  let l ← length r.content
  if r.m_data.m_count < l then .error .badRLP
  else return r.m_data.cropped (payloadOffset r.content) l

def sizeAsEncoded (d : BytesConstRef) : Except RLPException ℕ := do
  actualSize (← construct d {throwOnFail := true, failIfTooSmall := true}).content

def toBytes (r : RLPView) (flags : Strictness) : Except RLPException Bytes :=
  if !isData r.content then if flags.throwOnFail then .error .badCast else .ok []
  else do return (← payload r).memory.take (← length r.content)

/-- A byte of the header that must not be zero, `m_data[i]`. -/
def nonZeroAt (d : Bytes) (i : ℕ) : Except RLPException Bool :=
  match d[i]? with
  | none => .error .badRLP
  | some x => .ok (x ≠ 0)

def isInt (d : Bytes) : Except RLPException Bool :=
  match d with
  | [] => .ok false
  | b :: _ => do
    requireGood d
    if b.toNat < c_rlpDataImmLenStart then return b ≠ 0
    else if b.toNat = c_rlpDataImmLenStart then return true
    else if b.toNat ≤ c_rlpDataIndLenZero then nonZeroAt d 1
    else if b.toNat < c_rlpListStart then nonZeroAt d (1 + (b.toNat - c_rlpDataIndLenZero))
    else return false

/-- `toInt<bigint>`; `intTraits<bigint>::maxSize` is the largest `unsigned`. -/
def toInt (r : RLPView) (flags : Strictness) : Except RLPException ℕ := do
  requireGood r.content
  if (!(← isInt r.content) && !flags.allowNonCanon) || isList r.content || isNull r.content then
    if flags.throwOnFail then .error .badCast else return 0
  else
    let p ← payload r
    if 2 ^ 32 - 1 < p.m_count && flags.failIfTooBig then
      if flags.throwOnFail then .error .badCast else return 0
    else return fromBigEndian p.content

/-! ### Iteration -/

structure Iterator where
  m_remaining : ℕ
  m_currentItem : BytesConstRef
deriving DecidableEq

def begin (r : RLPView) : Except RLPException Iterator :=
  if isList r.content then do
    let pl ← payload r
    let m_currentItem := pl.cropped 0 (← sizeAsEncoded pl)
    return ⟨pl.m_count - m_currentItem.m_count, m_currentItem⟩
  else return ⟨0, r.m_data.croppedFrom r.m_data.m_count⟩

def end_ (r : RLPView) : Iterator := ⟨0, r.m_data.croppedFrom r.m_data.m_count⟩

/-- `operator++`. -/
def increment (it : Iterator) : Except RLPException Iterator :=
  if it.m_remaining ≠ 0 then do
    let d : BytesConstRef := {it.m_currentItem.next with m_count := it.m_remaining}
    let m_currentItem := d.cropped 0 (← sizeAsEncoded d)
    return ⟨it.m_remaining - min it.m_remaining m_currentItem.m_count, m_currentItem⟩
  else return ⟨it.m_remaining, {it.m_currentItem.next with m_count := 0}⟩

/-- The views that a loop from `it` to `stop` goes through. -/
def collect (stop : Iterator) : (fuel : ℕ) → Iterator → Except RLPException (List RLPView)
  | 0, _ => .error .nontermination
  | fuel + 1, it =>
    if it.m_currentItem.same stop.m_currentItem then return []
    else do
      let r ← construct it.m_currentItem VeryStrict
      return r :: (← collect stop fuel (← increment it))

def elements (fuel : ℕ) (r : RLPView) : Except RLPException (List RLPView) := do
  collect r.end_ fuel (← begin r)

/-- The loop of `items`. -/
def countItems : (fuel : ℕ) → BytesConstRef → Except RLPException ℕ
  | 0, _ => .error .nontermination
  | fuel + 1, d =>
    if d.m_count = 0 then return 0
    else do return 1 + (← countItems fuel (d.croppedFrom (← sizeAsEncoded d)))

def itemCount (fuel : ℕ) (r : RLPView) : Except RLPException ℕ :=
  if isList r.content then do countItems fuel (← payload r) else return 0

end RLPView
end Aleth.Devcore
