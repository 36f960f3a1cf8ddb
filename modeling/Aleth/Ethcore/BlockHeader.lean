import Aleth.Devcore.RlpLists
import Aleth.Devcore.Sha3

/-! Block headers (`BlockHeader.cpp`).

A header is thirteen fields and any number of seal items, which stay encoded.
Reading one remembers the hash of the bytes that were read; `hash` goes back to
the fields only after a field was set.

`populate` takes any view whose items convert. A view that is no list, or that
ends before the extra data, is read as well, and extra data that is a list is
read as empty: then the fields are written differently (`Strictly`). The two
signed numbers are written by `append(unsigned)`, which keeps 32 bits. -/
namespace Aleth.Ethcore
open Devcore
open RLPView BytesConstRef RLPStream

/-- `int64_t`, by its bits. -/
abbrev I64 := BitVec 64

abbrev LogBloom := {b : Bytes // b.length = 256}

structure BlockHeader where
  m_parentHash : H256
  m_sha3Uncles : H256
  m_stateRoot : H256
  m_transactionsRoot : H256
  m_receiptsRoot : H256
  m_logBloom : LogBloom
  m_number : I64
  m_gasLimit : U256
  m_gasUsed : U256
  m_extraData : Bytes
  m_timestamp : I64
  m_author : Address
  m_difficulty : U256
  m_seal : List Bytes
  /-- The memos of the hash with and without seal; zero when there is none. -/
  m_hash : H256
  m_hashWithout : H256
deriving DecidableEq

inductive IncludeSeal where
  | withoutSeal
  | withSeal
  | onlySeal
deriving DecidableEq

inductive BlockDataType where
  | headerData
  | blockData
deriving DecidableEq

inductive HeaderException where
  | rlp (e : RLPException)
  /-- "invalid block header format", with the field and its bytes. -/
  | invalidBlockHeaderFormat (e : RLPException) (field : ℕ) (data : Bytes)
  | invalidBlockFormat (comment : String) (field : ℕ) (data : Bytes)
deriving DecidableEq

def BasicFields : ℕ := 13

/-! ### Conversions of fixed size -/

/-- The address of twenty bytes. -/
def addressOf (b : Bytes) : Address := BitVec.ofNat 160 (fromBigEndian b)

def addressBytes (a : Address) : Bytes := toBigEndian 20 a.toNat

/-- `toHash<h256>`. -/
def toH256 (r : RLPView) : Except RLPException H256 := do
  return H256.alignRight (← toHash 32 r VeryStrict)

/-- `toHash<Address>`. -/
def toAddress (r : RLPView) : Except RLPException Address := do
  return addressOf (← toHash 20 r VeryStrict)

/-- `toHash<LogBloom>`. -/
def toLogBloom (r : RLPView) : Except RLPException LogBloom := do
  let b ← toHash 256 r VeryStrict
  if h : b.length = 256 then return ⟨b, h⟩ else .error .badCast

/-- `toInt<u256>`. -/
def toU256 (r : RLPView) : Except RLPException U256 := do
  return BitVec.ofNat 256 (← toIntOf 32 r Strict)

/-- `toPositiveInt64`. -/
def toPositiveInt64 (r : RLPView) : Except RLPException I64 := do
  let i ← toIntOf 8 r Strict
  if (BitVec.ofNat 64 i).toInt < 0 then .error .badCast else return BitVec.ofNat 64 i

namespace BlockHeader

/-! ### Reading -/

/-- What is thrown out of `populate`: the handler looks at the field again. -/
def report (header : RLPView) (field : ℕ) (e : RLPException) : HeaderException :=
  match item header field with
  | .ok v => .invalidBlockHeaderFormat e field v.content
  | .error e => .rlp e

/-- A part of `populate` that comes when `field` was set last. -/
def reporting {α : Type} (header : RLPView) (field : ℕ) (x : Except RLPException α) :
    Except HeaderException α :=
  x.mapError (report header field)

/-- `_header[field]`, converted. -/
def field {α : Type} (header : RLPView) (i : ℕ) (convert : RLPView → Except RLPException α) :
    Except HeaderException α :=
  reporting header i (item header i >>= convert)

/-- The loop over the items behind the basic fields. -/
def sealItems (header : RLPView) : Except RLPException (List Bytes) := do
  let count ← itemCount header.enough header
  (List.range' BasicFields (count - BasicFields)).mapM fun i => do
    return (← item header i).content

def populate (header : RLPView) (h : BlockHeader) : Except HeaderException BlockHeader := do
  let m_parentHash ← field header 0 toH256
  let m_sha3Uncles ← field header 1 toH256
  let m_author ← field header 2 toAddress
  let m_stateRoot ← field header 3 toH256
  let m_transactionsRoot ← field header 4 toH256
  let m_receiptsRoot ← field header 5 toH256
  let m_logBloom ← field header 6 toLogBloom
  let m_difficulty ← field header 7 toU256
  let m_number ← field header 8 toPositiveInt64
  let m_gasLimit ← field header 9 toU256
  let m_gasUsed ← field header 10 toU256
  let m_timestamp ← field header 11 toPositiveInt64
  let m_extraData ← field header 12 fun v => v.toBytes LaissezFaire
  let m_seal ← reporting header 12 (sealItems header)
  return {h with
    m_parentHash, m_sha3Uncles, m_author, m_stateRoot, m_transactionsRoot, m_receiptsRoot,
    m_logBloom, m_difficulty, m_number, m_gasLimit, m_gasUsed, m_timestamp, m_extraData, m_seal}

/-- The default constructor. -/
def empty : BlockHeader where
  m_parentHash := H256.zero
  m_sha3Uncles := H256.zero
  m_stateRoot := H256.zero
  m_transactionsRoot := H256.zero
  m_receiptsRoot := H256.zero
  m_logBloom := ⟨List.replicate 256 0, List.length_replicate⟩
  m_number := 0
  m_gasLimit := 0
  m_gasUsed := 0
  m_extraData := []
  m_timestamp := -1
  m_author := 0
  m_difficulty := 0
  m_seal := []
  m_hash := H256.zero
  m_hashWithout := H256.zero

def view (b : Bytes) : Except HeaderException RLPView :=
  (construct (ofBytes b) VeryStrict).mapError .rlp

/-- A check of `extractHeader`. -/
def requireList (comment : String) (field : ℕ) (v : RLPView) : Except HeaderException Unit :=
  if isList v.content then .ok () else .error (.invalidBlockFormat comment field v.content)

def extractHeader (b : Bytes) : Except HeaderException RLPView := do
  let root ← view b
  requireList "Block must be a list" 0 root
  let header ← (item root 0).mapError .rlp
  requireList "Block header must be a list" 0 header
  requireList "Block transactions must be a list" 1 (← (item root 1).mapError .rlp)
  requireList "Block uncles must be a list" 2 (← (item root 2).mapError .rlp)
  return header

section Hashing
variable [Sha3]

def headerHashFromBlock (b : Bytes) : Except HeaderException H256 := do
  return sha3 (← (item (← view b) 0).mapError .rlp).content

/-- The constructor. -/
def construct (b : Bytes) (bdt : BlockDataType) (hashWith : H256) :
    Except HeaderException BlockHeader := do
  let header ← match bdt with
    | .blockData => extractHeader b
    | .headerData => view b
  populate header {empty with
    m_hash := if hashWith ≠ H256.zero then hashWith else sha3 header.content}

end Hashing

/-! ### Writing -/

/-- The `<<` of `streamRLPFields`. -/
def fieldCalls (h : BlockHeader) : List (RLPStream → Except RLPException RLPStream) :=
  [append h.m_parentHash.bytes false, append h.m_sha3Uncles.bytes false,
    append (addressBytes h.m_author) false, append h.m_stateRoot.bytes false,
    append h.m_transactionsRoot.bytes false, append h.m_receiptsRoot.bytes false,
    append h.m_logBloom.1 false, appendInt h.m_difficulty.toNat, appendUnsigned h.m_number.toNat,
    appendInt h.m_gasLimit.toNat, appendInt h.m_gasUsed.toNat, appendUnsigned h.m_timestamp.toNat,
    append h.m_extraData false]

def streamRLPFields (h : BlockHeader) (s : RLPStream) : Except RLPException RLPStream :=
  calls h.fieldCalls s

def streamRLP (h : BlockHeader) (i : IncludeSeal) (s : RLPStream) :
    Except RLPException RLPStream := do
  let s ← if i ≠ .onlySeal then do
      let items := BasicFields + if i = .withoutSeal then 0 else h.m_seal.length
      h.streamRLPFields (← appendList items s)
    else .ok s
  if i ≠ .withoutSeal then calls (h.m_seal.map fun x => appendRaw x 1) s else return s

/-- The bytes that `streamRLP` gives. -/
def rlp (h : BlockHeader) (i : IncludeSeal) : Except RLPException Bytes := do
  out (← h.streamRLP i RLPStream.empty)

def noteDirty (h : BlockHeader) : BlockHeader :=
  {h with m_hash := H256.zero, m_hashWithout := H256.zero}

/-- `hash`, with the header that remembers it. -/
def hash [Sha3] (i : IncludeSeal) (h : BlockHeader) : Except RLPException (H256 × BlockHeader) :=
  match i with
  | .withSeal =>
    if h.m_hash ≠ H256.zero then .ok (h.m_hash, h)
    else do
      let memo := sha3 (← h.rlp .withSeal)
      return (memo, {h with m_hash := memo})
  | .withoutSeal =>
    if h.m_hashWithout ≠ H256.zero then .ok (h.m_hashWithout, h)
    else do
      let memo := sha3 (← h.rlp .withoutSeal)
      return (memo, {h with m_hashWithout := memo})
  | .onlySeal => do return (sha3 (← h.rlp .onlySeal), h)

end BlockHeader
end Aleth.Ethcore
