import Aleth.Devcore.Hex
import Aleth.Devcore.RlpItems
import Aleth.Devcore.RlpPayload
import Aleth.Devcore.RlpRoundTrip
import Aleth.Structure.JsonStrings

/-! How the `rlp` tool renders an item (`RLPStreamer`).

Data is rendered as a string, with C's escapes where a character needs one, or
in hex. Strings and integers are rendered alike: no option clears `stringInts`. -/
namespace Aleth.RlpTool
open Devcore RLPView BytesConstRef

/-! ### The code -/

structure Prefs where
  indent : Bytes
  forceString : Bool
  escapeAll : Bool
  forceHex : Bool

/-- Anything that begins with 0x is in hex. A `char` is signed. -/
def isAscii (s : Bytes) : Bool := s.take 2 ≠ hexMark && s.all fun c => !(c.toInt8 < 32)

def prettyEscapes : List (UInt8 × UInt8) :=
  [(0x0D, 0x72), (0x0A, 0x6E), (0x09, 0x74), (0x0B, 0x76)]

/-- The loop body of `escaped`. -/
def escapedChar (all : Bool) (i : UInt8) : Bytes :=
  if i = 0x22 && !all then [0x5C, 0x22]
  else if i = 0x5C && !all then [0x5C, 0x5C]
  else match if all then none else prettyEscapes.lookup i with
    | some c => [0x5C, c]
    | none =>
      if i.toInt8 < 0x20 || all then [0x5C, 0x78, hexdigit (i / 16), hexdigit (i % 16)] else [i]

def escaped (s : Bytes) (all : Bool) : Bytes := 0x22 :: (s.flatMap (escapedChar all) ++ [0x22])

inductive OutputError where
  | RLP (e : RLPException)
  /-- An `int` overflows. -/
  | undefined

namespace Prefs
variable (p : Prefs)

/-- Data as a string or in hex. -/
def streamData (d : RLPView) : Except RLPException Bytes := do
  let asString ← if p.forceString then .ok true else if p.forceHex then .ok false
    else (toString d LaissezFaire).map isAscii
  if asString then return escaped (← toString d LaissezFaire) p.escapeAll
  else return 0x22 :: (toHexPrefixed (← toBytes d LaissezFaire) ++ [0x22])

def newline (level : UInt32) : Bytes := 0x0A :: (List.replicate (level + 1).toNat p.indent).flatten

/-- The new line before a closing bracket, one level less. -/
def lastNewline (level : UInt32) : Bytes :=
  (p.newline level).take (((p.newline level).length + 2 ^ 64 - p.indent.length) % 2 ^ 64)

/-- What stands before an item: `j` of them have been written. -/
def separator (level : UInt32) (j : ℕ) : Bytes :=
  if j ≠ 0 then if p.indent = [] then [0x2C, 0x20] else 0x2C :: p.newline level
  else if p.indent = [] then [0x20] else p.newline level

def closing (level : UInt32) (j : ℕ) : Bytes :=
  if j = 0 then [0x5D] else if p.indent = [] then [0x20, 0x5D] else p.lastNewline level ++ [0x5D]

/-- The loop over the items. -/
def outputItems (level : UInt32) (item : RLPView → Except OutputError Bytes) : (j : ℕ) →
    List RLPView → Except OutputError Bytes
  | j, [] => .ok (p.closing level j)
  | j, i :: l =>
    if j + 1 = 2 ^ 31 then .error .undefined
    else do
      let text ← item i
      return p.separator level j ++ text ++ (← outputItems level item (j + 1) l)

/-- `output`. -/
def output : (fuel : ℕ) → (level : UInt32) → RLPView → Except OutputError Bytes
  | 0, _, _ => .error (.RLP .nontermination)
  | fuel + 1, level, d =>
    if isNull d.content then .ok [0x6E, 0x75, 0x6C, 0x6C]
    else do
      let _ ← (isInt d.content).mapError .RLP
      if isData d.content then (p.streamData d).mapError .RLP
      else if isList d.content then do
        let items ← (elements d.enough d).mapError .RLP
        return 0x5B :: (← p.outputItems level (output fuel (level + 1)) 0 items)
      else return []

/-- `Mode::Render`, without the new line at the end. -/
def render (b : Bytes) : Except OutputError Bytes := do
  let rlp ← (construct (ofBytes b) VeryStrict).mapError .RLP
  p.output (b.length + 1) 0 rlp

/-! ### The text of an item -/

/-- Whether data is rendered as a string. -/
def asString (s : Bytes) : Bool := p.forceString || (!p.forceHex && isAscii s)

def dataText (s : Bytes) : Bytes :=
  if p.asString s then escaped s p.escapeAll else 0x22 :: (toHexPrefixed s ++ [0x22])

mutual
def text (level : UInt32) : RLP → Bytes
  | .data s => p.dataText s
  | .list l => 0x5B :: itemsText level 0 l

def itemsText (level : UInt32) (j : ℕ) : List RLP → Bytes
  | [] => p.closing level j
  | i :: l => p.separator level j ++ text (level + 1) i ++ itemsText level (j + 1) l
end

end Prefs
end Aleth.RlpTool

namespace Aleth.Devcore
open RLPView BytesConstRef

namespace RLP

mutual
/-- The lists in it are counted with an `int`. -/
def short : RLP → Bool
  | data _ => true
  | list l => l.length < 2 ^ 31 && shortItems l

def shortItems : List RLP → Bool
  | [] => true
  | i :: l => short i && shortItems l
end

end RLP

theorem RLPView.Single.toString_eq {r : RLPView} {off len : ℕ} (h : r.Single off len)
    (hd : isData r.content = true) (flags : Strictness) :
    toString r flags = .ok (r.content.drop off) := by
  have hs := h.size
  have hlen : (r.m_data.back off).m_count = len := by
    show r.m_data.m_count - off = len
    omega
  have hback := h.points.back off
  have hcontent : ((r.m_data.back off).front len).content = r.content.drop off := by
    rw [content_front hlen.ge, h.content_payload, List.take_of_length_le]
    rw [← h.content_payload, hback.length_content, hlen]
  unfold toString
  rw [hd, if_neg (by decide), h.payload_eq, ok_bind, length_of_extent h.extent, ok_bind,
    hback.cropped_zero hlen.ge, hcontent]
  rfl

theorem RLPView.isInt_of_isList {d : Bytes} {off len : ℕ} (h : RLP.extent d = some (off, len))
    (hl : isList d = true) : isInt d = .ok false := by
  cases d with
  | nil => cases h
  | cons b rest =>
    have hgood := requireGood_of_length (length_of_extent h)
    have hb : 0xc0 ≤ b.toNat := of_decide_eq_true hl
    rw [isInt, hgood, ok_bind, if_neg (by unfold c_rlpDataImmLenStart; omega),
      if_neg (by unfold c_rlpDataImmLenStart; omega), if_neg (by unfold c_rlpDataIndLenZero; omega),
      if_neg (by unfold c_rlpListStart; omega)]
    rfl

/-- Asking whether an item is an integer does not fail. -/
theorem isInt_encode_ok (i : RLP) (h : i.body.length < 2 ^ 64 - 1 - 0x100) :
    ∃ b, isInt i.encode = .ok b := by
  obtain ⟨off, hext, hlen, hdrop⟩ := RLP.extent_encode h []
  rw [List.append_nil] at hext
  cases i with
  | list l => exact ⟨false, isInt_of_isList hext (RLP.isList_encode l h).1⟩
  | data s =>
    cases s with
    | nil => exact ⟨true, rfl⟩
    | cons x s =>
      have hget : (RLP.data (x :: s)).encode[off]? = some x := by
        rw [← List.head?_drop, hdrop]
        rfl
      refine ⟨x ≠ 0, ?_⟩
      rw [isInt_of_extent hext (RLP.isData_encode _ h).1 (Nat.succ_pos _), nonZeroAt, hget]

end Aleth.Devcore

namespace Aleth.RlpTool
open Devcore RLPView BytesConstRef

/-! ### Rendering an encoding -/

namespace Prefs
variable {p : Prefs}

theorem streamData_eq {r : RLPView} {off len : ℕ} (h : r.Single off len)
    (hd : isData r.content = true) : p.streamData r = .ok (p.dataText (r.content.drop off)) := by
  have hbytes := h.toBytes_eq hd LaissezFaire
  have hstring := h.toString_eq hd LaissezFaire
  unfold streamData dataText asString
  rw [hbytes, hstring]
  cases p.forceString with
  | true => rfl
  | false =>
    cases p.forceHex with
    | true => rfl
    | false =>
      show (if isAscii (r.content.drop off) = true then Except.ok _ else Except.ok _) = _
      cases isAscii (r.content.drop off) <;> rfl

theorem isNull_encode (i : RLP) : isNull i.encode = false := by
  have hpos := RLP.encode_length_pos i
  unfold isNull
  cases henc : i.encode with
  | nil => rw [henc] at hpos; exact absurd hpos (lt_irrefl 0)
  | cons b rest => rfl

theorem output_data {r : RLPView} {s : Bytes} (hr : r.m_data.Points)
    (hc : r.content = (RLP.data s).encode) (h : s.length < 2 ^ 64 - 1 - 0x100) (fuel : ℕ)
    (level : UInt32) : p.output (fuel + 1) level r = .ok (p.dataText s) := by
  obtain ⟨off, hsingle, hdrop⟩ := single_encode hr hc h
  obtain ⟨b, hint⟩ := isInt_encode_ok (.data s) h
  have hd : isData r.content = true := hc ▸ (RLP.isData_encode s h).1
  have hdata := streamData_eq (p := p) hsingle hd
  rw [hdrop] at hdata
  rw [output, hc, isNull_encode, if_neg Bool.false_ne_true, hint, ← hc, hd, hdata]
  rfl

/-- A list is rendered item by item. -/
theorem output_list {r : RLPView} {l : List RLP} (hr : r.m_data.Points)
    (hc : r.content = (RLP.list l).encode)
    (h : (RLP.encodeItems l).length < 2 ^ 64 - 1 - 0x100) (fuel : ℕ) (level : UInt32) :
    ∃ rs : List RLPView, rs.map RLPView.content = l.map RLP.encode ∧
      (∀ v ∈ rs, v.m_data.Points) ∧ p.output (fuel + 1) level r =
        (p.outputItems level (p.output fuel (level + 1)) 0 rs >>= fun text =>
          .ok (0x5B :: text)) := by
  obtain ⟨off, hsingle, hdrop⟩ := single_encode hr hc h
  obtain ⟨b, hint⟩ := isInt_encode_ok (.list l) h
  obtain ⟨hl, hd⟩ := RLP.isList_encode l h
  have htiled := RLP.tiled_encodeItems l h
  have hpay : (r.m_data.back off).content = RLP.encodeItems l :=
    hsingle.content_payload.trans hdrop
  have hlen : (l.map RLP.encode).length ≤ r.content.length := by
    rw [List.length_map, hc]
    exact (length_le_encodeItems _).trans (RLP.body_length_le (.list l))
  have henough : (l.map RLP.encode).length < r.enough :=
    Nat.lt_succ_of_le (hlen.trans_eq hr.length_content)
  obtain ⟨hmap, hall⟩ := viewsOf_content htiled hpay (hr.back off)
  have helements : elements r.enough r = .ok (viewsOf (r.m_data.back off) (l.map RLP.encode)) := by
    rw [hsingle.elements_eq (hc ▸ hl)]
    exact collect_of_tiled htiled hpay (hr.back off) hsingle.ends henough
  refine ⟨viewsOf (r.m_data.back off) (l.map RLP.encode), hmap, fun v hv => ?_, ?_⟩
  · obtain ⟨off, len, hs⟩ := hall v hv
    exact hs.points
  · rw [output, hc, isNull_encode, if_neg Bool.false_ne_true, hint, hd, hl, helements]
    rfl

mutual
/-- **What is rendered is the text of the item**, if its lists can be counted. -/
theorem output_eq (i : RLP) (h : i.body.length < 2 ^ 64 - 1 - 0x100) (r : RLPView)
    (hr : r.m_data.Points) (hc : r.content = i.encode) (fuel : ℕ) (hf : i.encode.length < fuel)
    (level : UInt32) :
    (p.output fuel level r).toOption = if i.short then some (p.text level i) else none := by
  obtain ⟨fuel, rfl⟩ := Nat.exists_eq_add_one_of_ne_zero (Nat.ne_zero_of_lt hf)
  cases i with
  | data s =>
    rw [output_data hr hc h]
    rfl
  | list l =>
    obtain ⟨rs, hmap, hall, houtput⟩ := output_list (p := p) hr hc h fuel level
    have hitems : (RLP.encodeItems l).length < fuel := by
      have hheader := RLP.header_length_pos c_rlpListStart c_rlpListIndLenZero
        (RLP.encodeItems l).length
      rw [RLP.encode, appendList, List.length_append] at hf
      omega
    have hloop := outputItems_eq l h rs hmap hall fuel hitems level 0 (by norm_num)
    have hand : (l.length < 2 ^ 31 && RLP.shortItems l) = true ↔
        l.length < 2 ^ 31 ∧ RLP.shortItems l = true := by
      rw [Bool.and_eq_true, decide_eq_true_iff]
    rw [houtput, toOption_bind, hloop, Nat.zero_add, RLP.short, text]
    by_cases hshort : l.length < 2 ^ 31 ∧ RLP.shortItems l = true
    · rw [if_pos hshort, if_pos (hand.mpr hshort)]
      rfl
    · rw [if_neg hshort, if_neg fun h => hshort (hand.mp h)]
      rfl

theorem outputItems_eq (l : List RLP) (h : (RLP.encodeItems l).length < 2 ^ 64 - 1 - 0x100)
    (rs : List RLPView) (hmap : rs.map RLPView.content = l.map RLP.encode)
    (hall : ∀ v ∈ rs, v.m_data.Points) (fuel : ℕ) (hf : (RLP.encodeItems l).length < fuel)
    (level : UInt32) (j : ℕ) (hj : j < 2 ^ 31) :
    (p.outputItems level (p.output fuel (level + 1)) j rs).toOption =
      if j + l.length < 2 ^ 31 ∧ RLP.shortItems l = true then some (p.itemsText level j l)
      else none := by
  cases l with
  | nil =>
    rw [List.map_eq_nil_iff.mp hmap, outputItems, itemsText, if_pos ⟨hj, rfl⟩]
    rfl
  | cons i l =>
    rw [List.map_cons] at hmap
    obtain ⟨v, rs, rfl, hv, hmap⟩ := List.map_eq_cons_iff.mp hmap
    rw [RLP.encodeItems, List.length_append] at h hf
    have hbody := RLP.body_length_le i
    have hitem := output_eq i (by omega) v (hall v List.mem_cons_self) hv fuel (by omega)
      (level + 1)
    rw [outputItems, List.length_cons, RLP.shortItems]
    by_cases hlast : j + 1 = 2 ^ 31
    · rw [if_pos hlast, if_neg (by omega)]
      rfl
    · have hloop := outputItems_eq l (by omega) rs hmap
        (fun w hw => hall w (List.mem_cons_of_mem v hw)) fuel (by omega) level (j + 1) (by omega)
      rw [if_neg hlast, toOption_bind, hitem, itemsText]
      by_cases hshort : i.short = true
      · rw [if_pos hshort, hshort, Bool.true_and, Option.bind_some, toOption_bind, hloop,
          show j + 1 + l.length = j + (l.length + 1) by omega]
        by_cases hand : j + (l.length + 1) < 2 ^ 31 ∧ RLP.shortItems l = true
        · rw [if_pos hand, if_pos hand]
          rfl
        · rw [if_neg hand, if_neg hand]
          rfl
      · rw [if_neg hshort, if_neg (by simp [hshort])]
        rfl
end

/-- The same, from the bytes on. -/
theorem render_eq (i : RLP) (h : i.encode.length < 2 ^ 64 - 1 - 0x100) :
    (p.render i.encode).toOption = if i.short then some (p.text 0 i) else none := by
  have hbody := (RLP.body_length_le i).trans_lt h
  obtain ⟨off, hext, hlen, -⟩ := RLP.extent_encode hbody []
  rw [List.append_nil] at hext
  have hview : construct (ofBytes i.encode) VeryStrict = .ok ⟨ofBytes i.encode⟩ :=
    construct_of_extent ((content_ofBytes _).symm ▸ hext) hlen
  rw [render, hview]
  exact output_eq i hbody _ (ofBytes_points _) (content_ofBytes _) _ (Nat.lt_succ_self _) 0

end Prefs
end Aleth.RlpTool
