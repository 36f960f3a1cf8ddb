import Aleth.RlpTool.Rendering

/-! What a rendered item says as JSON.

Hex always says itself. A string says its bytes again if they are written
without the escapes `\v` and `\x`, which JSON does not have. -/
namespace Aleth.Devcore

namespace RLP

mutual
/-- The item with other data, if there is some for all of it. -/
def traverse (f : Bytes → Option Bytes) : RLP → Option RLP
  | data s => (f s).map data
  | list l => (traverseItems f l).map list

def traverseItems (f : Bytes → Option Bytes) : List RLP → Option (List RLP)
  | [] => some []
  | i :: l => (traverse f i).bind fun i => (traverseItems f l).map fun l => i :: l
end

end RLP
end Aleth.Devcore

namespace Aleth.RlpTool
open Devcore Json

/-! ### Strings -/

/-- Bytes that JSON has an escape for, or none is needed for. -/
def writable (b : UInt8) : Bool := b ∈ [0x09, 0x0A, 0x0D] || (0x20 ≤ b && b < 0x80)

theorem escapedChar_cases (all : Bool) (b : UInt8) :
    ((!all && writable b) = true ∧
      ((escapedChar all b = [b] ∧ 0x20 ≤ b ∧ b ≠ quote ∧ b ≠ backslash) ∨
        ∃ c ∈ [quote, backslash, 0x6E, 0x72, 0x74], escapedChar all b = [backslash, c] ∧
          escapeOf c = some b)) ∨
    ((!all && writable b) = false ∧
      ∃ c ∈ [0x76, 0x78], (escapedChar all b).take 2 = [backslash, c]) := by
  revert all b
  decide +kernel

theorem parseChars_escapedChar (all : Bool) (b : UInt8) (t : Text) :
    parseChars (escapedChar all b ++ t) =
      if !all && writable b then (parseChars t).map fun r => (b :: r.1, r.2) else none := by
  rcases escapedChar_cases all b with ⟨hw, h⟩ | ⟨hw, c, hc, h⟩
  · rw [hw, if_pos rfl]
    rcases h with ⟨h, hctl, hq, hb⟩ | ⟨c, -, h, hescape⟩
    · rw [h]
      exact parseChars_plain hctl hq hb t
    · rw [h]
      show parseChars (backslash :: c :: t) = _
      rw [parseChars_escape, hescape]
      rfl
  · have hnone : escapeOf c = none := by
      rcases List.mem_cons.mp hc with rfl | hc
      · rfl
      · rw [List.mem_singleton.mp hc]
        rfl
    have hsplit : escapedChar all b ++ t =
        backslash :: c :: ((escapedChar all b).drop 2 ++ t) := by
      conv_lhs => rw [← List.take_append_drop 2 (escapedChar all b), h]
      rfl
    rw [hw, if_neg Bool.false_ne_true, hsplit, parseChars_escape, hnone]
    rfl

theorem parseChars_escaped (all : Bool) (s : Bytes) (t : Text) :
    parseChars (s.flatMap (escapedChar all) ++ quote :: t) =
      if s.all fun b => !all && writable b then some (s, t) else none := by
  induction s with
  | nil => exact parseChars_quote t
  | cons b s ih =>
    rw [List.flatMap_cons, List.append_assoc, parseChars_escapedChar, ih, List.all_cons]
    cases !all && writable b with
    | false => rfl
    | true =>
      rw [if_pos rfl, Bool.true_and]
      cases s.all fun b => !all && writable b <;> rfl

theorem hexdigit_plain {n : UInt8} (h : n < 16) :
    0x20 ≤ hexdigit n ∧ hexdigit n ≠ quote ∧ hexdigit n ≠ backslash := by
  revert n
  decide +kernel

theorem toHexPrefixed_plain (s : Bytes) :
    ∀ b ∈ toHexPrefixed s, 0x20 ≤ b ∧ b ≠ quote ∧ b ≠ backslash := by
  intro b hb
  have hmark : ∀ b ∈ hexMark, 0x20 ≤ b ∧ b ≠ quote ∧ b ≠ backslash := by
    decide +kernel
  rcases List.mem_append.mp hb with hb | hb
  · exact hmark b hb
  · obtain ⟨x, -, hx⟩ := List.mem_flatMap.mp hb
    obtain ⟨hhigh, hlow, -⟩ := uint8_halves x
    rcases List.mem_cons.mp hx with rfl | hx
    · exact hexdigit_plain hhigh
    · rw [List.mem_singleton.mp hx]
      exact hexdigit_plain hlow

namespace Prefs
variable {p : Prefs}

/-- What data says once it is rendered, if it is JSON. -/
def decoded (p : Prefs) (s : Bytes) : Option Bytes :=
  if p.asString s then if s.all fun b => !p.escapeAll && writable b then some s else none
  else some (toHexPrefixed s)

theorem parseValue_quote (fuel : ℕ) (t : Text) :
    parseValue (fuel + 1) (quote :: t) = (parseChars t).map fun r => (.str r.1, r.2) := by
  rw [parseValue, if_pos rfl]

theorem parsesTo_data (fuel : ℕ) (s : Bytes) :
    ParsesTo (parseValue (fuel + 1)) (p.dataText s) ((p.decoded s).map Value.str) := by
  have hquoted : ∃ body, p.dataText s = quote :: (body ++ [quote]) ∧
      ∀ rest, parseChars (body ++ quote :: rest) = (p.decoded s).map fun s => (s, rest) := by
    unfold dataText decoded
    by_cases has : p.asString s = true
    · rw [if_pos has, if_pos has]
      refine ⟨_, rfl, fun rest => ?_⟩
      rw [parseChars_escaped]
      cases s.all fun b => !p.escapeAll && writable b <;> rfl
    · rw [if_neg has, if_neg has]
      exact ⟨_, rfl, fun rest => parseChars_plains (toHexPrefixed_plain s) rest⟩
  obtain ⟨body, hbody, hparse⟩ := hquoted
  rw [hbody]
  refine ⟨fun rest => ?_, quote, _, rfl, by decide⟩
  show parseValue (fuel + 1) (quote :: (body ++ [quote] ++ rest)) = _
  rw [parseValue_quote, List.append_assoc]
  show (parseChars (body ++ quote :: rest)).map _ = _
  rw [hparse]
  cases p.decoded s <;> rfl

/-! ### Lists -/

/-- The level's indentation is space. -/
def Blank (p : Prefs) : Prop := Space p.indent

def gap (p : Prefs) (level : UInt32) : Bytes := if p.indent = [] then [0x20] else p.newline level

def lastGap (p : Prefs) (level : UInt32) : Bytes :=
  if p.indent = [] then [0x20] else p.lastNewline level

theorem space_newline (hp : p.Blank) (level : UInt32) : Space (p.newline level) := by
  intro b hb
  rcases List.mem_cons.mp hb with rfl | hb
  · decide
  · obtain ⟨l, hl, hb⟩ := List.mem_flatten.mp hb
    rw [List.eq_of_mem_replicate hl] at hb
    exact hp b hb

theorem space_one : Space [0x20] := by
  intro b hb
  rw [List.mem_singleton.mp hb]
  decide

theorem space_gap (hp : p.Blank) (level : UInt32) : Space (p.gap level) := by
  unfold gap
  split
  · exact space_one
  · exact space_newline hp level

theorem space_lastGap (hp : p.Blank) (level : UInt32) : Space (p.lastGap level) := by
  unfold lastGap
  split
  · exact space_one
  · exact fun b hb => space_newline hp level b (List.mem_of_mem_take hb)

theorem separator_zero (level : UInt32) : p.separator level 0 = p.gap level := rfl

theorem separator_succ (level : UInt32) (j : ℕ) :
    p.separator level (j + 1) = comma :: p.gap level := by
  unfold separator gap
  rw [if_pos (Nat.succ_ne_zero j)]
  split <;> rfl

theorem closing_succ (level : UInt32) (j : ℕ) :
    p.closing level (j + 1) = p.lastGap level ++ [Bracket.array.closes] := by
  unfold closing lastGap
  rw [if_neg (Nat.succ_ne_zero j)]
  split <;> rfl

/-- The items behind the first one. -/
theorem itemsText_cons (level : UInt32) (i : RLP) (l : List RLP) (w : Bytes) (j : ℕ) :
    w ++ p.text (level + 1) i ++ p.itemsText level (j + 1) l =
      arrayBody w (p.gap level) (p.lastGap level)
        (p.text (level + 1) i :: l.map (p.text (level + 1))) := by
  induction l generalizing i w j with
  | nil =>
    rw [itemsText, closing_succ, List.map_nil, arrayBody]
    simp
  | cons k l ih =>
    have hrest := ih k (p.gap level) (j + 1)
    rw [itemsText, separator_succ, List.map_cons, arrayBody, ← hrest]
    simp

theorem itemsText_eq (level : UInt32) (l : List RLP) : p.itemsText level 0 l =
    arrayBody (p.gap level) (p.gap level) (p.lastGap level) (l.map (p.text (level + 1))) := by
  cases l with
  | nil => rfl
  | cons i l => exact itemsText_cons level i l _ 0

theorem length_text_le {level : UInt32} {j : ℕ} {i : RLP} {l : List RLP} (hi : i ∈ l) :
    (p.text (level + 1) i).length ≤ (p.itemsText level j l).length := by
  induction l generalizing j with
  | nil => exact absurd hi List.not_mem_nil
  | cons k l ih =>
    rw [itemsText, List.length_append, List.length_append]
    rcases List.mem_cons.mp hi with rfl | hi
    · omega
    · have hle := ih (j := j + 1) hi
      omega

end Prefs

mutual
/-- The JSON of an item. -/
def toValue : RLP → Value
  | .data s => .str s
  | .list l => .array (toValues l)

def toValues : List RLP → List Value
  | [] => []
  | i :: l => toValue i :: toValues l
end

namespace Prefs
variable {p : Prefs}

/-- What the items say, one after another. -/
theorem mapM_traverse (f : Bytes → Option Bytes) (l : List RLP) :
    (l.map fun i => (i.traverse f).map toValue).mapM id =
      (RLP.traverseItems f l).map toValues := by
  induction l with
  | nil => rfl
  | cons i l ih =>
    rw [List.map_cons, List.mapM_cons, ih, RLP.traverseItems]
    cases i.traverse f with
    | none => rfl
    | some j => cases RLP.traverseItems f l <;> rfl

mutual
theorem parsesTo_text (hp : p.Blank) (i : RLP) (level : UInt32) (fuel : ℕ)
    (hf : (p.text level i).length ≤ fuel) :
    ParsesTo (parseValue fuel) (p.text level i) ((i.traverse p.decoded).map toValue) := by
  cases i with
  | data s =>
    have hpos : 0 < (p.dataText s).length := by
      unfold dataText
      split
      · exact Nat.succ_pos _
      · exact Nat.succ_pos _
    rw [text] at hf ⊢
    obtain ⟨fuel, rfl⟩ := Nat.exists_eq_add_one_of_ne_zero (hpos.trans_le hf).ne'
    rw [RLP.traverse, Option.map_map]
    exact parsesTo_data fuel s
  | list l =>
    rw [text] at hf ⊢
    obtain ⟨fuel, rfl⟩ := Nat.exists_eq_add_one_of_ne_zero
      ((Nat.succ_pos (p.itemsText level 0 l).length).trans_le hf).ne'
    have hitems := parsesTo_items hp l (level + 1) fuel fun i hi =>
      (length_text_le hi).trans (Nat.le_of_succ_le_succ hf)
    have harray := parseValue_array hitems (space_gap hp level) (space_gap hp level)
      (space_lastGap hp level)
    rw [itemsText_eq, RLP.traverse, Option.map_map]
    rw [mapM_traverse, Option.map_map] at harray
    exact harray

theorem parsesTo_items (hp : p.Blank) (l : List RLP) (level : UInt32) (fuel : ℕ)
    (hf : ∀ i ∈ l, (p.text level i).length ≤ fuel) :
    List.Forall₂ (ParsesTo (parseValue fuel)) (l.map (p.text level))
      (l.map fun i => (i.traverse p.decoded).map toValue) := by
  cases l with
  | nil => exact .nil
  | cons i l =>
    exact .cons (parsesTo_text hp i level fuel (hf i List.mem_cons_self))
      (parsesTo_items hp l level fuel fun k hk => hf k (List.mem_cons_of_mem i hk))
end

/-- **The text of an item says what its data say.** -/
theorem decode_text (hp : p.Blank) (i : RLP) :
    decode (p.text 0 i) = (i.traverse p.decoded).map toValue :=
  decode_eq (parsesTo_text hp i 0 _ le_rfl)

end Prefs
end Aleth.RlpTool
