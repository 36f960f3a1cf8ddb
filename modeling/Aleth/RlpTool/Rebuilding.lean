import Aleth.Devcore.RlpCanonical
import Aleth.RlpTool.Creating
import Aleth.RlpTool.RenderedJson

/-! Creating from a rendering.

What a datum becomes on the way there and back (`made`) is no longer than the
datum, so what is created can be written, and is the item only if every datum
came back (`rebuilt_eq`). The reader of JSON is any that follows the standard. -/
namespace Aleth.Devcore
open RLPStream

namespace RLP

/-! ### Traversals -/

mutual
theorem traverse_bind (f g : Bytes → Option Bytes) (i : RLP) :
    ((i.traverse f).bind fun j => j.traverse g) = i.traverse fun s => (f s).bind g := by
  cases i with
  | data s =>
    rw [traverse, traverse]
    cases f s <;> rfl
  | list l =>
    have hitems := traverseItems_bind f g l
    rw [traverse, traverse, ← hitems]
    cases traverseItems f l <;> rfl

theorem traverseItems_bind (f g : Bytes → Option Bytes) (l : List RLP) :
    ((traverseItems f l).bind fun m => traverseItems g m) =
      traverseItems (fun s => (f s).bind g) l := by
  cases l with
  | nil => rfl
  | cons i l =>
    have hitem := traverse_bind f g i
    have hitems := traverseItems_bind f g l
    rw [traverseItems, traverseItems, ← hitem, ← hitems]
    cases i.traverse f with
    | none => rfl
    | some j =>
      cases traverseItems f l with
      | none =>
        show none = (j.traverse g).bind fun i => none
        cases j.traverse g <;> rfl
      | some m => rfl
end

mutual
theorem short_traverse {f : Bytes → Option Bytes} {i j : RLP} (h : i.traverse f = some j) :
    j.short = i.short := by
  cases i with
  | data s =>
    rw [traverse] at h
    obtain ⟨d, -, rfl⟩ := Option.map_eq_some_iff.mp h
    rfl
  | list l =>
    rw [traverse] at h
    obtain ⟨m, hm, rfl⟩ := Option.map_eq_some_iff.mp h
    obtain ⟨hlen, hshort⟩ := short_traverseItems hm
    rw [short, short, hlen, hshort]

theorem short_traverseItems {f : Bytes → Option Bytes} {l m : List RLP}
    (h : traverseItems f l = some m) : m.length = l.length ∧ shortItems m = shortItems l := by
  cases l with
  | nil =>
    cases h
    exact ⟨rfl, rfl⟩
  | cons i l =>
    rw [traverseItems] at h
    obtain ⟨j, hj, h⟩ := Option.bind_eq_some_iff.mp h
    obtain ⟨m, hm, rfl⟩ := Option.map_eq_some_iff.mp h
    obtain ⟨hlen, hshort⟩ := short_traverseItems hm
    rw [shortItems, shortItems, short_traverse hj, hshort, List.length_cons, List.length_cons, hlen]
    exact ⟨rfl, rfl⟩
end

/-! ### Lengths -/

theorem length_header_le (immStart indZero : ℕ) {n m : ℕ} (h : n ≤ m) :
    (header immStart indZero n).length ≤ (header immStart indZero m).length := by
  have hbr : bytesRequired n ≤ bytesRequired m :=
    bytesRequired_le (h.trans_lt (lt_pow_bytesRequired m))
  have hlen : ∀ k, (header immStart indZero k).length =
      if k < c_rlpImmLenCount then 1 else bytesRequired k + 1 := by
    intro k
    unfold header
    split
    · rfl
    · rw [List.length_cons, toCompactBigEndian_length]
  rw [hlen, hlen]
  split
  · split
    · exact le_rfl
    · exact Nat.succ_le_succ (Nat.zero_le _)
  · rw [if_neg (by omega)]
    exact Nat.succ_le_succ hbr

theorem length_appendData_le {d s : Bytes} (h : d.length < s.length) :
    (appendData d).length ≤ (appendData s).length := by
  have hd : (appendData d).length ≤
      (header c_rlpDataImmLenStart c_rlpDataIndLenZero d.length).length + d.length := by
    rw [appendData_eq, List.length_append]
    apply Nat.add_le_add_right
    unfold dataHeader
    split
    · split
      · exact Nat.zero_le _
      · exact le_rfl
    · exact le_rfl
  cases s with
  | nil => exact absurd h (Nat.not_lt_zero _)
  | cons b s =>
    cases s with
    | nil =>
      rw [List.length_eq_zero_iff.mp (Nat.lt_one_iff.mp h)]
      exact List.length_pos_iff.mpr (appendData_ne_nil [b])
    | cons c s =>
      have hheader := length_header_le c_rlpDataImmLenStart c_rlpDataIndLenZero h.le
      have hs : (appendData (b :: c :: s)).length =
          (header c_rlpDataImmLenStart c_rlpDataIndLenZero (b :: c :: s).length).length +
            (b :: c :: s).length := List.length_append
      omega

mutual
/-- What has shorter data has a shorter encoding. -/
theorem length_encode_le {f : Bytes → Option Bytes}
    (hf : ∀ {s d}, f s = some d → d = s ∨ d.length < s.length) {i j : RLP}
    (h : i.traverse f = some j) : j.encode.length ≤ i.encode.length := by
  cases i with
  | data s =>
    rw [traverse] at h
    obtain ⟨d, hd, rfl⟩ := Option.map_eq_some_iff.mp h
    rcases hf hd with rfl | hlt
    · exact le_rfl
    · exact length_appendData_le hlt
  | list l =>
    rw [traverse] at h
    obtain ⟨m, hm, rfl⟩ := Option.map_eq_some_iff.mp h
    have hitems := length_encodeItems_le hf hm
    have hheader := length_header_le c_rlpListStart c_rlpListIndLenZero hitems
    rw [encode, encode, Devcore.appendList, Devcore.appendList, List.length_append,
      List.length_append]
    omega

theorem length_encodeItems_le {f : Bytes → Option Bytes}
    (hf : ∀ {s d}, f s = some d → d = s ∨ d.length < s.length) {l m : List RLP}
    (h : traverseItems f l = some m) : (encodeItems m).length ≤ (encodeItems l).length := by
  cases l with
  | nil =>
    cases h
    exact le_rfl
  | cons i l =>
    rw [traverseItems] at h
    obtain ⟨j, hj, h⟩ := Option.bind_eq_some_iff.mp h
    obtain ⟨m, hm, rfl⟩ := Option.map_eq_some_iff.mp h
    have hitem := length_encode_le hf hj
    have hitems := length_encodeItems_le hf hm
    rw [encodeItems, encodeItems, List.length_append, List.length_append]
    omega
end

theorem write_toItem {i : RLP} (h : i.encode.length < 2 ^ 64) :
    write i.toItem empty = .ok ⟨i.encode, []⟩ := by
  have hwrite := write_empty (small_toItem i) (by rwa [toRLP_toItem])
  rwa [toRLP_toItem] at hwrite

end RLP
end Aleth.Devcore

namespace Aleth.RlpTool
open Devcore RLPStream RLPView Json

/-! ### The stack of values -/

/-- What is created for data, if something is. -/
def created (s : Bytes) : Option Bytes := (createData s).toOption

theorem toOption_mapError {ε ε' α : Type} (f : ε → ε') (x : Except ε α) :
    (x.mapError f).toOption = x.toOption := by
  cases x <;> rfl

theorem pushed_eq {n : ℕ} (h : n < 2 ^ 31) : pushed n = n := by
  unfold pushed
  rw [Int.bmod_def]
  omega

theorem length_toValues (l : List RLP) : (toValues l).length = l.length := by
  induction l with
  | nil => rfl
  | cons i l ih => rw [toValues, List.length_cons, List.length_cons, ih]

theorem length_toItems (l : List RLP) : (RLP.toItems l).length = l.length := by
  rw [← length_toRLPs, RLP.toRLPs_toItems]

mutual
/-- A value is written, and then the rest of the stack. -/
theorem createLoop_eq (lenience : Bool) (i : RLP) (hshort : i.short = true) (k : ℕ)
    (stack : List Value) (s : RLPStream) :
    (createLoop lenience (turns (toValue i) + k) (toValue i :: stack) s).toOption =
      (i.traverse created).bind fun j => (write j.toItem s).toOption.bind fun s =>
        (createLoop lenience k stack s).toOption := by
  cases i with
  | data d =>
    rw [toValue, turns, Nat.add_comm, createLoop, RLP.traverse, created, toOption_bind]
    cases createData d with
    | error e => rfl
    | ok d =>
      show ((append d false s).mapError .RLP >>= fun s => createLoop lenience k stack s).toOption =
        (append d false s).toOption.bind fun s => (createLoop lenience k stack s).toOption
      rw [toOption_bind, toOption_mapError]
  | list l =>
    rw [RLP.short, Bool.and_eq_true, decide_eq_true_iff] at hshort
    have hlen := length_toValues l
    have htake : (toValues l).take (pushed (toValues l).length) = toValues l := by
      rw [hlen, pushed_eq hshort.1, ← hlen, List.take_length]
    have hitems := createLoop_items lenience l hshort.2 k stack
    rw [toValue, turns, Nat.add_right_comm, createLoop, htake, toOption_bind, toOption_mapError,
      RLP.traverse, hlen]
    cases hm : RLP.traverseItems created l with
    | none =>
      rw [hm] at hitems
      cases (appendList l.length s).toOption with
      | none => rfl
      | some s => exact hitems s
    | some m =>
      rw [hm] at hitems
      have hcount : (RLP.toItems m).length = l.length :=
        (length_toItems m).trans (RLP.short_traverseItems hm).1
      show (appendList l.length s).toOption.bind _ =
        (appendList (RLP.toItems m).length s >>= writeItems (RLP.toItems m)).toOption.bind _
      rw [hcount, toOption_bind]
      cases (appendList l.length s).toOption with
      | none => rfl
      | some s => exact hitems s

theorem createLoop_items (lenience : Bool) (l : List RLP) (hshort : RLP.shortItems l = true) (k : ℕ)
    (stack : List Value) (s : RLPStream) :
    (createLoop lenience (turnsOfItems (toValues l) + k) (toValues l ++ stack) s).toOption =
      (RLP.traverseItems created l).bind fun m => (writeItems (RLP.toItems m) s).toOption.bind
        fun s => (createLoop lenience k stack s).toOption := by
  cases l with
  | nil =>
    rw [toValues, turnsOfItems, Nat.zero_add]
    rfl
  | cons i l =>
    rw [RLP.shortItems, Bool.and_eq_true] at hshort
    have hitem := createLoop_eq lenience i hshort.1 (turnsOfItems (toValues l) + k)
      (toValues l ++ stack) s
    have hitems := createLoop_items lenience l hshort.2 k stack
    rw [toValues, turnsOfItems, Nat.add_assoc, List.cons_append, hitem, RLP.traverseItems]
    cases i.traverse created with
    | none => rfl
    | some j =>
      rw [Option.bind_some, Option.bind_some]
      cases hm : RLP.traverseItems created l with
      | none =>
        rw [hm] at hitems
        cases (write j.toItem s).toOption with
        | none => rfl
        | some s => exact hitems s
      | some m =>
        rw [hm] at hitems
        show (write j.toItem s).toOption.bind _ =
          (write j.toItem s >>= writeItems (RLP.toItems m)).toOption.bind _
        rw [toOption_bind]
        cases (write j.toItem s).toOption with
        | none => rfl
        | some s => exact hitems s
end

/-- What is created from the JSON of an item is the encoding of what its data become. -/
theorem create_eq (lenience : Bool) {i : RLP} (hshort : i.short = true)
    (hlen : ∀ {j}, i.traverse created = some j → j.encode.length < 2 ^ 64) :
    (create lenience (toValue i)).toOption = (i.traverse created).map RLP.encode := by
  have hloop := createLoop_eq lenience i hshort 0 [] empty
  rw [Nat.add_zero] at hloop
  rw [create, toOption_bind, hloop]
  cases hj : i.traverse created with
  | none => rfl
  | some j =>
    rw [Option.bind_some, RLP.write_toItem (hlen hj)]
    rfl

/-! ### There and back -/

namespace Prefs
variable {p : Prefs} {s d : Bytes}

/-- What a datum becomes. -/
def made (p : Prefs) (s : Bytes) : Option Bytes := (p.decoded s).bind created

/-- The data that comes back: hex that can be counted, and strings without the escapes that JSON
does not have, without backslashes and without 0x at their beginning. -/
def Survives (p : Prefs) (s : Bytes) : Prop :=
  if p.asString s then
    (∀ b ∈ s, p.escapeAll = false ∧ writable b = true) ∧ Plain s
  else 2 + 2 * s.length < 2 ^ 32

theorem made_cases (h : p.made s = some d) :
    (p.Survives s ∧ d = s) ∨ (¬p.Survives s ∧ d.length < s.length) := by
  obtain ⟨t, ht, hd⟩ := Option.bind_eq_some_iff.mp h
  have hd : createData t = .ok d := toOption_eq_some.mp hd
  unfold decoded at ht
  unfold Survives
  by_cases has : p.asString s = true
  · rw [if_pos has] at ht ⊢
    split at ht
    case isTrue hall =>
      cases ht
      have hwritten : ∀ b ∈ s, p.escapeAll = false ∧ writable b = true := by
        intro b hb
        have hb := List.all_eq_true.mp hall b hb
        rwa [Bool.and_eq_true, Bool.not_eq_true'] at hb
      rcases createData_cases hd with ⟨hplain, heq⟩ | ⟨hnot, hlt⟩
      · exact .inl ⟨⟨hwritten, hplain⟩, heq⟩
      · exact .inr ⟨fun hs => hnot hs.2, hlt⟩
    case isFalse => cases ht
  · rw [if_neg has] at ht ⊢
    cases ht
    exact createData_hex hd

theorem made_survives (h : p.Survives s) : p.made s = some s := by
  unfold Survives at h
  unfold made decoded
  by_cases has : p.asString s = true
  · rw [if_pos has] at h ⊢
    have hall : (s.all fun b => !p.escapeAll && writable b) = true := by
      apply List.all_eq_true.mpr
      intro b hb
      rw [Bool.and_eq_true, Bool.not_eq_true']
      exact h.1 b hb
    rw [if_pos hall, Option.bind_some, created, createData_plain h.2]
    rfl
  · rw [if_neg has] at h ⊢
    rw [Option.bind_some, created, createData_hex_eq h]
    rfl

mutual
/-- All data comes back, and the lists can be counted. -/
def Faithful (p : Prefs) : RLP → Prop
  | .data s => p.Survives s
  | .list l => l.length < 2 ^ 31 ∧ FaithfulItems p l

def FaithfulItems (p : Prefs) : List RLP → Prop
  | [] => True
  | i :: l => Faithful p i ∧ FaithfulItems p l
end

mutual
theorem faithful_iff (i : RLP) :
    p.Faithful i ↔ i.short = true ∧ i.traverse p.made = some i := by
  cases i with
  | data s =>
    rw [Faithful, RLP.traverse, RLP.short]
    constructor
    · intro h
      rw [made_survives h]
      exact ⟨rfl, rfl⟩
    · intro ⟨_, h⟩
      obtain ⟨d, hd, heq⟩ := Option.map_eq_some_iff.mp h
      cases heq
      rcases made_cases hd with ⟨hs, -⟩ | ⟨-, hlt⟩
      · exact hs
      · exact absurd hlt (lt_irrefl _)
  | list l =>
    have hitems := faithfulItems_iff l
    rw [Faithful, hitems, RLP.traverse, RLP.short, Bool.and_eq_true, decide_eq_true_iff, and_assoc]
    apply and_congr_right
    intro _
    apply and_congr_right
    intro _
    constructor
    · intro h
      rw [h]
      rfl
    · intro h
      obtain ⟨m, hm, heq⟩ := Option.map_eq_some_iff.mp h
      cases heq
      exact hm

theorem faithfulItems_iff (l : List RLP) :
    FaithfulItems p l ↔ RLP.shortItems l = true ∧ RLP.traverseItems p.made l = some l := by
  cases l with
  | nil => exact iff_of_true trivial ⟨rfl, rfl⟩
  | cons i l =>
    have hitem := faithful_iff i
    have hitems := faithfulItems_iff l
    rw [FaithfulItems, hitem, hitems, RLP.shortItems, Bool.and_eq_true, RLP.traverseItems]
    constructor
    · intro ⟨⟨hi, hti⟩, hl, htl⟩
      rw [hti, htl]
      exact ⟨⟨hi, hl⟩, rfl⟩
    · intro ⟨⟨hi, hl⟩, h⟩
      obtain ⟨j, hj, h⟩ := Option.bind_eq_some_iff.mp h
      obtain ⟨m, hm, heq⟩ := Option.map_eq_some_iff.mp h
      cases heq
      exact ⟨⟨hi, hj⟩, hl, hm⟩
end

/-- A reader of JSON that follows the standard on arrays and strings. -/
def Conforms (read : Text → Option Value) : Prop := ∀ t v, decode t = some v → read t = some v

/-- What is created from the text that an item is rendered as is the item. -/
def CreatesBack (p : Prefs) (lenience : Bool) (i : RLP) : Prop :=
  ∀ read, Conforms read → ∃ t v, p.render i.encode = .ok t ∧ read t = some v ∧
    create lenience v = .ok i.encode

/-- What comes of an item that can be rendered, where the JSON is read strictly. -/
theorem rebuilt_eq (hp : p.Blank) (lenience : Bool) {i : RLP} (hshort : i.short = true)
    (hfits : i.encode.length < 2 ^ 64) :
    ((decode (p.text 0 i)).bind fun v => (create lenience v).toOption) =
      (i.traverse p.made).map RLP.encode := by
  have hcomp := RLP.traverse_bind p.decoded created i
  rw [decode_text hp]
  unfold made
  rw [← hcomp]
  cases hj : i.traverse p.decoded with
  | none => rfl
  | some j =>
    rw [hj] at hcomp
    have hcreate := create_eq lenience ((RLP.short_traverse hj).trans hshort) (fun {k} hk => by
      have hmade : i.traverse p.made = some k := hcomp.symm.trans hk
      have hle := RLP.length_encode_le (fun h => (made_cases h).imp And.right And.right) hmade
      exact hle.trans_lt hfits)
    exact hcreate

theorem encode_injective {i j : RLP} (hfits : i.encode.length < 2 ^ 64 - 1 - 0x100)
    (h : j.encode = i.encode) : j = i := by
  have hi := RLP.decode_encode i hfits
  have hj := RLP.decode_encode j (by rw [h]; exact hfits)
  rw [h] at hj
  exact Option.some.inj (hj.symm.trans hi)

/-- **Creating from a rendering gives the item back if and only if all of its data survives.** -/
theorem createsBack_iff (hp : p.Blank) (lenience : Bool) {i : RLP}
    (hfits : RLP.Fits i.encode) : p.CreatesBack lenience i ↔ p.Faithful i := by
  have hlen : i.encode.length < 2 ^ 64 := lt_of_lt_of_le hfits (by norm_num)
  have hrender := render_eq (p := p) i hfits
  rw [faithful_iff]
  constructor
  · intro h
    obtain ⟨t, v, ht, hv, hcreate⟩ := h decode fun t v h => h
    rw [ht] at hrender
    have hshort : i.short = true := by
      by_contra hlong
      rw [if_neg hlong] at hrender
      cases hrender
    rw [if_pos hshort] at hrender
    cases hrender
    have hrebuilt := rebuilt_eq hp lenience hshort hlen
    rw [hv, Option.bind_some, hcreate] at hrebuilt
    obtain ⟨j, hj, henc⟩ := Option.map_eq_some_iff.mp hrebuilt.symm
    rw [encode_injective hfits henc] at hj
    exact ⟨hshort, hj⟩
  · intro ⟨hshort, hmade⟩ read hread
    have hrebuilt := rebuilt_eq hp lenience hshort hlen
    rw [if_pos hshort] at hrender
    rw [hmade] at hrebuilt
    obtain ⟨v, hv, hcreate⟩ := Option.bind_eq_some_iff.mp hrebuilt
    exact ⟨_, v, toOption_eq_some.mp hrender, hread _ _ hv, toOption_eq_some.mp hcreate⟩

instance (s : Bytes) : Decidable (Plain s) :=
  decidable_of_iff (s.take 2 ≠ hexMark ∧ 0x5C ∉ s ∧ s.length < 2 ^ 32)
    ⟨fun h => ⟨h.1, h.2.1, h.2.2⟩, fun h => ⟨h.unmarked, h.unescaped, h.counted⟩⟩

instance (p : Prefs) (s : Bytes) : Decidable (p.Survives s) := by
  unfold Survives
  infer_instance

/-- Strings where the data is ASCII, one item a line. -/
def asciiStrings : Prefs := ⟨[0x20, 0x20], false, false, false⟩

/-- A quoted word, an empty list and a byte. -/
theorem createsBack_sample : asciiStrings.CreatesBack false
    (.list [.data [0x22, 0x68, 0x69, 0x22], .list [], .data [0xFF]]) := by
  have hblank : asciiStrings.Blank := by
    unfold Blank Space asciiStrings
    decide +kernel
  have hfits : RLP.Fits (RLP.encode (.list [.data [0x22, 0x68, 0x69, 0x22], .list [],
      .data [0xFF]])) := by
    unfold RLP.Fits
    decide +kernel
  have hword : asciiStrings.Survives [0x22, 0x68, 0x69, 0x22] := by decide +kernel
  have hbyte : asciiStrings.Survives [0xFF] := by decide +kernel
  exact (createsBack_iff hblank false hfits).mpr
    ⟨by norm_num, hword, ⟨by norm_num, trivial⟩, hbyte, trivial⟩

/-- A backslash and the character behind it are lost. -/
theorem backslash_lost : ¬Prefs.CreatesBack ⟨[], false, false, false⟩ false
    (.data [0x5C, 0x61]) := by
  intro h
  obtain ⟨t, v, ht, hv, hcreate⟩ := h decode fun t v h => h
  have hrender : Prefs.render ⟨[], false, false, false⟩ (RLP.data [0x5C, 0x61]).encode =
      .ok [0x22, 0x5C, 0x5C, 0x61, 0x22] := by rfl
  cases hrender.symm.trans ht
  have hcreated : (decode [0x22, 0x5C, 0x5C, 0x61, 0x22]).map (create false) =
      some (.ok [0x80]) := by decide +kernel
  rw [hv, Option.map_some, hcreate] at hcreated
  exact absurd (Except.ok.inj (Option.some.inj hcreated)) (by decide +kernel)

end Prefs
end Aleth.RlpTool
