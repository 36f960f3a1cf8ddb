import Aleth.Devcore.RlpStream
import Aleth.RlpTool.Rendering

/-! How the `rlp` tool makes an item from JSON (`Mode::Create`).

The values that are to be written wait on a stack; a list puts its items on it.
Where a string does not begin with 0x, backslashes are taken out of it a second
time. Behind one of them, `x` is followed by a digit that is read out of
`fromHex("x?")`, which has no bytes. -/
namespace Aleth.RlpTool
open Devcore RLPStream
open Json (Value)

inductive CreateError where
  | RLP (e : RLPException)
  | UnsupportedJsonType
  /-- A vector is read outside. -/
  | undefined
  | endless
deriving DecidableEq

/-! ### Strings -/

/-- A bad character makes nothing of all of it. -/
def orNothing : Except HexError Bytes → Except CreateError Bytes
  | .ok b => .ok b
  | .error .badHexCharacter => .ok []
  | .error .endless => .error .endless

/-- `fromHex`, which does not throw. -/
def fromHexOrNothing (s : Bytes) : Except CreateError Bytes := orNothing (fromHex s)

/-- The loop over the characters, from an `unsigned` on. -/
def unescape (s : Bytes) : (fuel : ℕ) → (i : UInt32) → Except CreateError Bytes
  | 0, _ => .error .endless
  | fuel + 1, i =>
    if i.toNat < s.length then
      if s.getD i.toNat 0 = 0x5C ∧ (i + 1).toNat < s.length then
        let i := i + 1
        if s.getD i.toNat 0 = 0x78 ∧ (i + 2).toNat < s.length then do
          match ← fromHexOrNothing ((s.drop i.toNat).take 2) with
          | [] => .error .undefined
          | b :: _ => return b :: (← unescape s fuel (i + 1))
        else unescape s fuel (i + 1)
      else if s.getD i.toNat 0 ≠ 0x5C then do
        return s.getD i.toNat 0 :: (← unescape s fuel (i + 1))
      else unescape s fuel (i + 1)
    else .ok []

/-- The data of a string. A turn for each character is enough, or the loop goes round for ever. -/
def createData (s : Bytes) : Except CreateError Bytes :=
  if s.take 2 = hexMark then fromHexOrNothing s else unescape s (s.length + 1) 0

/-! ### Values -/

/-- How many items of a list are put on the stack: they are counted down with an `int`. -/
def pushed (size : ℕ) : ℕ := (Int.bmod ((size : ℤ) - 1) (2 ^ 32) + 1).toNat

mutual
/-- A turn of the loop for each value. -/
def turns : Value → ℕ
  | .array l => turnsOfItems l + 1
  | .str _ => 1
  | .int _ => 1
  | .other => 1

def turnsOfItems : List Value → ℕ
  | [] => 0
  | v :: l => turns v + turnsOfItems l
end

/-- The loop; the back of the stack comes first. -/
def createLoop (lenience : Bool) : (fuel : ℕ) → List Value → RLPStream →
    Except CreateError RLPStream
  | _, [], out => .ok out
  | 0, _ :: _, _ => .error .endless
  | fuel + 1, .array a :: v, out => do
    createLoop lenience fuel (a.take (pushed a.length) ++ v)
      (← (appendList a.length out).mapError .RLP)
  | fuel + 1, .str s :: v, out => do
    createLoop lenience fuel v (← (append (← createData s) false out).mapError .RLP)
  | fuel + 1, .int i :: v, out => do
    createLoop lenience fuel v (← (appendInt (i % 2 ^ 32).toNat out).mapError .RLP)
  | fuel + 1, .other :: v, out =>
    if lenience then createLoop lenience fuel v out else .error .UnsupportedJsonType

/-- `Mode::Create`, once the JSON has been read. -/
def create (lenience : Bool) (v : Value) : Except CreateError Bytes := do
  (← createLoop lenience (turns v) [v] empty).out.mapError .RLP

/-! ### What becomes of a string -/

/-- A string that is data as it stands. -/
structure Plain (s : Bytes) : Prop where
  unmarked : s.take 2 ≠ hexMark
  unescaped : 0x5C ∉ s
  counted : s.length < 2 ^ 32

section Unescape
variable {s d : Bytes} {fuel : ℕ} {i : UInt32}

theorem toNat_succ (hs : s.length < 2 ^ 32) (hi : i.toNat < s.length) :
    (i + 1).toNat = i.toNat + 1 := by
  rw [UInt32.toNat_add, Nat.mod_eq_of_lt]
  · rfl
  · show i.toNat + 1 < 2 ^ 32
    omega

theorem drop_getD (hi : i.toNat < s.length) :
    s.drop i.toNat = s.getD i.toNat 0 :: s.drop (i.toNat + 1) := by
  rw [List.getD_eq_getElem _ _ hi]
  exact List.drop_eq_getElem_cons hi

theorem unescape_plain (hs : s.length < 2 ^ 32) (hi : i.toNat ≤ s.length)
    (hno : 0x5C ∉ s.drop i.toNat) (hf : s.length - i.toNat < fuel) :
    unescape s fuel i = .ok (s.drop i.toNat) := by
  induction fuel generalizing i with
  | zero => exact absurd hf (Nat.not_lt_zero _)
  | succ fuel ih =>
    rw [unescape]
    by_cases hlt : i.toNat < s.length
    · have hsucc := toNat_succ hs hlt
      rw [drop_getD hlt] at hno ⊢
      have hne : s.getD i.toNat 0 ≠ 0x5C := fun h => hno (h ▸ List.mem_cons_self)
      have hrest := ih (i := i + 1) (by omega)
        (by rw [hsucc]; exact fun h => hno (List.mem_cons_of_mem _ h)) (by omega)
      rw [if_pos hlt, if_neg fun h => hne h.1, if_pos hne, hrest, hsucc]
      rfl
    · have hend : i.toNat = s.length := by omega
      rw [if_neg hlt, hend, List.drop_length]

/-- `fromHex("x?")` has no bytes. -/
theorem fromHexOrNothing_x {t : Bytes} (ht : t.length ≤ 1) :
    fromHexOrNothing (0x78 :: t) = .ok [] := by
  cases t with
  | nil => rfl
  | cons b t =>
    rw [List.length_eq_zero_iff.mp (Nat.le_zero.mp (Nat.le_of_succ_le_succ ht))]
    have hmark : ([0x78, b] : Bytes).take 2 ≠ hexMark := by simp [hexMark]
    have hbad : fromHex [0x78, b] = .error .badHexCharacter := by
      unfold fromHex
      rw [if_neg hmark, if_neg (by simp)]
      rfl
    rw [fromHexOrNothing, hbad]
    rfl

/-- Backslashes are taken out, and never less. -/
theorem unescape_short (hs : s.length < 2 ^ 32) (hi : i.toNat ≤ s.length)
    (h : unescape s fuel i = .ok d) : d.length ≤ s.length - i.toNat ∧
      (0x5C ∈ s.drop i.toNat → d.length < s.length - i.toNat) := by
  induction fuel generalizing i d with
  | zero => cases h
  | succ fuel ih =>
    rw [unescape] at h
    by_cases hlt : i.toNat < s.length
    · have hsucc := toNat_succ hs hlt
      rw [if_pos hlt] at h
      by_cases hslash : s.getD i.toNat 0 = 0x5C ∧ (i + 1).toNat < s.length
      · have hlt' := hslash.2
        have hsucc' := toNat_succ hs hlt'
        rw [if_pos hslash] at h
        dsimp only at h
        by_cases hx : s.getD (i + 1).toNat 0 = 0x78 ∧ (i + 1 + 2).toNat < s.length
        · have htake : (s.drop (i + 1).toNat).take 2 =
              0x78 :: (s.drop ((i + 1).toNat + 1)).take 1 := by
            rw [drop_getD hlt', hx.1]
            rfl
          rw [if_pos hx, htake, fromHexOrNothing_x (List.length_take_le 1 _)] at h
          cases h
        · rw [if_neg hx] at h
          have hrest := ih (i := i + 1 + 1) (by omega) h
          omega
      · rw [if_neg hslash] at h
        by_cases hne : s.getD i.toNat 0 ≠ 0x5C
        · rw [if_pos hne] at h
          obtain ⟨d', hd', h⟩ := bind_eq_ok.mp h
          cases h
          have hrest := ih (i := i + 1) (by omega) hd'
          rw [drop_getD hlt, List.length_cons]
          refine ⟨by omega, fun hmem => ?_⟩
          rcases List.mem_cons.mp hmem with heq | hmem
          · exact absurd heq.symm hne
          · have := hrest.2 (hsucc.symm ▸ hmem)
            omega
        · rw [if_neg hne] at h
          have hrest := ih (i := i + 1) (by omega) h
          omega
    · rw [if_neg hlt] at h
      cases h
      refine ⟨Nat.zero_le _, fun hmem => ?_⟩
      rw [List.drop_eq_nil_of_le (not_lt.mp hlt)] at hmem
      exact absurd hmem List.not_mem_nil

/-- The index goes round before it gets behind so many characters. -/
theorem unescape_endless (hs : 2 ^ 32 ≤ s.length) : unescape s fuel i ≠ .ok d := by
  induction fuel generalizing i d with
  | zero =>
    intro h
    cases h
  | succ fuel ih =>
    have hlt : i.toNat < s.length := i.toNat_lt.trans_le hs
    have hbind : ∀ (x : Except CreateError Bytes) (f : Bytes → Bytes),
        (∀ d, x ≠ .ok d) → (x >>= fun b => Except.ok (f b)) ≠ .ok d := by
      intro x f hx h
      obtain ⟨d', hd', -⟩ := bind_eq_ok.mp h
      exact hx d' hd'
    rw [unescape, if_pos hlt]
    dsimp only
    split
    · split
      · intro h
        obtain ⟨b, -, h⟩ := bind_eq_ok.mp h
        cases b with
        | nil => cases h
        | cons b rest => exact hbind _ _ (fun d => ih) h
      · exact ih
    · split
      · exact hbind _ _ fun d => ih
      · exact ih

theorem fromHexLoop_endless (hs : 2 ^ 32 ≤ s.length) : fromHexLoop s fuel i ≠ .ok d := by
  induction fuel generalizing i d with
  | zero =>
    intro h
    cases h
  | succ fuel ih =>
    have hlt : i.toNat < s.length := i.toNat_lt.trans_le hs
    intro h
    rw [fromHexLoop, if_pos hlt] at h
    split at h
    · obtain ⟨d', hd', -⟩ := bind_eq_ok.mp h
      exact ih hd'
    · cases h

/-- Two digits for each byte. -/
theorem length_fromHexLoop (hs : s.length < 2 ^ 32) (hi : i.toNat ≤ s.length)
    (heven : (s.length - i.toNat) % 2 = 0) (h : fromHexLoop s fuel i = .ok d) :
    2 * d.length = s.length - i.toNat := by
  induction fuel generalizing i d with
  | zero => cases h
  | succ fuel ih =>
    rw [fromHexLoop] at h
    by_cases hlt : i.toNat < s.length
    · have htwo : (i + 2).toNat = i.toNat + 2 := by
        rw [UInt32.toNat_add, Nat.mod_eq_of_lt]
        · rfl
        · show i.toNat + 2 < 2 ^ 32
          omega
      rw [if_pos hlt] at h
      split at h
      · obtain ⟨d', hd', h⟩ := bind_eq_ok.mp h
        cases h
        have hrest := ih (i := i + 2) (by omega) (by omega) hd'
        rw [List.length_cons]
        omega
      · cases h
    · rw [if_neg hlt] at h
      cases h
      rw [List.length_nil]
      omega

end Unescape

theorem fromHex_ok {s d : Bytes} (h : fromHex s = .ok d) (hmark : s.take 2 = hexMark) :
    (s.length % 2 = 1 ∧ ∃ x d' fuel, d = x :: d' ∧ fromHexLoop s fuel (2 + 1) = .ok d') ∨
      (¬s.length % 2 = 1 ∧ ∃ fuel, fromHexLoop s fuel 2 = .ok d) := by
  unfold fromHex at h
  rw [if_pos hmark] at h
  dsimp only at h
  split at h
  case isTrue hodd =>
    split at h
    · obtain ⟨d', hd', h⟩ := bind_eq_ok.mp h
      cases h
      exact .inl ⟨hodd, _, d', _, rfl, hd'⟩
    · cases h
  case isFalse heven => exact .inr ⟨heven, _, h⟩

/-- What hex says is less than the hex. -/
theorem length_fromHex {s d : Bytes} (h : fromHex s = .ok d) (hmark : s.take 2 = hexMark) :
    d.length < s.length := by
  have hlen : 2 ≤ s.length := by
    have htake := congrArg List.length hmark
    rw [List.length_take] at htake
    have htwo : hexMark.length = 2 := rfl
    omega
  have hthree : ((2 : UInt32) + 1).toNat = 3 := rfl
  have htwo : (2 : UInt32).toNat = 2 := rfl
  rcases fromHex_ok h hmark with ⟨hodd, x, d', fuel, rfl, hd'⟩ | ⟨heven, fuel, hd⟩
  · have hs : s.length < 2 ^ 32 := by
      by_contra hge
      exact fromHexLoop_endless (not_lt.mp hge) hd'
    have hdigits := length_fromHexLoop hs (by omega) (by omega) hd'
    rw [List.length_cons]
    omega
  · have hs : s.length < 2 ^ 32 := by
      by_contra hge
      exact fromHexLoop_endless (not_lt.mp hge) hd
    have hdigits := length_fromHexLoop hs (by omega) (by omega) hd
    omega

theorem length_fromHexOrNothing {s d : Bytes} (h : fromHexOrNothing s = .ok d)
    (hmark : s.take 2 = hexMark) : d.length < s.length := by
  have hne : 0 < s.length := by
    cases s with
    | nil => cases hmark
    | cons b s => exact Nat.succ_pos _
  unfold fromHexOrNothing at h
  cases hhex : fromHex s with
  | ok d' =>
    rw [hhex] at h
    cases h
    exact length_fromHex hhex hmark
  | error e =>
    rw [hhex] at h
    cases e with
    | badHexCharacter =>
      cases h
      exact hne
    | endless => cases h

/-- A plain string is the data, and any other one becomes shorter data or none. -/
theorem createData_cases {s d : Bytes} (h : createData s = .ok d) :
    (Plain s ∧ d = s) ∨ (¬Plain s ∧ d.length < s.length) := by
  unfold createData at h
  by_cases hmark : s.take 2 = hexMark
  · rw [if_pos hmark] at h
    exact .inr ⟨fun hp => hp.unmarked hmark, length_fromHexOrNothing h hmark⟩
  · rw [if_neg hmark] at h
    have hs : s.length < 2 ^ 32 := by
      by_contra hge
      exact unescape_endless (not_lt.mp hge) h
    by_cases hslash : 0x5C ∈ s
    · have hshort := (unescape_short hs (Nat.zero_le _) h).2 hslash
      exact .inr ⟨fun hp => hp.unescaped hslash, hshort⟩
    · have hplain : unescape s (s.length + 1) 0 = .ok s :=
        unescape_plain hs (Nat.zero_le _) hslash (Nat.lt_succ_self _)
      cases hplain.symm.trans h
      exact .inl ⟨⟨hmark, hslash, hs⟩, rfl⟩

theorem createData_plain {s : Bytes} (h : Plain s) : createData s = .ok s := by
  unfold createData
  rw [if_neg h.unmarked]
  exact unescape_plain h.counted (Nat.zero_le _) h.unescaped (Nat.lt_succ_self _)

/-- Hex that can be counted says its data, and longer hex something shorter or nothing. -/
theorem createData_hex {s d : Bytes} (h : createData (toHexPrefixed s) = .ok d) :
    (2 + 2 * s.length < 2 ^ 32 ∧ d = s) ∨ (¬2 + 2 * s.length < 2 ^ 32 ∧ d.length < s.length) := by
  have hmark : (toHexPrefixed s).take 2 = hexMark := rfl
  unfold createData at h
  rw [if_pos hmark] at h
  by_cases hlen : 2 + 2 * s.length < 2 ^ 32
  · rw [fromHexOrNothing, fromHex_toHexPrefixed hlen] at h
    cases h
    exact .inl ⟨hlen, rfl⟩
  · refine .inr ⟨hlen, ?_⟩
    have heven : ¬(toHexPrefixed s).length % 2 = 1 := by
      rw [length_toHexPrefixed]
      omega
    have hloop : fromHex (toHexPrefixed s) ≠ .ok d := by
      intro hd
      rcases fromHex_ok hd hmark with ⟨hodd, -⟩ | ⟨-, fuel, hd⟩
      · exact heven hodd
      · exact fromHexLoop_endless (by rw [length_toHexPrefixed]; exact not_lt.mp hlen) hd
    unfold fromHexOrNothing at h
    cases hhex : fromHex (toHexPrefixed s) with
    | ok d' =>
      rw [hhex] at h hloop
      cases h
      exact absurd rfl hloop
    | error e =>
      rw [hhex] at h
      cases e with
      | badHexCharacter =>
        cases h
        show 0 < s.length
        omega
      | endless => cases h

theorem createData_hex_eq {s : Bytes} (h : 2 + 2 * s.length < 2 ^ 32) :
    createData (toHexPrefixed s) = .ok s := by
  have hmark : (toHexPrefixed s).take 2 = hexMark := rfl
  unfold createData
  rw [if_pos hmark, fromHexOrNothing, fromHex_toHexPrefixed h]
  rfl

end Aleth.RlpTool
