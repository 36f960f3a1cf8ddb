import Aleth.Devcore.RlpIteration
import Aleth.Devcore.RlpFields
import Aleth.Devcore.RlpPayload
import Aleth.Devcore.Words
import Aleth.Devcrypto.ECIES

/-! The index of keys, as `KeyManager::load` reads it (`KeyManager.cpp`).

Reading assigns to the maps of the key manager while it goes on. `readIndex`
lists the assignments in their order; those before a throw have been made.
It always comes to an end (`readIndex_terminates`). -/
namespace Aleth.Ethcore
open Devcore Devcrypto Throwing RLPView

abbrev Uuid := FixedHash 16
abbrev PassHash := FixedHash 32

structure KeyInfo where
  passHash : PassHash := .zero 32
  accountName : Bytes := []
  passwordHint : Bytes := []
deriving DecidableEq

/-- An assignment. -/
inductive Note where
  /-- To `m_addrLookup` and `m_uuidLookup`. -/
  | lookup (uuid : Uuid) (addr : Address)
  /-- To `m_keyInfo`; the store then notes the address of a key that it has. -/
  | info (addr : Address) (info : KeyInfo) (stored : Option Uuid)
  | hint (hash : PassHash) (hint : Bytes)
deriving DecidableEq

abbrev Reading := Throwing (List Note) RLPException

/-! ### The code -/

namespace Reading

def note (n : Note) : Reading Unit := modify (· ++ [n])

/-- `FixedHash<N>(r[i])`. -/
def hash (N : ℕ) (r : RLPView) (i : ℕ) : Except RLPException (FixedHash N) := do
  return .ofBytes N (← toHash N (← item r i) Strict)

/-- `Address(r[i])`. -/
def address (r : RLPView) (i : ℕ) : Except RLPException Address := do
  return BitVec.ofNat 160 (fromBigEndian (← hash 20 r i).1)

/-- `string(r[i])`. -/
def string (r : RLPView) (i : ℕ) : Except RLPException Bytes := do
  toString (← item r i) LaissezFaire

/-- `i.itemCount() > 4 ? string(i[4]) : ""`. -/
def hint (i : RLPView) (count : ℕ) : Except RLPException Bytes :=
  if 4 < count then string i 4 else .ok []

/-- `KeyInfo(h256(i[2]), string(i[3]), ...)`. -/
def keyInfo (i : RLPView) : Except RLPException KeyInfo := do
  let passHash ← hash 32 i 2
  let accountName ← string i 3
  let passwordHint ← hint i (← itemCount (enough i) i)
  return ⟨passHash, accountName, passwordHint⟩

/-- A range-based `for`, from an iterator on. -/
def loop (body : RLPView → Reading Unit) (stop : Iterator) : (fuel : ℕ) → Iterator → Reading Unit
  | 0, _ => throw .nontermination
  | fuel + 1, it =>
    if it.m_currentItem.same stop.m_currentItem then pure ()
    else do
      let r ← lift (construct it.m_currentItem VeryStrict)
      body r
      let it ← lift (increment it)
      loop body stop fuel it

def forItems (r : RLPView) (body : RLPView → Reading Unit) : Reading Unit := do
  let it ← lift (begin r)
  loop body r.end_ (r.m_data.m_count + 2) it

/-- An entry of the list of keys; `contains` is what the store has. -/
def readKey (contains : Uuid → Bool) (i : RLPView) : Reading Unit := do
  let uuid ← lift (hash 16 i 1)
  let addr ← lift (address i 0)
  if uuid ≠ .zero 16 then
    if contains uuid then do
      note (.lookup uuid addr)
      let info ← lift (keyInfo i)
      note (.info addr info (some uuid))
    else pure ()
  else do
    let info ← lift (keyInfo i)
    note (.info addr info none)

def readHint (i : RLPView) : Reading Unit := do
  let h ← lift (hash 32 i 0)
  let hint ← lift (string i 1)
  note (.hint h hint)

/-- The default password, if the version is 1. -/
def readIndex (contains : Uuid → Bool) (content : Bytes) : Reading (Option Bytes) := do
  let s ← lift (construct (.ofBytes content) VeryStrict)
  let first ← lift (item s 0)
  let version ← lift (toIntOf 4 first Strict)
  if version = 1 then do
    let keys ← lift (item s 1)
    forItems keys (readKey contains)
    let hints ← lift (item s 2)
    forItems hints readHint
    let password ← lift (string s 3)
    return some password
  else return none

end Reading

/-! ### What an index is -/

structure IndexEntry where
  addr : Address
  uuid : Uuid
  passHash : PassHash
  accountName : Bytes
  /-- Old indices have none. -/
  passwordHint : Option Bytes

def IndexEntry.rlp (e : IndexEntry) : RLP :=
  .list ([.data (toBigEndian 20 e.addr.toNat), .data e.uuid.1, .data e.passHash.1,
    .data e.accountName] ++ (e.passwordHint.map RLP.data).toList)

structure KeyIndex where
  entries : List IndexEntry
  hints : List (PassHash × Bytes)
  defaultPassword : Bytes

def KeyIndex.rlp (i : KeyIndex) : RLP :=
  .list [.data [1], .list (i.entries.map IndexEntry.rlp),
    .list (i.hints.map fun h => .list [.data h.1.1, .data h.2]), .data i.defaultPassword]

/-- A complete index of version 1. -/
def Complete (content : Bytes) : Prop := ∃ i : KeyIndex, content = i.rlp.encode

/-! ### Conversions end -/

/-- The computation does not go on for ever. -/
def Ends {α : Type} (x : Except RLPException α) : Prop := x ≠ .error .nontermination

theorem Ends.ok {α : Type} (a : α) : Ends (.ok a) := nofun

theorem Ends.bind {α β : Type} {x : Except RLPException α} {f : α → Except RLPException β}
    (hx : Ends x) (hf : ∀ a, Ends (f a)) : Ends (x >>= f) := by
  cases x with
  | error e => exact fun h => hx (congrArg Except.error (Except.error.inj h))
  | ok a => exact hf a

theorem Ends.ite {α : Type} {p : Prop} [Decidable p] {x y : Except RLPException α} (hx : Ends x)
    (hy : Ends y) : Ends (if p then x else y) := by
  split
  · exact hx
  · exact hy

theorem ends_fail {s : Devcore.Strictness} {e : RLPException} (he : e ≠ .nontermination) :
    Ends (fail s e) :=
  .ite (fun h => he (Except.error.inj h)) (.ok _)

theorem ends_construct (d : BytesConstRef) (s : Devcore.Strictness) : Ends (construct d s) := by
  have hactual : ∀ b, Ends (actualSize b) := actualSize_terminates
  refine Ends.bind (.ite ((hactual _).bind fun a => .ite (ends_fail nofun) (.ok _)) (.ok _))
    fun r => .ite ((hactual _).bind fun a => .ite (ends_fail nofun) (.ok _)) (.ok _)

theorem ends_requireGood (b : Bytes) : Ends (requireGood b) := by
  unfold requireGood Ends
  intro h
  repeat' split at h
  all_goals cases h

theorem ends_skip (payload : BytesConstRef) (n : ℕ) (it : BytesConstRef) (p : ℕ) :
    Ends (skip payload n it p) := by
  induction n generalizing it p with
  | zero => exact .ok it
  | succ n ih =>
    exact .ite (.ok it) (Ends.bind (sizeAsEncoded_terminates _) fun k => ih _ _)

theorem ends_item (r : RLPView) (i : ℕ) : Ends (item r i) :=
  Ends.bind (payload_terminates r) fun p => Ends.bind (sizeAsEncoded_terminates p) fun n =>
    (ends_skip p i _ n).bind fun d => ends_construct d _

theorem ends_isInt (d : Bytes) : Ends (isInt d) := by
  unfold isInt
  cases d with
  | nil => exact .ok _
  | cons b rest =>
    have hnonZero : ∀ i, Ends (nonZeroAt (b :: rest) i) := by
      intro i
      unfold nonZeroAt
      split
      · exact nofun
      · exact .ok _
    exact (ends_requireGood _).bind fun _ =>
      .ite (.ok _) (.ite (.ok _) (.ite (hnonZero _) (.ite (hnonZero _) (.ok _))))

theorem ends_toIntOf (maxSize : ℕ) (r : RLPView) : Ends (toIntOf maxSize r Strict) := by
  refine (ends_requireGood _).bind fun _ => (ends_isInt _).bind fun isInt => ?_
  exact .ite (.ite nofun (.ok _)) (Ends.bind (payload_terminates r) fun p =>
    .ite (.ite nofun (.ok _)) (.ok _))

theorem ends_toHash (N : ℕ) (r : RLPView) : Ends (toHash N r Strict) := by
  refine (ends_requireGood _).bind fun _ => Ends.bind (payload_terminates r) fun p => ?_
  exact .ite (.ite nofun (.ok _)) (.ok _)

theorem ends_toString (r : RLPView) : Ends (toString r LaissezFaire) :=
  .ite (.ite nofun (.ok _)) (Ends.bind (payload_terminates r) fun _ =>
    Ends.bind (length_terminates _) fun _ => .ok _)

namespace Reading

theorem ends_hash (N : ℕ) (r : RLPView) (i : ℕ) : Ends (hash N r i) :=
  (ends_item r i).bind fun v => (ends_toHash N v).bind fun _ => .ok _

theorem ends_address (r : RLPView) (i : ℕ) : Ends (address r i) :=
  (ends_hash 20 r i).bind fun _ => .ok _

theorem ends_string (r : RLPView) (i : ℕ) : Ends (string r i) :=
  (ends_item r i).bind fun v => ends_toString v

end Reading

/-! ### Counting ends -/

/-- What is meant is there. -/
def Solid (d : BytesConstRef) : Prop := d.m_count ≤ d.memory.length

theorem Solid.cropped {d : BytesConstRef} (h : Solid d) (begin count : ℕ) :
    Solid (d.cropped begin count) := by
  unfold BytesConstRef.cropped
  split
  case isTrue hin =>
    show count ≤ (d.memory.drop begin).length
    have hlen : d.m_count ≤ d.memory.length := h
    rw [List.length_drop]
    omega
  case isFalse => exact Nat.le_refl 0

theorem Solid.croppedFrom {d : BytesConstRef} (h : Solid d) (begin : ℕ) :
    Solid (d.croppedFrom begin) := by
  unfold BytesConstRef.croppedFrom
  split
  case isTrue hin =>
    show d.m_count - begin ≤ (d.memory.drop begin).length
    rw [List.length_drop]
    exact Nat.sub_le_sub_right h begin
  case isFalse => exact Nat.le_refl 0

theorem solid_ofBytes (b : Bytes) : Solid (.ofBytes b) := Nat.le_refl b.length

theorem ends_countItems {d : BytesConstRef} (h : Solid d) {fuel : ℕ} (hf : d.m_count < fuel) :
    Ends (countItems fuel d) := by
  by_cases haddress : d.address.isSome = true
  · exact countItems_terminates ⟨haddress, h⟩ hf
  · have hnull : ∀ n, d.croppedFrom n = .null := fun n => if_neg fun hin => haddress hin.1
    obtain ⟨fuel, rfl⟩ := Nat.exists_eq_add_one_of_ne_zero (Nat.ne_zero_of_lt hf)
    unfold countItems
    by_cases h0 : d.m_count = 0
    · rw [if_pos h0]
      exact .ok _
    · rw [if_neg h0]
      refine Ends.bind (sizeAsEncoded_terminates d) fun n => ?_
      obtain ⟨fuel, rfl⟩ := Nat.exists_eq_add_one_of_ne_zero (by omega : fuel ≠ 0)
      rw [hnull]
      exact .ok _

theorem m_count_payload {r : RLPView} {pl : BytesConstRef} (h : payload r = .ok pl) :
    pl.m_count ≤ r.m_data.m_count := by
  unfold payload at h
  cases hl : length r.content with
  | error e =>
    rw [hl] at h
    cases h
  | ok l =>
    rw [hl, ok_bind] at h
    split at h
    · cases h
    · cases h
      unfold BytesConstRef.cropped
      split
      · dsimp only
        omega
      · exact Nat.zero_le _

theorem solid_payload {r : RLPView} (hr : Solid r.m_data) {pl : BytesConstRef}
    (h : payload r = .ok pl) : Solid pl := by
  unfold payload at h
  cases hl : length r.content with
  | error e =>
    rw [hl] at h
    cases h
  | ok l =>
    rw [hl, ok_bind] at h
    split at h
    · cases h
    · cases h
      exact hr.cropped _ _

theorem ends_itemCount {r : RLPView} (hr : Solid r.m_data) : Ends (itemCount (enough r) r) := by
  unfold itemCount
  split
  · cases hp : payload r with
    | error e => exact fun h => payload_terminates r (hp.trans (congrArg _ (Except.error.inj h)))
    | ok pl =>
      exact ends_countItems (solid_payload hr hp) (Nat.lt_succ_of_le (m_count_payload hp))
  · exact .ok _

/-! ### Null items -/

theorem content_of_m_count {d : BytesConstRef} (h : d.m_count = 0) : d.content = [] := by
  rw [BytesConstRef.content, h, List.take_zero]

theorem m_count_cropped_of_zero {d : BytesConstRef} (h : d.m_count = 0) (begin count : ℕ) :
    (d.cropped begin count).m_count = 0 := by
  unfold BytesConstRef.cropped
  split
  case isTrue hin =>
    show count = 0
    omega
  case isFalse => rfl

theorem payload_null {r : RLPView} (hr : r.content = []) :
    ∃ pl, payload r = .ok pl ∧ pl.m_count = 0 := by
  have hlen : length r.content = .ok 0 := by
    rw [hr]
    rfl
  refine ⟨r.m_data.cropped (payloadOffset r.content) 0, ?_, ?_⟩
  · rw [payload, hlen, ok_bind, if_neg (Nat.not_lt_zero _)]
    rfl
  · unfold BytesConstRef.cropped
    split <;> rfl

theorem item_null {r v : RLPView} (hr : r.content = []) {i : ℕ} (h : item r i = .ok v) :
    v.content = [] := by
  obtain ⟨pl, hpl, h0⟩ := payload_null hr
  rw [item, hpl, ok_bind] at h
  cases hn : sizeAsEncoded pl with
  | error e =>
    rw [hn] at h
    cases h
  | ok n =>
    have hzero : (pl.cropped 0 n).m_count = 0 := m_count_cropped_of_zero h0 0 n
    have hskip : skip pl i (pl.cropped 0 n) n = .ok (pl.cropped 0 n) := by
      cases i with
      | zero => rfl
      | succ i => exact if_pos hzero
    rw [hn, ok_bind, hskip, ok_bind] at h
    rw [construct_small h]
    exact content_of_m_count hzero

namespace Reading

/-- There is no hash in a null item. -/
theorem hash_null (N : ℕ) {r : RLPView} (hr : r.content = []) (i : ℕ) :
    ∃ e, hash N r i = .error e := by
  unfold hash
  cases hv : item r i with
  | error e => exact ⟨e, rfl⟩
  | ok v =>
    have hgood : requireGood v.content = .error .badRLP := by
      rw [item_null hr hv]
      rfl
    refine ⟨.badRLP, ?_⟩
    rw [ok_bind, toHash, hgood]
    rfl

theorem ends_keyInfo {i : RLPView} (hi : Solid i.m_data) : Ends (keyInfo i) :=
  (ends_hash 32 i 2).bind fun _ => (ends_string i 3).bind fun _ => (ends_itemCount hi).bind fun _ =>
    Ends.bind (.ite (ends_string i 4) (.ok _)) fun _ => .ok _

/-! ### Loops end -/

variable {α β : Type}

/-- The reading does not go on for ever. -/
def Stops (x : Reading α) : Prop := ∀ s, Ends (x.run s).1

theorem Stops.pure (a : α) : Stops (pure a) := fun _ => .ok a

theorem Stops.lift {x : Except RLPException α} (h : Ends x) : Stops (lift x) := fun _ => h

theorem Stops.note (n : Note) : Stops (note n) := fun _ => .ok ()

theorem Stops.bind {x : Reading α} {f : α → Reading β} (hx : Stops x) (hf : ∀ a, Stops (f a)) :
    Stops (x >>= f) := by
  intro s
  have hs := hx s
  rw [run_bind]
  cases hr : x.run s with
  | mk r s' =>
    rw [hr] at hs
    cases r with
    | error e => exact fun h => hs (congrArg _ (Except.error.inj h))
    | ok a => exact hf a s'

/-- What follows depends on a value that was read. -/
theorem Stops.lift_bind {x : Except RLPException α} {f : α → Reading β} (hx : Ends x)
    (hf : ∀ a, x = .ok a → Stops (f a)) : Stops (Throwing.lift x >>= f) := by
  cases hr : x with
  | error e => exact fun s h => hx (hr.trans (congrArg _ (Except.error.inj h)))
  | ok a => exact fun s => hf a hr s

/-- A body for the loops: it ends, and it throws at a null item. -/
structure Body (body : RLPView → Reading Unit) : Prop where
  stops : ∀ r, Solid r.m_data → Stops (body r)
  null : ∀ r, r.content = [] → ∀ s, ∃ e, ((body r).run s).1 = .error e

theorem body_readKey (contains : Uuid → Bool) : Body (readKey contains) where
  stops r hr := by
    refine (Stops.lift (ends_hash 16 r 1)).bind fun uuid =>
      (Stops.lift (ends_address r 0)).bind fun addr => ?_
    split
    · split
      · exact (Stops.note _).bind fun _ => (Stops.lift (ends_keyInfo hr)).bind fun _ => .note _
      · exact .pure ()
    · exact (Stops.lift (ends_keyInfo hr)).bind fun _ => .note _
  null r hr s := by
    obtain ⟨e, he⟩ := hash_null 16 hr 1
    exact ⟨e, by rw [readKey, he]; rfl⟩

theorem body_readHint : Body readHint where
  stops r _ := (Stops.lift (ends_hash 32 r 0)).bind fun h =>
    (Stops.lift (ends_string r 1)).bind fun hint => .note _
  null r hr s := by
    obtain ⟨e, he⟩ := hash_null 32 hr 0
    exact ⟨e, by rw [readHint, he]; rfl⟩

theorem ends_begin (r : RLPView) : Ends (begin r) :=
  .ite (Ends.bind (payload_terminates r) fun pl => Ends.bind (sizeAsEncoded_terminates pl) fun _ =>
    .ok _) (.ok _)

theorem ends_increment (it : Iterator) : Ends (increment it) :=
  .ite (Ends.bind (sizeAsEncoded_terminates _) fun _ => .ok _) (.ok _)

/-- What the iterator is at and what remains are there. -/
def Held (it : Iterator) : Prop :=
  it.m_currentItem.m_count + it.m_remaining ≤ it.m_currentItem.memory.length

/-- A part at the front and what remains behind it. -/
theorem held_cropped {d : BytesConstRef} (h : Solid d) (n : ℕ) :
    Held ⟨d.m_count - (d.cropped 0 n).m_count, d.cropped 0 n⟩ ∨ (d.cropped 0 n).m_count = 0 := by
  unfold BytesConstRef.cropped
  split
  case isTrue hin =>
    refine .inl ?_
    have hlen : d.m_count ≤ d.memory.length := h
    show n + (d.m_count - n) ≤ (d.memory.drop 0).length
    rw [List.drop_zero]
    omega
  case isFalse => exact .inr rfl

theorem held_begin {r : RLPView} (hr : Solid r.m_data) {it : Iterator} (h : begin r = .ok it) :
    (Held it ∨ it.m_currentItem.m_count = 0) ∧ it.m_remaining ≤ r.m_data.m_count := by
  unfold begin at h
  split at h
  · cases hp : payload r with
    | error e =>
      rw [hp] at h
      cases h
    | ok pl =>
      rw [hp, ok_bind] at h
      cases hn : sizeAsEncoded pl with
      | error e =>
        rw [hn] at h
        cases h
      | ok n =>
        rw [hn] at h
        cases h
        exact ⟨held_cropped (solid_payload hr hp) n, (Nat.sub_le _ _).trans (m_count_payload hp)⟩
  · cases h
    refine ⟨.inr ?_, Nat.zero_le _⟩
    unfold BytesConstRef.croppedFrom
    split
    · exact Nat.sub_self _
    · rfl

/-- A step of the iterator: less remains, or it is at a null item. -/
theorem held_increment {it it' : Iterator} (hit : Held it) (h : increment it = .ok it') :
    (Held it' ∧ it'.m_remaining < it.m_remaining) ∨ it'.m_currentItem.m_count = 0 := by
  unfold increment at h
  by_cases hrem : it.m_remaining = 0
  · rw [if_neg (not_not.mpr hrem)] at h
    cases h
    exact .inr rfl
  · rw [if_pos hrem] at h
    dsimp only at h
    have hlen : it.m_currentItem.m_count + it.m_remaining ≤ it.m_currentItem.memory.length := hit
    have hsolid : Solid {it.m_currentItem.next with m_count := it.m_remaining} := by
      show it.m_remaining ≤ it.m_currentItem.next.memory.length
      unfold BytesConstRef.next
      split
      · omega
      · rw [List.length_drop]
        omega
    cases hn : sizeAsEncoded {it.m_currentItem.next with m_count := it.m_remaining} with
    | error e =>
      rw [hn] at h
      cases h
    | ok n =>
      rw [hn] at h
      cases h
      rcases held_cropped hsolid n with hheld | h0
      · by_cases h0 : (BytesConstRef.cropped
            {it.m_currentItem.next with m_count := it.m_remaining} 0 n).m_count = 0
        · exact .inr h0
        · refine .inl ⟨?_, ?_⟩
          · rwa [← Nat.sub_eq_sub_min]
          · exact Nat.sub_lt (Nat.pos_of_ne_zero hrem)
              (lt_min (Nat.pos_of_ne_zero hrem) (Nat.pos_of_ne_zero h0))
      · exact .inr h0

theorem construct_solid {d : BytesConstRef} (h : Solid d) {s : Devcore.Strictness} {r : RLPView}
    (hr : construct d s = .ok r) : Solid r.m_data := by
  rcases construct_cases hr with rfl | ⟨rfl, -⟩
  · exact Nat.zero_le _
  · exact h

theorem solid_skip {payload : BytesConstRef} (hp : Solid payload) (n : ℕ) {it d : BytesConstRef}
    (hit : Solid it) {lastEnd : ℕ} (h : skip payload n it lastEnd = .ok d) : Solid d := by
  induction n generalizing it lastEnd with
  | zero =>
    cases h
    exact hit
  | succ n ih =>
    unfold skip at h
    split at h
    · cases h
      exact hit
    · dsimp only at h
      cases hk : sizeAsEncoded (payload.croppedFrom lastEnd) with
      | error e =>
        rw [hk] at h
        cases h
      | ok k =>
        rw [hk] at h
        exact ih ((hp.croppedFrom lastEnd).cropped 0 k) h

theorem solid_item {r v : RLPView} (hr : Solid r.m_data) {i : ℕ} (h : item r i = .ok v) :
    Solid v.m_data := by
  unfold item at h
  cases hp : payload r with
  | error e =>
    rw [hp] at h
    cases h
  | ok pl =>
    rw [hp, ok_bind] at h
    cases hn : sizeAsEncoded pl with
    | error e =>
      rw [hn] at h
      cases h
    | ok n =>
      rw [hn, ok_bind] at h
      cases hd : skip pl i (pl.cropped 0 n) n with
      | error e =>
        rw [hd] at h
        cases h
      | ok d =>
        rw [hd, ok_bind] at h
        have hpl := solid_payload hr hp
        exact construct_solid (solid_skip hpl i (hpl.cropped 0 n) hd) h

/-- At a null item the loop ends: it is the end, or the body throws. -/
theorem stops_loop_null {body : RLPView → Reading Unit} (hbody : Body body) (stop : Iterator)
    {fuel : ℕ} (hf : 0 < fuel) {it : Iterator} (h0 : it.m_currentItem.m_count = 0) :
    Stops (loop body stop fuel it) := by
  obtain ⟨fuel, rfl⟩ := Nat.exists_eq_add_one_of_ne_zero hf.ne'
  unfold loop
  split
  · exact .pure ()
  · refine .lift_bind (ends_construct _ _) fun r hr => ?_
    have hsolid : Solid it.m_currentItem := h0.le.trans (Nat.zero_le _)
    have hnull : r.content = [] := by
      rcases construct_cases hr with rfl | ⟨rfl, -⟩
      · rfl
      · exact content_of_m_count h0
    intro s
    obtain ⟨e, he⟩ := hbody.null r hnull s
    have hends := hbody.stops r (construct_solid hsolid hr) s
    rw [he] at hends
    rw [run_fst_of_bind_error he]
    exact fun h => hends (congrArg _ (Except.error.inj h))

theorem stops_loop {body : RLPView → Reading Unit} (hbody : Body body) (stop : Iterator)
    {fuel : ℕ} {it : Iterator} (hit : Held it) (hf : it.m_remaining + 1 < fuel) :
    Stops (loop body stop fuel it) := by
  induction fuel generalizing it with
  | zero => exact absurd hf (Nat.not_lt_zero _)
  | succ fuel ih =>
    unfold loop
    split
    · exact .pure ()
    · have hsolid : Solid it.m_currentItem := (Nat.le_add_right _ _).trans hit
      refine .lift_bind (ends_construct _ _) fun r hr =>
        (hbody.stops r (construct_solid hsolid hr)).bind fun _ =>
          .lift_bind (ends_increment it) fun it' hit' => ?_
      rcases held_increment hit hit' with ⟨hheld, hlt⟩ | h0
      · exact ih hheld (by omega)
      · exact stops_loop_null hbody stop (by omega) h0

theorem stops_forItems {r : RLPView} (hr : Solid r.m_data) {body : RLPView → Reading Unit}
    (hbody : Body body) : Stops (forItems r body) := by
  refine .lift_bind (ends_begin r) fun it hit => ?_
  obtain ⟨hheld | h0, hrem⟩ := held_begin hr hit
  · exact stops_loop hbody r.end_ hheld (by omega)
  · exact stops_loop_null hbody r.end_ (Nat.succ_pos _) h0

/-- **Reading an index ends, whatever the content is.** -/
theorem readIndex_terminates (contains : Uuid → Bool) (content : Bytes) :
    Stops (readIndex contains content) := by
  refine .lift_bind (ends_construct _ _) fun s hs => .lift_bind (ends_item s 0) fun first _ =>
    .lift_bind (ends_toIntOf 4 first) fun version _ => ?_
  have hsolid : Solid s.m_data := construct_solid (solid_ofBytes content) hs
  split
  · refine .lift_bind (ends_item s 1) fun keys hkeys =>
      (stops_forItems (solid_item hsolid hkeys) (body_readKey contains)).bind fun _ =>
        .lift_bind (ends_item s 2) fun hints hhints =>
          (stops_forItems (solid_item hsolid hhints) body_readHint).bind fun _ =>
            (Stops.lift (ends_string s 3)).bind fun password => .pure _
  · exact .pure none

end Reading

end Aleth.Ethcore
