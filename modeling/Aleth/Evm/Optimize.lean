import Aleth.Evm.LegacyVM

/-! The preparation of the code (`LegacyVMOpt.cpp`).

Two scans go over the code from one instruction to the next. The first builds the
table of jump destinations, and makes instructions that only the interpreter may
use invalid. The second, where optimizations are compiled in, puts longer
constants in a pool and leaves their place in it in the code, and replaces jumps to
a constant that is a destination. The offset in the pool has 16 bits. -/
namespace Aleth.Evm
open Devcore

/-- The code, with zeros behind it that can be read without checking. -/
def copyCode (code : Bytes) (extraBytes : ℕ) : Bytes := code ++ List.replicate extraBytes 0

/-- A scan: `body` is done at each instruction, which is read before. -/
def scan (body : Instruction → ℕ → Code → Code) (nBytes : ℕ) : (fuel : ℕ) → ℕ → Code → Code
  | 0, _, c => c
  | fuel + 1, pc, c =>
    if pc < nBytes then
      let op := Instruction.ofByte (c.m_code.getD pc 0)
      scan body nBytes fuel (pc + 1 + op.pushSize) (body op pc c)
    else c

namespace Instruction

/-- The instructions that only the interpreter itself writes. -/
def Synthetic (op : Instruction) : Prop := op = pushc ∨ op = jumpc ∨ op = jumpci

instance (op : Instruction) : Decidable op.Synthetic := inferInstanceAs (Decidable (_ ∨ _ ∨ _))

end Instruction

/-- "Build JUMPDEST table", at one instruction. -/
def tableBody (op : Instruction) (pc : ℕ) (c : Code) : Code :=
  {c with
    m_code := if op.Synthetic then c.m_code.set pc Instruction.invalidByte else c.m_code
    m_jumpDests := if op = .jumpdest then c.m_jumpDests ++ [pc] else c.m_jumpDests}

/-- A constant of `nPush` bytes is put in the pool. -/
def stash (pc nPush : ℕ) (val : U256) (c : Code) : Code :=
  let pool_off := c.m_pool.length % 2 ^ 16
  {c with
    m_pool := c.m_pool ++ [val]
    m_code := (((c.m_code.set pc Instruction.pushcByte).set (pc + 3) (UInt8.ofNat (nPush - 2))).set
      (pc + 2) (UInt8.ofNat (pool_off % 256))).set (pc + 1) (UInt8.ofNat (pool_off / 256))}

/-- A jump to a constant that is a destination is replaced. -/
def replaceJump (i : ℕ) (val : U256) (c : Code) : Code :=
  if (verifyJumpDest c val).isSome then
    match Instruction.ofByte (c.m_code.getD i 0) with
    | .jump => {c with m_code := c.m_code.set i Instruction.jumpcByte}
    | .jumpi => {c with m_code := c.m_code.set i Instruction.jumpciByte}
    | _ => c
  else c

/-- "Do first pass optimizations", at one instruction. -/
def constantBody (op : Instruction) (pc : ℕ) (c : Code) : Code :=
  match op with
  | .push nPush =>
    let val := pushed ((c.m_code.drop (pc + 1)).take nPush)
    replaceJump (pc + nPush + 1) val (if 5 < nPush then stash pc nPush val c else c)
  | _ => c

def optimize (evmOptimize : Bool) (code : Bytes) : Code :=
  let nBytes := code.length
  let c := scan tableBody nBytes nBytes 0 {m_code := copyCode code 33}
  if evmOptimize then scan constantBody nBytes nBytes 0 c else c

/-! ### Where instructions start -/

/-- Where the instruction behind the one at `pc` starts. -/
def nextPc (code : Bytes) (pc : ℕ) : ℕ := pc + 1 + (Instruction.ofByte (code.getD pc 0)).pushSize

/-- An instruction of the code starts here, as the code is scanned from its beginning; behind the
code all bytes are zero. -/
def Starts (code : Bytes) (pc : ℕ) : Prop := ∃ k, (nextPc code)^[k] 0 = pc

section Starts
variable {code : Bytes} {pc j : ℕ}

theorem lt_nextPc (code : Bytes) (pc : ℕ) : pc < nextPc code pc := by
  unfold nextPc
  omega

theorem starts_zero (code : Bytes) : Starts code 0 := ⟨0, rfl⟩

theorem Starts.next (h : Starts code pc) : Starts code (nextPc code pc) := by
  obtain ⟨k, rfl⟩ := h
  exact ⟨k + 1, Function.iterate_succ_apply' ..⟩

theorem strictMono_starts (code : Bytes) : StrictMono fun k => (nextPc code)^[k] 0 := by
  apply strictMono_nat_of_lt_succ
  intro k
  rw [Function.iterate_succ_apply']
  exact lt_nextPc ..

/-- No instruction starts inside another one. -/
theorem Starts.next_le (hpc : Starts code pc) (hj : Starts code j) (h : pc < j) :
    nextPc code pc ≤ j := by
  obtain ⟨k, rfl⟩ := hpc
  obtain ⟨l, rfl⟩ := hj
  rw [← Function.iterate_succ_apply' (nextPc code) k 0]
  exact (strictMono_starts code).monotone ((strictMono_starts code).lt_iff_lt.mp h)

theorem Starts.nextPc_inj (hpc : Starts code pc) (hj : Starts code j)
    (h : nextPc code pc = nextPc code j) : pc = j := by
  rcases lt_trichotomy pc j with hlt | heq | hlt
  · exact absurd h ((hpc.next_le hj hlt).trans_lt (lt_nextPc code j)).ne
  · exact heq
  · exact absurd h.symm ((hj.next_le hpc hlt).trans_lt (lt_nextPc code pc)).ne

/-- The last start before a place, or at it. -/
theorem Starts.cases_pred (h : Starts code pc) (h0 : pc ≠ 0) :
    ∃ j, Starts code j ∧ nextPc code j = pc := by
  obtain ⟨k, rfl⟩ := h
  cases k with
  | zero => exact absurd rfl h0
  | succ k => exact ⟨_, ⟨k, rfl⟩, (Function.iterate_succ_apply' ..).symm⟩

end Starts

/-- A scan that keeps an invariant at each instruction ends behind the code, with the invariant. -/
theorem scan_rule {body : Instruction → ℕ → Code → Code} {nBytes : ℕ} {I : ℕ → Code → Prop}
    (hbody : ∀ pc c, I pc c → pc < nBytes →
      I (nextPc c.m_code pc) (body (Instruction.ofByte (c.m_code.getD pc 0)) pc c))
    {fuel pc : ℕ} {c : Code} (hfuel : nBytes ≤ pc + fuel) (h : I pc c) :
    ∃ pc', nBytes ≤ pc' ∧ I pc' (scan body nBytes fuel pc c) := by
  induction fuel generalizing pc c with
  | zero => exact ⟨pc, hfuel, h⟩
  | succ fuel ih =>
    unfold scan
    split
    case isTrue hlt =>
      refine ih ?_ (hbody pc c h hlt)
      omega
    case isFalse hge => exact ⟨pc, not_lt.mp hge, h⟩

section Table
variable {code : Bytes} {pc j : ℕ} {c : Code}

theorem getD_copyCode (code : Bytes) (extraBytes j : ℕ) :
    (copyCode code extraBytes).getD j 0 = code.getD j 0 := by
  unfold copyCode
  by_cases h : j < code.length
  · rw [List.getD_append _ _ _ _ h]
  · have hle := not_lt.mp h
    rw [List.getD_append_right _ _ _ _ hle, List.getD_eq_default _ _ hle]
    rw [List.getD_eq_getElem?_getD, List.getElem?_replicate]
    split
    · rfl
    · rfl

theorem getD_set (l : Bytes) (i j : ℕ) (b : UInt8) :
    (l.set i b).getD j 0 = if i = j ∧ j < l.length then b else l.getD j 0 := by
  rw [List.getD_eq_getElem?_getD, List.getD_eq_getElem?_getD, List.getElem?_set]
  split
  case isTrue h =>
    subst h
    split
    case isTrue hlt => rw [if_pos ⟨rfl, hlt⟩]; rfl
    case isFalse hge =>
      rw [if_neg fun h => hge h.2, List.getElem?_eq_none (not_lt.mp hge)]
  case isFalse h => rw [if_neg fun h' => h h'.1]

/-- The first scan has come to `pc`. -/
structure Tabled (code : Bytes) (pc : ℕ) (c : Code) : Prop where
  starts : Starts code pc
  length : c.m_code.length = code.length + 33
  pool : c.m_pool = []
  same : ∀ j, ¬(j < pc ∧ Starts code j ∧ (Instruction.ofByte (code.getD j 0)).Synthetic) →
    c.m_code.getD j 0 = code.getD j 0
  invalid : ∀ j < pc, Starts code j → (Instruction.ofByte (code.getD j 0)).Synthetic →
    c.m_code.getD j 0 = Instruction.invalidByte
  dests : ∀ j, j ∈ c.m_jumpDests ↔
    j < pc ∧ Starts code j ∧ Instruction.ofByte (code.getD j 0) = .jumpdest
  sorted : c.m_jumpDests.Pairwise (· < ·)

theorem tabled_zero (code : Bytes) : Tabled code 0 {m_code := copyCode code 33} where
  starts := starts_zero code
  length := by rw [copyCode, List.length_append, List.length_replicate]
  pool := rfl
  same := fun j _ => getD_copyCode ..
  invalid := fun j h => absurd h (Nat.not_lt_zero j)
  dests := fun j => ⟨fun h => absurd h List.not_mem_nil, fun h => absurd h.1 (Nat.not_lt_zero j)⟩
  sorted := .nil

/-- The starts before the next instruction are those before this one, and this one. -/
theorem Starts.lt_nextPc_iff (hpc : Starts code pc) (hj : Starts code j) :
    j < nextPc code pc ↔ j < pc ∨ j = pc := by
  constructor
  · intro h
    rcases lt_trichotomy j pc with hlt | heq | hgt
    · exact .inl hlt
    · exact .inr heq
    · exact absurd (hpc.next_le hj hgt) (not_le.mpr h)
  · intro h
    have hlt := lt_nextPc code pc
    omega

theorem getD_tableBody {op : Instruction} (hroom : pc < c.m_code.length) (j : ℕ) :
    (tableBody op pc c).m_code.getD j 0 =
      if op.Synthetic ∧ pc = j then Instruction.invalidByte else c.m_code.getD j 0 := by
  show (ite _ _ _ : Bytes).getD j 0 = _
  by_cases hsyn : op.Synthetic
  · rw [if_pos hsyn, getD_set]
    by_cases hj : pc = j
    · rw [if_pos ⟨hj, hj ▸ hroom⟩, if_pos ⟨hsyn, hj⟩]
    · rw [if_neg fun h => hj h.1, if_neg fun h => hj h.2]
  · rw [if_neg hsyn, if_neg fun h => hsyn h.1]

theorem Tabled.body (h : Tabled code pc c) (hlt : pc < code.length) :
    Tabled code (nextPc c.m_code pc)
      (tableBody (Instruction.ofByte (c.m_code.getD pc 0)) pc c) := by
  have hbyte : c.m_code.getD pc 0 = code.getD pc 0 :=
    h.same pc fun hall => absurd hall.1 (lt_irrefl pc)
  have hnext : nextPc c.m_code pc = nextPc code pc := by rw [nextPc, hbyte]; rfl
  have hroom : pc < c.m_code.length := by rw [h.length]; omega
  have hlater := lt_nextPc code pc
  rw [hnext, hbyte]
  refine ⟨h.starts.next, ?_, h.pool, fun j hj => ?_, fun j hj hs hsyn => ?_, fun j => ?_, ?_⟩
  · show (ite _ _ _ : Bytes).length = _
    split
    · rw [List.length_set, h.length]
    · exact h.length
  · rw [getD_tableBody hroom, if_neg]
    · exact h.same j fun hall => hj ⟨hall.1.trans hlater, hall.2⟩
    · rintro ⟨hsyn, rfl⟩
      exact hj ⟨hlater, h.starts, hsyn⟩
  · rw [getD_tableBody hroom]
    split
    case isTrue => rfl
    case isFalse hne =>
      rcases (h.starts.lt_nextPc_iff hs).mp hj with hlt | rfl
      · exact h.invalid j hlt hs hsyn
      · exact absurd ⟨hsyn, rfl⟩ hne
  · show j ∈ (ite _ _ _ : List ℕ) ↔ _
    split
    case isTrue hdest =>
      rw [List.mem_append, List.mem_singleton, h.dests]
      constructor
      · intro hj
        rcases hj with ⟨hj, hrest⟩ | rfl
        · exact ⟨hj.trans hlater, hrest⟩
        · exact ⟨hlater, h.starts, hdest⟩
      · intro ⟨hj, hs, hop⟩
        exact ((h.starts.lt_nextPc_iff hs).mp hj).imp_left fun hj => ⟨hj, hs, hop⟩
    case isFalse hdest =>
      rw [h.dests]
      constructor
      · intro ⟨hj, hrest⟩
        exact ⟨hj.trans hlater, hrest⟩
      · intro ⟨hj, hs, hop⟩
        rcases (h.starts.lt_nextPc_iff hs).mp hj with hlt | rfl
        · exact ⟨hlt, hs, hop⟩
        · exact absurd hop hdest
  · show (ite _ _ _ : List ℕ).Pairwise _
    split
    · rw [List.pairwise_append]
      refine ⟨h.sorted, List.pairwise_singleton .., fun a ha b hb => ?_⟩
      rw [List.mem_singleton.mp hb]
      exact ((h.dests a).mp ha).1
    · exact h.sorted

theorem ofByte_getD_of_le (h : code.length ≤ j) :
    Instruction.ofByte (code.getD j 0) = .stop := by
  rw [List.getD_eq_default _ _ h]
  decide

/-- What the first scan leaves: the code with the interpreter's own instructions made invalid, and
the destinations in their order. -/
structure Prepared (code : Bytes) (c : Code) : Prop where
  length : c.m_code.length = code.length + 33
  pool : c.m_pool = []
  byte : ∀ j, Starts code j → c.m_code.getD j 0 =
    if (Instruction.ofByte (code.getD j 0)).Synthetic then Instruction.invalidByte
    else code.getD j 0
  data : ∀ j, ¬Starts code j → c.m_code.getD j 0 = code.getD j 0
  dests : ∀ j, j ∈ c.m_jumpDests ↔ Starts code j ∧ Instruction.ofByte (code.getD j 0) = .jumpdest
  sorted : c.m_jumpDests.Pairwise (· < ·)

theorem Tabled.prepared (h : Tabled code pc c) (hend : code.length ≤ pc) : Prepared code c where
  length := h.length
  pool := h.pool
  byte := fun j hj => by
    by_cases hsyn : (Instruction.ofByte (code.getD j 0)).Synthetic
    · have hlt : j < code.length := by
        refine not_le.mp fun hle => ?_
        rw [ofByte_getD_of_le hle] at hsyn
        exact absurd hsyn (by decide)
      rw [if_pos hsyn]
      exact h.invalid j (hlt.trans_le hend) hj hsyn
    · rw [if_neg hsyn]
      exact h.same j fun hall => hsyn hall.2.2
  data := fun j hj => h.same j fun hall => hj hall.2.1
  dests := fun j => by
    rw [h.dests]
    refine ⟨fun hall => hall.2, fun hall => ⟨?_, hall⟩⟩
    refine (not_le.mp fun hle => ?_).trans_le hend
    have hop := hall.2
    rw [ofByte_getD_of_le hle] at hop
    exact absurd hop (by decide)
  sorted := h.sorted

theorem prepared_optimize (code : Bytes) : Prepared code (optimize false code) := by
  have hscan := @scan_rule tableBody code.length (Tabled code)
    (fun pc c h hlt => h.body hlt) code.length 0 _ (Nat.le_add_left ..) (tabled_zero code)
  obtain ⟨pc, hend, htabled⟩ := hscan
  exact htabled.prepared hend

/-- Behind the code there is nothing but `STOP`. -/
theorem Prepared.stop (h : Prepared code c) (hpc : code.length ≤ pc) :
    Instruction.ofByte (c.m_code.getD pc 0) = .stop := by
  by_cases hstarts : Starts code pc
  · rw [h.byte pc hstarts, ofByte_getD_of_le hpc, if_neg (by decide), List.getD_eq_default _ _ hpc]
    decide
  · rw [h.data pc hstarts, List.getD_eq_default _ _ hpc]
    decide

/-- Instructions are as long as they were. -/
theorem Prepared.nextPc_eq (h : Prepared code c) (hj : Starts code j) :
    nextPc c.m_code j = nextPc code j := by
  unfold nextPc
  rw [h.byte j hj]
  split
  case isTrue hsyn =>
    rcases hsyn with hop | hop | hop
    all_goals
      rw [hop]
      rfl
  case isFalse => rfl

theorem Prepared.starts_iff (h : Prepared code c) : Starts c.m_code j ↔ Starts code j := by
  have hiterate : ∀ k, (nextPc c.m_code)^[k] 0 = (nextPc code)^[k] 0 := by
    intro k
    induction k with
    | zero => rfl
    | succ k ih =>
      rw [Function.iterate_succ_apply', Function.iterate_succ_apply', ih]
      exact h.nextPc_eq ⟨k, rfl⟩
  constructor
  · intro ⟨k, hk⟩
    exact ⟨k, (hiterate k).symm.trans hk⟩
  · intro ⟨k, hk⟩
    exact ⟨k, (hiterate k).trans hk⟩

end Table
/-! ### Constants in the pool -/

/-- The constant of a push. -/
def constantAt (code : Bytes) (pc nPush : ℕ) : U256 := pushed ((code.drop (pc + 1)).take nPush)

/-- The instruction stands behind a push of a destination. -/
def Verified (p : Code) (i : ℕ) : Prop := ∃ pc nPush, Starts p.m_code pc ∧
  Instruction.ofByte (p.m_code.getD pc 0) = .push nPush ∧ pc + 1 + nPush = i ∧
  (verifyJumpDest p (constantAt p.m_code pc nPush)).isSome

/-- The byte of an instruction that is no longer constant: it is as it was, or its jump has been
replaced. -/
def Kept (p c : Code) (pc : ℕ) : Prop :=
  c.m_code.getD pc 0 = p.m_code.getD pc 0 ∨ Verified p pc ∧
    (Instruction.ofByte (p.m_code.getD pc 0) = .jump ∧
        c.m_code.getD pc 0 = Instruction.jumpcByte ∨
      Instruction.ofByte (p.m_code.getD pc 0) = .jumpi ∧
        c.m_code.getD pc 0 = Instruction.jumpciByte)

/-- How the instruction at `pc` of the plain code stands in the rewritten code. -/
def Stands (p c : Code) (pc : ℕ) : Prop :=
  match Instruction.ofByte (p.m_code.getD pc 0) with
  | .push nPush =>
    if 5 < nPush then
      c.m_code.getD pc 0 = Instruction.pushcByte ∧
      c.m_pool[(c.m_code.getD (pc + 1) 0).toNat * 256 + (c.m_code.getD (pc + 2) 0).toNat]? =
        some (constantAt p.m_code pc nPush) ∧
      (c.m_code.getD (pc + 3) 0).toNat = nPush - 2
    else ∀ j, pc ≤ j → j ≤ pc + nPush → c.m_code.getD j 0 = p.m_code.getD j 0
  | _ => Kept p c pc

/-- The second scan has come to `pc`. -/
structure Pooled (p : Code) (pc : ℕ) (c : Code) : Prop where
  starts : Starts p.m_code pc
  length : c.m_code.length = p.m_code.length
  dests : c.m_jumpDests = p.m_jumpDests
  done : c.m_pool.length ≤ 2 ^ 16 → ∀ j < pc, Starts p.m_code j → Stands p c j
  here : Kept p c pc
  behind : ∀ j, pc < j → c.m_code.getD j 0 = p.m_code.getD j 0

section Pool
variable {p c c' : Code} {pc j nPush : ℕ}

theorem pooled_zero (p : Code) : Pooled p 0 p :=
  ⟨starts_zero _, rfl, rfl, fun _ j hj => absurd hj (Nat.not_lt_zero j), .inl rfl, fun _ _ => rfl⟩

/-- What is written behind an instruction does not change how it stands. -/
theorem Stands.mono (h : Stands p c j) (hj : nextPc p.m_code j ≤ pc)
    (hbytes : ∀ i < pc, c'.m_code.getD i 0 = c.m_code.getD i 0) (hpool : c.m_pool <+: c'.m_pool) :
    Stands p c' j := by
  have hlt := lt_nextPc p.m_code j
  have hkept : Kept p c j → Kept p c' j := by
    unfold Kept
    rw [hbytes j (hlt.trans_le hj)]
    exact id
  unfold Stands at h ⊢
  unfold nextPc at hj
  cases hop : Instruction.ofByte (p.m_code.getD j 0)
  case push n =>
    rw [hop] at h hj
    dsimp only [Instruction.pushSize] at h hj ⊢
    split at h
    case isTrue hn =>
      rw [if_pos hn, hbytes j (by omega), hbytes (j + 1) (by omega), hbytes (j + 2) (by omega),
        hbytes (j + 3) (by omega)]
      obtain ⟨rest, hrest⟩ := hpool
      refine ⟨h.1, ?_, h.2.2⟩
      rw [← hrest, List.getElem?_append_left]
      · exact h.2.1
      · exact (List.getElem?_eq_some_iff.mp h.2.1).1
    case isFalse hn =>
      rw [if_neg hn]
      intro i hi hle
      rw [hbytes i (by omega)]
      exact h i hi hle
  all_goals
    rw [hop] at h
    exact hkept h

theorem drop_congr {a b : Bytes} (hlength : a.length = b.length)
    (h : ∀ j, pc < j → a.getD j 0 = b.getD j 0) : a.drop (pc + 1) = b.drop (pc + 1) := by
  refine List.ext_getElem (by simp [hlength]) fun j ha hb => ?_
  rw [List.length_drop] at ha hb
  have hj := h (pc + 1 + j) (by omega)
  rw [List.getD_eq_getElem _ _ (by omega), List.getD_eq_getElem _ _ (by omega)] at hj
  rw [List.getElem_drop, List.getElem_drop]
  exact hj

theorem verifyJumpDest_congr (h : c.m_jumpDests = c'.m_jumpDests) (dest : U256) :
    verifyJumpDest c dest = verifyJumpDest c' dest := by
  unfold verifyJumpDest
  rw [h]

theorem getD_stash {val : U256} (hroom : pc + 3 < c.m_code.length) (j : ℕ) :
    (stash pc nPush val c).m_code.getD j 0 =
      if pc + 1 = j then UInt8.ofNat (c.m_pool.length % 2 ^ 16 / 256)
      else if pc + 2 = j then UInt8.ofNat (c.m_pool.length % 2 ^ 16 % 256)
      else if pc + 3 = j then UInt8.ofNat (nPush - 2)
      else if pc = j then Instruction.pushcByte else c.m_code.getD j 0 := by
  have hset (l : Bytes) {i : ℕ} (hi : i < l.length) (b : UInt8) :
      (l.set i b).getD j 0 = if i = j then b else l.getD j 0 := by
    rw [getD_set]
    by_cases hij : i = j
    · rw [if_pos ⟨hij, hij ▸ hi⟩, if_pos hij]
    · rw [if_neg fun h => hij h.1, if_neg hij]
  simp only [stash]
  rw [hset _ (by simp only [List.length_set]; omega),
    hset _ (by simp only [List.length_set]; omega),
    hset _ (by simp only [List.length_set]; omega), hset _ (by omega)]

theorem length_stash {val : U256} :
    (stash pc nPush val c).m_code.length = c.m_code.length := by
  simp only [stash, List.length_set]

/-- A jump that is looked at is replaced, if at all, because it is verified. -/
theorem replaceJump_spec (i : ℕ) (val : U256) (c : Code) :
    (replaceJump i val c).m_code.length = c.m_code.length ∧
      (replaceJump i val c).m_jumpDests = c.m_jumpDests ∧
      (replaceJump i val c).m_pool = c.m_pool ∧
      (∀ j, i ≠ j → (replaceJump i val c).m_code.getD j 0 = c.m_code.getD j 0) ∧
      ((replaceJump i val c).m_code.getD i 0 = c.m_code.getD i 0 ∨
        (verifyJumpDest c val).isSome ∧
          (Instruction.ofByte (c.m_code.getD i 0) = .jump ∧
              (replaceJump i val c).m_code.getD i 0 = Instruction.jumpcByte ∨
            Instruction.ofByte (c.m_code.getD i 0) = .jumpi ∧
              (replaceJump i val c).m_code.getD i 0 = Instruction.jumpciByte)) := by
  have hinside {op : Instruction} (hop : Instruction.ofByte (c.m_code.getD i 0) = op)
      (hne : op ≠ .stop) : i < c.m_code.length := by
    refine not_le.mp fun hle => hne (hop.symm.trans ?_)
    exact ofByte_getD_of_le hle
  unfold replaceJump
  split
  case isTrue hverified =>
    split
    case h_1 hop =>
      refine ⟨List.length_set .., rfl, rfl, fun j hj => ?_, .inr ⟨hverified, .inl ⟨hop, ?_⟩⟩⟩
      · rw [getD_set, if_neg fun h => hj h.1]
      · rw [getD_set, if_pos ⟨rfl, hinside hop (by decide)⟩]
    case h_2 hop =>
      refine ⟨List.length_set .., rfl, rfl, fun j hj => ?_, .inr ⟨hverified, .inr ⟨hop, ?_⟩⟩⟩
      · rw [getD_set, if_neg fun h => hj h.1]
      · rw [getD_set, if_pos ⟨rfl, hinside hop (by decide)⟩]
    case h_3 => exact ⟨rfl, rfl, rfl, fun _ _ => rfl, .inl rfl⟩
  case isFalse => exact ⟨rfl, rfl, rfl, fun _ _ => rfl, .inl rfl⟩

/-- An instruction that is not a push, as the second scan finds it, is not one of the plain code. -/
theorem Kept.pushSize (h : Kept p c pc) :
    (Instruction.ofByte (c.m_code.getD pc 0)).pushSize =
      (Instruction.ofByte (p.m_code.getD pc 0)).pushSize := by
  rcases h with h | ⟨-, ⟨hop, hbyte⟩ | ⟨hop, hbyte⟩⟩
  · rw [h]
  · rw [hop, hbyte]
    decide
  · rw [hop, hbyte]
    decide

theorem Kept.push (h : Kept p c pc)
    (hop : Instruction.ofByte (c.m_code.getD pc 0) = .push nPush) :
    c.m_code.getD pc 0 = p.m_code.getD pc 0 := by
  rcases h with h | ⟨-, ⟨-, hbyte⟩ | ⟨-, hbyte⟩⟩
  · exact h
  · rw [hbyte, Instruction.ofByte_jumpcByte] at hop
    cases hop
  · rw [hbyte, Instruction.ofByte_jumpciByte] at hop
    cases hop

/-- A push stands in the code when its constant has been put in the pool, or left alone. -/
theorem stands_push {val : U256} (hroom : pc + 3 < c.m_code.length) (hn : nPush ≤ 32)
    (hop : Instruction.ofByte (p.m_code.getD pc 0) = .push nPush)
    (hval : val = constantAt p.m_code pc nPush)
    (hbyte : c.m_code.getD pc 0 = p.m_code.getD pc 0)
    (hbehind : ∀ j, pc < j → c.m_code.getD j 0 = p.m_code.getD j 0)
    (hpool : (if 5 < nPush then stash pc nPush val c else c).m_pool.length ≤ 2 ^ 16) :
    Stands p (if 5 < nPush then stash pc nPush val c else c) pc := by
  unfold Stands
  rw [hop]
  dsimp only
  split at hpool
  case isTrue hlong =>
    have hlength : c.m_pool.length < 2 ^ 16 := by
      simp only [stash, List.length_append, List.length_singleton] at hpool
      omega
    rw [if_pos hlong, if_pos hlong]
    refine ⟨?_, ?_, ?_⟩
    · rw [getD_stash hroom, if_neg (by omega), if_neg (by omega), if_neg (by omega), if_pos rfl]
    · rw [getD_stash hroom, getD_stash hroom, if_pos rfl, if_neg (by omega), if_pos rfl,
        Nat.mod_eq_of_lt hlength, UInt8.toNat_ofNat_of_lt' (by show _ < 256; omega),
        UInt8.toNat_ofNat_of_lt' (by show _ < 256; omega), Nat.div_add_mod', ← hval]
      simp only [stash]
      rw [List.getElem?_append_right le_rfl, Nat.sub_self]
      rfl
    · rw [getD_stash hroom, if_neg (by omega), if_neg (by omega), if_pos rfl]
      exact UInt8.toNat_ofNat_of_lt' (by show _ < 256; omega)
  case isFalse hshort =>
    rw [if_neg hshort, if_neg hshort]
    intro j hj _
    rcases eq_or_lt_of_le hj with rfl | hlt
    · exact hbyte
    · exact hbehind j hlt

theorem constantBody_of_ne {op : Instruction} (h : ∀ n, op ≠ .push n) :
    constantBody op pc c = c := by
  cases op
  case push n => exact absurd rfl (h n)
  all_goals rfl

theorem pushSize_of_ne {op : Instruction} (h : ∀ n, op ≠ .push n) : op.pushSize = 0 := by
  cases op
  case push n => exact absurd rfl (h n)
  all_goals rfl

theorem stands_of_ne (h : ∀ n, Instruction.ofByte (p.m_code.getD pc 0) ≠ .push n) :
    Stands p c pc ↔ Kept p c pc := by
  unfold Stands
  split
  case h_1 n hop => exact absurd hop (h n)
  case h_2 => exact Iff.rfl

theorem Pooled.next_of_ne (h : Pooled p pc c)
    (hop : ∀ n, Instruction.ofByte (c.m_code.getD pc 0) ≠ .push n) :
    Pooled p (nextPc p.m_code pc) c := by
  have hsize := h.here.pushSize
  rw [pushSize_of_ne hop] at hsize
  have hplain : ∀ n, Instruction.ofByte (p.m_code.getD pc 0) ≠ .push n := by
    intro n hn
    rcases h.here with hbyte | ⟨-, ⟨hjump, -⟩ | ⟨hjump, -⟩⟩
    · exact hop n (by rw [hbyte, hn])
    · rw [hjump] at hn
      cases hn
    · rw [hjump] at hn
      cases hn
  have hlater := lt_nextPc p.m_code pc
  refine ⟨h.starts.next, h.length, h.dests, fun hpool j hj hs => ?_, .inl (h.behind _ hlater),
    fun j hj => h.behind j (hlater.trans hj)⟩
  rcases (h.starts.lt_nextPc_iff hs).mp hj with hlt | rfl
  · exact h.done hpool j hlt hs
  · exact (stands_of_ne hplain).mpr h.here

theorem Pooled.next_of_push (h : Pooled p pc c) (hroom : pc + 34 ≤ p.m_code.length)
    (hop : Instruction.ofByte (c.m_code.getD pc 0) = .push nPush) :
    Pooled p (nextPc p.m_code pc) (constantBody (.push nPush) pc c) := by
  have hbyte := h.here.push hop
  have hplain : Instruction.ofByte (p.m_code.getD pc 0) = .push nPush := by rw [← hbyte, hop]
  have hn := Instruction.le_of_ofByte_eq_push hplain
  have hnext : nextPc p.m_code pc = pc + nPush + 1 := by
    rw [nextPc, hplain]
    show pc + 1 + nPush = _
    omega
  have hval : pushed ((c.m_code.drop (pc + 1)).take nPush) = constantAt p.m_code pc nPush := by
    rw [constantAt, drop_congr h.length h.behind]
  rw [hnext]
  unfold constantBody
  dsimp only
  rw [hval]
  have hspace : pc + 3 < c.m_code.length := by rw [h.length]; omega
  generalize hstashed : (if 5 < nPush then stash pc nPush (constantAt p.m_code pc nPush) c else c) =
    stashed
  have hlength : stashed.m_code.length = c.m_code.length := by
    rw [← hstashed]
    split
    · exact length_stash
    · rfl
  have hdests : stashed.m_jumpDests = p.m_jumpDests := by
    rw [← hstashed, ← h.dests]
    split
    · rfl
    · rfl
  have hpool : c.m_pool <+: stashed.m_pool := by
    rw [← hstashed]
    split
    · exact ⟨_, rfl⟩
    · exact ⟨[], List.append_nil _⟩
  have hbefore : ∀ j < pc, stashed.m_code.getD j 0 = c.m_code.getD j 0 := by
    intro j hj
    rw [← hstashed]
    split
    · rw [getD_stash hspace, if_neg (by omega), if_neg (by omega), if_neg (by omega),
        if_neg (by omega)]
    · rfl
  have hafter : ∀ j, pc + nPush < j → stashed.m_code.getD j 0 = p.m_code.getD j 0 := by
    intro j hj
    rw [← h.behind j (by omega), ← hstashed]
    split
    · rw [getD_stash hspace, if_neg (by omega), if_neg (by omega), if_neg (by omega),
        if_neg (by omega)]
    · rfl
  obtain ⟨hlen, hdest, hpooled, hothers, hjump⟩ :=
    replaceJump_spec (pc + nPush + 1) (constantAt p.m_code pc nPush) stashed
  refine ⟨?_, ?_, ?_, ?_, ?_, ?_⟩
  · rw [← hnext]
    exact h.starts.next
  · rw [hlen, hlength, h.length]
  · rw [hdest, hdests]
  · intro hsmall j hj hs
    rw [hpooled] at hsmall
    rw [← hnext] at hj
    rcases (h.starts.lt_nextPc_iff hs).mp hj with hlt | rfl
    · refine (h.done (hpool.length_le.trans hsmall) j hlt hs).mono (hs.next_le h.starts hlt)
        (fun i hi => ?_) (hpooled ▸ hpool)
      rw [hothers i (by omega), hbefore i hi]
    · have hstands : Stands p stashed j := by
        subst hstashed
        exact stands_push hspace hn hplain rfl hbyte h.behind hsmall
      refine hstands.mono hnext.le (fun i hi => hothers i (by omega)) ?_
      rw [hpooled]
  · have hi := hafter (pc + nPush + 1) (by omega)
    rw [hi, verifyJumpDest_congr hdests] at hjump
    refine hjump.imp_right fun ⟨hverified, hrest⟩ => ⟨?_, hrest⟩
    exact ⟨pc, nPush, h.starts, hplain, by omega, hverified⟩
  · intro j hj
    rw [hothers j (by omega), hafter j (by omega)]

theorem Pooled.body (h : Pooled p pc c) (hroom : pc + 34 ≤ p.m_code.length) :
    Pooled p (nextPc c.m_code pc)
      (constantBody (Instruction.ofByte (c.m_code.getD pc 0)) pc c) := by
  have hnext : nextPc c.m_code pc = nextPc p.m_code pc := by
    rw [nextPc, h.here.pushSize]
    rfl
  rw [hnext]
  by_cases hop : ∃ n, Instruction.ofByte (c.m_code.getD pc 0) = .push n
  · obtain ⟨n, hn⟩ := hop
    rw [hn]
    exact h.next_of_push hroom hn
  · rw [constantBody_of_ne fun n hn => hop ⟨n, hn⟩]
    exact h.next_of_ne fun n hn => hop ⟨n, hn⟩

/-- What the second scan leaves, where its constants can be told apart by 16 bits. -/
structure Rewritten (p c : Code) : Prop where
  length : c.m_code.length = p.m_code.length
  dests : c.m_jumpDests = p.m_jumpDests
  stands : ∀ j, Starts p.m_code j → Stands p c j

theorem rewritten_optimize (code : Bytes)
    (hpool : (optimize true code).m_pool.length ≤ 2 ^ 16) :
    Rewritten (optimize false code) (optimize true code) := by
  have hprepared := prepared_optimize code
  have hscan := @scan_rule constantBody code.length (Pooled (optimize false code))
    (fun pc c h hlt => h.body (by rw [hprepared.length]; omega)) code.length 0
    (optimize false code) (Nat.le_add_left ..) (pooled_zero _)
  obtain ⟨pc, hend, h⟩ := hscan
  refine ⟨h.length, h.dests, fun j hs => ?_⟩
  rcases lt_or_ge j pc with hlt | hge
  · exact h.done hpool j hlt hs
  · have hstop : Instruction.ofByte ((optimize false code).m_code.getD j 0) = .stop :=
      hprepared.stop (hend.trans hge)
    refine (stands_of_ne fun n hn => ?_).mpr ?_
    · rw [hstop] at hn
      cases hn
    · rcases eq_or_lt_of_le hge with rfl | hlt
      · exact h.here
      · exact .inl (h.behind j hlt)

end Pool
end Aleth.Evm
