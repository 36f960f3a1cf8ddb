import Aleth.Devcore.Words
import Aleth.Ethereum.CanonicalIndex
import Aleth.Structure.Runs

/-! The hashes of the blocks before one (`LastBlockHashes` of `BlockChain.cpp`, `ExtVM::blockHash`).

The list of the last lookup is kept, and is known by its first hash alone. It is
filled in place by a loop that reads a header for each entry; where a read throws,
the list begins with the hash that was asked for and goes on with what it held
before. The next lookup for the same hash takes it as it is. -/
namespace Aleth.Ethereum
open Devcore Throwing Runs

inductive BlockHashError where
  /-- `m_bc.info` threw. -/
  | unreadable
  | assertion
deriving DecidableEq

abbrev LastHashes := Throwing (List H256) BlockHashError

namespace LastBlockHashes

/-- What `m_bc.info(h).parentHash()` gives or throws at the time. -/
abbrev Info := H256 → Except BlockHashError H256

/-- `resize(256)`. -/
def resized (m_lastHashes : List H256) : List H256 :=
  m_lastHashes.take 256 ++ List.replicate (256 - m_lastHashes.length) H256.zero

/-- The parent of an entry of the list. -/
def parentHash (info : Info) (h : H256) : LastHashes H256 :=
  if h = H256.zero then return H256.zero else lift (info h)

/-- The loop, from entry `i` on, with `n` turns to go. -/
def fill (info : Info) : (n i : ℕ) → LastHashes Unit
  | 0, _ => return ()
  | n + 1, i => do
    let m_lastHashes ← get
    let h ← parentHash info (m_lastHashes.getD i H256.zero)
    modify fun m_lastHashes => m_lastHashes.set (i + 1) h
    fill info n (i + 1)

def precedingHashes (info : Info) (mostRecentHash : H256) : LastHashes (List H256) := do
  let m_lastHashes ← get
  if m_lastHashes.head? = some mostRecentHash then return m_lastHashes
  else do
    modify fun m_lastHashes => (resized m_lastHashes).set 0 mostRecentHash
    fill info 255 0
    get

/-- The parts of `EnvInfo` that are looked at. -/
structure EnvInfo where
  number : ℕ
  parentHash : H256
deriving DecidableEq

/-- The number is that of one of the 256 blocks before. -/
def InReach (currentNumber number : U256) : Prop :=
  ¬(currentNumber ≤ number ∨ number < max 256 currentNumber - 256)

instance (currentNumber number : U256) : Decidable (InReach currentNumber number) :=
  inferInstanceAs (Decidable (¬_))

/-- `ExtVM::blockHash`; from 256 blocks after the fork on a contract is asked. -/
def blockHash (experimentalForkBlock : U256) (contract : U256 → Except BlockHashError H256)
    (info : Info) (env : EnvInfo) (number : U256) : LastHashes H256 :=
  let currentNumber := BitVec.ofNat 256 env.number
  if ¬InReach currentNumber number then return H256.zero
  else if currentNumber < experimentalForkBlock + 256 then do
    let lastHashes ← precedingHashes info env.parentHash
    match lastHashes[(currentNumber - 1 - number).toNat % 2 ^ 32]? with
    | none => throw .assertion
    | some h => return h
  else lift (contract number)

/-! ### The list -/

variable {info : Info} {l : List H256} {p : H256}

theorem length_resized (l : List H256) : (resized l).length = 256 := by
  rw [resized, List.length_append, List.length_take, List.length_replicate]
  omega

/-- What an entry says about the one behind it. -/
def Follows (info : Info) (x y : H256) : Prop :=
  if x = H256.zero then y = H256.zero else info x = .ok y

theorem run_parentHash {x y : H256} {l l' : List H256}
    (h : (parentHash info x).run l = (.ok y, l')) : Follows info x y ∧ l' = l := by
  unfold parentHash at h
  unfold Follows
  split at h
  · rename_i hx
    rw [run_pure] at h
    obtain ⟨hy, rfl⟩ := Prod.mk.inj h
    rw [if_pos hx]
    exact ⟨(Except.ok.inj hy).symm, rfl⟩
  · rename_i hx
    rw [run_lift] at h
    obtain ⟨hy, rfl⟩ := Prod.mk.inj h
    rw [if_neg hx]
    exact ⟨hy, rfl⟩

variable (info) in
theorem run_parentHash_snd (x : H256) (l : List H256) : ((parentHash info x).run l).2 = l := by
  unfold parentHash
  split <;> rfl

variable (info) in
/-- The loop leaves the entries up to `i` alone, and behind them each follows the one before. -/
theorem run_fill {n i : ℕ} {l : List H256} (hl : i + n < l.length) :
    ((fill info n i).run l).2.length = l.length ∧
      (∀ j ≤ i, ((fill info n i).run l).2[j]? = l[j]?) ∧
      (((fill info n i).run l).1 = .ok () → ∀ j, i ≤ j → j < i + n →
        Follows info (((fill info n i).run l).2.getD j H256.zero)
          (((fill info n i).run l).2.getD (j + 1) H256.zero)) := by
  induction n generalizing i l with
  | zero => exact ⟨rfl, fun _ _ => rfl, fun _ j hj hj' => absurd hj' (by omega)⟩
  | succ n ih =>
    have hstep : (fill info (n + 1) i).run l =
        (parentHash info (l.getD i H256.zero) >>= fun h =>
          (modify fun m => m.set (i + 1) h) >>= fun _ => fill info n (i + 1)).run l := rfl
    rw [hstep, run_bind]
    rcases hx : (parentHash info (l.getD i H256.zero)).run l with ⟨e | h, l'⟩
    · have hsame := run_parentHash_snd info (l.getD i H256.zero) l
      rw [hx] at hsame
      obtain rfl : l' = l := hsame
      exact ⟨rfl, fun _ _ => rfl, fun heq => by cases heq⟩
    · obtain ⟨hfollows, rfl⟩ := run_parentHash hx
      dsimp only
      rw [run_bind_ok (run_modify _ _)]
      obtain ⟨hlen, hkeep, hall⟩ := ih (i := i + 1) (l := l'.set (i + 1) h)
        (by rw [List.length_set]; omega)
      rw [List.length_set] at hlen
      have hhead : ∀ j ≤ i, ((fill info n (i + 1)).run (l'.set (i + 1) h)).2[j]? = l'[j]? := by
        intro j hj
        rw [hkeep j (by omega), List.getElem?_set_ne (by omega)]
      refine ⟨hlen, hhead, fun hok j hj hj' => ?_⟩
      by_cases hji : j = i
      · subst hji
        have hnext := hkeep (j + 1) le_rfl
        rw [List.getElem?_set_self (by omega)] at hnext
        rw [List.getD_eq_getElem?_getD, List.getD_eq_getElem?_getD, hhead j le_rfl, hnext,
          ← List.getD_eq_getElem?_getD]
        exact hfollows
      · exact hall hok j (by omega) (by omega)

variable (info) in
/-- Where all that may be read can be read, the loop goes through. -/
theorem run_fill_ok (Good : H256 → Prop) (hzero : Good H256.zero)
    (hinfo : ∀ x, Good x → x ≠ H256.zero → ∃ y, info x = .ok y ∧ Good y) {n i : ℕ}
    {l : List H256} (hl : i + n < l.length) (hi : Good (l.getD i H256.zero)) :
    ((fill info n i).run l).1 = .ok () := by
  induction n generalizing i l with
  | zero => rfl
  | succ n ih =>
    have hread : ∃ y, (parentHash info (l.getD i H256.zero)).run l = (.ok y, l) ∧ Good y := by
      unfold parentHash
      split
      · exact ⟨H256.zero, rfl, hzero⟩
      case isFalse hne =>
        obtain ⟨y, hy, hgood⟩ := hinfo _ hi hne
        exact ⟨y, by rw [run_lift, hy], hgood⟩
    obtain ⟨y, hy, hgood⟩ := hread
    have hstep : (fill info (n + 1) i).run l =
        (parentHash info (l.getD i H256.zero) >>= fun h =>
          (modify fun m => m.set (i + 1) h) >>= fun _ => fill info n (i + 1)).run l := rfl
    rw [hstep, run_bind_ok hy, run_bind_ok (run_modify _ _)]
    refine ih (by rw [List.length_set]; omega) ?_
    rw [List.getD_eq_getElem?_getD, List.getElem?_set_self (by omega)]
    exact hgood

theorem run_precedingHashes_known (h : l.head? = some p) :
    (precedingHashes info p).run l = (.ok l, l) := by
  have hstep : (precedingHashes info p).run l = (if l.head? = some p then return l else do
      modify fun m => (resized m).set 0 p
      fill info 255 0
      get : LastHashes (List H256)).run l := rfl
  rw [hstep, if_pos h, run_pure]

/-- The loop on a list that begins with the hash. -/
theorem run_precedingHashes_new (h : l.head? ≠ some p) : (precedingHashes info p).run l =
    (fill info 255 0 >>= fun _ => get).run ((resized l).set 0 p) := by
  have hstep : (precedingHashes info p).run l = (if l.head? = some p then return l else do
      modify fun m => (resized m).set 0 p
      fill info 255 0
      get : LastHashes (List H256)).run l := rfl
  rw [hstep, if_neg h]
  rfl

/-- A lookup of another hash throws, with that hash in front, or gives a list of its parents. -/
theorem run_precedingHashes (h : l.head? ≠ some p) :
    (∃ e l', (precedingHashes info p).run l = (.error e, l') ∧ l'.head? = some p) ∨
    ∃ l', (precedingHashes info p).run l = (.ok l', l') ∧ l'.head? = some p ∧ l'.length = 256 ∧
      ∀ j < 255, Follows info (l'.getD j H256.zero) (l'.getD (j + 1) H256.zero) := by
  have hlen : ((resized l).set 0 p).length = 256 := by rw [List.length_set, length_resized]
  obtain ⟨hlen', hkeep, hall⟩ := run_fill info (n := 255) (i := 0)
    (l := (resized l).set 0 p) (by omega)
  have hfront : ((fill info 255 0).run ((resized l).set 0 p)).2.head? = some p := by
    rw [List.head?_eq_getElem?, hkeep 0 le_rfl,
      List.getElem?_set_self (by rw [length_resized]; omega)]
  rw [run_precedingHashes_new h, run_bind]
  rcases hrun : (fill info 255 0).run ((resized l).set 0 p) with ⟨e | u, l'⟩
  · rw [hrun] at hfront
    exact .inl ⟨e, l', rfl, hfront⟩
  · rw [hrun] at hfront hlen' hall
    exact .inr ⟨l', rfl, hfront, hlen'.trans hlen,
      fun j hj => hall rfl j (Nat.zero_le _) (by omega)⟩

/-! ### What the list should hold -/

variable {bc bc' : BlockChain}

/-- `y` is the parent of `x`, or both are beyond the genesis block. -/
def Above (bc : BlockChain) (x y : H256) : Prop :=
  if x = H256.zero then y = H256.zero
  else ∃ info, bc.header x = some info ∧ info.parentHash = y

/-- The list holds the parents of its first entry. -/
def Listed (bc : BlockChain) (l : List H256) : Prop :=
  l.length = 256 ∧ ∀ j < 255, Above bc (l.getD j H256.zero) (l.getD (j + 1) H256.zero)

/-- Headers that are there stay as they are. -/
def Extends (bc bc' : BlockChain) : Prop :=
  ∀ h info, bc.header h = some info → bc'.header h = some info

theorem Listed.mono (h : Listed bc l) (hext : Extends bc bc') : Listed bc' l := by
  refine ⟨h.1, fun j hj => ?_⟩
  have habove := h.2 j hj
  unfold Above at habove ⊢
  split
  case isTrue hx => rwa [if_pos hx] at habove
  case isFalse hx =>
    rw [if_neg hx] at habove
    obtain ⟨info, hinfo, hp⟩ := habove
    exact ⟨info, hext _ _ hinfo, hp⟩

theorem Listed.get (hlisted : Listed bc l) (hl : bc.Linked) (hp : bc.Stored p)
    (hfront : l.head? = some p) {k : ℕ} (hk : k ≤ bc.heightOf p) (hk' : k ≤ 255) :
    l[k]? = some (bc.parentOf^[k] p) := by
  induction k with
  | zero => rw [← List.head?_eq_getElem?, hfront, Function.iterate_zero_apply]
  | succ k ih =>
    have hmem := (hl.rooted.iterate hp (show k ≤ bc.heightOf p by omega)).1
    have habove := hlisted.2 k (by omega)
    have hlen := hlisted.1
    rw [List.getD_eq_getElem?_getD, ih (by omega) (by omega), Option.getD_some, Above,
      if_neg (hl.ne_zero hmem)] at habove
    obtain ⟨info, hinfo, hparent⟩ := habove
    rw [Function.iterate_succ_apply', BlockChain.parentOf, hinfo, Option.map_some, Option.getD_some,
      hparent, List.getD_eq_getElem?_getD, List.getElem?_eq_getElem (by omega), Option.getD_some]

/-! ### Numbers -/

theorem inReach_iff {N : ℕ} (hN : N < 2 ^ 256) (number : U256) :
    InReach (BitVec.ofNat 256 N) number ↔ number.toNat < N ∧ N ≤ number.toNat + 256 := by
  have hcur : (BitVec.ofNat 256 N).toNat = N := by
    rw [BitVec.toNat_ofNat, Nat.mod_eq_of_lt hN]
  have h256 : (256 : U256).toNat = 256 := rfl
  have hnum := number.isLt
  have hmax : (max (256 : U256) (BitVec.ofNat 256 N) - 256).toNat = max 256 N - 256 := by
    rcases le_total (256 : U256) (BitVec.ofNat 256 N) with h | h
    · have hle : 256 ≤ N := by
        rw [BitVec.le_def, hcur, h256] at h
        exact h
      rw [max_eq_right h, max_eq_right hle, BitVec.toNat_sub, hcur, h256]
      omega
    · have hle : N ≤ 256 := by
        rw [BitVec.le_def, hcur, h256] at h
        exact h
      rw [max_eq_left h, max_eq_left hle, BitVec.toNat_sub, h256]
  unfold InReach
  rw [BitVec.le_def, BitVec.lt_def, hmax, hcur]
  omega

theorem toNat_back {N : ℕ} (hN : N < 2 ^ 256) {number : U256}
    (h : number.toNat < N ∧ N ≤ number.toNat + 256) :
    (BitVec.ofNat 256 N - 1 - number).toNat % 2 ^ 32 = N - 1 - number.toNat := by
  have hcur : (BitVec.ofNat 256 N).toNat = N := by
    rw [BitVec.toNat_ofNat, Nat.mod_eq_of_lt hN]
  have hone : (1 : U256).toNat = 1 := rfl
  have hnum := number.isLt
  rw [BitVec.toNat_sub, BitVec.toNat_sub, hcur, hone]
  omega

/-! ### Runs -/

section Runs
variable (experimentalForkBlock : U256) (contract : U256 → Except BlockHashError H256)

/-- `blockHash` looks at the list. -/
def Asks (env : EnvInfo) (number : U256) : Prop :=
  InReach (BitVec.ofNat 256 env.number) number ∧
    BitVec.ofNat 256 env.number < experimentalForkBlock + 256

instance (env : EnvInfo) (number : U256) : Decidable (Asks experimentalForkBlock env number) :=
  inferInstanceAs (Decidable (_ ∧ _))

/-- The chain, its list, and the hash of the last lookup if that threw. -/
structure Lookups where
  bc : BlockChain
  m_lastHashes : List H256
  failed : Option H256

inductive Request where
  | blockHash (env : EnvInfo) (number : U256) (info : Info)
  | chain (r : BlockChain.Request)
  | clear

/-- The answer to a request for a hash, and what it leaves of the list. -/
def answer (s : Lookups) (env : EnvInfo) (number : U256) (info : Info) :
    Except BlockHashError H256 × List H256 :=
  (blockHash experimentalForkBlock contract info env number).run s.m_lastHashes

/-- A new head clears the list. -/
def step (s : Lookups) : Request → Lookups
  | .blockHash env number info =>
    let r := answer experimentalForkBlock contract s env number info
    {s with
      m_lastHashes := r.2
      failed := if ¬Asks experimentalForkBlock env number then s.failed
        else if r.1.isOk then none else some env.parentHash}
  | .chain r =>
    if (s.bc.step r).m_lastBlockHash = s.bc.m_lastBlockHash then {s with bc := s.bc.step r}
    else ⟨s.bc.step r, [], none⟩
  | .clear => {s with m_lastHashes := [], failed := none}

def fresh (genesis : VerifiedBlock) (tieBreakingGas : Bool) : Lookups :=
  ⟨.fresh genesis tieBreakingGas, [], none⟩

/-- The block that is executed is a child of a stored block and before the fork, and what is read
is a header of the chain. -/
def Proper (s : Lookups) : Request → Prop
  | .blockHash env _ info => s.bc.Stored env.parentHash ∧
    env.number = s.bc.heightOf env.parentHash + 1 ∧ env.number < experimentalForkBlock.toNat ∧
    ∀ h p, info h = .ok p → (s.bc.header h).map BlockHeader.parentHash = some p
  | .chain r => s.bc.Proper r
  | .clear => True

/-- A hash whose lookup threw is not the next one to be looked up, and the number at which the
contract takes over does not wrap. -/
def Careful (s : Lookups) : Request → Prop
  | .blockHash env number _ => env.number < (experimentalForkBlock + 256).toNat ∧
    (Asks experimentalForkBlock env number → s.failed ≠ some env.parentHash)
  | _ => True

/-- The ancestor of the block at the height, if that is one of the 256 below. -/
def ancestorHash (bc : BlockChain) (env : EnvInfo) (number : U256) : H256 :=
  if number.toNat < env.number ∧ env.number ≤ number.toNat + 256 then
    bc.ancestorOf env.parentHash number.toNat
  else H256.zero

/-- What is answered is right, and there is an answer where every header can be read. -/
def Answers (s : Lookups) : Request → Prop
  | .blockHash env number info =>
    (∀ h, (answer experimentalForkBlock contract s env number info).1 = .ok h →
      h = ancestorHash s.bc env number) ∧
    ((∀ h header, s.bc.header h = some header → info h = .ok header.parentHash) →
      s.bc.m_genesis.info.parentHash = H256.zero →
      (answer experimentalForkBlock contract s env number info).1.isOk)
  | _ => True

/-- The list holds the parents of its first hash, unless the lookup of that one threw. -/
structure Sound (s : Lookups) : Prop where
  indexed : s.bc.Indexed
  listed : ∀ h, s.m_lastHashes.head? = some h → s.failed ≠ some h → Listed s.bc s.m_lastHashes

variable {experimentalForkBlock contract} {s : Lookups} {env : EnvInfo} {number : U256}

theorem answer_far (h : ¬InReach (BitVec.ofNat 256 env.number) number) :
    answer experimentalForkBlock contract s env number info = (.ok H256.zero, s.m_lastHashes) := by
  unfold answer blockHash
  rw [if_pos h, run_pure]

theorem answer_near (h : Asks experimentalForkBlock env number) :
    answer experimentalForkBlock contract s env number info =
      (precedingHashes info env.parentHash >>= fun lastHashes =>
        match lastHashes[(BitVec.ofNat 256 env.number - 1 - number).toNat % 2 ^ 32]? with
        | none => throw .assertion
        | some h => return h).run s.m_lastHashes := by
  unfold answer blockHash
  rw [if_neg (not_not.mpr h.1), if_pos h.2]

/-- What a lookup does to a sound list. -/
theorem lookup_cases (hs : Sound s) (hp : s.failed ≠ some p)
    (hinfo : ∀ h p, info h = .ok p → (s.bc.header h).map BlockHeader.parentHash = some p) :
    (∃ e l', (precedingHashes info p).run s.m_lastHashes = (.error e, l') ∧ l'.head? = some p) ∨
    ∃ l', (precedingHashes info p).run s.m_lastHashes = (.ok l', l') ∧ l'.head? = some p ∧
      Listed s.bc l' := by
  by_cases hfront : s.m_lastHashes.head? = some p
  · exact .inr ⟨_, run_precedingHashes_known hfront, hfront, hs.listed p hfront hp⟩
  · refine (run_precedingHashes hfront).imp_right ?_
    rintro ⟨l', hrun, hfront', hlen, hall⟩
    refine ⟨l', hrun, hfront', hlen, fun j hj => ?_⟩
    have hfollows := hall j hj
    unfold Follows at hfollows
    unfold Above
    split
    case isTrue hx => rwa [if_pos hx] at hfollows
    case isFalse hx =>
      rw [if_neg hx] at hfollows
      exact Option.map_eq_some_iff.mp (hinfo _ _ hfollows)

/-- Where all headers can be read, the lookup of a stored block does not throw. -/
theorem lookup_ok (hs : Sound s) (hp : s.bc.Stored p)
    (hread : ∀ h header, s.bc.header h = some header → info h = .ok header.parentHash)
    (hgenesis : s.bc.m_genesis.info.parentHash = H256.zero) :
    ∃ l', (precedingHashes info p).run s.m_lastHashes = (.ok l', l') := by
  by_cases hfront : s.m_lastHashes.head? = some p
  · exact ⟨_, run_precedingHashes_known hfront⟩
  · have hlen : ((resized s.m_lastHashes).set 0 p).length = 256 := by
      rw [List.length_set, length_resized]
    have hgood : ∀ x, x = H256.zero ∨ s.bc.Stored x → x ≠ H256.zero →
        ∃ y, info x = .ok y ∧ (y = H256.zero ∨ s.bc.Stored y) := by
      intro x hx hne
      have hstored := hx.resolve_left hne
      obtain ⟨header, hheader⟩ := Option.isSome_iff_exists.mp hstored
      refine ⟨_, hread x header hheader, ?_⟩
      by_cases hg : x = s.bc.genesisHash
      · rw [hg, BlockChain.header_genesis] at hheader
        obtain rfl := Option.some.inj hheader
        exact .inl hgenesis
      · have hup := (hs.indexed.linked.rooted.up x hstored hg).1
        rw [BlockChain.parentOf, hheader] at hup
        exact .inr hup
    have hok := run_fill_ok info (fun x => x = H256.zero ∨ s.bc.Stored x)
      (.inl rfl) hgood (n := 255) (i := 0) (l := (resized s.m_lastHashes).set 0 p) (by omega) (by
        rw [List.getD_eq_getElem?_getD, List.getElem?_set_self (by rw [length_resized]; omega)]
        exact .inr hp)
    refine ⟨((fill info 255 0).run ((resized s.m_lastHashes).set 0 p)).2, ?_⟩
    rw [run_precedingHashes_new hfront, run_bind_ok (Prod.ext hok rfl), run_get]

theorem answer_failed (hasks : Asks experimentalForkBlock env number) {e : BlockHashError}
    {l' : List H256}
    (hrun : (precedingHashes info env.parentHash).run s.m_lastHashes = (.error e, l')) :
    answer experimentalForkBlock contract s env number info = (.error e, l') := by
  rw [answer_near hasks]
  exact run_bind_error hrun _

theorem Proper.lt (hs : Sound s)
    (hp : Proper experimentalForkBlock s (.blockHash env number info)) :
    env.number < 2 ^ 256 := by
  have hheight := hs.indexed.linked.height_lt hp.1
  have hnumber := hp.2.1
  rw [c_invalidNumber] at hheight
  omega

theorem answer_found (hs : Sound s)
    (hp : Proper experimentalForkBlock s (.blockHash env number info))
    (hasks : Asks experimentalForkBlock env number) {l' : List H256}
    (hrun : (precedingHashes info env.parentHash).run s.m_lastHashes = (.ok l', l'))
    (hfront : l'.head? = some env.parentHash) (hlisted : Listed s.bc l') :
    answer experimentalForkBlock contract s env number info =
      (.ok (ancestorHash s.bc env number), l') := by
  have hnear := (inReach_iff (hp.lt hs) number).mp hasks.1
  have hnumber := hp.2.1
  have hget := hlisted.get hs.indexed.linked hp.1 hfront
    (k := env.number - 1 - number.toNat) (by omega) (by omega)
  have hback : s.bc.heightOf env.parentHash - number.toNat = env.number - 1 - number.toNat := by
    omega
  rw [answer_near hasks, run_bind_ok hrun, toNat_back (hp.lt hs) hnear, hget, ancestorHash,
    if_pos hnear, BlockChain.ancestorOf, Ancestry.ancestor, hback]
  rfl

theorem answers_of_careful (hs : Sound s) {r : Request} (hp : Proper experimentalForkBlock s r)
    (hc : Careful experimentalForkBlock s r) : Answers experimentalForkBlock contract s r := by
  cases r with
  | chain _ => exact trivial
  | clear => exact trivial
  | blockHash env number info =>
    obtain ⟨hfork, hfailed⟩ := hc
    by_cases hreach : InReach (BitVec.ofNat 256 env.number) number
    · have hasks : Asks experimentalForkBlock env number := by
        refine ⟨hreach, ?_⟩
        rw [BitVec.lt_def, BitVec.toNat_ofNat, Nat.mod_eq_of_lt (hp.lt hs)]
        exact hfork
      rcases lookup_cases hs (hfailed hasks) hp.2.2.2 with ⟨e, l', hrun, -⟩ | ⟨l', hrun, hfront, hl⟩
      · refine ⟨fun h hok => ?_, fun hread hgenesis => ?_⟩
        · rw [answer_failed hasks hrun] at hok
          cases hok
        · obtain ⟨l'', hrun'⟩ := lookup_ok hs hp.1 hread hgenesis
          rw [hrun] at hrun'
          cases hrun'
      · rw [Answers, answer_found hs hp hasks hrun hfront hl]
        exact ⟨fun h hok => (Except.ok.inj hok).symm, fun _ _ => rfl⟩
    · rw [Answers, answer_far hreach, ancestorHash,
        if_neg (mt (inReach_iff (hp.lt hs) number).mpr hreach)]
      exact ⟨fun h hok => (Except.ok.inj hok).symm, fun _ _ => rfl⟩

/-! ### The chain under the list -/

theorem header_eq_of_settled (h : bc.settled = bc'.settled) : bc'.header = bc.header := by
  obtain ⟨hg, -, hdb, -⟩ := BlockChain.settled_eq h
  funext k
  rw [BlockChain.header, BlockChain.header, BlockChain.genesisHash, BlockChain.genesisHash, hg, hdb]

theorem extends_of_header (h : bc'.header = bc.header) : Extends bc bc' :=
  fun k header hk => by rwa [h]

theorem extends_step (hx : bc.Indexed) {r : BlockChain.Request} (hr : bc.Proper r) :
    Extends bc (bc.step r) := by
  cases r with
  | importBlock b mustBeNew verdict =>
    rcases BlockChain.run_importBlock hx.headed hr mustBeNew verdict with
      ⟨e, t, hrun, ht⟩ | ⟨r, t, hrun, hi, -⟩
    · rw [BlockChain.step, hrun]
      exact extends_of_header (header_eq_of_settled ht.symm)
    · rw [BlockChain.step, hrun]
      intro k header hk
      rw [hi.adds.header_old hi.insertable (by rw [BlockChain.Stored, hk]; rfl), hk]
  | numberHash i =>
    refine extends_of_header ?_
    show BlockChain.header (if i = 0 then (Except.ok bc.genesisHash, bc) else _).2 = bc.header
    split <;> rfl
  | details h => exact extends_of_header (header_eq_of_settled (bc.asks_details h bc rfl).2.symm)
  | block h => exact extends_of_header (header_eq_of_settled (bc.asks_block h bc rfl).2.symm)
  | garbageCollect blocks details transactions => exact extends_of_header rfl

theorem sound_step (hs : Sound s) {r : Request} (hp : Proper experimentalForkBlock s r)
    (hc : Careful experimentalForkBlock s r) :
    Sound (step experimentalForkBlock contract s r) := by
  cases r with
  | clear => exact ⟨hs.indexed, fun _ h => by cases h⟩
  | chain r =>
    have hx := (BlockChain.indexed_step hs.indexed hp).1
    rw [step]
    split
    · exact ⟨hx, fun h hh hne => (hs.listed h hh hne).mono (extends_step hs.indexed hp)⟩
    · exact ⟨hx, fun _ h => by cases h⟩
  | blockHash env number info =>
    rw [step]
    by_cases hasks : Asks experimentalForkBlock env number
    · refine ⟨hs.indexed, ?_⟩
      rcases lookup_cases hs (hc.2 hasks) hp.2.2.2 with
        ⟨e, l', hrun, hfront⟩ | ⟨l', hrun, hfront, hl⟩
      · rw [answer_failed hasks hrun]
        intro h hh hne
        rw [hfront] at hh
        refine absurd hh ?_
        simpa [hasks, Except.isOk, Except.toBool] using hne
      · rw [answer_found hs hp hasks hrun hfront hl]
        exact fun _ _ _ => hl
    · have hsame :
          (answer experimentalForkBlock contract s env number info).2 = s.m_lastHashes := by
        by_cases hreach : InReach (BitVec.ofNat 256 env.number) number
        · unfold answer blockHash
          rw [if_neg (not_not.mpr hreach), if_neg fun hlt => hasks ⟨hreach, hlt⟩]
          rfl
        · rw [answer_far hreach]
      refine ⟨hs.indexed, ?_⟩
      dsimp only
      rw [hsame, if_pos hasks]
      exact hs.listed

variable (experimentalForkBlock contract) in
/-- **In a run in which no lookup is for the hash of the one before it that threw, `blockHash` gives
the hash of the ancestor on the branch of the block that is executed.** -/
theorem blockHash_of_careful (genesis : VerifiedBlock) (tieBreakingGas : Bool)
    (h0 : genesis.info.number = 0) (hne : genesis.info.hash ≠ H256.zero) (l : List Request)
    (hproper : Along (step experimentalForkBlock contract) (Proper experimentalForkBlock)
      (fresh genesis tieBreakingGas) l)
    (hcareful : Along (step experimentalForkBlock contract) (Careful experimentalForkBlock)
      (fresh genesis tieBreakingGas) l) :
    Along (step experimentalForkBlock contract) (Answers experimentalForkBlock contract)
      (fresh genesis tieBreakingGas) l := by
  have hs : Sound (fresh genesis tieBreakingGas) :=
    ⟨BlockChain.indexed_fresh tieBreakingGas h0 hne, fun _ h => by cases h⟩
  generalize fresh genesis tieBreakingGas = s at hproper hcareful hs ⊢
  induction l generalizing s with
  | nil => exact trivial
  | cons r l ih =>
    exact ⟨answers_of_careful hs hproper.1 hcareful.1,
      ih _ hproper.2 hcareful.2 (sound_step hs hproper.1 hcareful.1)⟩

end Runs

/-! ### A read that fails once -/

/-- Every header of the chain can be read. -/
def headers (bc : BlockChain) : Info := fun h =>
  match bc.header h with
  | none => .error .unreadable
  | some info => .ok info.parentHash

theorem headers_eq {bc : BlockChain} {h p : H256} (hp : headers bc h = .ok p) :
    (bc.header h).map BlockHeader.parentHash = some p := by
  unfold headers at hp
  split at hp
  · cases hp
  · rename_i info hinfo
    rw [hinfo, Option.map_some, Except.ok.inj hp]

/-- A block on the genesis block. -/
def sampleChild : BlockChain.Request :=
  .importBlock (BlockChain.sampleBlock 0xa1 0x01 1 1) true true

def sampleChain : BlockChain := (BlockChain.fresh BlockChain.sampleGenesis false).step sampleChild

/-- The child of that block is executed, and asks for the genesis block. -/
def sampleAsk (info : Info) : Request := .blockHash ⟨2, H256.alignRight [0xa1]⟩ 0 info

def sampleFork : U256 := BitVec.ofNat 256 (2 ^ 63 - 1)

theorem proper_sampleAsk {s : Lookups} {info : Info} (hs : s.bc = sampleChain)
    (hinfo : ∀ h p, info h = .ok p → (sampleChain.header h).map BlockHeader.parentHash = some p) :
    Proper sampleFork s (sampleAsk info) := by
  show s.bc.Stored _ ∧ _ = s.bc.heightOf _ + 1 ∧ _ ∧ ∀ h p, _ → (s.bc.header h).map _ = _
  rw [hs]
  have hstored : (sampleChain.header (H256.alignRight [0xa1])).isSome := by decide +kernel
  exact ⟨hstored, by decide +kernel, by decide +kernel, hinfo⟩

theorem proper_sampleChild :
    Proper sampleFork (fresh BlockChain.sampleGenesis false) (.chain sampleChild) := by
  have hproper : (BlockChain.fresh BlockChain.sampleGenesis false).Proper sampleChild := by
    decide +kernel
  exact hproper

theorem blockHash_of_careful_sample :
    Along (step sampleFork fun _ => .ok H256.zero) (Answers sampleFork fun _ => .ok H256.zero)
      (fresh BlockChain.sampleGenesis false) [.chain sampleChild, sampleAsk (headers sampleChain)] :=
  blockHash_of_careful sampleFork (fun _ => .ok H256.zero) BlockChain.sampleGenesis false rfl
    (by decide) _
    ⟨proper_sampleChild, proper_sampleAsk rfl fun _ _ => headers_eq, trivial⟩
    ⟨trivial, ⟨by decide +kernel, fun _ => by decide +kernel⟩, trivial⟩

/-- The header of the parent cannot be read at first: from then on the hash of the genesis block is
taken for zero. -/
theorem blockHash_after_failure :
    Along (step sampleFork fun _ => .ok H256.zero) (Proper sampleFork)
      (fresh BlockChain.sampleGenesis false) [.chain sampleChild,
        sampleAsk fun _ => .error .unreadable, sampleAsk (headers sampleChain)] ∧
    ¬Along (step sampleFork fun _ => .ok H256.zero) (Answers sampleFork fun _ => .ok H256.zero)
      (fresh BlockChain.sampleGenesis false) [.chain sampleChild,
        sampleAsk fun _ => .error .unreadable, sampleAsk (headers sampleChain)] := by
  constructor
  · refine ⟨proper_sampleChild, proper_sampleAsk rfl ?_,
      proper_sampleAsk rfl fun _ _ => headers_eq, trivial⟩
    intro h p hp
    cases hp
  · rintro ⟨-, -, hanswers, -⟩
    have hwrong := hanswers.1 H256.zero (by decide +kernel)
    revert hwrong
    decide +kernel

end LastBlockHashes
end Aleth.Ethereum
