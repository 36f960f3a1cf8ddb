import Aleth.Ethereum.BlockBlooms
import Aleth.Ethcore.HeaderCodec

/-! Filters of logs (`LogFilter.cpp`, `LogEntry.cpp`).

A filter lists addresses, and topics for each of four positions. `Wants` is
what it asks of an entry. `matchesReceipt` goes through the entries of a receipt; an
entry that has as many topics as the number of a position is read past its end
there (`Overreads`). `bloomPossibilities` has one bloom for each position, with
all its topics in it: a block is found by it when it has all of them, not one.

The addresses and topics are lists here, in the order in which the code goes
through its hash sets. -/
namespace Aleth.Ethereum
open Devcore
open Ethcore (addressBytes)

namespace LogBloom
variable {a b d : LogBloom}

theorem contains_refl (a : LogBloom) : a.contains a = true := decide_eq_true (BitVec.and_self)

theorem contains_trans (h : a.contains b = true) (h' : b.contains d = true) :
    a.contains d = true := by
  have hb : a &&& b = b := of_decide_eq_true h
  have hd : b &&& d = d := of_decide_eq_true h'
  refine decide_eq_true ?_
  rw [← hd, ← BitVec.and_assoc, hb]

theorem contains_or : a.contains (b ||| d) = true ↔ a.contains b = true ∧ a.contains d = true := by
  constructor
  · exact fun h => ⟨contains_trans h (contains_or_left (contains_refl b)),
      contains_trans h (contains_or_right (contains_refl d))⟩
  · rintro ⟨h, h'⟩
    have hb : a &&& b = b := of_decide_eq_true h
    have hd : a &&& d = d := of_decide_eq_true h'
    refine decide_eq_true ?_
    ext i hi
    have hbi := congrArg (fun x : LogBloom => x[i]) hb
    have hdi := congrArg (fun x : LogBloom => x[i]) hd
    simp only [BitVec.getElem_and, BitVec.getElem_or] at hbi hdi ⊢
    rw [Bool.and_or_distrib_left, hbi, hdi]

theorem contains_zero (a : LogBloom) : a.contains 0 = true := decide_eq_true (BitVec.and_zero)

/-- A union has what it was begun with and every bloom that was added. -/
theorem contains_foldl {α : Type} {f : α → LogBloom} {l : List α} :
    a.contains (l.foldl (fun union x => union ||| f x) b) = true ↔
      a.contains b = true ∧ ∀ x ∈ l, a.contains (f x) = true := by
  induction l generalizing b with
  | nil => simp
  | cons x l ih => rw [List.foldl_cons, ih, contains_or, List.forall_mem_cons, and_assoc]

theorem foldl_contains {α : Type} {f : α → LogBloom} {l : List α} {x : α} (hx : x ∈ l) :
    LogBloom.contains (l.foldl (fun union x => union ||| f x) b) (f x) = true :=
  (contains_foldl.mp (contains_refl _)).2 x hx

end LogBloom

/-- The bit that two bytes choose. -/
def bloomBit (high low : UInt8) : LogBloom := 1#2048 <<< ((high.toNat * 256 + low.toNat) % 2048)

/-- `bloomPart<3, 256>`: three bits, from the first six bytes. -/
def bloomPart (h : H256) : LogBloom :=
  bloomBit (h.bytes.getD 0 0) (h.bytes.getD 1 0) |||
    bloomBit (h.bytes.getD 2 0) (h.bytes.getD 3 0) |||
    bloomBit (h.bytes.getD 4 0) (h.bytes.getD 5 0)

structure LogEntry where
  address : Address
  topics : List H256
  data : Bytes
deriving DecidableEq

/-- What a read of `m_topics` or of `topics` past the end is. -/
inductive MemoryFault where
  | outOfBounds
deriving DecidableEq

structure LogFilter where
  m_addresses : List Address := []
  m_topics : Vector (List H256) 4 := .replicate 4 []
deriving DecidableEq

namespace LogFilter
variable (f : LogFilter)

def isRangeFilter : Bool := f.m_addresses.isEmpty && f.m_topics.toList.all List.isEmpty

/-- The check of one position: `e.topics[i]` is read if there are `i` topics or more. -/
def positionPasses (e : LogEntry) (i : Fin 4) : Except MemoryFault Bool :=
  if (f.m_topics.get i).isEmpty then .ok true
  else if e.topics.length < i then .ok false
  else match e.topics[i.val]? with
    | none => .error .outOfBounds
    | some topic => .ok ((f.m_topics.get i).contains topic)

def positionsPass (e : LogEntry) : List (Fin 4) → Except MemoryFault Bool
  | [] => .ok true
  | i :: rest => do if ← f.positionPasses e i then positionsPass e rest else return false

def entryPasses (e : LogEntry) : Except MemoryFault Bool :=
  if !f.m_addresses.isEmpty && !f.m_addresses.contains e.address then .ok false
  else f.positionsPass e [0, 1, 2, 3]

/-- The loop over the entries. -/
def passing : List LogEntry → Except MemoryFault (List LogEntry)
  | [] => .ok []
  | e :: log => do
    let passes ← f.entryPasses e
    let ret ← passing log
    return if passes then e :: ret else ret

/-! ### What is asked of an entry -/

def AddressFits (e : LogEntry) : Prop := f.m_addresses = [] ∨ e.address ∈ f.m_addresses

/-- Where the filter lists topics, the entry has one of them. -/
def Fits (e : LogEntry) (i : Fin 4) : Prop :=
  f.m_topics.get i ≠ [] → ∃ t ∈ f.m_topics.get i, e.topics[i.val]? = some t

def Wants (e : LogEntry) : Prop := f.AddressFits e ∧ ∀ i, f.Fits e i

/-- The filter lists topics for the position behind the last topic of the entry, and the entry has
what is asked for before. -/
def Overreads (e : LogEntry) : Prop :=
  f.AddressFits e ∧ ∃ i : Fin 4, e.topics.length = i ∧ f.m_topics.get i ≠ [] ∧ ∀ j < i, f.Fits e j

instance (e : LogEntry) : Decidable (f.AddressFits e) := inferInstanceAs (Decidable (_ ∨ _))

instance (e : LogEntry) (i : Fin 4) : Decidable (f.Fits e i) :=
  inferInstanceAs (Decidable (_ ≠ _ → _))

instance (e : LogEntry) : Decidable (f.Wants e) := inferInstanceAs (Decidable (_ ∧ _))

instance (e : LogEntry) : Decidable (f.Overreads e) := inferInstanceAs (Decidable (_ ∧ _))

variable {f} {e : LogEntry} {i : Fin 4} {log : List LogEntry}

theorem positionPasses_eq (h : ¬(e.topics.length = i ∧ f.m_topics.get i ≠ [])) :
    f.positionPasses e i = .ok (decide (f.Fits e i)) := by
  unfold positionPasses
  cases hlisted : f.m_topics.get i with
  | nil => simp [Fits, hlisted]
  | cons t l =>
    have hne : e.topics.length ≠ i := fun hlen => h ⟨hlen, by simp [hlisted]⟩
    rw [if_neg (by simp)]
    by_cases hshort : e.topics.length < i
    · rw [if_pos hshort]
      simp [Fits, hlisted, List.getElem?_eq_none hshort.le]
    · have hget := List.getElem?_eq_getElem (show i.val < e.topics.length by omega)
      rw [if_neg hshort]
      simp only [Fits, hlisted, hget, ne_eq, reduceCtorEq, not_false_eq_true, forall_const,
        Option.some.injEq, exists_eq_right', List.contains_eq_mem]

theorem positionPasses_error (hlen : e.topics.length = i) (hlisted : f.m_topics.get i ≠ []) :
    f.positionPasses e i = .error .outOfBounds := by
  unfold positionPasses
  rw [if_neg (by simpa using hlisted), if_neg (by omega), List.getElem?_eq_none (by omega)]

theorem positionsPass_eq {l : List (Fin 4)}
    (h : ∀ pre (i : Fin 4) post, l = pre ++ i :: post → (∀ j ∈ pre, f.Fits e j) →
      ¬(e.topics.length = i ∧ f.m_topics.get i ≠ [])) :
    f.positionsPass e l = .ok (decide (∀ i ∈ l, f.Fits e i)) := by
  induction l with
  | nil => simp [positionsPass]
  | cons i l ih =>
    have hi := h [] i l rfl fun j hj => absurd hj List.not_mem_nil
    rw [positionsPass, positionPasses_eq hi]
    by_cases hfits : f.Fits e i
    · have hl := ih fun pre i' post heq hpre => h (i :: pre) i' post (by rw [heq]; rfl)
        fun j hj => (List.mem_cons.mp hj).elim (fun hj => hj ▸ hfits) (hpre j)
      simp [hfits, hl, bind, Except.bind]
    · simp [hfits, bind, Except.bind, pure, Except.pure]

theorem positionsPass_error {pre post : List (Fin 4)} (hpre : ∀ j ∈ pre, f.Fits e j)
    (hlen : e.topics.length = i) (hlisted : f.m_topics.get i ≠ []) :
    f.positionsPass e (pre ++ i :: post) = .error .outOfBounds := by
  induction pre with
  | nil =>
    rw [List.nil_append, positionsPass, positionPasses_error hlen hlisted]
    rfl
  | cons j pre ih =>
    by_cases hover : e.topics.length = j ∧ f.m_topics.get j ≠ []
    · rw [List.cons_append, positionsPass, positionPasses_error hover.1 hover.2]
      rfl
    · rw [List.cons_append, positionsPass, positionPasses_eq hover,
        decide_eq_true (hpre j List.mem_cons_self)]
      exact ih fun j hj => hpre j (List.mem_cons_of_mem _ hj)

/-- The positions before one are those that were checked before it. -/
theorem mem_pre_iff {pre post : List (Fin 4)} (h : [0, 1, 2, 3] = pre ++ i :: post) (j : Fin 4) :
    j ∈ pre ↔ j < i := by
  have hsorted : ([0, 1, 2, 3] : List (Fin 4)).Pairwise (· < ·) := by decide
  have hall : ∀ j : Fin 4, j ∈ ([0, 1, 2, 3] : List (Fin 4)) := by decide
  rw [h, List.pairwise_append, List.pairwise_cons] at hsorted
  obtain ⟨-, ⟨hafter, -⟩, hbefore⟩ := hsorted
  refine ⟨fun hj => hbefore j hj i List.mem_cons_self, fun hlt => ?_⟩
  have hmem := hall j
  rw [h, List.mem_append, List.mem_cons] at hmem
  rcases hmem with hmem | rfl | hmem
  · exact hmem
  · exact absurd hlt (lt_irrefl j)
  · exact absurd hlt (lt_asymm (hafter j hmem))

/-- The checks of an entry that is not read past its end are what the filter asks. -/
theorem entryPasses_eq (h : ¬f.Overreads e) : f.entryPasses e = .ok (decide (f.Wants e)) := by
  unfold entryPasses
  by_cases haddress : f.AddressFits e
  · have hgo : (!f.m_addresses.isEmpty && !f.m_addresses.contains e.address) = false := by
      rcases haddress with ha | ha <;> simp [ha]
    rw [hgo, if_neg Bool.false_ne_true, positionsPass_eq]
    · have hall : (∀ i ∈ ([0, 1, 2, 3] : List (Fin 4)), f.Fits e i) ↔ ∀ i, f.Fits e i :=
        ⟨fun hi i => hi i (by revert i; decide), fun hi i _ => hi i⟩
      simp only [Wants, haddress, true_and, hall]
    · intro pre i post heq hpre hover
      refine h ⟨haddress, i, hover.1, hover.2, fun j hj => hpre j ?_⟩
      exact (mem_pre_iff heq j).mpr hj
  · have hstop : (!f.m_addresses.isEmpty && !f.m_addresses.contains e.address) = true := by
      unfold AddressFits at haddress
      rw [not_or] at haddress
      simp [haddress.1, haddress.2]
    rw [if_pos hstop]
    simp [Wants, haddress]

theorem entryPasses_error (h : f.Overreads e) : f.entryPasses e = .error .outOfBounds := by
  obtain ⟨haddress, i, hlen, hlisted, hbefore⟩ := h
  have hgo : (!f.m_addresses.isEmpty && !f.m_addresses.contains e.address) = false := by
    rcases haddress with ha | ha <;> simp [ha]
  obtain ⟨pre, post, heq⟩ := List.append_of_mem
    ((show ∀ i : Fin 4, i ∈ ([0, 1, 2, 3] : List (Fin 4)) by decide) i)
  rw [entryPasses, hgo, if_neg Bool.false_ne_true, heq]
  exact positionsPass_error (fun j hj => hbefore j ((mem_pre_iff heq j).mp hj)) hlen hlisted

/-- An entry passes when it is what the filter asks for. -/
theorem entryPasses_iff : f.entryPasses e = .ok true ↔ f.Wants e := by
  by_cases hover : f.Overreads e
  · rw [entryPasses_error hover]
    refine iff_of_false (fun h => by cases h) fun hwants => ?_
    obtain ⟨-, i, hlen, hlisted, -⟩ := hover
    obtain ⟨t, -, ht⟩ := hwants.2 i hlisted
    rw [List.getElem?_eq_none (by omega)] at ht
    cases ht
  · rw [entryPasses_eq hover]
    simp

theorem passing_eq (h : ∀ e ∈ log, ¬f.Overreads e) :
    f.passing log = .ok (log.filter fun e => f.Wants e) := by
  induction log with
  | nil => rfl
  | cons e log ih =>
    rw [passing, entryPasses_eq (h e List.mem_cons_self),
      ih fun e he => h e (List.mem_cons_of_mem _ he), List.filter_cons]
    rfl

theorem passing_error (he : e ∈ log) (h : f.Overreads e) : f.passing log = .error .outOfBounds := by
  induction log with
  | nil => cases he
  | cons e' log ih =>
    by_cases hover : f.Overreads e'
    · rw [passing, entryPasses_error hover]
      rfl
    · have hrest : e ∈ log := (List.mem_cons.mp he).resolve_left fun heq => hover (heq ▸ h)
      rw [passing, entryPasses_eq hover, ih hrest]
      rfl

end LogFilter

/-! ### The code of receipts and blooms -/

section Blooms
variable [Sha3]

def addressBloom (a : Address) : LogBloom := bloomPart (sha3 (addressBytes a))

def topicBloom (t : H256) : LogBloom := bloomPart (sha3 t.bytes)

def LogEntry.bloom (e : LogEntry) : LogBloom :=
  e.topics.foldl (fun ret t => ret ||| topicBloom t) (0 ||| addressBloom e.address)

/-- `bloom(LogEntries)`. -/
def logsBloom (log : List LogEntry) : LogBloom := log.foldl (fun ret e => ret ||| e.bloom) 0

/-- The parts of a receipt that a filter looks at. -/
structure TransactionReceipt where
  m_bloom : LogBloom
  m_log : List LogEntry
deriving DecidableEq

def TransactionReceipt.ofLog (log : List LogEntry) : TransactionReceipt := ⟨logsBloom log, log⟩

namespace LogFilter
variable (f : LogFilter)

/-- `matches(LogBloom)`. -/
def matchesBloom (bloom : LogBloom) : Bool :=
  (f.m_addresses.isEmpty || f.m_addresses.any fun i => bloom.contains (addressBloom i)) &&
    f.m_topics.toList.all fun t => t.isEmpty || t.any fun i => bloom.contains (topicBloom i)

/-- The blooms of the topics of each position that lists any. -/
def topicUnions (b : LogBloom) : List LogBloom :=
  (f.m_topics.toList.filter fun t => !t.isEmpty).map fun t =>
    t.foldl (fun b j => b ||| topicBloom j) b

def bloomPossibilities : List LogBloom :=
  let ret := f.m_addresses.flatMap fun i => f.topicUnions (0 ||| addressBloom i)
  let ret := if ret.isEmpty then f.m_addresses.map fun i => 0 ||| addressBloom i else ret
  if f.m_addresses.isEmpty then ret ++ f.topicUnions 0 else ret

/-- `matches(TransactionReceipt)`. -/
def matchesReceipt (m : TransactionReceipt) : Except MemoryFault (List LogEntry) :=
  if f.isRangeFilter then .ok m.m_log
  else if f.matchesBloom m.m_bloom then f.passing m.m_log
  else .ok []

variable {f} {e : LogEntry} {log : List LogEntry} {b : LogBloom}

/-! ### Blooms -/

theorem contains_address (e : LogEntry) : e.bloom.contains (addressBloom e.address) = true :=
  (LogBloom.contains_or.mp (LogBloom.contains_foldl.mp (LogBloom.contains_refl e.bloom)).1).2

theorem contains_topic {t : H256} (ht : t ∈ e.topics) : e.bloom.contains (topicBloom t) = true :=
  LogBloom.foldl_contains ht

theorem contains_entry (he : e ∈ log) : (logsBloom log).contains e.bloom = true :=
  LogBloom.foldl_contains he

/-- A bloom that has that of a wanted entry passes the filter. -/
theorem matchesBloom_of_wants (h : f.Wants e) (hb : b.contains e.bloom = true) :
    f.matchesBloom b = true := by
  obtain ⟨haddress, htopics⟩ := h
  simp only [matchesBloom, Bool.and_eq_true, Bool.or_eq_true, List.isEmpty_iff, List.any_eq_true,
    List.all_eq_true]
  refine ⟨haddress.imp_right fun ha => ⟨e.address, ha, ?_⟩, fun l hl => ?_⟩
  · exact LogBloom.contains_trans hb (contains_address e)
  · obtain ⟨i, hi, rfl⟩ := List.mem_iff_getElem.mp hl
    rw [Vector.length_toList] at hi
    rw [Vector.getElem_toList]
    refine or_iff_not_imp_left.mpr fun hne => ?_
    obtain ⟨t, ht, hget⟩ := htopics ⟨i, hi⟩ hne
    exact ⟨t, ht, LogBloom.contains_trans hb (contains_topic (List.mem_of_getElem? hget))⟩

/-- **`matches` gives exactly the entries that the filter asks for when and only when it reads none
of them past its end.** -/
theorem matches_exact_iff (f : LogFilter) (log : List LogEntry) :
    f.matchesReceipt (.ofLog log) = .ok (log.filter fun e => f.Wants e) ↔
      (f.matchesBloom (logsBloom log) = true → ∀ e ∈ log, ¬f.Overreads e) := by
  unfold matchesReceipt
  by_cases hrange : f.isRangeFilter = true
  · have hparts := hrange
    simp only [isRangeFilter, Bool.and_eq_true, List.isEmpty_iff, List.all_eq_true] at hparts
    have hnone : ∀ i, f.m_topics.get i = [] := fun i => hparts.2 _ (by simp [Vector.get_eq_getElem])
    have hall : log.filter (fun e => f.Wants e) = log := by
      refine List.filter_eq_self.mpr fun e _ => decide_eq_true ⟨.inl hparts.1, fun i hi => ?_⟩
      exact absurd (hnone i) hi
    rw [if_pos hrange, hall]
    refine iff_of_true rfl fun _ e _ hover => ?_
    obtain ⟨-, i, -, hlisted, -⟩ := hover
    exact hlisted (hnone i)
  · rw [if_neg hrange]
    by_cases hb : f.matchesBloom (logsBloom log) = true
    · rw [if_pos (show f.matchesBloom (TransactionReceipt.ofLog log).m_bloom = true from hb)]
      show f.passing log = _ ↔ _
      constructor
      · intro heq _ e he hover
        rw [passing_error he hover] at heq
        cases heq
      · exact fun h => passing_eq (h hb)
    · have hnone : log.filter (fun e => f.Wants e) = [] := by
        refine List.filter_eq_nil_iff.mpr fun e he hwants => hb ?_
        exact matchesBloom_of_wants (of_decide_eq_true hwants) (contains_entry he)
      rw [if_neg (show ¬f.matchesBloom (TransactionReceipt.ofLog log).m_bloom = true from hb), hnone]
      exact iff_of_true rfl fun h => absurd h hb

/-! ### Blocks -/

theorem mem_topicUnions {b b' : LogBloom} : b' ∈ f.topicUnions b ↔ ∃ i, f.m_topics.get i ≠ [] ∧
    (f.m_topics.get i).foldl (fun b j => b ||| topicBloom j) b = b' := by
  simp only [topicUnions, List.mem_map, List.mem_filter, Bool.not_eq_true', List.isEmpty_eq_false_iff]
  constructor
  · rintro ⟨l, ⟨hl, hne⟩, rfl⟩
    obtain ⟨i, hi, rfl⟩ := List.mem_iff_getElem.mp hl
    rw [Vector.length_toList] at hi
    rw [Vector.getElem_toList] at hne ⊢
    exact ⟨⟨i, hi⟩, hne, rfl⟩
  · rintro ⟨i, hne, rfl⟩
    exact ⟨_, ⟨by simp [Vector.get_eq_getElem], hne⟩, rfl⟩

theorem exists_topicUnion_iff {b b' : LogBloom} :
    (∃ union ∈ f.topicUnions b', b.contains union = true) ↔ b.contains b' = true ∧
      ∃ i, f.m_topics.get i ≠ [] ∧ ∀ t ∈ f.m_topics.get i, b.contains (topicBloom t) = true := by
  constructor
  · rintro ⟨union, hmem, hb⟩
    obtain ⟨i, hi, rfl⟩ := mem_topicUnions.mp hmem
    obtain ⟨hb', htopics⟩ := LogBloom.contains_foldl.mp hb
    exact ⟨hb', i, hi, htopics⟩
  · rintro ⟨hb', i, hi, htopics⟩
    exact ⟨_, mem_topicUnions.mpr ⟨i, hi, rfl⟩, LogBloom.contains_foldl.mpr ⟨hb', htopics⟩⟩

theorem contains_first {a : Address} :
    b.contains (0 ||| addressBloom a) = true ↔ b.contains (addressBloom a) = true := by
  rw [LogBloom.contains_or]
  exact and_iff_right (LogBloom.contains_zero b)

/-- A bloom has one of the possibilities when it has an address of the filter, if there are any,
and all topics of one position, if there are any. -/
theorem exists_possibility_iff (hf : f.isRangeFilter = false) :
    (∃ b' ∈ f.bloomPossibilities, b.contains b' = true) ↔
      (f.m_addresses = [] ∨ ∃ a ∈ f.m_addresses, b.contains (addressBloom a) = true) ∧
        ((∀ i, f.m_topics.get i = []) ∨ ∃ i, f.m_topics.get i ≠ [] ∧
          ∀ t ∈ f.m_topics.get i, b.contains (topicBloom t) = true) := by
  by_cases hlisted : ∀ i, f.m_topics.get i = []
  · have hnone : ∀ b', f.topicUnions b' = [] := fun b' =>
      List.eq_nil_iff_forall_not_mem.mpr fun x hx => by
        obtain ⟨i, hi, -⟩ := mem_topicUnions.mp hx
        exact hi (hlisted i)
    have haddresses : f.m_addresses ≠ [] := by
      intro h
      rw [isRangeFilter, h] at hf
      have hall : f.m_topics.toList.all List.isEmpty = true := by
        refine List.all_eq_true.mpr fun l hl => ?_
        obtain ⟨i, hi, rfl⟩ := List.mem_iff_getElem.mp hl
        rw [Vector.length_toList] at hi
        rw [Vector.getElem_toList]
        exact List.isEmpty_iff.mpr (hlisted ⟨i, hi⟩)
      rw [hall] at hf
      cases hf
    have hposs : f.bloomPossibilities = f.m_addresses.map fun i => 0 ||| addressBloom i := by
      simp [bloomPossibilities, hnone, haddresses]
    rw [hposs]
    simp only [List.mem_map, exists_exists_and_eq_and, contains_first, haddresses, false_or, hlisted,
      implies_true, true_or, and_true]
  · obtain ⟨i, hi⟩ := not_forall.mp hlisted
    simp only [hlisted, false_or]
    by_cases haddresses : f.m_addresses = []
    · have hposs : f.bloomPossibilities = f.topicUnions 0 := by
        simp [bloomPossibilities, haddresses]
      rw [hposs, exists_topicUnion_iff]
      simp only [LogBloom.contains_zero, haddresses, true_or, true_and]
    · have hsome : f.m_addresses.flatMap (fun i => f.topicUnions (0 ||| addressBloom i)) ≠ [] := by
        obtain ⟨a, ha⟩ := List.exists_mem_of_ne_nil _ haddresses
        exact List.ne_nil_of_mem
          (List.mem_flatMap.mpr ⟨a, ha, mem_topicUnions.mpr ⟨i, hi, rfl⟩⟩)
      have hposs : f.bloomPossibilities =
          f.m_addresses.flatMap fun i => f.topicUnions (0 ||| addressBloom i) := by
        simp only [bloomPossibilities, List.isEmpty_iff, hsome, haddresses, if_false]
      rw [hposs]
      simp only [haddresses, false_or]
      constructor
      · rintro ⟨b', hb', hcontains⟩
        obtain ⟨a, ha, hmem⟩ := List.mem_flatMap.mp hb'
        obtain ⟨hfirst, htopics⟩ := exists_topicUnion_iff.mp ⟨b', hmem, hcontains⟩
        exact ⟨⟨a, ha, contains_first.mp hfirst⟩, htopics⟩
      · rintro ⟨⟨a, ha, hfirst⟩, htopics⟩
        obtain ⟨b', hmem, hcontains⟩ :=
          exists_topicUnion_iff.mpr ⟨contains_first.mpr hfirst, htopics⟩
        exact ⟨b', List.mem_flatMap.mpr ⟨a, ha, hmem⟩, hcontains⟩

/-- The log bloom of a block with the logs of its receipts. -/
def blockBloom (receipts : List (List LogEntry)) : LogBloom :=
  receipts.foldl (fun ret log => ret ||| logsBloom log) 0

/-- A receipt of the block has an entry that `matches` takes. -/
def Selects (f : LogFilter) (receipts : List (List LogEntry)) : Prop :=
  ∃ log ∈ receipts, f.matchesBloom (logsBloom log) = true ∧ ∃ e ∈ log, f.entryPasses e = .ok true

/-- The block is among those that are visited. -/
def Visited (f : LogFilter) (receipts : List (List LogEntry)) : Prop :=
  ∃ b ∈ f.bloomPossibilities, (blockBloom receipts).contains b = true

/-- No topics are listed, or each entry that the filter asks for has, in its bloom, all topics of
one position that lists any. -/
def Covers (f : LogFilter) : Prop :=
  (∀ i, f.m_topics.get i = []) ∨ ∀ e, f.Wants e → ∃ i, f.m_topics.get i ≠ [] ∧
    ∀ t ∈ f.m_topics.get i, e.bloom.contains (topicBloom t) = true

/-- A position with one topic is enough. -/
theorem covers_of_single {i : Fin 4} {t : H256} (h : f.m_topics.get i = [t]) : f.Covers := by
  refine .inr fun e hwants => ⟨i, by simp [h], fun t' ht' => ?_⟩
  obtain ⟨t'', ht'', hget⟩ := hwants.2 i (by simp [h])
  rw [h, List.mem_singleton] at ht' ht''
  rw [ht', ← ht'']
  exact contains_topic (List.mem_of_getElem? hget)

/-- **No block with a wanted entry is passed by when and only when the topics of some position
always come together.** -/
theorem visited_iff (f : LogFilter) (hf : f.isRangeFilter = false) :
    (∀ receipts, f.Selects receipts → f.Visited receipts) ↔ f.Covers := by
  constructor
  · intro hall
    refine or_iff_not_imp_left.mpr fun hlisted e hwants => ?_
    have hself : (logsBloom [e]).contains e.bloom = true := contains_entry List.mem_cons_self
    have hblock : blockBloom [[e]] = e.bloom := by simp [blockBloom, logsBloom]
    have hvisited := hall [[e]] ⟨[e], List.mem_cons_self, matchesBloom_of_wants hwants hself, e,
      List.mem_cons_self, entryPasses_iff.mpr hwants⟩
    rw [Visited, exists_possibility_iff hf, hblock] at hvisited
    exact hvisited.2.resolve_left hlisted
  · rintro hcovers receipts ⟨log, hlog, -, e, he, hpass⟩
    have hwants := entryPasses_iff.mp hpass
    have hblock : (blockBloom receipts).contains e.bloom = true :=
      LogBloom.contains_trans (LogBloom.foldl_contains hlog) (contains_entry he)
    refine (exists_possibility_iff hf).mpr ⟨hwants.1.imp_right fun ha => ⟨e.address, ha, ?_⟩, ?_⟩
    · exact LogBloom.contains_trans hblock (contains_address e)
    · refine hcovers.imp_right fun hc => ?_
      obtain ⟨i, hi, htopics⟩ := hc e hwants
      exact ⟨i, hi, fun t ht => LogBloom.contains_trans hblock (htopics t ht)⟩

end LogFilter
end Blooms

/-! ### Filters with real hashes -/

namespace LogFilter

def logSamples : List (ℕ × ℕ × ℕ) :=
  [(20, 1, 0x1468288056310c82aa4c01a7e12a10f8111a0560e72b700555479031b86c357d),
   (32, 1, 0xb10e2d527612073b26eecdfd717e6a320cf44b4afac2b0732d9fcbe2b7fa0cf6),
   (32, 2, 0x405787fa12a823e0f2b7631cc41b3ba8828b3321ca811111fa75cd3aa3bb5ace)]

/-- Keccak-256 on the sample strings. -/
@[reducible] def logSha3 : Sha3 where
  sha3 b := H256.alignRight (toBigEndian 32
    (((logSamples.find? fun e => toBigEndian e.1 e.2.1 = b).map fun e => e.2.2).getD 0))

attribute [local instance] logSha3

def topicOne : H256 := H256.alignRight [1]

def topicTwo : H256 := H256.alignRight [2]

/-- An entry with one topic. -/
def oneTopic : LogEntry := ⟨1, [topicOne], []⟩

/-- The same topic in the first and the second place. -/
def twicePlaced : LogFilter := {m_topics := #v[[topicOne], [topicOne], [], []]}

/-- The second topic of an entry with one topic is read. -/
theorem oneTopic_overread :
    twicePlaced.matchesReceipt (.ofLog [oneTopic]) = .error .outOfBounds ∧
      twicePlaced.matchesReceipt (.ofLog [oneTopic]) ≠
        .ok ([oneTopic].filter fun e => twicePlaced.Wants e) := by
  have hread : twicePlaced.matchesReceipt (.ofLog [oneTopic]) = .error .outOfBounds := by
    decide +kernel
  rw [hread]
  exact ⟨rfl, fun h => by cases h⟩

/-- One of two topics in the first place. -/
def eitherTopic : LogFilter := {m_topics := #v[[topicOne, topicTwo], [], [], []]}

theorem visited_sample : (∀ receipts, twicePlaced.Selects receipts → twicePlaced.Visited receipts) ↔
    twicePlaced.Covers := visited_iff twicePlaced (by decide)

/-- The block has an entry with the first topic, and is not visited for want of the second. -/
theorem eitherTopic_missed : eitherTopic.isRangeFilter = false ∧
    eitherTopic.matchesReceipt (.ofLog [oneTopic]) = .ok [oneTopic] ∧
    eitherTopic.Selects [[oneTopic]] ∧ ¬eitherTopic.Visited [[oneTopic]] := by
  have hselects : eitherTopic.matchesBloom (logsBloom [oneTopic]) = true := by decide +kernel
  have hpass : eitherTopic.entryPasses oneTopic = .ok true := by decide +kernel
  have hmissed : (blockBloom [[oneTopic]]).contains (topicBloom topicTwo) = false := by
    decide +kernel
  refine ⟨by decide, by decide +kernel, ⟨[oneTopic], List.mem_cons_self, hselects, oneTopic,
    List.mem_cons_self, hpass⟩, fun hvisited => ?_⟩
  rw [Visited, exists_possibility_iff (by decide)] at hvisited
  obtain hnone | ⟨i, hi, htopics⟩ := hvisited.2
  · exact absurd (hnone 0) (by decide)
  · have hfirst : ∀ i : Fin 4, eitherTopic.m_topics.get i ≠ [] → i = 0 := by decide
    obtain rfl := hfirst i hi
    have htwo := htopics topicTwo (by decide)
    rw [hmissed] at htwo
    cases htwo

end LogFilter
end Aleth.Ethereum
