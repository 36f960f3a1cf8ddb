import Aleth.Devcore.TrieNodes
import Aleth.Structure.SortedMap

/-! The root computed from the contents alone (`TrieHash.cpp`).

`hash256rlp` groups the sorted keys recursively and writes the nodes from the
leaves up; it shares nothing with the trie in the database. `hash256_eq` says
that it writes the canonical tree: where a canonical tree holds exactly the
entries of a map, the hash of its root node is `hash256` of the map. -/
namespace Aleth.Devcore
open Patricia
open Patricia.Tree
open RLP (data list)

abbrev BytesMap := SortedMap Bytes Bytes

/-- A range of a `HexMap`: nibble keys, in order. -/
abbrev HexRange := List (List Nibble × Bytes)

/-- The loop over the successors of the first key. `sharedPre` starts as the largest number; the
first key's size, which the first round takes the minimum with, stands for it. -/
def sharedPreLoop (first : List Nibble) (preLen : ℕ) : (sharedPre : ℕ) → HexRange → ℕ
  | sharedPre, [] => sharedPre
  | sharedPre, i :: l =>
    if sharedPre = 0 then sharedPre
    else
      let x := min sharedPre (min first.length i.1.length)
      let sh := preLen + shared ((first.take x).drop preLen) ((i.1.take x).drop preLen)
      sharedPreLoop first preLen (min sh sharedPre) l

/-- The sixteen children of a branch, from the entries that go on. -/
def hash256slots (hash256aux : HexRange → Bytes) (preLen : ℕ) : List Nibble → HexRange → Bytes
  | [], _ => []
  | i :: is, b =>
    let n := b.takeWhile fun e => e.1[preLen]? = some i
    (if n.isEmpty then appendData [] else hash256aux n) ++
      hash256slots hash256aux preLen is (b.dropWhile fun e => e.1[preLen]? = some i)

section Model
variable (sha3 : Bytes → H256)

def hash256aux (hash256rlp : HexRange → ℕ → Bytes) (s : HexRange) (preLen : ℕ) : Bytes :=
  let out := hash256rlp s preLen
  if out.length < 32 then out else appendData (sha3 out).bytes

/-- The recursion goes one nibble deeper at least; `fuel` is more than what is left of any key. -/
def hash256rlp : (fuel : ℕ) → HexRange → (preLen : ℕ) → Bytes
  | 0, _, _ => []
  | _ + 1, [], _ => appendData []
  | _ + 1, [e], preLen =>
    appendList (appendData (hexPrefixEncode (e.1.drop preLen) true) ++ appendData e.2)
  | fuel + 1, e :: l, preLen =>
    let sharedPre := sharedPreLoop e.1 preLen e.1.length l
    if preLen < sharedPre then
      -- if they all have the same next nibble, we also want a pair.
      appendList (appendData (hexPrefixEncode ((e.1.take sharedPre).drop preLen) false) ++
        hash256aux sha3 (hash256rlp fuel) (e :: l) sharedPre)
    else
      -- otherwise enumerate all 16+1 entries.
      let b := if preLen = e.1.length then l else e :: l
      appendList (hash256slots (fun n => hash256aux sha3 (hash256rlp fuel) n (preLen + 1)) preLen
          (List.finRange 16) b ++
        appendData (if preLen = e.1.length then e.2 else []))

/-- The same entries under nibble keys. -/
def hexMap (s : BytesMap) : SortedMap (List Nibble) Bytes :=
  s.entries.reverse.foldl (fun m i => m.insert (asNibbles i.1) i.2) SortedMap.empty

def longestKey (s : HexRange) : ℕ := (s.map fun e => e.1.length).foldr max 0

def rlp256 (s : BytesMap) : Bytes :=
  if s.entries.isEmpty then appendData []
  else hash256rlp sha3 (longestKey (hexMap s).entries + 1) (hexMap s).entries 0

def hash256 (s : BytesMap) : H256 := sha3 (rlp256 sha3 s)

end Model

/-! ### The common prefix -/

theorem sharedPreLoop_le (first : List Nibble) (preLen s : ℕ) (l : HexRange) :
    sharedPreLoop first preLen s l ≤ s := by
  induction l generalizing s with
  | nil => exact le_refl s
  | cons i l ih =>
    rw [sharedPreLoop]
    split
    · exact le_refl s
    · exact (ih _).trans (min_le_right _ _)

/-- What all keys start with is counted. -/
theorem le_sharedPreLoop {q first : List Nibble} {preLen s : ℕ} {l : HexRange}
    (hpre : preLen ≤ q.length) (hs : q.length ≤ s) (hfirst : q <+: first)
    (hl : ∀ e ∈ l, q <+: e.1) : q.length ≤ sharedPreLoop first preLen s l := by
  induction l generalizing s with
  | nil => exact hs
  | cons i l ih =>
    rw [sharedPreLoop]
    split
    case isTrue => exact hs
    case isFalse =>
      refine ih (le_min ?_ hs) fun e he => hl e (List.mem_cons_of_mem _ he)
      have hi := hl i List.mem_cons_self
      have hx : q.length ≤ min s (min first.length i.1.length) :=
        le_min hs (le_min hfirst.length_le hi.length_le)
      have hshared := shared_mono
        ((List.prefix_take_iff.mpr ⟨hfirst, hx⟩).drop preLen)
        ((List.prefix_take_iff.mpr ⟨hi, hx⟩).drop preLen)
      have hself : shared (q.drop preLen) (q.drop preLen) = q.length - preLen := by
        have := shared_self_append (q.drop preLen) []
        rwa [List.append_nil, List.length_drop] at this
      omega

/-- Nothing more is counted once a key differs. -/
theorem sharedPreLoop_le_of_head_ne {q r first : List Nibble} {preLen s : ℕ} {l : HexRange}
    (hpre : preLen ≤ q.length) (hfirst : first = q ++ r)
    (hl : ∃ i ∈ l, ∃ r', i.1 = q ++ r' ∧ r.head? ≠ r'.head?) :
    sharedPreLoop first preLen s l ≤ q.length := by
  induction l generalizing s with
  | nil =>
    obtain ⟨i, hi, _⟩ := hl
    cases hi
  | cons j l ih =>
    rw [sharedPreLoop]
    split
    case isTrue h => omega
    case isFalse =>
      obtain ⟨i, hi, r', hir, hne⟩ := hl
      rcases List.mem_cons.mp hi with rfl | hi
      · refine (sharedPreLoop_le _ _ _ _).trans ((min_le_left _ _).trans ?_)
        have hshared := shared_mono
          ((List.take_prefix (min s (min first.length i.1.length)) first).drop preLen)
          ((List.take_prefix (min s (min first.length i.1.length)) i.1).drop preLen)
        have hdrop : shared (first.drop preLen) (i.1.drop preLen) = q.length - preLen := by
          rw [hfirst, hir, List.drop_append_of_le_length hpre, List.drop_append_of_le_length hpre,
            shared_append, shared_eq_zero_of_head hne, List.length_drop, Nat.add_zero]
        omega
      · exact ih ⟨i, hi, r', hir, hne⟩

/-! ### Ranges and trees -/

/-- The range holds what the tree holds below `pre`, in order. -/
structure Lists (pre : List Nibble) (l : HexRange) (t : NodeTree) : Prop where
  sorted : l.Pairwise (fun a b => a.1 < b.1)
  mem : ∀ e, e ∈ l ↔ ∃ r v, t.lookup r = some v ∧ e = (pre ++ r, v.1)

theorem Lists.starts {pre : List Nibble} {l : HexRange} {t : NodeTree} (h : Lists pre l t)
    {e : List Nibble × Bytes} (he : e ∈ l) : pre <+: e.1 := by
  obtain ⟨r, v, _, rfl⟩ := (h.mem e).mp he
  exact List.prefix_append _ _

theorem Lists.eq_nil {pre : List Nibble} {l : HexRange} (h : Lists pre l .empty) : l = [] := by
  refine List.eq_nil_iff_forall_not_mem.mpr fun e he => ?_
  obtain ⟨r, v, hr, _⟩ := (h.mem e).mp he
  cases hr

theorem Lists.eq_leaf {pre p : List Nibble} {l : HexRange} {v : Value}
    (h : Lists pre l (.leaf p v)) : l = [(pre ++ p, v.1)] := by
  refine SortedMap.entries_ext h.sorted (by simp) fun e => ?_
  rw [h.mem e, List.mem_singleton]
  constructor
  · rintro ⟨r, w, hr, rfl⟩
    by_cases hrp : r = p
    · subst hrp
      simp only [Tree.lookup_leaf, if_true, Option.some.injEq] at hr
      rw [hr]
    · simp [hrp] at hr
  · rintro rfl
    exact ⟨p, v, by simp, rfl⟩

theorem Lists.ext {pre p : List Nibble} {l : HexRange} {t : NodeTree}
    (h : Lists pre l (.ext p t)) : Lists (pre ++ p) l t := by
  refine ⟨h.sorted, fun e => ?_⟩
  rw [h.mem e]
  constructor
  · rintro ⟨r, v, hr, rfl⟩
    obtain ⟨r', rfl, hr'⟩ := Tree.prefix_of_lookup_ext hr
    exact ⟨r', v, hr', by rw [List.append_assoc]⟩
  · rintro ⟨r, v, hr, rfl⟩
    exact ⟨p ++ r, v, by rwa [Tree.lookup_ext_append], by rw [List.append_assoc]⟩

/-- Keys that diverge after `q`: there are two at least, and `q` is all that they share. -/
theorem Lists.diverges {pre q : List Nibble} {l : HexRange} {t : NodeTree} (h : Lists pre l t)
    (hd : Diverges t.lookup q) : ∃ e i l', l = e :: i :: l' ∧
      sharedPreLoop e.1 pre.length e.1.length (i :: l') = (pre ++ q).length := by
  obtain ⟨hall, k₁, k₂, v₁, v₂, h₁, h₂, hne⟩ := hd
  have hin : ∀ {k : List Nibble} {v : Value}, t.lookup (q ++ k) = some v →
      ((pre ++ q) ++ k, v.1) ∈ l := fun {k v} hk =>
    (h.mem _).mpr ⟨q ++ k, v, hk, by rw [List.append_assoc]⟩
  have hpre : ∀ e ∈ l, pre ++ q <+: e.1 := by
    intro e he
    obtain ⟨r, v, hr, rfl⟩ := (h.mem e).mp he
    exact (List.prefix_append_right_inj pre).mpr (hall r v hr)
  have hle : pre.length ≤ (pre ++ q).length := by simp
  cases l with
  | nil => cases hin h₁
  | cons e l' =>
    obtain ⟨r, hr⟩ := hpre e List.mem_cons_self
    -- one of the two keys leaves the first key right after `q`
    have hother : ∃ i ∈ l', ∃ r', i.1 = (pre ++ q) ++ r' ∧ r.head? ≠ r'.head? := by
      have hcase : ∀ {k : List Nibble} {v : Value}, t.lookup (q ++ k) = some v →
          r.head? ≠ k.head? → ∃ i ∈ l', ∃ r', i.1 = (pre ++ q) ++ r' ∧ r.head? ≠ r'.head? := by
        intro k v hk hrk
        rcases List.mem_cons.mp (hin hk) with heq | hmem
        · have : r = k := List.append_cancel_left (hr.trans (congrArg Prod.fst heq).symm)
          exact (hrk (by rw [this])).elim
        · exact ⟨_, hmem, k, rfl, hrk⟩
      by_cases hrk : r.head? = k₁.head?
      · exact hcase h₂ (hrk ▸ hne)
      · exact hcase h₁ hrk
    cases l' with
    | nil =>
      obtain ⟨i, hi, _⟩ := hother
      cases hi
    | cons i l'' =>
      refine ⟨e, i, l'', rfl, le_antisymm (sharedPreLoop_le_of_head_ne hle hr.symm hother) ?_⟩
      refine le_sharedPreLoop hle ?_ ⟨r, hr⟩ fun e he => hpre e (List.mem_cons_of_mem _ he)
      rw [← hr]
      simp

/-! ### Branches -/

theorem not_append_lt (pre r : List Nibble) : ¬ pre ++ r < pre := by
  induction pre with
  | nil => exact List.not_lt_nil r
  | cons a pre ih =>
    rw [List.cons_append, List.cons_lt_cons_iff]
    rintro (h | ⟨_, h⟩)
    · exact lt_irrefl a h
    · exact ih h

theorem le_of_append_cons_lt {pre r r' : List Nibble} {a a' : Nibble}
    (h : pre ++ a :: r < pre ++ a' :: r') : a ≤ a' := by
  induction pre with
  | nil =>
    rcases List.cons_lt_cons_iff.mp h with h | ⟨h, _⟩
    · exact h.le
    · exact h.le
  | cons b pre ih =>
    rcases List.cons_lt_cons_iff.mp h with h | ⟨_, h⟩
    · exact (lt_irrefl b h).elim
    · exact ih h

theorem getElem_append_cons (pre r : List Nibble) (a : Nibble) :
    (pre ++ a :: r)[pre.length]? = some a := by
  simp

/-- The loop over the nibbles meets each group of entries in turn. -/
theorem hash256slots_eq {f : HexRange → Bytes} {pre : List Nibble} {is : List Nibble}
    {b : HexRange} {g : Nibble → RLP} (his : is.Pairwise (· < ·))
    (hb : b.Pairwise (fun x y => x.1 < y.1))
    (hin : ∀ e ∈ b, ∃ a ∈ is, ∃ r, e.1 = pre ++ a :: r)
    (haux : ∀ i ∈ is, let n := b.filter fun e => e.1[pre.length]? = some i
      (if n.isEmpty then appendData [] else f n) = (g i).encode) :
    hash256slots f pre.length is b = RLP.encodeItems (is.map g) := by
  induction is generalizing b with
  | nil => rfl
  | cons i is ih =>
    obtain ⟨hi, his'⟩ := List.pairwise_cons.mp his
    have hgroup : b.Pairwise (fun x y => decide (y.1[pre.length]? = some i) = true →
        decide (x.1[pre.length]? = some i) = true) := by
      refine (List.Pairwise.and_mem.mp hb).imp ?_
      rintro x y ⟨hx, hy, hlt⟩ hyi
      obtain ⟨a, ha, r, hxr⟩ := hin x hx
      obtain ⟨a', _, r', hyr⟩ := hin y hy
      rw [hyr, getElem_append_cons, decide_eq_true_eq] at hyi
      rw [hxr, getElem_append_cons, decide_eq_true_eq]
      rw [hxr, hyr] at hlt
      have hle := le_of_append_cons_lt hlt
      rcases List.mem_cons.mp ha with rfl | ha
      · rfl
      · have := hi a ha
        rw [Option.some.inj hyi] at hle
        exact (not_lt.mpr hle this).elim
    rw [hash256slots, SortedMap.takeWhile_eq_filter hgroup, SortedMap.dropWhile_eq_filter hgroup, List.map_cons,
      RLP.encodeItems]
    congr 1
    · exact haux i List.mem_cons_self
    · refine ih his' (hb.filter _) ?_ ?_
      · intro e he
        obtain ⟨hmem, hne⟩ := List.mem_filter.mp he
        obtain ⟨a, ha, r, her⟩ := hin e hmem
        rw [her, getElem_append_cons] at hne
        rcases List.mem_cons.mp ha with rfl | ha
        · simp at hne
        · exact ⟨a, ha, r, her⟩
      · intro i' hi'
        have hfilter : (b.filter fun e => !decide (e.1[pre.length]? = some i)).filter
            (fun e => decide (e.1[pre.length]? = some i')) =
            b.filter fun e => decide (e.1[pre.length]? = some i') := by
          rw [List.filter_filter]
          refine List.filter_congr fun e _ => ?_
          have := (hi i' hi').ne'
          by_cases h : e.1[pre.length]? = some i'
          · simp [h, this]
          · simp [h]
        simp only [hfilter]
        exact haux i' (List.mem_cons_of_mem _ hi')

/-- The first entry of a branch's range is its value, if it has one; the others go on. -/
theorem Lists.value {pre : List Nibble} {e : List Nibble × Bytes} {l : HexRange}
    {c : Nibble → NodeTree} {v : Option Value} (h : Lists pre (e :: l) (.branch c v)) :
    (if pre.length = e.1.length then e.2 else []) = valueBytes v ∧
      ∀ x, x ∈ (if pre.length = e.1.length then l else e :: l) ↔ x ∈ e :: l ∧ x.1 ≠ pre := by
  obtain ⟨hlt, hsorted⟩ := List.pairwise_cons.mp h.sorted
  obtain ⟨r, w, hr, he⟩ := (h.mem e).mp List.mem_cons_self
  split
  case isTrue heq =>
    have hnil : r = [] := by
      rw [he, List.length_append] at heq
      exact List.length_eq_zero_iff.mp (by omega)
    subst hnil
    rw [List.append_nil] at he
    have hv : v = some w := hr
    refine ⟨by rw [he, hv]; rfl, fun x => ⟨fun hx => ⟨List.mem_cons_of_mem _ hx, ?_⟩, ?_⟩⟩
    · have := hlt x hx
      rw [he] at this
      exact ne_of_gt this
    · rintro ⟨hx, hne⟩
      rcases List.mem_cons.mp hx with rfl | hx
      · rw [he] at hne
        exact (hne rfl).elim
      · exact hx
  case isFalse hne =>
    have hall : ∀ x ∈ e :: l, x.1 ≠ pre := by
      intro x hx hxp
      rcases List.mem_cons.mp hx with rfl | hx
      · rw [hxp] at hne
        exact hne rfl
      · have := hlt x hx
        rw [hxp, he] at this
        exact not_append_lt pre r this
    refine ⟨?_, fun x => ⟨fun hx => ⟨hx, hall x hx⟩, fun hx => hx.1⟩⟩
    cases v with
    | none => rfl
    | some u =>
      refine (hall (pre, u.1) ((h.mem _).mpr ⟨[], u, rfl, by rw [List.append_nil]⟩) rfl).elim

theorem Lists.child {pre : List Nibble} {l b : HexRange} {c : Nibble → NodeTree} {v : Option Value}
    (h : Lists pre l (.branch c v)) (hsorted : b.Pairwise (fun x y => x.1 < y.1))
    (hb : ∀ x, x ∈ b ↔ x ∈ l ∧ x.1 ≠ pre) (a : Nibble) :
    Lists (pre ++ [a]) (b.filter fun e => e.1[pre.length]? = some a) (c a) := by
  refine ⟨hsorted.filter _, fun e => ?_⟩
  rw [List.mem_filter, hb, h.mem e]
  constructor
  · rintro ⟨⟨⟨r, w, hr, rfl⟩, _⟩, ha⟩
    cases r with
    | nil => simp at ha
    | cons a' r =>
      rw [getElem_append_cons, decide_eq_true_eq, Option.some.injEq] at ha
      subst ha
      exact ⟨r, w, hr, by simp⟩
  · rintro ⟨r, w, hr, rfl⟩
    exact ⟨⟨⟨a :: r, w, hr, by simp⟩, by simp⟩, by simp⟩

/-! ### The computed root -/

variable {sha3 : Bytes → H256}

variable (sha3) in
theorem hash256aux_eq {f : HexRange → ℕ → Bytes} {l : HexRange} {preLen : ℕ} {r : RLP}
    (h : f l preLen = r.encode) : hash256aux sha3 f l preLen = (reference sha3 r).encode := by
  unfold hash256aux reference
  rw [h]
  dsimp only
  split
  · rfl
  · rfl

theorem hash256rlp_many (fuel : ℕ) (e i : List Nibble × Bytes) (l : HexRange) (preLen : ℕ) :
    hash256rlp sha3 (fuel + 1) (e :: i :: l) preLen =
      let sharedPre := sharedPreLoop e.1 preLen e.1.length (i :: l)
      if preLen < sharedPre then
        appendList (appendData (hexPrefixEncode ((e.1.take sharedPre).drop preLen) false) ++
          hash256aux sha3 (hash256rlp sha3 fuel) (e :: i :: l) sharedPre)
      else
        let b := if preLen = e.1.length then i :: l else e :: i :: l
        appendList (hash256slots (fun n => hash256aux sha3 (hash256rlp sha3 fuel) n (preLen + 1))
            preLen (List.finRange 16) b ++
          appendData (if preLen = e.1.length then e.2 else [])) := rfl

/-- `hash256rlp` writes the canonical tree of its range. -/
theorem hash256rlp_eq {t : NodeTree} (ht : t.Canonical) {pre : List Nibble} {l : HexRange}
    (hl : Lists pre l t) {fuel : ℕ} (h0 : 0 < fuel)
    (hf : ∀ e ∈ l, e.1.length < pre.length + fuel) :
    hash256rlp sha3 fuel l pre.length = (nodeOf sha3 t).encode := by
  induction t generalizing pre l fuel with
  | empty =>
    obtain ⟨fuel, rfl⟩ : ∃ f, fuel = f + 1 := ⟨fuel - 1, by omega⟩
    rw [hl.eq_nil]
    rfl
  | leaf p v =>
    obtain ⟨fuel, rfl⟩ : ∃ f, fuel = f + 1 := ⟨fuel - 1, by omega⟩
    rw [hl.eq_leaf, hash256rlp, List.drop_left, nodeOf]
    simp [RLP.encode, RLP.encodeItems]
  | ext p t ih =>
    obtain ⟨fuel, rfl⟩ : ∃ f, fuel = f + 1 := ⟨fuel - 1, by omega⟩
    obtain ⟨e, i, l, rfl, hpre⟩ := hl.diverges (Tree.diverges_ext ht)
    have hp := List.length_pos_of_ne_nil ht.1
    have hlt : pre.length < (pre ++ p).length := by rw [List.length_append]; omega
    have hext := hl.ext
    have he := hext.starts List.mem_cons_self
    have hf' : ∀ x ∈ e :: i :: l, x.1.length < (pre ++ p).length + fuel := fun x hx => by
      have := hf x hx
      rw [List.length_append]
      omega
    have h0' : 0 < fuel := by
      have := hf' e List.mem_cons_self
      have := he.length_le
      have := hf e List.mem_cons_self
      omega
    have htake : (e.1.take (pre ++ p).length).drop pre.length = p := by
      rw [← List.prefix_iff_eq_take.mp he, List.drop_left]
    rw [hash256rlp_many]
    dsimp only
    rw [hpre, if_pos hlt, htake, hash256aux_eq sha3 (ih ht.2.2 hext h0' hf'), nodeOf]
    simp [RLP.encode, RLP.encodeItems]
  | branch c v ih =>
    obtain ⟨fuel, rfl⟩ : ∃ f, fuel = f + 1 := ⟨fuel - 1, by omega⟩
    obtain ⟨e, i, l, rfl, hpre⟩ := hl.diverges (Tree.diverges_branch ht)
    rw [List.append_nil] at hpre
    obtain ⟨hval, hb⟩ := hl.value
    have hsorted : (if pre.length = e.1.length then i :: l else e :: i :: l).Pairwise
        (fun x y => x.1 < y.1) := by
      split
      · exact (List.pairwise_cons.mp hl.sorted).2
      · exact hl.sorted
    rw [hash256rlp_many]
    dsimp only
    rw [hpre, if_neg (lt_irrefl _), hval]
    generalize (if pre.length = e.1.length then i :: l else e :: i :: l) = b at hb hsorted ⊢
    have hgoes : ∀ x ∈ b, ∃ a ∈ List.finRange 16, ∃ r, x.1 = pre ++ a :: r := by
      intro x hx
      obtain ⟨hmem, hne⟩ := (hb x).mp hx
      obtain ⟨r, w, _, rfl⟩ := (hl.mem x).mp hmem
      cases r with
      | nil => simp at hne
      | cons a r => exact ⟨a, List.mem_finRange a, r, rfl⟩
    have hslots := hash256slots_eq (g := fun a => reference sha3 (nodeOf sha3 (c a)))
      (f := fun n => hash256aux sha3 (hash256rlp sha3 fuel) n (pre.length + 1))
      (List.pairwise_lt_finRange 16) hsorted hgoes (by
        intro a _
        have hchild := hl.child hsorted hb a
        have hshort : ∀ x ∈ b.filter (fun e => e.1[pre.length]? = some a),
            x.1.length < (pre ++ [a]).length + fuel := by
          intro x hx
          have := hf x ((hb x).mp (List.mem_filter.mp hx).1).1
          rw [List.length_append, List.length_singleton]
          omega
        dsimp only
        generalize (b.filter fun e => e.1[pre.length]? = some a) = n at hchild hshort ⊢
        cases n with
        | nil =>
          have hnone : c a = .empty := by
            refine eq_empty_of_lookup (ht.1 a) fun k => ?_
            by_contra hk
            obtain ⟨w, hw⟩ := Option.ne_none_iff_exists'.mp hk
            cases (hchild.mem _).mpr ⟨k, w, hw, rfl⟩
          rw [hnone, nodeOf, reference_null]
          rfl
        | cons x n =>
          have h0' : 0 < fuel := by
            have := (hchild.starts List.mem_cons_self).length_le
            have := hshort x List.mem_cons_self
            omega
          have haux := hash256aux_eq sha3 (ih a (ht.1 a) hchild h0' hshort)
          rwa [List.length_append, List.length_singleton] at haux)
    rw [hslots, nodeOf_branch, branchItems]
    simp [RLP.encode, RLP.encodeItems, RLP.encodeItems_append]

theorem mem_hexMap (s : BytesMap) (k : List Nibble) (v : Bytes) :
    (hexMap s).find k = some v ↔ ∃ b, k = asNibbles b ∧ s.find b = some v := by
  have hfold : ∀ l : List (Bytes × Bytes), (l.map Prod.fst).Nodup →
      ∀ k v, ((l.foldr (fun i m => SortedMap.insert m (asNibbles i.1) i.2) SortedMap.empty).find k
        = some v ↔ ∃ b, k = asNibbles b ∧ (b, v) ∈ l) := by
    intro l hl k v
    induction l with
    | nil => simp
    | cons i l ih =>
      rw [List.map_cons, List.nodup_cons] at hl
      rw [List.foldr_cons, SortedMap.find_insert]
      split
      case isTrue hk =>
        constructor
        · rintro h
          exact ⟨i.1, hk, by rw [← Option.some.inj h]; exact List.mem_cons_self⟩
        · rintro ⟨b, hb, hmem⟩
          have hbi : b = i.1 := asNibbles_injective (hb.symm.trans hk)
          rcases List.mem_cons.mp hmem with rfl | hmem
          · rfl
          · exact (hl.1 (List.mem_map.mpr ⟨(b, v), hmem, hbi⟩)).elim
      case isFalse hk =>
        rw [ih hl.2]
        refine exists_congr fun b => and_congr_right fun hb => ?_
        have hne : (b, v) ≠ i := fun e => hk (by rw [hb, ← e])
        simp [hne]
  have hnodup : (s.entries.map Prod.fst).Nodup := by
    refine List.pairwise_map.mpr (s.sorted.imp ?_)
    exact fun h => ne_of_lt h
  rw [hexMap, List.foldl_reverse, hfold _ hnodup]
  simp only [SortedMap.find_eq_some_iff]

theorem length_le_longestKey {s : HexRange} {e : List Nibble × Bytes} (he : e ∈ s) :
    e.1.length ≤ longestKey s := by
  induction s with
  | nil => cases he
  | cons x s ih =>
    unfold longestKey
    rw [List.map_cons, List.foldr_cons]
    rcases List.mem_cons.mp he with rfl | he
    · exact le_max_left _ _
    · exact (ih he).trans (le_max_right _ _)

/-- The tree holds the map, under nibble keys. -/
def Realizes (t : NodeTree) (s : BytesMap) : Prop :=
  ∀ k v, (t.lookup k).map Subtype.val = some v ↔ ∃ b, k = asNibbles b ∧ s.find b = some v

variable (sha3) in
/-- `hash256` of a map is the hash of the root node of its canonical tree. -/
theorem hash256_eq {t : NodeTree} (ht : t.Canonical) {s : BytesMap} (hs : Realizes t s) :
    hash256 sha3 s = sha3 (nodeOf sha3 t).encode := by
  have hlists : Lists [] (hexMap s).entries t := by
    refine ⟨(hexMap s).sorted, fun e => ?_⟩
    rw [← SortedMap.find_eq_some_iff (k := e.1) (v := e.2), mem_hexMap, ← hs, Option.map_eq_some_iff]
    constructor
    · rintro ⟨v, hk, hv⟩
      exact ⟨e.1, v, hk, by rw [hv]; rfl⟩
    · rintro ⟨r, v, hr, rfl⟩
      exact ⟨v, hr, rfl⟩
  have hrlp : hash256rlp sha3 (longestKey (hexMap s).entries + 1) (hexMap s).entries 0 =
      (nodeOf sha3 t).encode :=
    hash256rlp_eq ht hlists (Nat.succ_pos _) fun e he => by
      have := length_le_longestKey he
      simp only [List.length_nil]
      omega
  unfold hash256 rlp256
  split
  case isTrue hemp =>
    rw [List.isEmpty_iff] at hemp
    have hnil : (hexMap s).entries = [] := by rw [hexMap, hemp]; rfl
    rw [← hrlp, hnil]
    rfl
  case isFalse => rw [hrlp]

end Aleth.Devcore
