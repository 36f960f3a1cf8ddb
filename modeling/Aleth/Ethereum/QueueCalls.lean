import Aleth.Ethereum.QueueTables

/-! The calls on the transaction queue, one by one.

Each loop is first turned into a fold over the transactions it visits; what a
fold does follows from the moves. `Loses` is said of a part of the code that
forgets some transactions and does not look at `m_known`, `Keeps` of a part that
looks after it. -/
namespace Aleth.Ethereum.TransactionQueue
open Devcore Throwing
variable {q s s' : TransactionQueue} {o : Order} {t : Transaction}

/-- Putting the transactions together makes no comparison, or none that throws. -/
def Comparable (l : List Transaction) : Prop := l.length ≤ 1 ∨ ∀ u ∈ l, u.sender.isSome

instance Comparable.decidable (l : List Transaction) : Decidable (Comparable l) :=
  inferInstanceAs (Decidable (_ ∨ _))

theorem Comparable.perm {l l' : List Transaction} (hp : l.Perm l') (h : Comparable l) :
    Comparable l' := by
  cases h with
  | inl h => exact .inl (hp.length_eq ▸ h)
  | inr h => exact .inr fun u hu => h u (hp.mem_iff.mpr hu)

theorem Comparable.throws {l l' : List Transaction} (h : Comparable (t :: (l ++ l'))) (o : Order) :
    o.throws l' t = false := by
  cases h with
  | inl h =>
    simp only [List.length_cons, List.length_append] at h
    have hl : l' = [] := List.length_eq_zero_iff.mp (by omega)
    rw [hl]
    rfl
  | inr h =>
    have ht : t.sender.isNone = false := by
      rw [← Option.not_isSome, h t List.mem_cons_self]
      rfl
    have hl : (l'.any fun u => o.search l' t u && u.sender.isNone) = false := by
      refine List.any_eq_false.mpr fun u hu => ?_
      have hs := h u (List.mem_cons_of_mem _ (List.mem_append_right _ hu))
      simp [Option.isNone_eq_false_iff.mpr hs]
    rw [Order.throws, ht, hl]
    simp

/-! ### What a part of the code keeps -/

def Known (q : TransactionQueue) : Prop := ∀ u ∈ q.held, u.sha3 ∈ q.m_known

def Exact (q : TransactionQueue) : Prop := ∀ h ∈ q.m_known, ∃ u ∈ q.held, u.sha3 = h

structure Valid (q : TransactionQueue) : Prop extends Consistent q where
  known : q.Known

structure Loses (q s : TransactionQueue) (gone : List Transaction) : Prop where
  consistent : s.Consistent
  perm : q.held.Perm (s.held ++ gone)
  known : s.m_known = q.m_known

structure Keeps (q s : TransactionQueue) : Prop where
  valid : s.Valid
  exact : q.Exact → s.Exact

theorem Loses.refl (hq : q.Consistent) : q.Loses q [] := ⟨hq, by simp, rfl⟩

theorem Loses.trans {g g' : List Transaction} (h : q.Loses s g) (h' : s.Loses s' g') :
    q.Loses s' (g' ++ g) := by
  refine ⟨h'.consistent, h.perm.trans ?_, h'.known.trans h.known⟩
  rw [← List.append_assoc]
  exact h'.perm.append_right g

theorem Keeps.refl (hq : q.Valid) : q.Keeps q := ⟨hq, id⟩

theorem Keeps.trans (h : q.Keeps s) (h' : s.Keeps s') : q.Keeps s' :=
  ⟨h'.valid, fun hx => h'.exact (h.exact hx)⟩

theorem Loses.valid {g : List Transaction} (h : q.Loses s g) (hq : q.Known) : s.Valid :=
  ⟨h.consistent, fun u hu =>
    h.known ▸ hq u (h.perm.mem_iff.mpr (List.mem_append_left _ hu))⟩

theorem Loses.keeps (h : q.Loses s []) (hq : q.Known) : q.Keeps s := by
  refine ⟨h.valid hq, fun hx k hk => ?_⟩
  obtain ⟨u, hu, hs⟩ := hx k (h.known ▸ hk)
  refine ⟨u, ?_, hs⟩
  have hp := h.perm
  rw [List.append_nil] at hp
  exact hp.mem_iff.mp hu

/-! ### Removing -/

/-- `t` has been removed. -/
def removed (t : Transaction) (q : TransactionQueue) : TransactionQueue :=
  {q.left t with m_known := q.m_known.erase t.sha3}

theorem run_removeWithLock_none {h : H256} (hh : q.m_currentByHash h = none) :
    (removeWithLock h).run q = (.ok false, q) := by
  unfold removeWithLock
  rw [run_bind_ok (run_get q), hh]
  rfl

theorem run_removeWithLock (hq : q.Consistent) (ht : t ∈ q.m_current) :
    (removeWithLock t.sha3).run q = (.ok true, q.removed t) := by
  unfold removeWithLock
  rw [run_bind_ok (run_get q), (hq.byHash _ _).mpr ⟨ht, rfl⟩]
  rfl

theorem Consistent.with_known (hq : q.Consistent) (k : Finset H256) :
    ({q with m_known := k} : TransactionQueue).Consistent :=
  ⟨⟨hq.byHash, hq.byNonce⟩, hq.keyed, hq.hashes, hq.slots, hq.size⟩

theorem Valid.keeps_removed (hq : q.Valid) (ht : t ∈ q.m_current) : q.Keeps (q.removed t) := by
  have hc : (q.removed t).Consistent := (hq.toConsistent.left ht).with_known _
  have hp : q.held.Perm (t :: (q.removed t).held) := held_left ht
  refine ⟨⟨hc, fun u hu => ?_⟩, fun hx h hh => ?_⟩
  · refine Finset.mem_erase.mpr ⟨fun he => ?_, ?_⟩
    · have hn := ((hp.map Transaction.sha3).nodup_iff.mp hq.hashes)
      rw [List.map_cons, List.nodup_cons] at hn
      exact hn.1 (List.mem_map.mpr ⟨u, hu, he⟩)
    · exact hq.known u (hp.mem_iff.mpr (List.mem_cons_of_mem _ hu))
  · obtain ⟨hne, hk⟩ := Finset.mem_erase.mp hh
    obtain ⟨u, hu, hs⟩ := hx h hk
    cases List.mem_cons.mp (hp.mem_iff.mp hu) with
    | inl e => exact absurd (by rw [← hs, e]) hne
    | inr hu => exact ⟨u, hu, hs⟩

/-- Whatever is asked to be removed. -/
theorem removeWithLock_keeps (hq : q.Valid) (h : H256) :
    ∃ b s, (removeWithLock h).run q = (.ok b, s) ∧ q.Keeps s := by
  cases hh : q.m_currentByHash h with
  | none => exact ⟨false, q, run_removeWithLock_none hh, .refl hq⟩
  | some t =>
    obtain ⟨ht, rfl⟩ := (hq.byHash h t).mp hh
    exact ⟨true, _, run_removeWithLock hq.toConsistent ht, hq.keeps_removed ht⟩

theorem trim_keeps (hq : q.Valid) {fuel : ℕ} (hf : q.m_current.length < fuel) :
    ∃ s, (trim fuel).run q = (.ok (), s) ∧ q.Keeps s := by
  induction fuel generalizing q with
  | zero => omega
  | succ fuel ih =>
    unfold trim
    rw [run_bind_ok (run_get q)]
    cases hl : q.m_current.getLast? with
    | none => exact ⟨q, rfl, .refl hq⟩
    | some u =>
      dsimp only
      by_cases hle : q.m_current.length ≤ q.m_limit.toNat
      · rw [if_pos hle]
        exact ⟨q, rfl, .refl hq⟩
      · rw [if_neg hle]
        have hu : u ∈ q.m_current := List.mem_of_getLast? hl
        have hk := hq.keeps_removed hu
        have hlen : (q.removed u).m_current.length < fuel := by
          have he := List.length_erase_of_mem hu
          have hpos := List.length_pos_of_mem hu
          show (q.m_current.erase u).length < fuel
          omega
        obtain ⟨s, hs, hks⟩ := ih hk.valid hlen
        refine ⟨s, ?_, hk.trans hks⟩
        rw [run_bind_ok (run_removeWithLock hq.toConsistent hu)]
        exact hs

/-! ### Making current -/

theorem run_emplace (h : o.throws q.m_current t = false) :
    (emplace o t).run q = (.ok (), {q with
      m_current := q.m_current.insertIdx (min (o.place q.m_current t) q.m_current.length) t}) := by
  unfold emplace
  rw [run_bind_ok (run_get q), h]
  rfl

theorem run_enter (h : o.throws q.m_current t = false) :
    (enter o t).run q = (.ok (), q.entered o t) := by
  have hins : (q.m_currentByAddressAndNonce.insert t.slot none).insert t.slot (some t) =
      q.m_currentByAddressAndNonce.insert t.slot (some t) := by
    refine SortedMap.ext_find fun k => ?_
    simp only [SortedMap.find_insert]
    split <;> rfl
  unfold enter
  rw [run_bind_ok (run_modify _ q)]
  by_cases hn : (q.m_currentByAddressAndNonce.find t.slot).isNone
  · have he := run_emplace (o := o) (t := t) (q := {q with
      m_currentByAddressAndNonce := q.m_currentByAddressAndNonce.insert t.slot none}) h
    rw [if_pos hn, run_bind_ok he, run_modify]
    dsimp only
    rw [hins]
    rfl
  · rw [if_neg hn, run_bind_ok (run_emplace h)]
    rfl

/-- One turn of the promoting loop. -/
def advance (o : Order) (q : TransactionQueue) (e : (Address ×ₗ U256) × Transaction) :
    TransactionQueue :=
  {q.entered o e.2 with m_futureSize := q.m_futureSize - 1}

theorem run_promotes {l : List ((Address ×ₗ U256) × Transaction)}
    (h : l = [] ∨ Comparable (l.map Prod.snd ++ q.m_current)) :
    (l.forM fun e => promote o e.2).run q = (.ok (), l.foldl (advance o) q) := by
  induction l generalizing q with
  | nil => rfl
  | cons e l ih =>
    have hc : Comparable (e.2 :: (l.map Prod.snd ++ q.m_current)) := by
      cases h with
      | inl h => cases h
      | inr h => exact h
    have hp : (promote o e.2).run q = (.ok (), q.advance o e) := by
      unfold promote
      rw [run_bind_ok (run_enter (hc.throws o))]
      rfl
    have hc' : Comparable (l.map Prod.snd ++ (q.advance o e).m_current) := by
      refine hc.perm ?_
      exact List.perm_middle.symm.trans ((current_entered o e.2 q).symm.append_left _)
    show (promote o e.2 >>= fun _ => l.forM fun e => promote o e.2).run q = _
    rw [run_bind_ok hp]
    exact ih (.inr hc')

theorem eraseFuture_foldl (l : List ((Address ×ₗ U256) × Transaction))
    (k : List (Address ×ₗ U256)) :
    (l.foldl (advance o) q).eraseFuture k = l.foldl (advance o) (q.eraseFuture k) := by
  induction l generalizing q with
  | nil => rfl
  | cons e l ih => exact ih

theorem Consistent.promoted (hq : q.Consistent) (h : q.m_future.find t.slot = some t) (o : Order) :
    q.Loses ((q.forgone t).entered o t) [] := by
  have hp := held_forgone h
  have hn := hq.hashes
  have hn' := hq.slots
  rw [(hp.map Transaction.sha3).nodup_iff, List.map_cons, List.nodup_cons] at hn
  rw [(hp.map Transaction.slot).nodup_iff, List.map_cons, List.nodup_cons] at hn'
  refine ⟨(hq.forgone h).entered (fun u hu he => ?_) (fun u hu he => ?_) o, ?_, rfl⟩
  · exact hn.1 (List.mem_map.mpr ⟨u, hu, he⟩)
  · exact hn'.1 (List.mem_map.mpr ⟨u, hu, he⟩)
  · rw [List.append_nil]
    exact hp.trans (held_entered o t (q.forgone t)).symm

/-- The promoting loop with the range it erases afterwards. -/
theorem Consistent.promotes {l : List ((Address ×ₗ U256) × Transaction)} (hq : q.Consistent)
    (hl : ∀ e ∈ l, q.m_future.find e.1 = some e.2) (hn : (l.map Prod.fst).Nodup) (o : Order) :
    q.Loses ((l.foldl (advance o) q).eraseFuture (l.map Prod.fst)) [] ∧
      ((l.foldl (advance o) q).eraseFuture (l.map Prod.fst)).m_futureLimit = q.m_futureLimit ∧
      ((l.foldl (advance o) q).eraseFuture (l.map Prod.fst)).m_futureSize.toNat + l.length =
        q.m_futureSize.toNat := by
  induction l generalizing q with
  | nil => exact ⟨.refl hq, rfl, rfl⟩
  | cons e l ih =>
    have he := hl e List.mem_cons_self
    have hk : e.2.slot = e.1 := hq.keyed _ _ he
    have hf : q.m_future.find e.2.slot = some e.2 := hk ▸ he
    have hstep : ((e :: l).foldl (advance o) q).eraseFuture ((e :: l).map Prod.fst) =
        (l.foldl (advance o) ((q.forgone e.2).entered o e.2)).eraseFuture (l.map Prod.fst) := by
      show ((l.foldl (advance o) (q.advance o e)).eraseFuture [e.1]).eraseFuture (l.map Prod.fst) = _
      rw [eraseFuture_foldl, ← hk]
      rfl
    obtain ⟨hnot, hn⟩ := List.nodup_cons.mp hn
    have hlose := hq.promoted hf o
    have hl' : ∀ e' ∈ l, ((q.forgone e.2).entered o e.2).m_future.find e'.1 = some e'.2 := by
      intro e' he'
      show (q.m_future.erase e.2.slot).find e'.1 = _
      have hne : e'.1 ≠ e.2.slot := fun h => hnot (by
        rw [← hk, ← h]
        exact List.mem_map_of_mem he')
      rw [SortedMap.find_erase, if_neg hne]
      exact hl e' (List.mem_cons_of_mem _ he')
    obtain ⟨hlose', hlim, hsize⟩ := ih hlose.consistent hl' hn
    rw [hstep]
    refine ⟨hlose.trans hlose', hlim, ?_⟩
    have h1 := (hq.forgone hf).size
    have h2 := hq.size
    have h3 := (SortedMap.erase_perm hf).length_eq
    rw [List.length_cons] at h3
    rw [show ((q.forgone e.2).entered o e.2).m_futureSize = (q.forgone e.2).m_futureSize from rfl]
      at hsize
    rw [show (q.forgone e.2).m_future = q.m_future.erase e.2.slot from rfl] at h1
    rw [List.length_cons]
    omega

theorem consecutive_sublist (n : U256) (l : List ((Address ×ₗ U256) × Transaction)) :
    (consecutive n l).Sublist l := by
  induction l generalizing n with
  | nil => exact List.Sublist.refl _
  | cons e l ih =>
    unfold consecutive
    split
    · exact (ih _).cons_cons _
    · exact List.nil_sublist _

theorem following_sublist (q : TransactionQueue) (t : Transaction) :
    (q.following t).Sublist q.m_future.entries :=
  (consecutive_sublist _ _).trans ((List.dropWhile_sublist _).trans List.filter_sublist)

theorem lastOfFirst_mem (hne : q.m_future.entries ≠ []) :
    ∃ e ∈ q.m_future.entries, q.lastOfFirst o = some e := by
  have hpos := List.length_pos_iff.mpr hne
  have hi := Nat.mod_lt (o.begin q.m_future.entries) hpos
  unfold lastOfFirst
  rw [List.getElem?_eq_getElem hi]
  show ∃ e ∈ _, (q.m_future.entries.filter _).getLast? = some e
  cases hl : (q.m_future.entries.filter fun e' => (ofLex e'.1).1 =
      (ofLex (q.m_future.entries[o.begin q.m_future.entries % q.m_future.entries.length]).1).1).getLast? with
  | none =>
    rw [List.getLast?_eq_none_iff, List.filter_eq_nil_iff] at hl
    exact absurd (by simp) (hl _ (List.getElem_mem hi))
  | some e => exact ⟨e, (List.mem_filter.mp (List.mem_of_getLast? hl)).1, rfl⟩

theorem run_evict (hq : q.Consistent) {fuel : ℕ} (hf : q.m_futureSize.toNat < fuel) (o : Order) :
    ∃ s gone, (evict o fuel).run q = (.ok (), s) ∧ q.Loses s gone ∧
      (q.m_futureSize ≤ q.m_futureLimit → gone = []) := by
  induction fuel generalizing q with
  | zero => omega
  | succ fuel ih =>
    unfold evict
    rw [run_bind_ok (run_get q)]
    by_cases hle : q.m_futureSize ≤ q.m_futureLimit
    · rw [if_pos hle]
      exact ⟨q, [], rfl, .refl hq, fun _ => rfl⟩
    · rw [if_neg hle]
      have hpos : 0 < q.m_futureSize.toNat := by
        rw [UInt32.le_iff_toNat_le] at hle
        omega
      have hne : q.m_future.entries ≠ [] := by
        rw [← List.length_pos_iff, ← hq.size]
        exact hpos
      obtain ⟨e, he, hlast⟩ := lastOfFirst_mem (o := o) hne
      have hfind : q.m_future.find e.1 = some e.2 := SortedMap.find_eq_some_iff.mpr he
      have hk : e.2.slot = e.1 := hq.keyed _ _ hfind
      rw [← hk] at hfind
      have hc := hq.forgone hfind
      have hsize : (q.forgone e.2).m_futureSize.toNat < fuel := by
        have h1 := hc.size
        have h2 := hq.size
        have h3 := (SortedMap.erase_perm hfind).length_eq
        rw [List.length_cons] at h3
        rw [show (q.forgone e.2).m_future = q.m_future.erase e.2.slot from rfl] at h1
        omega
      obtain ⟨s, gone, hrun, hlose, -⟩ := ih hc hsize
      have hfirst : q.Loses (q.forgone e.2) [e.2] := by
        refine ⟨hc, (held_forgone hfind).trans ?_, rfl⟩
        exact (List.perm_append_singleton _ _).symm
      refine ⟨s, gone ++ [e.2], ?_, hfirst.trans hlose, fun h => absurd h hle⟩
      rw [hlast]
      dsimp only
      rw [← hk, run_bind_ok (run_modify _ q)]
      exact hrun

/-- No future transaction is dropped for being above the limit. -/
def Roomy (q : TransactionQueue) (t : Transaction) : Prop :=
  q.m_future.entries.length ≤ q.m_futureLimit.toNat + (q.following t).length

instance Roomy.decidable (q : TransactionQueue) (t : Transaction) : Decidable (q.Roomy t) :=
  inferInstanceAs (Decidable (_ ≤ _))

theorem run_makeCurrentWithLock (hq : q.Consistent)
    (h : q.following t = [] ∨ Comparable ((q.following t).map Prod.snd ++ q.m_current)) (o : Order) :
    ∃ s gone, (makeCurrentWithLock o t).run q = (.ok (), s) ∧ q.Loses s gone ∧
      (q.Roomy t → gone = []) := by
  have hl : ∀ e ∈ q.following t, q.m_future.find e.1 = some e.2 := fun e he =>
    SortedMap.find_eq_some_iff.mpr ((following_sublist q t).mem he)
  have hn : ((q.following t).map Prod.fst).Nodup :=
    (SortedMap.keys_nodup q.m_future).sublist ((following_sublist q t).map _)
  obtain ⟨hlose, hlim, hsize⟩ := hq.promotes hl hn o
  obtain ⟨s, gone, hrun, hlose', hgone⟩ := run_evict hlose.consistent (Nat.lt_succ_self _) o
  refine ⟨s, gone ++ [], ?_, hlose.trans hlose', fun hr => ?_⟩
  · unfold makeCurrentWithLock
    rw [run_bind_ok (run_get q), run_bind_ok (run_promotes h), run_bind_ok (run_modify _ _),
      run_bind_ok (run_get _)]
    exact hrun
  · rw [List.append_nil]
    refine hgone ?_
    have h2 := hq.size
    unfold Roomy at hr
    rw [hlim, UInt32.le_iff_toNat_le]
    omega

/-! ### Putting off -/

/-- One turn of the loop of `setFuture`. -/
def defer (a : Address) (q : TransactionQueue) (t : Transaction) : TransactionQueue :=
  {q with
    m_currentByHash := Function.update q.m_currentByHash t.sha3 none
    m_future :=
      if (q.m_future.find (toLex (a, t.nonce))).isNone then
        q.m_future.insert (toLex (a, t.nonce)) t
      else q.m_future
    m_current := q.m_current.erase t
    m_futureSize := q.m_futureSize + 1}

theorem run_demotes (a : Address) (ts : List Transaction) :
    ((ts.map fun t => (t.slot, some t)).forM fun e => demote a e.2).run q =
      (.ok (), ts.foldl (defer a) q) := by
  induction ts generalizing q with
  | nil => rfl
  | cons t ts ih =>
    have hd : (demote a (some t)).run q = (.ok (), q.defer a t) := rfl
    show (demote a (some t) >>= fun _ =>
      (ts.map fun t => (t.slot, some t)).forM fun e => demote a e.2).run q = _
    rw [run_bind_ok hd]
    exact ih

theorem eraseByNonce_foldl (a : Address) (ts : List Transaction) (k : List (Address ×ₗ U256)) :
    (ts.foldl (defer a) q).eraseByNonce k = ts.foldl (defer a) (q.eraseByNonce k) := by
  induction ts generalizing q with
  | nil => rfl
  | cons t ts ih => exact ih

theorem Consistent.future_none (hq : q.Consistent) (ht : t ∈ q.m_current) :
    q.m_future.find t.slot = none := by
  cases hf : q.m_future.find t.slot with
  | none => rfl
  | some u =>
    have hu : u ∈ q.futures := mem_futures.mpr ⟨_, hf⟩
    have he := hq.eq_of_slot (List.mem_append_left _ ht) (List.mem_append_right _ hu)
      (hq.keyed _ _ hf).symm
    have hd := (List.nodup_append.mp hq.nodup_held).2.2
    exact absurd he (hd t ht u hu)

theorem Consistent.demoted (hq : q.Consistent) (ht : t ∈ q.m_current)
    (hsize : q.m_future.entries.length + 1 < 2 ^ 32) : q.Loses ((q.left t).deferred t) [] := by
  have hp := held_left ht
  have hn := hq.hashes
  have hn' := hq.slots
  rw [(hp.map Transaction.sha3).nodup_iff, List.map_cons, List.nodup_cons] at hn
  rw [(hp.map Transaction.slot).nodup_iff, List.map_cons, List.nodup_cons] at hn'
  refine ⟨(hq.left ht).deferred (fun u hu he => ?_) (fun u hu he => ?_) hsize, ?_, rfl⟩
  · exact hn.1 (List.mem_map.mpr ⟨u, hu, he⟩)
  · exact hn'.1 (List.mem_map.mpr ⟨u, hu, he⟩)
  · rw [List.append_nil]
    exact hp.trans (held_deferred (q := q.left t) (hq.future_none ht)).symm

/-- The loop of `setFuture` with the range it erases afterwards. -/
theorem Consistent.demotes {a : Address} {ts : List Transaction} (hq : q.Consistent)
    (hts : ∀ t ∈ ts, t ∈ q.m_current ∧ t.from_ = a) (hn : (ts.map Transaction.slot).Nodup)
    (hsize : q.m_future.entries.length + ts.length < 2 ^ 32) :
    q.Loses ((ts.foldl (defer a) q).eraseByNonce (ts.map Transaction.slot)) [] := by
  induction ts generalizing q with
  | nil => exact .refl hq
  | cons t ts ih =>
    rw [List.length_cons] at hsize
    obtain ⟨ht, hfrom⟩ := hts t List.mem_cons_self
    obtain ⟨hnot, hn⟩ := List.nodup_cons.mp hn
    have hnone := hq.future_none ht
    have hslot : toLex (a, t.nonce) = t.slot := by
      rw [← hfrom]
      rfl
    have hstep : ((t :: ts).foldl (defer a) q).eraseByNonce ((t :: ts).map Transaction.slot) =
        (ts.foldl (defer a) ((q.left t).deferred t)).eraseByNonce (ts.map Transaction.slot) := by
      show ((ts.foldl (defer a) (q.defer a t)).eraseByNonce [t.slot]).eraseByNonce
        (ts.map Transaction.slot) = _
      rw [eraseByNonce_foldl, defer, hslot, hnone]
      rfl
    have hlose := hq.demoted ht (by omega)
    rw [hstep]
    refine hlose.trans (ih hlose.consistent (fun u hu => ?_) hn ?_)
    · obtain ⟨huc, huf⟩ := hts u (List.mem_cons_of_mem _ hu)
      refine ⟨hq.nodup_current.mem_erase_iff.mpr ⟨fun e => hnot ?_, huc⟩, huf⟩
      rw [← e]
      exact List.mem_map_of_mem hu
    · have hl := (SortedMap.insert_perm hnone t).length_eq
      rw [List.length_cons] at hl
      show (q.m_future.insert t.slot t).entries.length + ts.length < 2 ^ 32
      omega

theorem handles_of_entries {P : Transaction → Prop} {l : List ((Address ×ₗ U256) × Handle)}
    (h : ∀ e ∈ l, ∃ t, P t ∧ e = (t.slot, some t)) :
    ∃ ts : List Transaction, l = ts.map (fun t => (t.slot, some t)) ∧ ∀ t ∈ ts, P t := by
  induction l with
  | nil => exact ⟨[], rfl, fun t ht => by cases ht⟩
  | cons e l ih =>
    obtain ⟨t, ht, rfl⟩ := h e List.mem_cons_self
    obtain ⟨ts, rfl, hts⟩ := ih fun e he => h e (List.mem_cons_of_mem _ he)
    refine ⟨t :: ts, rfl, fun u hu => ?_⟩
    cases List.mem_cons.mp hu with
    | inl e => exact e ▸ ht
    | inr hu => exact hts u hu

/-- The counter of future transactions does not overflow. -/
def Countable (q : TransactionQueue) (h : H256) : Prop :=
  ∀ t ∈ q.m_currentByHash h, q.m_future.entries.length + (q.cutoff t).length < 2 ^ 32

instance Countable.decidable (q : TransactionQueue) (h : H256) : Decidable (q.Countable h) :=
  match hh : q.m_currentByHash h with
  | none => isTrue fun t ht => by rw [hh] at ht; cases ht
  | some t =>
    decidable_of_iff (q.m_future.entries.length + (q.cutoff t).length < 2 ^ 32)
      ⟨fun hl u hu => by rw [hh] at hu; cases hu; exact hl, fun hc => hc t hh⟩

theorem setFuture_keeps (hq : q.Valid) {h : H256} (hsize : q.Countable h) :
    ∃ s, (setFuture h).run q = (.ok (), s) ∧ q.Keeps s := by
  unfold setFuture
  rw [run_bind_ok (run_get q)]
  cases hh : q.m_currentByHash h with
  | none => exact ⟨q, rfl, .refl hq⟩
  | some st =>
    have hc : ∀ e ∈ q.cutoff st, ∃ t, (t ∈ q.m_current ∧ t.from_ = st.from_) ∧
        e = (t.slot, some t) := by
      intro e he
      obtain ⟨hmem, hp⟩ := List.mem_filter.mp he
      obtain ⟨t, ht, hk, hx⟩ := (hq.byNonce _ _).mp (SortedMap.find_eq_some_iff.mpr hmem)
      refine ⟨t, ⟨ht, ?_⟩, Prod.ext hk.symm hx⟩
      rw [← hk] at hp
      exact (of_decide_eq_true hp).1
    obtain ⟨ts, hts, hmem⟩ := handles_of_entries hc
    have hkeys : (q.cutoff st).map Prod.fst = ts.map Transaction.slot := by
      rw [hts, List.map_map]
      rfl
    have hn : (ts.map Transaction.slot).Nodup := by
      rw [← hkeys]
      exact q.m_currentByAddressAndNonce.keys_nodup.sublist (List.filter_sublist.map _)
    have hl := hsize st hh
    rw [hts, List.length_map] at hl
    have hlose := hq.toConsistent.demotes hmem hn hl
    refine ⟨_, ?_, hlose.keeps hq.known⟩
    dsimp only
    rw [hkeys, hts, run_bind_ok (run_demotes _ _)]
    rfl

/-! ### Inserting -/

theorem insertCurrent_valid (hq : q.Valid) (hh : t.sha3 ∉ q.m_known)
    (hs : ∀ u ∈ q.held, u.slot ≠ t.slot)
    (hc : Comparable (t :: ((q.following t).map Prod.snd ++ q.m_current))) (o : Order) :
    ∃ s, (insertCurrentWithLock o t).run q = (.ok (), s) ∧ s.Valid ∧
      (q.Roomy t → q.Exact → s.Exact) := by
  have hnew : ∀ u ∈ q.held, u.sha3 ≠ t.sha3 := fun u hu e => hh (e ▸ hq.known u hu)
  have hnone : q.m_currentByHash t.sha3 = none :=
    hq.byHash_none fun u hu => hnew u (List.mem_append_left _ hu)
  have hp := held_entered o t q
  have hce : (q.entered o t).following t = [] ∨ Comparable
      (((q.entered o t).following t).map Prod.snd ++ (q.entered o t).m_current) :=
    .inr (hc.perm (List.perm_middle.symm.trans ((current_entered o t q).symm.append_left _)))
  obtain ⟨s, gone, hrun, hlose, hgone⟩ :=
    run_makeCurrentWithLock (hq.toConsistent.entered hnew hs o) hce o
  refine ⟨{s with m_known := insert t.sha3 s.m_known}, ?_, ⟨hlose.consistent.with_known _, ?_⟩, ?_⟩
  · unfold insertCurrentWithLock
    rw [run_bind_ok (run_get q), hnone]
    show (enter o t >>= fun _ => _).run q = _
    rw [run_bind_ok (run_enter (hc.throws o)), run_bind_ok hrun]
    rfl
  · intro u hu
    have hu : u ∈ (q.entered o t).held := hlose.perm.mem_iff.mpr (List.mem_append_left _ hu)
    refine Finset.mem_insert.mpr ?_
    cases List.mem_cons.mp (hp.mem_iff.mp hu) with
    | inl e => exact .inl (by rw [e])
    | inr h => exact .inr (hlose.known ▸ hq.known u h)
  · intro hr hx h hm
    have hperm := hlose.perm
    rw [hgone hr, List.append_nil] at hperm
    have hheld : ∃ u ∈ t :: q.held, u.sha3 = h := by
      cases Finset.mem_insert.mp hm with
      | inl e => exact ⟨t, List.mem_cons_self, e.symm⟩
      | inr hk =>
        obtain ⟨u, hu, he⟩ := hx h (hlose.known ▸ hk)
        exact ⟨u, List.mem_cons_of_mem _ hu, he⟩
    obtain ⟨u, hu, he⟩ := hheld
    exact ⟨u, hperm.mem_iff.mp (hp.mem_iff.mpr hu), he⟩

/-! ### Replacing -/

/-- The transaction held in the slot has the higher gas price. -/
def Outbid (q : TransactionQueue) (t : Transaction) : Prop :=
  ∃ u ∈ q.held, u.slot = t.slot ∧ t.gasPrice < u.gasPrice

instance Outbid.decidable (q : TransactionQueue) (t : Transaction) : Decidable (q.Outbid t) :=
  inferInstanceAs (Decidable (∃ u ∈ q.held, _))

/-- The queue without whatever it holds in the slot of `t`. -/
def vacate (t : Transaction) (q : TransactionQueue) : TransactionQueue :=
  {q with
    m_current := q.m_current.filter (·.slot ≠ t.slot)
    m_future := q.m_future.erase t.slot}

/-- What `replaceCurrent` and `replaceFuture` leave when they make room for `t`. -/
structure Vacated (q s : TransactionQueue) (t : Transaction) : Prop where
  valid : s.Valid
  exact : q.m_future.find t.slot = none → q.Exact → s.Exact
  current : s.m_current = (q.vacate t).m_current
  future : s.m_future = (q.vacate t).m_future
  limit : s.m_futureLimit = q.m_futureLimit
  known : s.m_known ⊆ q.m_known

theorem Vacated.free {s : TransactionQueue} (h : q.Vacated s t) : ∀ u ∈ s.held, u.slot ≠ t.slot := by
  intro u hu he
  cases List.mem_append.mp hu with
  | inl hu =>
    rw [h.current] at hu
    exact of_decide_eq_true (List.mem_filter.mp hu).2 he
  | inr hu =>
    have hf := h.valid.toConsistent.future_iff.mp hu
    rw [h.future, he] at hf
    change (q.m_future.erase t.slot).find t.slot = _ at hf
    rw [SortedMap.find_erase, if_pos rfl] at hf
    cases hf

theorem filter_slot_of_not_mem (h : ∀ u ∈ q.m_current, u.slot ≠ t.slot) :
    q.m_current.filter (·.slot ≠ t.slot) = q.m_current :=
  List.filter_eq_self.mpr fun u hu => decide_eq_true (h u hu)

theorem Consistent.erase_eq_filter (hq : q.Consistent) {u : Transaction} (hu : u ∈ q.m_current)
    (hs : u.slot = t.slot) : q.m_current.erase u = q.m_current.filter (·.slot ≠ t.slot) := by
  rw [hq.nodup_current.erase_eq_filter]
  refine List.filter_congr fun v hv => ?_
  rw [Bool.eq_iff_iff, bne_iff_ne, decide_eq_true_iff, ← hs]
  refine not_congr ⟨fun e => e ▸ rfl, fun e => ?_⟩
  exact hq.eq_of_slot (List.mem_append_left _ hv) (List.mem_append_left _ hu) e

/-- Making room succeeds, unless there is a higher bid, and then nothing is changed. -/
theorem replace_cases (hq : q.Valid) (t : Transaction) :
    (q.Outbid t ∧ ((replaceCurrent t).run q = (.ok true, q) ∨
      ((replaceCurrent t).run q = (.ok false, q) ∧ (replaceFuture t).run q = (.ok true, q)))) ∨
    (¬q.Outbid t ∧ ∃ q' s, (replaceCurrent t).run q = (.ok false, q') ∧
      (replaceFuture t).run q' = (.ok false, s) ∧ q.Vacated s t) := by
  have hcur : ∀ u ∈ q.m_current, u.slot = t.slot →
      q.m_currentByAddressAndNonce.find t.slot = some (some u) := fun u hu hs =>
    (hq.byNonce _ _).mpr ⟨u, hu, hs, rfl⟩
  unfold replaceCurrent replaceFuture
  simp only [run_bind_ok (run_get q)]
  cases hf : q.m_currentByAddressAndNonce.find t.slot with
  | none =>
    have hfree : ∀ u ∈ q.m_current, u.slot ≠ t.slot := fun u hu hs => by
      rw [hcur u hu hs] at hf
      cases hf
    have hvac := filter_slot_of_not_mem hfree
    cases hg : q.m_future.find t.slot with
    | none =>
      refine .inr ⟨fun ho => ?_, q, q, rfl, ?_, hq, fun _ hx => hx, hvac.symm,
        (SortedMap.erase_of_find_none hg).symm, rfl, Finset.Subset.refl _⟩
      · obtain ⟨u, hu, hs, -⟩ := ho
        cases List.mem_append.mp hu with
        | inl hu => exact hfree u hu hs
        | inr hu =>
          rw [hq.toConsistent.future_iff, hs, hg] at hu
          cases hu
      · rw [run_bind_ok (run_get q), hg]
        rfl
    | some u =>
      have hk := hq.keyed _ _ hg
      have hu : u ∈ q.held := List.mem_append_right _ (mem_futures.mpr ⟨_, hg⟩)
      by_cases hprice : t.gasPrice < u.gasPrice
      · refine .inl ⟨⟨u, hu, hk, hprice⟩, .inr ⟨rfl, ?_⟩⟩
        dsimp only
        rw [if_pos hprice]
        rfl
      · have hg' : q.m_future.find u.slot = some u := hk ▸ hg
        refine .inr ⟨fun ho => ?_, q, q.forgone u, rfl, ?_, ?_, fun hn => ?_, hvac.symm, ?_, rfl,
          Finset.Subset.refl _⟩
        · obtain ⟨v, hv, hs, hlt⟩ := ho
          rw [hq.eq_of_slot hv hu (hs.trans hk.symm)] at hlt
          exact hprice hlt
        · rw [run_bind_ok (run_get q), hg]
          dsimp only
          rw [if_neg hprice, ← hk]
          rfl
        · refine ⟨hq.toConsistent.forgone hg', fun v hv => ?_⟩
          exact hq.known v ((held_forgone hg').mem_iff.mpr (List.mem_cons_of_mem _ hv))
        · rw [hg] at hn
          cases hn
        · show q.m_future.erase u.slot = q.m_future.erase t.slot
          rw [hk]
  | some x =>
    obtain ⟨u, hu, hk, rfl⟩ := (hq.byNonce _ _).mp hf
    by_cases hprice : t.gasPrice < u.gasPrice
    · refine .inl ⟨⟨u, List.mem_append_left _ hu, hk, hprice⟩, .inl ?_⟩
      dsimp only
      rw [if_pos hprice]
      rfl
    · have hnone : q.m_future.find t.slot = none := hk ▸ hq.toConsistent.future_none hu
      have hkeep := hq.keeps_removed hu
      refine .inr ⟨fun ho => ?_, q.removed u, q.removed u, ?_, ?_, hkeep.valid,
        fun _ hx => hkeep.exact hx, hq.toConsistent.erase_eq_filter hu hk,
        (SortedMap.erase_of_find_none hnone).symm, rfl, Finset.erase_subset _ _⟩
      · obtain ⟨v, hv, hs, hlt⟩ := ho
        rw [hq.eq_of_slot hv (List.mem_append_left _ hu) (hs.trans hk.symm)] at hlt
        exact hprice hlt
      · dsimp only
        rw [if_neg hprice, run_bind_ok (run_removeWithLock hq.toConsistent hu)]
        rfl
      · rw [run_bind_ok (run_get _), show (q.removed u).m_future = q.m_future from rfl, hnone]
        rfl

end Aleth.Ethereum.TransactionQueue
