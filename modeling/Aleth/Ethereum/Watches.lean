import Aleth.Devcore.RlpStream
import Aleth.Ethereum.LogFilter
import Aleth.Structure.Runs
import Aleth.Structure.SortedMap

/-! Watches and the filters they are on (`ClientBase.cpp`).

A filter has a count of its watches, which is one from the start. `installWatch`
does not raise it when the filter is there already, so that the first watch that
is removed takes the filter away from the others. What is asked of a client is
kept beside it as the list of the watches that live. -/
namespace Aleth.Ethereum
open Devcore

def PendingBlockHash : H256 := H256.ofU256 0

def EarliestBlockHash : H256 := H256.ofU256 1

/-- A `LogFilter` with the blocks that it goes over. -/
structure RangedFilter extends LogFilter where
  m_earliest : H256 := EarliestBlockHash
  m_latest : H256 := PendingBlockHash
deriving DecidableEq

namespace RangedFilter

/-- What `streamRLP` writes. -/
def streamRLP (f : RangedFilter) : RLPStream.Item :=
  .list [.list (f.m_addresses.map fun a => .data (Ethcore.addressBytes a)),
    .list (f.m_topics.toList.map fun t => .list (t.map fun i => .data i.bytes)),
    .data f.m_earliest.bytes, .data f.m_latest.bytes]

/-- `sha3()`, the name of the filter. -/
def sha3 [Sha3] (f : RangedFilter) : H256 := Devcore.sha3 f.streamRLP.toRLP.encode

end RangedFilter

/-- An entry of a log, or the hash that a special filter has. -/
structure LocalisedLogEntry extends LogEntry where
  isSpecial : Bool := false
  special : H256 := .zero
deriving DecidableEq

structure InstalledFilter where
  filter : RangedFilter
  refCount : UInt32 := 1
  changes : List LocalisedLogEntry := []
deriving DecidableEq

structure ClientWatch where
  id : H256
  changes : List LocalisedLogEntry := []
deriving DecidableEq

def PendingChangedFilter : H256 := H256.ofU256 0

def ChainChangedFilter : H256 := H256.ofU256 1

/-- The numbers of watches are `unsigned`. -/
structure ClientBase where
  m_filters : H256 → Option InstalledFilter
  m_specialFilters : H256 → Option (List H256)
  m_watches : SortedMap ℕ ClientWatch

namespace ClientBase

/-- A client as it is made. -/
def fresh : ClientBase where
  m_filters _ := none
  m_specialFilters h := if h = PendingChangedFilter ∨ h = ChainChangedFilter then some [] else none
  m_watches := SortedMap.empty

/-- One more than the last number. -/
def nextWatch (c : ClientBase) : ℕ :=
  (c.m_watches.entries.getLast?.map fun w => (w.1 + 1) % 2 ^ 32).getD 0

/-- `installWatch(h256)`. -/
def installWatchOn (h : H256) (c : ClientBase) : ℕ × ClientBase :=
  (c.nextWatch, {c with m_watches := c.m_watches.insert c.nextWatch {id := h}})

/-- The filter is put under its hash if nothing is there. -/
def installFilter [Sha3] (f : RangedFilter) (c : ClientBase) : ClientBase :=
  if (c.m_filters f.sha3).isSome then c
  else {c with m_filters := Function.update c.m_filters f.sha3 (some {filter := f})}

/-- `installWatch(LogFilter)`. -/
def installWatch [Sha3] (f : RangedFilter) (c : ClientBase) : ℕ × ClientBase :=
  (c.installFilter f).installWatchOn f.sha3

/-- One watch fewer: the filter goes with the last. -/
def release (fit : InstalledFilter) : Option InstalledFilter :=
  if fit.refCount - 1 = 0 then none else some {fit with refCount := fit.refCount - 1}

def uninstallWatch (i : ℕ) (c : ClientBase) : Bool × ClientBase :=
  match c.m_watches.find i with
  | none => (false, c)
  | some w =>
    let c := {c with m_watches := c.m_watches.erase i}
    match c.m_filters w.id with
    | none => (true, c)
    | some fit => (true, {c with m_filters := Function.update c.m_filters w.id (release fit)})

/-- The filter of a watch, as `logs(watchId)` finds it. -/
def filterOf (c : ClientBase) (i : ℕ) : Option RangedFilter := do
  let w ← c.m_watches.find i
  let fit ← c.m_filters w.id
  return fit.filter

/-- `logs(watchId)`, where `logs` is what the chain has for a filter. -/
def logsOfWatch (logs : RangedFilter → List LocalisedLogEntry) (c : ClientBase) (i : ℕ) :
    List LocalisedLogEntry :=
  match c.filterOf i with
  | none => []
  | some f => logs f

/-- The entry that stands for a hash. -/
def specialEntry (h : H256) : LocalisedLogEntry where
  address := ZeroAddress
  topics := []
  data := []
  isSpecial := true
  special := h

/-- What has come up for a name since the last time. -/
def news (c : ClientBase) (id : H256) : List LocalisedLogEntry :=
  match c.m_filters id with
  | some i => i.changes
  | none => ((c.m_specialFilters id).getD []).map specialEntry

/-- The watches get the changes of their filters, which are cleared. -/
def noteChanged (filters : H256 → Bool) (c : ClientBase) : ClientBase where
  m_filters h := (c.m_filters h).map fun i => {i with changes := []}
  m_specialFilters h := (c.m_specialFilters h).map fun _ => []
  m_watches := c.m_watches.mapVals fun _ w =>
    if filters w.id then {w with changes := w.changes ++ c.news w.id} else w

variable {c : ClientBase} {i : ℕ} {w : ClientWatch}

/-- No filter has been counted for a second watch. -/
def Uncounted (c : ClientBase) : Prop := ∀ h fit, c.m_filters h = some fit → fit.refCount = 1

theorem uncounted_fresh : fresh.Uncounted := fun _ _ h => nomatch h

theorem uncounted_installFilter [Sha3] (hc : c.Uncounted) (f : RangedFilter) :
    (c.installFilter f).Uncounted := by
  unfold installFilter
  split
  · exact hc
  · intro h fit hfit
    dsimp only at hfit
    rw [Function.update_apply] at hfit
    split at hfit
    · obtain rfl := Option.some.inj hfit
      rfl
    · exact hc h fit hfit

/-- The filter always goes with the watch. -/
theorem uninstallWatch_eq (hc : c.Uncounted) (hw : c.m_watches.find i = some w) :
    (c.uninstallWatch i).2 = {c with
      m_watches := c.m_watches.erase i
      m_filters := Function.update c.m_filters w.id none} := by
  unfold uninstallWatch
  rw [hw]
  dsimp only
  cases hfit : c.m_filters w.id with
  | none =>
    have hself : Function.update c.m_filters w.id none = c.m_filters := by
      rw [← hfit, Function.update_eq_self]
    rw [hself]
  | some fit =>
    have hrelease : release fit = none := by
      rw [release, hc _ _ hfit]
      rfl
    dsimp only
    rw [hrelease]

theorem uninstallWatch_none (hw : c.m_watches.find i = none) : c.uninstallWatch i = (false, c) := by
  unfold uninstallWatch
  rw [hw]

theorem uncounted_uninstallWatch (hc : c.Uncounted) (i : ℕ) : (c.uninstallWatch i).2.Uncounted := by
  cases hw : c.m_watches.find i with
  | none => rwa [uninstallWatch_none hw]
  | some w =>
    rw [uninstallWatch_eq hc hw]
    intro h fit hfit
    dsimp only at hfit
    rw [Function.update_apply] at hfit
    split at hfit
    · cases hfit
    · exact hc h fit hfit

theorem filterOf_eq_some {f : RangedFilter} : c.filterOf i = some f ↔
    ∃ w fit, c.m_watches.find i = some w ∧ c.m_filters w.id = some fit ∧ fit.filter = f := by
  simp [filterOf, Option.bind_eq_some_iff]

end ClientBase

/-! ### What is asked of a client -/

/-- A watch that lives: the name that it looks up, and the filter that it was installed for. -/
structure Watch where
  number : ℕ
  id : H256
  filter : Option RangedFilter
deriving DecidableEq

inductive WatchRequest where
  | install (f : RangedFilter)
  | installOn (h : H256)
  | uninstall (i : ℕ)
deriving DecidableEq

/-- A client, and the watches that have been installed and not uninstalled. -/
structure Watched where
  client : ClientBase
  live : List Watch

namespace Watched
variable {s : Watched}

def fresh : Watched := ⟨.fresh, []⟩

/-- The watches are those that live, each with its own number; the filters that they were installed
for are there, and no others. -/
structure Kept (s : Watched) : Prop where
  single : (s.live.map Watch.number).Nodup
  watched : ∀ i h, (s.client.m_watches.find i).map ClientWatch.id = some h ↔
    ∃ v ∈ s.live, v.number = i ∧ v.id = h
  alive : ∀ v ∈ s.live, ∀ f, v.filter = some f → s.client.filterOf v.number = some f
  needed : ∀ h, (s.client.m_filters h).isSome → ∃ v ∈ s.live, v.id = h

theorem Kept.find {v : Watch} (hs : s.Kept) (hv : v ∈ s.live) :
    ∃ w, s.client.m_watches.find v.number = some w ∧ w.id = v.id :=
  Option.map_eq_some_iff.mp ((hs.watched v.number v.id).mpr ⟨v, hv, rfl, rfl⟩)

theorem Kept.installed {v : Watch} {f : RangedFilter} (hs : s.Kept) (hv : v ∈ s.live)
    (hf : v.filter = some f) : ∃ fit, s.client.m_filters v.id = some fit ∧ fit.filter = f := by
  obtain ⟨w, fit, hw, hfit, rfl⟩ := ClientBase.filterOf_eq_some.mp (hs.alive v hv f hf)
  obtain ⟨w', hw', hid⟩ := hs.find hv
  obtain rfl := Option.some.inj (hw.symm.trans hw')
  exact ⟨fit, hid ▸ hfit, rfl⟩

/-- A number is in the table exactly when a watch with it lives. -/
theorem Kept.find_eq_none (hs : s.Kept) {i : ℕ} :
    s.client.m_watches.find i = none ↔ i ∉ s.live.map Watch.number := by
  rw [List.mem_map, ← not_iff_not, not_not, ← ne_eq, Option.ne_none_iff_exists']
  constructor
  · rintro ⟨w, hw⟩
    obtain ⟨v, hv, hi, -⟩ := (hs.watched i w.id).mp (by rw [hw]; rfl)
    exact ⟨v, hv, hi⟩
  · rintro ⟨v, hv, rfl⟩
    obtain ⟨w, hw, -⟩ := hs.find hv
    exact ⟨w, hw⟩

/-- A watch is added, after its filter or without one. -/
theorem Kept.add_iff (hs : s.Kept) {F : H256 → Option InstalledFilter} {h : H256}
    {o : Option RangedFilter} (hkeep : ∀ k fit, s.client.m_filters k = some fit → F k = some fit)
    (hnew : ∀ k, (F k).isSome → (s.client.m_filters k).isSome ∨ k = h) :
    Kept ⟨(ClientBase.installWatchOn h {s.client with m_filters := F}).2,
        ⟨s.client.nextWatch, h, o⟩ :: s.live⟩ ↔
      s.client.m_watches.find s.client.nextWatch = none ∧
        ∀ f, o = some f → ∃ fit, F h = some fit ∧ fit.filter = f := by
  have hfind : ∀ i,
      (ClientBase.installWatchOn h {s.client with m_filters := F}).2.m_watches.find i =
      if i = s.client.nextWatch then some {id := h} else s.client.m_watches.find i :=
    fun i => SortedMap.find_insert ..
  constructor
  · intro hk
    refine ⟨?_, ?_⟩
    · exact hs.find_eq_none.mpr (List.nodup_cons.mp hk.single).1
    · exact fun f hf => hk.installed List.mem_cons_self hf
  · rintro ⟨hfree, ho⟩
    have hfresh := hs.find_eq_none.mp hfree
    have hold : ∀ v ∈ s.live, v.number ≠ s.client.nextWatch :=
      fun v hv heq => hfresh (heq ▸ List.mem_map_of_mem hv)
    constructor
    case single => exact List.nodup_cons.mpr ⟨hfresh, hs.single⟩
    case watched =>
      intro i k
      dsimp only
      rw [hfind]
      split
      case isTrue hi =>
        subst hi
        refine ⟨fun heq => ⟨_, List.mem_cons_self, rfl, Option.some.inj heq⟩, ?_⟩
        rintro ⟨v, hv, hi, rfl⟩
        obtain rfl | hv := List.mem_cons.mp hv
        · rfl
        · exact absurd hi (hold v hv)
      case isFalse hi =>
        rw [hs.watched]
        refine ⟨fun ⟨v, hv, hvi⟩ => ⟨v, List.mem_cons_of_mem _ hv, hvi⟩, ?_⟩
        rintro ⟨v, hv, rfl, rfl⟩
        obtain rfl | hv := List.mem_cons.mp hv
        · exact absurd rfl hi
        · exact ⟨v, hv, rfl, rfl⟩
    case alive =>
      intro v hv f hf
      rw [ClientBase.filterOf_eq_some]
      dsimp only
      rw [hfind]
      obtain rfl | hv := List.mem_cons.mp hv
      · obtain ⟨fit, hfit, rfl⟩ := ho f hf
        exact ⟨{id := h}, fit, if_pos rfl, hfit, rfl⟩
      · obtain ⟨w, hw, hid⟩ := hs.find hv
        obtain ⟨fit, hfit, rfl⟩ := hs.installed hv hf
        refine ⟨w, fit, ?_, hid ▸ hkeep _ _ hfit, rfl⟩
        rw [if_neg (hold v hv), hw]
    case needed =>
      intro k hk
      obtain hk | rfl := hnew k hk
      · obtain ⟨v, hv, hid⟩ := hs.needed k hk
        exact ⟨v, List.mem_cons_of_mem _ hv, hid⟩
      · exact ⟨_, List.mem_cons_self, rfl⟩

theorem kept_fresh : fresh.Kept where
  single := List.nodup_nil
  watched i h := iff_of_false (fun heq => by cases heq) fun ⟨_, hv, _⟩ => absurd hv List.not_mem_nil
  alive _ hv := absurd hv List.not_mem_nil
  needed _ h := by cases h

theorem Kept.logsOfWatch_eq (hs : s.Kept) {v : Watch} (hv : v ∈ s.live) {f : RangedFilter}
    (hf : v.filter = some f) (logs : RangedFilter → List LocalisedLogEntry) :
    s.client.logsOfWatch logs v.number = logs f := by
  rw [ClientBase.logsOfWatch, hs.alive v hv f hf]

/-- The changes of its filter come to a live watch. -/
theorem Kept.noteChanged_watch (hs : s.Kept) {v : Watch} (hv : v ∈ s.live) {f : RangedFilter}
    (hf : v.filter = some f) {filters : H256 → Bool} (hid : filters v.id = true) :
    ∃ w fit, s.client.m_watches.find v.number = some w ∧ s.client.m_filters v.id = some fit ∧
      fit.filter = f ∧ (s.client.noteChanged filters).m_watches.find v.number =
        some {w with changes := w.changes ++ fit.changes} := by
  obtain ⟨w, hw, hwid⟩ := hs.find hv
  obtain ⟨fit, hfit, rfl⟩ := hs.installed hv hf
  refine ⟨w, fit, hw, hfit, rfl, ?_⟩
  rw [← hwid] at hfit hid
  show (s.client.m_watches.mapVals _).find v.number = _
  rw [SortedMap.find_mapVals, hw, Option.map_some, if_pos hid, ClientBase.news, hfit]

/-! ### Runs -/

section Runs
variable [Sha3]

def step (s : Watched) : WatchRequest → Watched
  | .install f =>
    ⟨(s.client.installWatch f).2, ⟨(s.client.installWatch f).1, f.sha3, some f⟩ :: s.live⟩
  | .installOn h =>
    ⟨(s.client.installWatchOn h).2, ⟨(s.client.installWatchOn h).1, h,
      (s.client.m_filters h).map InstalledFilter.filter⟩ :: s.live⟩
  | .uninstall i => ⟨(s.client.uninstallWatch i).2, s.live.filter fun v => v.number ≠ i⟩

/-- A watch gets a number that none has, a filter a hash that no other has, and a watch is removed
only when no other is on its filter. -/
def Careful (s : Watched) : WatchRequest → Prop
  | .install f => s.client.m_watches.find s.client.nextWatch = none ∧
    ∀ fit, s.client.m_filters f.sha3 = some fit → fit.filter = f
  | .installOn _ => s.client.m_watches.find s.client.nextWatch = none
  | .uninstall i => ∀ v ∈ s.live, v.number = i →
    ∀ u ∈ s.live, u.number ≠ i → u.filter ≠ none → u.id ≠ v.id

theorem Kept.install_iff (hs : s.Kept) (f : RangedFilter) :
    (s.step (.install f)).Kept ↔ s.Careful (.install f) := by
  show Kept ⟨(ClientBase.installWatchOn f.sha3 (s.client.installFilter f)).2,
    ⟨(s.client.installFilter f).nextWatch, f.sha3, some f⟩ :: s.live⟩ ↔ _ ∧ _
  unfold ClientBase.installFilter
  split
  case isTrue hthere =>
    refine (hs.add_iff (fun _ _ h => h) fun _ h => .inl h).trans (and_congr_right fun _ => ?_)
    obtain ⟨fit, hfit⟩ := Option.isSome_iff_exists.mp hthere
    simp [hfit]
  case isFalse hthere =>
    have hnone := Option.not_isSome_iff_eq_none.mp hthere
    refine (hs.add_iff (fun k fit hfit => ?_) fun k hk => ?_).trans (and_congr_right fun _ => ?_)
    · rw [Function.update_of_ne, hfit]
      rintro rfl
      rw [hnone] at hfit
      cases hfit
    · by_cases hkf : k = f.sha3
      · exact .inr hkf
      · rw [Function.update_of_ne hkf] at hk
        exact .inl hk
    · simp [hnone]

theorem Kept.installOn_iff (hs : s.Kept) (h : H256) :
    (s.step (.installOn h)).Kept ↔ s.Careful (.installOn h) := by
  refine (hs.add_iff (fun _ _ h => h) fun _ h => .inl h).trans (and_iff_left fun f hf => ?_)
  exact Option.map_eq_some_iff.mp hf

theorem Kept.uninstall_iff (hs : s.Kept) (hc : s.client.Uncounted) (i : ℕ) :
    (s.step (.uninstall i)).Kept ↔ s.Careful (.uninstall i) := by
  show Kept ⟨(s.client.uninstallWatch i).2, s.live.filter fun v => v.number ≠ i⟩ ↔ _
  cases hw : s.client.m_watches.find i with
  | none =>
    have hfresh := hs.find_eq_none.mp hw
    have hall : s.live.filter (fun v => v.number ≠ i) = s.live :=
      List.filter_eq_self.mpr fun v hv =>
        decide_eq_true fun heq => hfresh (heq ▸ List.mem_map_of_mem hv)
    rw [ClientBase.uninstallWatch_none hw, hall]
    exact iff_of_true hs fun v hv heq => absurd (heq ▸ List.mem_map_of_mem hv) hfresh
  | some w =>
    have hid : ∀ v ∈ s.live, v.number = i → v.id = w.id := by
      rintro v hv rfl
      obtain ⟨w', hw', hid⟩ := hs.find hv
      rw [← hid, Option.some.inj (hw.symm.trans hw')]
    rw [ClientBase.uninstallWatch_eq hc hw]
    constructor
    · intro hk v hv hvi u hu hui hfilter huv
      obtain ⟨f, hf⟩ := Option.ne_none_iff_exists'.mp hfilter
      obtain ⟨fit, hfit, -⟩ := hk.installed (List.mem_filter.mpr ⟨hu, decide_eq_true hui⟩) hf
      dsimp only at hfit
      rw [huv, hid v hv hvi, Function.update_self] at hfit
      cases hfit
    · intro hcareful
      constructor
      case single => exact hs.single.sublist (List.filter_sublist.map _)
      case watched =>
        intro k h
        dsimp only
        rw [SortedMap.find_erase]
        split
        case isTrue hk =>
          refine iff_of_false (fun heq => by cases heq) ?_
          rintro ⟨v, hv, hvk, -⟩
          exact of_decide_eq_true (List.mem_filter.mp hv).2 (hvk.trans hk)
        case isFalse hk =>
          rw [hs.watched]
          refine ⟨?_, fun ⟨v, hv, hvk⟩ => ⟨v, (List.mem_filter.mp hv).1, hvk⟩⟩
          rintro ⟨v, hv, rfl, hh⟩
          exact ⟨v, List.mem_filter.mpr ⟨hv, decide_eq_true hk⟩, rfl, hh⟩
      case alive =>
        intro u hu f hf
        obtain ⟨hu, hui⟩ := List.mem_filter.mp hu
        have hui := of_decide_eq_true hui
        obtain ⟨v, hv, hvi, -⟩ := (hs.watched i w.id).mp (by rw [hw]; rfl)
        have hne := hcareful v hv hvi u hu hui (by rw [hf]; exact Option.some_ne_none f)
        rw [hid v hv hvi] at hne
        obtain ⟨w', hw', hid'⟩ := hs.find hu
        obtain ⟨fit, hfit, rfl⟩ := hs.installed hu hf
        refine ClientBase.filterOf_eq_some.mpr ⟨w', fit, ?_, ?_, rfl⟩
        · dsimp only
          rw [SortedMap.find_erase, if_neg hui, hw']
        · dsimp only
          rw [hid', Function.update_of_ne hne, hfit]
      case needed =>
        intro h hh
        dsimp only at hh
        rw [Function.update_apply] at hh
        split at hh
        · cases hh
        case isFalse hne =>
          obtain ⟨v, hv, rfl⟩ := hs.needed h hh
          exact ⟨v, List.mem_filter.mpr ⟨hv, decide_eq_true fun heq => hne (hid v hv heq)⟩, rfl⟩

theorem kept_step_iff (hs : s.Kept) (hc : s.client.Uncounted) (r : WatchRequest) :
    (s.step r).Kept ↔ s.Careful r := by
  cases r with
  | install f => exact hs.install_iff f
  | installOn h => exact hs.installOn_iff h
  | uninstall i => exact hs.uninstall_iff hc i

theorem uncounted_step (hc : s.client.Uncounted) (r : WatchRequest) :
    (s.step r).client.Uncounted := by
  cases r with
  | install f => exact ClientBase.uncounted_installFilter hc f
  | installOn h => exact hc
  | uninstall i => exact ClientBase.uncounted_uninstallWatch hc i

theorem uncounted_run (l : List WatchRequest) : (l.foldl step fresh).client.Uncounted := by
  induction l using List.reverseRecOn with
  | nil => exact ClientBase.uncounted_fresh
  | append_singleton l r ih =>
    rw [List.foldl_concat]
    exact uncounted_step ih r

/-- **The live watches keep their filters, and only these are kept, all along a run when and only
when no watch is removed from a filter that another one is on, no number is given twice at a time,
and no two filters have one hash.** -/
theorem kept_iff_careful (l : List WatchRequest) :
    (∀ pre, pre <+: l → (pre.foldl step fresh).Kept) ↔ Runs.Along step Careful fresh l := by
  have hiff : (∀ pre, pre <+: l → (pre.foldl step fresh).Kept ∧
      (pre.foldl step fresh).client.Uncounted) ↔ Runs.Along step Careful fresh l :=
    Runs.Along.iff_foldl (P := fun s : Watched => s.Kept ∧ s.client.Uncounted)
      (fun {s r} hs => (and_iff_left (uncounted_step hs.2 r)).trans (kept_step_iff hs.1 hs.2 r))
      ⟨kept_fresh, ClientBase.uncounted_fresh⟩
  rw [← hiff]
  exact forall_congr' fun pre => imp_congr_right fun _ => (and_iff_left (uncounted_run pre)).symm

end Runs

/-! ### Two watches on one filter -/

def emptyFilterHash : ℕ := 0xc596c62b5219946039765c39824fa4f1f34a8642dca9967d87785c40bd41014e

/-- Keccak-256 on the encoding of a filter that asks for nothing. -/
@[reducible] def watchSha3 : Sha3 where
  sha3 b := H256.alignRight (if b = (RangedFilter.streamRLP {}).toRLP.encode then
    toBigEndian 32 emptyFilterHash else [])

attribute [local instance] watchSha3

/-- The first of two watches on a filter is removed: the second has no filter any more. -/
theorem second_watch_lost :
    (step fresh (.install {})).Kept ∧ ¬(([.install {}, .install {}, .uninstall 0]).foldl step
      fresh).Kept := by
  constructor
  · exact (kept_fresh.install_iff {}).mpr ⟨rfl, fun _ h => nomatch h⟩
  · intro hk
    have hlost := hk.alive ⟨1, RangedFilter.sha3 {}, some {}⟩ (by decide +kernel) {} rfl
    revert hlost
    decide +kernel

end Watched
end Aleth.Ethereum
