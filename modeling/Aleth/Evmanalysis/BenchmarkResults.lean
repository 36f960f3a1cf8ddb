import Aleth.Structure.SortedMap
import Mathlib

/-! Averages of measurements (`BenchmarkResults.h`, `BenchmarkResults.cpp`).

Times are exact numbers. The measurements of a key are taken together in groups
of as many as the granularity says, and a group is committed as one batch, its
mean. The gas of a batch is divided in integers, and the report gives the times
a second time in place of the gas: `Averaged` is what the batches and the report
should be, and it holds exactly where the groups are `Even`
(`averaged_iff`). -/
namespace Aleth.Evmanalysis

/-! ### The code -/

structure BenchmarkMeasurement where
  time : ℚ
  gas : ℤ
deriving DecidableEq

namespace BenchmarkMeasurement

def zero : BenchmarkMeasurement := ⟨0, 0⟩

/-- `operator+=`. -/
def add (m rhs : BenchmarkMeasurement) : BenchmarkMeasurement :=
  ⟨m.time + rhs.time, m.gas + rhs.gas⟩

/-- `operator/=`, which rounds the gas towards zero. -/
def div (m : BenchmarkMeasurement) (value : UInt64) : BenchmarkMeasurement :=
  ⟨m.time / value.toNat, m.gas.tdiv value.toNat⟩

end BenchmarkMeasurement

/-- `boost::accumulators::accumulator_set`, as far as the mean goes. -/
structure Accumulator where
  count : UInt64
  sum : ℚ
deriving DecidableEq

namespace Accumulator

def empty : Accumulator := ⟨0, 0⟩

def push (a : Accumulator) (x : ℚ) : Accumulator := ⟨a.count + 1, a.sum + x⟩

/-- Nothing where the quotient is not a number. -/
def mean (a : Accumulator) : Option ℚ :=
  if a.count = 0 then none else some (a.sum / a.count.toNat)

end Accumulator

/-- What `BenchmarkResults::toJson` puts into the object. -/
structure ResultsJson where
  count : UInt64
  granularity : UInt64
  timeMean : Option ℚ
  gasMean : Option ℚ
  throughputMean : Option ℚ
  /-- Only in the full report. -/
  times : Option (List ℚ)
  gas : Option (List ℚ)
deriving DecidableEq

structure BenchmarkResults where
  m_measurements : List BenchmarkMeasurement
  m_accTime : Accumulator
  m_accGas : Accumulator
  m_granularity : UInt64
  m_currentMeasurement : BenchmarkMeasurement
  m_currentMeasurementCount : UInt64
deriving DecidableEq

namespace BenchmarkResults

/-- The constructor. -/
def new (granularity : UInt64) : BenchmarkResults :=
  ⟨[], .empty, .empty, granularity, .zero, 0⟩

def addMeasurement (r : BenchmarkResults) (measurement : BenchmarkMeasurement) :
    BenchmarkResults :=
  if r.m_granularity ≤ r.m_currentMeasurementCount + 1 then
    let normalizedMeasurement := (r.m_currentMeasurement.add measurement).div r.m_granularity
    {r with
      m_measurements := r.m_measurements ++ [normalizedMeasurement]
      m_accTime := r.m_accTime.push normalizedMeasurement.time
      m_accGas := r.m_accGas.push normalizedMeasurement.gas
      m_currentMeasurement := .zero
      m_currentMeasurementCount := 0}
  else
    {r with
      m_currentMeasurement := r.m_currentMeasurement.add measurement
      m_currentMeasurementCount := r.m_currentMeasurementCount + 1}

def count (r : BenchmarkResults) : UInt64 := r.m_accTime.count

def mean (r : BenchmarkResults) : Option ℚ := r.m_accTime.mean

def gasMean (r : BenchmarkResults) : Option ℚ := r.m_accGas.mean

def toJson (r : BenchmarkResults) (full : Bool) : ResultsJson :=
  let times := r.m_measurements.map fun measurement => measurement.time
  { count := r.count
    granularity := r.m_granularity
    timeMean := r.mean
    gasMean := r.gasMean
    throughputMean := do
      let gasMean ← r.gasMean
      let mean ← r.mean
      if mean = 0 then none else some (gasMean / mean)
    times := if full then some times else none
    gas := if full then some times else none }

end BenchmarkResults

section Map
variable {T : Type} [LinearOrder T]

structure BenchmarkResultsMap (T : Type) [LinearOrder T] where
  m_results : SortedMap T BenchmarkResults
  m_totalCount : UInt64
  m_granularity : UInt64

/-- What `BenchmarkResultsMap::toJson` puts into the object. -/
structure MapJson where
  granularity : UInt64
  total_count : UInt64
  stats : SortedMap String ResultsJson

namespace BenchmarkResultsMap

def new (granularity : UInt64) : BenchmarkResultsMap T := ⟨.empty, 0, granularity⟩

def addMeasurement (m : BenchmarkResultsMap T) (key : T) (measurement : BenchmarkMeasurement) :
    BenchmarkResultsMap T :=
  let result := (m.m_results.find key).getD (.new m.m_granularity)
  {m with
    m_totalCount := m.m_totalCount + 1
    m_results := m.m_results.insert key (result.addMeasurement measurement)}

/-- Different keys have different names. -/
def toJson (keyToString : T ↪ String) (m : BenchmarkResultsMap T) (full : Bool) : MapJson :=
  { granularity := m.m_granularity
    total_count := m.m_totalCount
    stats := m.m_results.entries.foldl
      (fun stats kv => stats.insert (keyToString kv.1) (kv.2.toJson full)) .empty }

end BenchmarkResultsMap

/-- A sequence of calls. -/
def run (granularity : UInt64) (calls : List (T × BenchmarkMeasurement)) : BenchmarkResultsMap T :=
  calls.foldl (fun m call => m.addMeasurement call.1 call.2) (.new granularity)

/-! ### What is measured -/

/-- The measurements of a key. -/
def measured (key : T) (calls : List (T × BenchmarkMeasurement)) : List BenchmarkMeasurement :=
  (calls.filter fun call => call.1 = key).map Prod.snd

end Map

/-- The `i`-th of the groups of `g` consecutive measurements. -/
def group (g : ℕ) (measurements : List BenchmarkMeasurement) (i : ℕ) : List BenchmarkMeasurement :=
  (measurements.drop (i * g)).take g

def sumTime (measurements : List BenchmarkMeasurement) : ℚ :=
  (measurements.map fun measurement => measurement.time).sum

def sumGas (measurements : List BenchmarkMeasurement) : ℤ :=
  (measurements.map fun measurement => measurement.gas).sum

/-- The batches are the means of the groups, and the report says so. -/
structure Averages (g : ℕ) (measurements : List BenchmarkMeasurement) (r : BenchmarkResults) :
    Prop where
  committed : r.m_measurements.length = measurements.length / g
  means : ∀ i (h : i < r.m_measurements.length),
    (r.m_measurements.get ⟨i, h⟩).time = sumTime (group g measurements i) / g ∧
      ((r.m_measurements.get ⟨i, h⟩).gas : ℚ) = sumGas (group g measurements i) / g
  count : r.count.toNat = measurements.length / g
  total : ∃ mean, r.gasMean = some mean ∧
    mean * r.count.toNat * g = sumGas (measurements.take (measurements.length / g * g))
  times : (r.toJson true).times = some (r.m_measurements.map fun batch => batch.time)
  gas : (r.toJson true).gas = some (r.m_measurements.map fun batch => (batch.gas : ℚ))

/-- There is a complete group, and in every one the sum of the gas can be divided by the
granularity and is that of the times. -/
def Even (g : ℕ) (measurements : List BenchmarkMeasurement) : Prop :=
  g ≤ measurements.length ∧ ∀ i < measurements.length / g,
    (g : ℤ) ∣ sumGas (group g measurements i) ∧
      sumTime (group g measurements i) = sumGas (group g measurements i)

instance (g : ℕ) (measurements : List BenchmarkMeasurement) : Decidable (Even g measurements) :=
  inferInstanceAs (Decidable (_ ∧ _))

/-- What a sequence of calls should come to. -/
structure Averaged {T : Type} [LinearOrder T] (keyToString : T ↪ String) (g : UInt64)
    (calls : List (T × BenchmarkMeasurement)) (m : BenchmarkResultsMap T) : Prop where
  total_count : (m.toJson keyToString true).total_count.toNat = calls.length
  results : ∀ key ∈ calls.map Prod.fst, ∃ r, m.m_results.find key = some r ∧
    (m.toJson keyToString true).stats.find (keyToString key) = some (r.toJson true) ∧
    Averages g.toNat (measured key calls) r

/-! ### Groups -/

/-- The mean as it is committed. -/
def batch (g : UInt64) (l : List BenchmarkMeasurement) : BenchmarkMeasurement :=
  BenchmarkMeasurement.div ⟨sumTime l, sumGas l⟩ g

/-- Where the results are after the groups and the rest of one that is not complete. -/
structure Holds (g : UInt64) (groups : List (List BenchmarkMeasurement))
    (rest : List BenchmarkMeasurement) (r : BenchmarkResults) : Prop where
  full : ∀ l ∈ groups, l.length = g.toNat
  short : rest.length < g.toNat
  results : r =
    { m_measurements := groups.map (batch g)
      m_accTime := ⟨.ofNat groups.length, (groups.map fun l => (batch g l).time).sum⟩
      m_accGas := ⟨.ofNat groups.length, (groups.map fun l => ((batch g l).gas : ℚ)).sum⟩
      m_granularity := g
      m_currentMeasurement := ⟨sumTime rest, sumGas rest⟩
      m_currentMeasurementCount := .ofNat rest.length }

variable {g : UInt64} {groups : List (List BenchmarkMeasurement)}
  {rest ms : List BenchmarkMeasurement} {r : BenchmarkResults}

theorem add_total (l : List BenchmarkMeasurement) (x : BenchmarkMeasurement) :
    BenchmarkMeasurement.add ⟨sumTime l, sumGas l⟩ x = ⟨sumTime (l ++ [x]), sumGas (l ++ [x])⟩ := by
  simp [BenchmarkMeasurement.add, sumTime, sumGas]

theorem push_sum (groups : List (List BenchmarkMeasurement)) (l : List BenchmarkMeasurement)
    (f : List BenchmarkMeasurement → ℚ) :
    Accumulator.push ⟨.ofNat groups.length, (groups.map f).sum⟩ (f l) =
      ⟨.ofNat (groups ++ [l]).length, ((groups ++ [l]).map f).sum⟩ := by
  simp [Accumulator.push]

theorem Holds.new (hg : 1 ≤ g) : Holds g [] [] (.new g) where
  full _ hl := absurd hl List.not_mem_nil
  short := UInt64.le_iff_toNat_le.mp hg
  results := rfl

/-- One more measurement completes the group, or is one more of the rest. -/
theorem Holds.add (h : Holds g groups rest r) (x : BenchmarkMeasurement) :
    ∃ groups' rest', groups'.flatten ++ rest' = groups.flatten ++ rest ++ [x] ∧
      Holds g groups' rest' (r.addMeasurement x) := by
  have hshort := h.short
  have hlt := g.toNat_lt
  have hnext : UInt64.ofNat rest.length + 1 = UInt64.ofNat (rest.length + 1) := by simp
  have hfull : g ≤ UInt64.ofNat rest.length + 1 ↔ g.toNat ≤ rest.length + 1 := by
    rw [hnext, UInt64.le_iff_toNat_le, UInt64.toNat_ofNat', Nat.mod_eq_of_lt (by omega)]
  rw [h.results, BenchmarkResults.addMeasurement]
  by_cases hc : g.toNat ≤ rest.length + 1
  · refine ⟨groups ++ [rest ++ [x]], [], by simp, ⟨?_, by simp; omega, ?_⟩⟩
    · intro l hl
      rcases List.mem_append.mp hl with hl | hl
      · exact h.full l hl
      · rw [List.mem_singleton.mp hl, List.length_append, List.length_singleton]
        omega
    · have hmap : (groups ++ [rest ++ [x]]).map (batch g) =
          groups.map (batch g) ++ [batch g (rest ++ [x])] := by simp
      rw [if_pos (hfull.mpr hc), hmap]
      dsimp only
      rw [add_total, ← batch, push_sum groups (rest ++ [x]) fun l => (batch g l).time,
        push_sum groups (rest ++ [x]) fun l => ((batch g l).gas : ℚ)]
      rfl
  · refine ⟨groups, rest ++ [x], by simp, ⟨h.full, by simp; omega, ?_⟩⟩
    rw [if_neg fun hle => hc (hfull.mp hle)]
    dsimp only
    rw [add_total, hnext, List.length_append, List.length_singleton]

theorem exists_holds (hg : 1 ≤ g) (ms : List BenchmarkMeasurement) :
    ∃ groups rest, groups.flatten ++ rest = ms ∧
      Holds g groups rest (ms.foldl BenchmarkResults.addMeasurement (.new g)) := by
  induction ms using List.reverseRecOn with
  | nil => exact ⟨[], [], rfl, .new hg⟩
  | append_singleton ms x ih =>
    obtain ⟨groups, rest, hms, h⟩ := ih
    obtain ⟨groups', rest', hms', h'⟩ := h.add x
    rw [List.foldl_append]
    exact ⟨groups', rest', by rw [hms', hms], h'⟩

/-! The groups are those of the specification. -/

theorem length_flatten_of_full {n : ℕ} (h : ∀ l ∈ groups, l.length = n) :
    groups.flatten.length = groups.length * n := by
  induction groups with
  | nil => simp
  | cons l groups ih =>
    rw [List.flatten_cons, List.length_append, ih fun l hl => h l (List.mem_cons_of_mem _ hl),
      h l List.mem_cons_self, List.length_cons]
    ring

theorem group_flatten {n i : ℕ} (h : ∀ l ∈ groups, l.length = n) (hi : i < groups.length) :
    group n (groups.flatten ++ rest) i = groups.get ⟨i, hi⟩ := by
  induction groups generalizing i with
  | nil => exact absurd hi (Nat.not_lt_zero i)
  | cons l groups ih =>
    have hl := h l List.mem_cons_self
    cases i with
    | zero => simp [group, ← hl]
    | succ i =>
      have hrest := ih (fun l hl => h l (List.mem_cons_of_mem _ hl)) (Nat.lt_of_succ_lt_succ hi)
      rw [List.get_cons_succ, ← hrest, group, group, List.flatten_cons, List.append_assoc,
        Nat.succ_mul, Nat.add_comm, ← List.drop_drop, ← hl, List.drop_left]

theorem Holds.pos (h : Holds g groups rest r) : 0 < g.toNat := (Nat.zero_le _).trans_lt h.short

theorem Holds.length_groups (h : Holds g groups rest r) :
    (groups.flatten ++ rest).length / g.toNat = groups.length := by
  rw [List.length_append, length_flatten_of_full h.full, Nat.mul_comm, Nat.mul_add_div h.pos,
    Nat.div_eq_of_lt h.short, Nat.add_zero]

theorem Holds.take_committed (h : Holds g groups rest r) :
    (groups.flatten ++ rest).take (groups.length * g.toNat) = groups.flatten := by
  rw [← length_flatten_of_full h.full, List.take_left]

/-- What the groups must be for their means to be integers, and the same for gas and time. -/
theorem Holds.even_iff (h : Holds g groups rest r) :
    Even g.toNat (groups.flatten ++ rest) ↔ groups ≠ [] ∧
      ∀ l ∈ groups, (g.toNat : ℤ) ∣ sumGas l ∧ sumTime l = sumGas l := by
  have hlen := h.length_groups
  have hsome : g.toNat ≤ (groups.flatten ++ rest).length ↔ groups ≠ [] := by
    rw [← Nat.one_le_div_iff h.pos, hlen, Nat.one_le_iff_ne_zero, ne_eq, List.length_eq_zero_iff]
  rw [Even, hsome, hlen]
  apply and_congr_right
  intro _
  constructor
  · intro hall l hl
    obtain ⟨⟨i, hi⟩, rfl⟩ := List.get_of_mem hl
    have heven := hall i hi
    rwa [group_flatten h.full hi] at heven
  · intro hall i hi
    rw [group_flatten h.full hi]
    exact hall _ (List.get_mem _ _)

/-! ### The averages -/

theorem dvd_of_tdiv_eq {s : ℤ} {n : ℕ} (hn : 0 < n) (h : ((s.tdiv n : ℤ) : ℚ) = s / n) :
    (n : ℤ) ∣ s := by
  have hne : (n : ℚ) ≠ 0 := by positivity
  rw [eq_div_iff hne] at h
  exact ⟨s.tdiv n, by rw [mul_comm]; exact_mod_cast h.symm⟩

theorem tdiv_of_dvd {s : ℤ} {n : ℕ} (hn : 0 < n) (h : (n : ℤ) ∣ s) :
    ((s.tdiv n : ℤ) : ℚ) = s / n := by
  have hne : (n : ℚ) ≠ 0 := by positivity
  rw [eq_div_iff hne]
  exact_mod_cast Int.tdiv_mul_cancel h

/-- The gas of the batches, as much as was measured. -/
theorem sum_batches (hn : 0 < g.toNat) (h : ∀ l ∈ groups, (g.toNat : ℤ) ∣ sumGas l) :
    (groups.map fun l => ((batch g l).gas : ℚ)).sum * g.toNat = sumGas groups.flatten := by
  induction groups with
  | nil => simp [sumGas]
  | cons l groups ih =>
    have hl : ((batch g l).gas : ℚ) * g.toNat = sumGas l := by
      have hne : (g.toNat : ℚ) ≠ 0 := by positivity
      rw [← eq_div_iff hne]
      exact tdiv_of_dvd hn (h l List.mem_cons_self)
    have hsum : sumGas (l :: groups).flatten = sumGas l + sumGas groups.flatten := by
      simp [sumGas]
    rw [List.map_cons, List.sum_cons, add_mul, hl, ih fun l hl => h l (List.mem_cons_of_mem _ hl),
      hsum, Int.cast_add]

theorem Holds.gas_iff (h : Holds g groups rest r) :
    (r.toJson true).gas = some (r.m_measurements.map fun batch => (batch.gas : ℚ)) ↔
      ∀ l ∈ groups, (batch g l).time = (batch g l).gas := by
  have hmeasurements : r.m_measurements = groups.map (batch g) := by rw [h.results]
  rw [BenchmarkResults.toJson, if_pos rfl, Option.some.injEq, hmeasurements, List.map_map,
    List.map_map, List.map_inj_left]
  rfl

theorem Holds.means_iff (h : Holds g groups rest r) :
    (∀ i (hi : i < r.m_measurements.length),
      (r.m_measurements.get ⟨i, hi⟩).time =
          sumTime (group g.toNat (groups.flatten ++ rest) i) / g.toNat ∧
        ((r.m_measurements.get ⟨i, hi⟩).gas : ℚ) =
          sumGas (group g.toNat (groups.flatten ++ rest) i) / g.toNat) ↔
      ∀ l ∈ groups, (g.toNat : ℤ) ∣ sumGas l := by
  have hmeasurements : r.m_measurements = groups.map (batch g) := by rw [h.results]
  rw [hmeasurements]
  constructor
  · intro hmeans l hl
    obtain ⟨⟨i, hi⟩, rfl⟩ := List.get_of_mem hl
    have hbatch := (hmeans i (by rwa [List.length_map])).2
    rw [group_flatten h.full hi] at hbatch
    apply dvd_of_tdiv_eq h.pos
    simpa [batch, BenchmarkMeasurement.div] using hbatch
  · intro hdvd i hi
    rw [List.length_map] at hi
    rw [group_flatten h.full hi]
    have hgas := tdiv_of_dvd h.pos (hdvd _ (List.get_mem groups ⟨i, hi⟩))
    simpa [batch, BenchmarkMeasurement.div] using hgas

theorem Holds.gasMean_eq (h : Holds g groups rest r) (hlt : groups.length < 2 ^ 64) :
    r.gasMean = if groups = [] then none
      else some ((groups.map fun l => ((batch g l).gas : ℚ)).sum / groups.length) := by
  have hcount : (UInt64.ofNat groups.length).toNat = groups.length := by
    rw [UInt64.toNat_ofNat', Nat.mod_eq_of_lt hlt]
  have hzero : UInt64.ofNat groups.length = 0 ↔ groups = [] := by
    rw [← UInt64.toNat_inj, hcount, UInt64.toNat_zero, List.length_eq_zero_iff]
  rw [BenchmarkResults.gasMean, h.results, Accumulator.mean]
  simp only [hzero, hcount]

theorem Holds.count_eq (h : Holds g groups rest r) (hlt : groups.length < 2 ^ 64) :
    r.count.toNat = groups.length := by
  rw [BenchmarkResults.count, h.results]
  exact (UInt64.toNat_ofNat').trans (Nat.mod_eq_of_lt hlt)

theorem Holds.averages_iff (h : Holds g groups rest r) (hlt : groups.length < 2 ^ 64) :
    Averages g.toNat (groups.flatten ++ rest) r ↔ Even g.toNat (groups.flatten ++ rest) := by
  have hlen := h.length_groups
  have hne : (g.toNat : ℚ) ≠ 0 := by
    have := h.pos
    positivity
  have hsame : ∀ l, (g.toNat : ℤ) ∣ sumGas l →
      ((batch g l).time = (batch g l).gas ↔ sumTime l = sumGas l) := by
    intro l hdvd
    have hgas : ((batch g l).gas : ℚ) = sumGas l / g.toNat := tdiv_of_dvd h.pos hdvd
    rw [hgas]
    exact div_left_inj' hne
  rw [h.even_iff]
  constructor
  · intro ha
    have hdvd := h.means_iff.mp ha.means
    have hgas := h.gas_iff.mp ha.gas
    refine ⟨?_, fun l hl => ⟨hdvd l hl, (hsame l (hdvd l hl)).mp (hgas l hl)⟩⟩
    intro hnil
    obtain ⟨mean, hmean, -⟩ := ha.total
    rw [h.gasMean_eq hlt, if_pos hnil] at hmean
    cases hmean
  · intro he
    have hdvd : ∀ l ∈ groups, (g.toNat : ℤ) ∣ sumGas l := fun l hl => (he.2 l hl).1
    have hpos : (groups.length : ℚ) ≠ 0 := by
      rw [Nat.cast_ne_zero, ne_eq, List.length_eq_zero_iff]
      exact he.1
    refine
      { committed := by rw [hlen, h.results, List.length_map]
        means := h.means_iff.mpr hdvd
        count := by rw [hlen, h.count_eq hlt]
        total := ⟨_, by rw [h.gasMean_eq hlt, if_neg he.1], ?_⟩
        times := rfl
        gas := h.gas_iff.mpr fun l hl => (hsame l (hdvd l hl)).mpr (he.2 l hl).2 }
    rw [hlen, h.take_committed, h.count_eq hlt, div_mul_cancel₀ _ hpos,
      sum_batches h.pos hdvd]

/-! ### Calls -/

section Runs
variable {T : Type} [LinearOrder T] {calls : List (T × BenchmarkMeasurement)}

theorem measured_append (key : T) (calls : List (T × BenchmarkMeasurement))
    (call : T × BenchmarkMeasurement) : measured key (calls ++ [call]) =
      if key = call.1 then measured key calls ++ [call.2] else measured key calls := by
  by_cases h : call.1 = key
  · simp [measured, h]
  · simp [measured, h, Ne.symm h]

theorem run_append (calls : List (T × BenchmarkMeasurement)) (call : T × BenchmarkMeasurement) :
    run g (calls ++ [call]) = (run g calls).addMeasurement call.1 call.2 := by
  simp [run]

theorem run_granularity : (run g calls).m_granularity = g := by
  induction calls using List.reverseRecOn with
  | nil => rfl
  | append_singleton calls call ih => rw [run_append, BenchmarkResultsMap.addMeasurement, ih]

theorem run_totalCount : (run g calls).m_totalCount = .ofNat calls.length := by
  induction calls using List.reverseRecOn with
  | nil => rfl
  | append_singleton calls call ih =>
    rw [run_append, BenchmarkResultsMap.addMeasurement, ih]
    simp

/-- The results of a key are those of its own measurements. -/
theorem find_run (key : T) : (run g calls).m_results.find key =
    if measured key calls = [] then none
    else some ((measured key calls).foldl BenchmarkResults.addMeasurement (.new g)) := by
  induction calls using List.reverseRecOn generalizing key with
  | nil => rfl
  | append_singleton calls call ih =>
    rw [run_append, BenchmarkResultsMap.addMeasurement, measured_append, run_granularity]
    simp only [SortedMap.find_insert, ih]
    by_cases hkey : key = call.1
    · subst hkey
      have hne : measured call.1 calls ++ [call.2] ≠ [] :=
        List.append_ne_nil_of_right_ne_nil _ (List.cons_ne_nil _ _)
      rw [if_pos rfl, if_pos rfl, if_neg hne, List.foldl_append]
      by_cases hnil : measured call.1 calls = []
      · simp [hnil]
      · simp [hnil]
    · rw [if_neg hkey, if_neg hkey]

theorem measured_ne_nil {key : T} (h : key ∈ calls.map Prod.fst) : measured key calls ≠ [] := by
  obtain ⟨call, hcall, rfl⟩ := List.mem_map.mp h
  have hmem : call.2 ∈ measured call.1 calls :=
    List.mem_map_of_mem (List.mem_filter.mpr ⟨hcall, by simp⟩)
  exact List.ne_nil_of_mem hmem

theorem length_measured_le (key : T) : (measured key calls).length ≤ calls.length := by
  rw [measured, List.length_map]
  exact List.length_filter_le _ _

/-- The statistics of the report by the names of the keys. -/
theorem find_foldl_stats (keyToString : T ↪ String) (full : Bool)
    {l : List (T × BenchmarkResults)} (hl : l.Pairwise fun a b => a.1 < b.1)
    (stats : SortedMap String ResultsJson) (key : T) :
    (l.foldl (fun stats kv => stats.insert (keyToString kv.1) (kv.2.toJson full)) stats).find
      (keyToString key) = ((SortedMap.findList key l).map fun r => r.toJson full).or
        (stats.find (keyToString key)) := by
  induction l generalizing stats with
  | nil => rfl
  | cons kv l ih =>
    obtain ⟨hfirst, hl⟩ := List.pairwise_cons.mp hl
    rw [List.foldl_cons, ih hl, SortedMap.findList, SortedMap.find_insert]
    by_cases hkey : key = kv.1
    · subst hkey
      rw [if_pos rfl, if_pos rfl, SortedMap.findList_eq_none_of_lt hfirst]
      rfl
    · rw [if_neg (keyToString.injective.ne hkey), if_neg hkey]

theorem find_stats (keyToString : T ↪ String) (m : BenchmarkResultsMap T) (full : Bool) (key : T) :
    (m.toJson keyToString full).stats.find (keyToString key) =
      (m.m_results.find key).map fun r => r.toJson full := by
  rw [BenchmarkResultsMap.toJson, find_foldl_stats keyToString full m.m_results.sorted]
  exact Option.or_none

/-- **Benchmark averages are the averages of what was measured** exactly for fewer than 2^64 calls
whose groups are even. -/
theorem averaged_iff (keyToString : T ↪ String) (hg : 1 ≤ g) :
    Averaged keyToString g calls (run g calls) ↔ calls.length < 2 ^ 64 ∧
      ∀ key ∈ calls.map Prod.fst, Even g.toNat (measured key calls) := by
  have htotal : ((run g calls).toJson keyToString true).total_count.toNat =
      calls.length % 2 ^ 64 := by
    rw [BenchmarkResultsMap.toJson, run_totalCount]
    exact UInt64.toNat_ofNat'
  have hresults : ∀ key ∈ calls.map Prod.fst, ∃ groups rest r,
      groups.flatten ++ rest = measured key calls ∧ Holds g groups rest r ∧
        (run g calls).m_results.find key = some r := by
    intro key hkey
    obtain ⟨groups, rest, hms, h⟩ := exists_holds hg (measured key calls)
    exact ⟨groups, rest, _, hms, h, by rw [find_run, if_neg (measured_ne_nil hkey)]⟩
  have hfew : ∀ {groups rest r} {key : T}, calls.length < 2 ^ 64 → Holds g groups rest r →
      groups.flatten ++ rest = measured key calls → groups.length < 2 ^ 64 := by
    intro groups rest r key hlt h hms
    have hle : (measured key calls).length ≤ calls.length := length_measured_le key
    have hdiv := Nat.div_le_self (measured key calls).length g.toNat
    rw [← hms, h.length_groups, hms] at hdiv
    omega
  constructor
  · intro ha
    have hlt : calls.length < 2 ^ 64 := by
      have hcount := htotal.symm.trans ha.total_count
      have hmod := Nat.mod_lt calls.length (show 0 < 2 ^ 64 by decide)
      omega
    refine ⟨hlt, fun key hkey => ?_⟩
    obtain ⟨groups, rest, r, hms, h, hfind⟩ := hresults key hkey
    obtain ⟨r', hfind', -, havg⟩ := ha.results key hkey
    rw [hfind, Option.some.injEq] at hfind'
    rw [← hfind', ← hms, h.averages_iff (hfew hlt h hms), hms] at havg
    exact havg
  · intro he
    refine ⟨htotal.trans (Nat.mod_eq_of_lt he.1), fun key hkey => ?_⟩
    obtain ⟨groups, rest, r, hms, h, hfind⟩ := hresults key hkey
    refine ⟨r, hfind, by rw [find_stats, hfind]; rfl, ?_⟩
    rw [← hms, h.averages_iff (hfew he.1 h hms), hms]
    exact he.2 key hkey

end Runs

/-! ### Samples -/

/-- The name of the only key. -/
def sampleName : Unit ↪ String := ⟨fun _ => "ADD", fun _ _ _ => rfl⟩

/-- Two measurements to a batch, and as much time as gas. -/
theorem averaged_even : Averaged sampleName 2 [((), ⟨1, 2⟩), ((), ⟨3, 2⟩)]
    (run 2 [((), ⟨1, 2⟩), ((), ⟨3, 2⟩)]) :=
  (averaged_iff sampleName (by decide)).mpr ⟨by decide, by decide +kernel⟩

/-- One measurement of the time 1 and the gas 3: the report gives 1 as the gas. -/
theorem averaged_uneven : ¬Averaged sampleName 1 [((), ⟨1, 3⟩)] (run 1 [((), ⟨1, 3⟩)]) := by
  intro h
  obtain ⟨r, hfind, -, havg⟩ := h.results () (by decide)
  have hr : some r = some ((BenchmarkResults.new 1).addMeasurement ⟨1, 3⟩) := hfind.symm
  rw [Option.some.inj hr] at havg
  have hgas := havg.gas
  revert hgas
  decide +kernel

end Aleth.Evmanalysis
