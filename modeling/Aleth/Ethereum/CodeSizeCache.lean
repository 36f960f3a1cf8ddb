import Aleth.Ethereum.NamedCode

/-! The cache of code sizes (`CodeSizeCache.h`, `State.cpp`).

All states share one cache of the sizes of code by hash. Threads use states of
their own; a step is one operation on the cache, with what the thread does on
its state before the next one. `Codes` names the codes in play: no two of them
have the same hash.

A size is fetched by a test and a separate look-up, and an account that is
killed keeps its new code. Else the cache does not show (`invisible_iff`). -/
namespace Aleth.Ethereum
open Devcore Throwing
variable [Sha3]

/-! ### The code -/

structure CodeSizeCache where
  m_cache : SortedMap H256 ℕ := .empty

namespace CodeSizeCache

def c_maxSize : ℕ := 50000

/-- `random` is what `h256::random` draws. -/
def removeRandomElement (cache : CodeSizeCache) (random : H256) : CodeSizeCache :=
  match cache.m_cache.entries.find? fun entry => random ≤ entry.1 with
  | some it => ⟨cache.m_cache.erase it.1⟩
  | none =>
    match cache.m_cache.entries.head? with
    | some it => ⟨cache.m_cache.erase it.1⟩
    | none => cache

def store (cache : CodeSizeCache) (hash : H256) (size : ℕ) (random : H256) : CodeSizeCache :=
  let cache := if c_maxSize ≤ cache.m_cache.entries.length then cache.removeRandomElement random
    else cache
  ⟨cache.m_cache.insert hash size⟩

def contains (cache : CodeSizeCache) (hash : H256) : Bool := (cache.m_cache.find hash).isSome

/-- Nothing where `at` throws. -/
def get (cache : CodeSizeCache) (hash : H256) : Option ℕ := cache.m_cache.find hash

end CodeSizeCache

/-- The hash under which `code` stores the size of what it loads. -/
def State.loads (s : State) (a : Address) : Option H256 :=
  match s.peek a with
  | none => none
  | some account =>
    if account.m_codeHash ≠ EmptySHA3 ∧ account.m_codeCache = [] then some account.m_codeHash
    else none

/-- Where a thread is in its call. -/
inductive Place where
  | idle
  /-- In `codeSize`: the cache has the hash. -/
  | contained (a : Address) (codeHash : H256)
  /-- In `codeSize`: it has not. -/
  | missing (a : Address) (codeHash : H256)
  /-- In `codeSize`: the size is known from the code. -/
  | sized (a : Address) (codeHash : H256) (size : ℕ)
  /-- In `commit`, with what is still to be stored. -/
  | committing (stores : List (H256 × ℕ)) (db : StateDB)
  | threw

/-- The hash whose size the thread is about to get. -/
def Place.tested : Place → Option H256
  | .contained _ codeHash => some codeHash
  | _ => none

/-- What `codeSize` returned, and what `code` answers in that state. -/
structure SizeAnswer where
  size : ℕ
  code : Except StateError Bytes

structure Threads (C : Type) where
  cache : CodeSizeCache := {}
  states : C → State
  places : C → Place := fun _ => .idle
  answers : List SizeAnswer := []

/-- A step of a thread; a call begins where the last one has ended. -/
inductive CodeStep (C : Type) where
  | use (t : C) (u : Use) (random : H256)
  | code (t : C) (a : Address) (random : H256)
  | codeSize (t : C) (a : Address)
  | commit (t : C) (removeEmpty : Bool) (db : StateDB)
  | resume (t : C) (i : ℕ) (random : H256)

namespace Threads
variable {C : Type} [DecidableEq C]

def put (s : Threads C) (t : C) (state : State) (place : Place) : Threads C :=
  { s with
    states := Function.update s.states t state
    places := Function.update s.places t place }

/-- `State::code`, as far as the cache of sizes goes. -/
def noted (s : Threads C) (t : C) (a : Address) (random : H256) : CodeSizeCache :=
  match (s.states t).loads a, ((State.code a).run (s.states t)).1 with
  | some hash, .ok code => s.cache.store hash code.length random
  | _, _ => s.cache

def returns (s : Threads C) (t : C) (a : Address) (size : ℕ) : Threads C :=
  { s.put t (s.states t) .idle with
    answers := s.answers ++ [⟨size, ((State.code a).run (s.states t)).1⟩] }

/-- `setCode` looks at the code that there is. -/
def use (s : Threads C) (t : C) (u : Use) (random : H256) : Threads C :=
  let cache := match u with
    | .mutation (.setCode a _) => s.noted t a random
    | _ => s.cache
  {s.put t (u.call.run (s.states t)).2 .idle with cache := cache}

def code (s : Threads C) (t : C) (a : Address) (random : H256) : Threads C :=
  { s.put t ((State.code a).run (s.states t)).2 .idle with
    cache := s.noted t a random }

def codeSize (s : Threads C) (t : C) (a : Address) : Threads C :=
  let state := (s.states t).load a
  match (s.states t).peek a with
  | none => (s.put t state .idle).returns t a 0
  | some account =>
    if account.m_hasNewCode then (s.put t state .idle).returns t a account.m_codeCache.length
    else if s.cache.contains account.m_codeHash then
      s.put t state (.contained a account.m_codeHash)
    else s.put t state (.missing a account.m_codeHash)

def commit (s : Threads C) (t : C) (removeEmpty : Bool) (db : StateDB) : Threads C :=
  let state := if removeEmpty then (s.states t).removeEmptyAccounts else s.states t
  s.put t state (.committing state.newCodes db)

/-- The accounts are committed in an order of their own: `i` says which is next. -/
def resume (s : Threads C) (t : C) (i : ℕ) (random : H256) : Threads C :=
  match s.places t with
  | .idle => s
  | .contained a codeHash =>
    match s.cache.get codeHash with
    | some size => s.returns t a size
    | none => s.put t (s.states t) .threw
  | .missing a codeHash =>
    match (State.code a).run (s.states t) with
    | (.ok code, state) =>
      {s.put t state (.sized a codeHash code.length) with cache := s.noted t a random}
    | (.error _, state) => s.put t state .threw
  | .sized a codeHash size =>
    {s with cache := s.cache.store codeHash size random}.returns t a size
  | .committing stores db =>
    match stores[i % stores.length]? with
    | some (hash, size) =>
      { s.put t (s.states t) (.committing (stores.eraseIdx (i % stores.length)) db) with
        cache := s.cache.store hash size random }
    | none => s.put t ((s.states t).committed db) .idle
  | .threw => s

def Idle (s : Threads C) (t : C) : Bool :=
  match s.places t with
  | .idle => true
  | _ => false

def step (s : Threads C) : CodeStep C → Threads C
  | .use t u random => if s.Idle t then s.use t u random else s
  | .code t a random => if s.Idle t then s.code t a random else s
  | .codeSize t a => if s.Idle t then s.codeSize t a else s
  | .commit t removeEmpty db => if s.Idle t then s.commit t removeEmpty db else s
  | .resume t i random => s.resume t i random

/-- States that have just been opened, and an empty cache. -/
def opened (dbs : C → StateDB) (startNonce : U256) (engine : ℕ → ℕ) : Threads C :=
  {states := fun t => ⟨dbs t, .empty, [], [], startNonce, [], engine⟩}

/-! ### The specification -/

/-- Every `codeSize` has returned the length of the code, and none has thrown. -/
structure Invisible (s : Threads C) : Prop where
  sizes : ∀ answer ∈ s.answers, ∃ code, answer.code = .ok code ∧ answer.size = code.length
  returned : ∀ t, s.places t ≠ .threw

/-- What the cache was found to have is still there when its size is looked up, and an account
whose code size is asked has not been killed since it got new code. -/
def Undisturbed (s : Threads C) : CodeStep C → Prop
  | .resume t _ _ => ∀ codeHash ∈ (s.places t).tested, s.cache.contains codeHash = true
  | .codeSize t a => s.Idle t = true → ∀ account ∈ (s.states t).peek a,
    account.m_hasNewCode = true → account.m_codeHash = EmptySHA3 → account.m_codeCache = []
  | _ => True

instance (s : Threads C) : (r : CodeStep C) → Decidable (s.Undisturbed r)
  | .resume t _ _ =>
    inferInstanceAs (Decidable (∀ codeHash ∈ (s.places t).tested, s.cache.contains codeHash = true))
  | .codeSize t a =>
    inferInstanceAs (Decidable (s.Idle t = true → ∀ account ∈ (s.states t).peek a,
      account.m_hasNewCode = true → account.m_codeHash = EmptySHA3 → account.m_codeCache = []))
  | .use _ _ _ | .code _ _ _ | .commit _ _ _ => isTrue trivial

end Threads

/-- The codes that a step brings into play. -/
def Codes.NamesIn (codes : Codes) {C : Type} : CodeStep C → Prop
  | .use _ (.mutation (.setCode _ code)) _ => codes.Names code
  | .commit _ _ db => codes.NamesAll db
  | _ => True

/-! ### The shared cache -/

namespace CodeSizeCache
variable {codes : Codes} {cache : CodeSizeCache}

/-- The sizes are those of the codes. -/
def Fits (codes : Codes) (cache : CodeSizeCache) : Prop :=
  ∀ hash size, cache.m_cache.find hash = some size → size = (codes.code hash).length

theorem fits_empty : Fits codes {} := fun _ _ => nofun

theorem Fits.erase (h : cache.Fits codes) (hash : H256) :
    Fits codes ⟨cache.m_cache.erase hash⟩ := by
  intro hash' size hf
  rw [SortedMap.find_erase] at hf
  split at hf
  · cases hf
  · exact h hash' size hf

theorem Fits.store (h : cache.Fits codes) {hash : H256} {size : ℕ}
    (hsize : size = (codes.code hash).length) (random : H256) :
    (cache.store hash size random).Fits codes := by
  have hroom : (if c_maxSize ≤ cache.m_cache.entries.length then cache.removeRandomElement random
      else cache).Fits codes := by
    unfold removeRandomElement
    split
    · split
      · exact h.erase _
      · split
        · exact h.erase _
        · exact h
    · exact h
  intro hash' size' hf
  rw [CodeSizeCache.store, SortedMap.find_insert] at hf
  split at hf
  case isTrue heq =>
    cases hf
    rw [heq, hsize]
  case isFalse => exact hroom hash' size' hf

end CodeSizeCache

/-! ### The invariant -/

/-- What a thread in a call knows about the account it asks for. -/
def Place.Fits (codes : Codes) (state : State) : Place → Prop
  | .idle => True
  | .contained a codeHash | .missing a codeHash =>
    ∃ account, state.peek a = some account ∧ account.m_codeHash = codeHash
  | .sized a codeHash size =>
    size = (codes.code codeHash).length ∧
      ∃ account, state.peek a = some account ∧ account.m_codeHash = codeHash
  | .committing stores db =>
    (∀ entry ∈ stores, entry.2 = (codes.code entry.1).length) ∧ codes.NamesAll db
  | .threw => False

theorem Place.tested_eq_some {place : Place} {codeHash : H256}
    (h : place.tested = some codeHash) : ∃ a, place = .contained a codeHash := by
  cases place with
  | contained a codeHash' =>
    cases h
    exact ⟨a, rfl⟩
  | idle | missing _ _ | sized _ _ _ | committing _ _ | threw => cases h

def SizeAnswer.Right (answer : SizeAnswer) : Prop :=
  ∃ code, answer.code = .ok code ∧ answer.size = code.length

namespace Threads
variable {C : Type}

structure Sound (codes : Codes) (s : Threads C) : Prop where
  named : ∀ t, (s.states t).Named codes
  cache : s.cache.Fits codes
  places : ∀ t, (s.places t).Fits codes (s.states t)
  sizes : ∀ answer ∈ s.answers, answer.Right

variable {codes : Codes} {s : Threads C}

theorem Sound.invisible (h : s.Sound codes) : s.Invisible where
  sizes := h.sizes
  returned t ht := by
    have hfits := h.places t
    rw [ht] at hfits
    exact hfits

theorem Sound.setCache (h : s.Sound codes) {cache : CodeSizeCache} (hc : cache.Fits codes) :
    {s with cache := cache}.Sound codes := ⟨h.named, hc, h.places, h.sizes⟩

theorem Sound.noted (h : s.Sound codes) (t : C) (a : Address) (random : H256) :
    (s.noted t a random).Fits codes := by
  unfold Threads.noted
  rw [((h.named t).code a).1]
  split
  case h_2 => exact h.cache
  case h_1 hash code hload hok =>
    cases hok
    refine h.cache.store ?_ random
    unfold State.loads at hload
    split at hload
    case h_1 => cases hload
    case h_2 account hp =>
      split at hload
      case isFalse => cases hload
      case isTrue =>
        cases hload
        rw [(h.named t).codeAt hp]

variable [DecidableEq C] {t : C} {a : Address}

theorem Sound.put (h : s.Sound codes) (t : C) (place : Place) {state : State}
    (hstate : state.Named codes) (hplace : place.Fits codes state) :
    (s.put t state place).Sound codes where
  named t' := by
    by_cases heq : t' = t
    · subst heq
      simpa only [Threads.put, Function.update_self] using hstate
    · simpa only [Threads.put, Function.update_of_ne heq] using h.named t'
  cache := h.cache
  places t' := by
    by_cases heq : t' = t
    · subst heq
      simpa only [Threads.put, Function.update_self] using hplace
    · simpa only [Threads.put, Function.update_of_ne heq] using h.places t'
  sizes := h.sizes

theorem Sound.returns (h : s.Sound codes) {size : ℕ}
    (hsize : size = ((s.states t).codeAt a).length) : (s.returns t a size).Sound codes := by
  have hput := h.put t .idle (h.named t) trivial
  refine ⟨hput.named, hput.cache, hput.places, fun answer hmem => ?_⟩
  rcases List.mem_append.mp hmem with hmem | hmem
  · exact h.sizes answer hmem
  · rw [List.mem_singleton.mp hmem]
    exact ⟨_, ((h.named t).code a).1, hsize⟩

/-! ### What a step keeps -/

theorem Sound.use (h : s.Sound codes) {u : Use} {random : H256}
    (hu : ∀ a code, u = .mutation (.setCode a code) → codes.Names code) :
    (s.use t u random).Sound codes := by
  have hput := h.put t .idle (State.keepsNamed_use hu _ (h.named t)) trivial
  unfold Threads.use
  split
  · exact hput.setCache (h.noted t _ random)
  · exact hput.setCache h.cache

theorem Sound.code (h : s.Sound codes) (random : H256) : (s.code t a random).Sound codes := by
  have hput := h.put t .idle ((h.named t).code a).2.1 trivial
  exact hput.setCache (h.noted t a random)

theorem Sound.commit (h : s.Sound codes) {removeEmpty : Bool} {db : StateDB}
    (hdb : codes.NamesAll db) : (s.commit t removeEmpty db).Sound codes := by
  have hstate : (if removeEmpty then (s.states t).removeEmptyAccounts
      else s.states t).Named codes := by
    split
    · exact (h.named t).removeEmptyAccounts
    · exact h.named t
  exact h.put t _ hstate ⟨fun _ hmem => hstate.newCodes hmem, hdb⟩

/-- The state after the account has been read, and what `code` would answer there. -/
theorem codeAt_load (state : State) (a : Address) :
    (state.load a).codeAt a = state.codeAt a := by
  rw [State.codeAt, State.codeAt, State.peek_load, State.db_load]

theorem states_put_self {state : State} {place : Place} : (s.put t state place).states t = state :=
  Function.update_self ..

theorem places_put_self {state : State} {place : Place} : (s.put t state place).places t = place :=
  Function.update_self ..

/-- The size of an account with new code is returned without a look at the cache. -/
theorem Sound.codeSize (h : s.Sound codes)
    (hok : ∀ account ∈ (s.states t).peek a, account.m_hasNewCode = true →
      account.m_codeHash = EmptySHA3 → account.m_codeCache = []) :
    (s.codeSize t a).Sound codes := by
  have hload : ((s.states t).load a).Named codes := (h.named t).load a
  have hidle := h.put t .idle hload trivial
  unfold Threads.codeSize
  dsimp only
  split
  case h_1 hp =>
    refine hidle.returns ?_
    rw [states_put_self, codeAt_load, State.codeAt, hp]
    rfl
  case h_2 account hp =>
    have hfits : ∃ account', ((s.states t).load a).peek a = some account' ∧
        account'.m_codeHash = account.m_codeHash := by
      rw [State.peek_load]
      exact ⟨account, hp, rfl⟩
    split
    case isTrue hnew =>
      refine hidle.returns ?_
      rw [states_put_self, codeAt_load, State.codeAt, hp]
      exact (((h.named t).peek hp).length_iff hnew).mpr (hok account hp hnew)
    case isFalse =>
      split
      · exact h.put t _ hload hfits
      · exact h.put t _ hload hfits

theorem resume_of_evicted {codeHash : H256} {i : ℕ} {random : H256}
    (hplace : s.places t = .contained a codeHash) (hget : s.cache.get codeHash = none) :
    s.resume t i random = s.put t (s.states t) .threw := by
  simp only [Threads.resume, hplace, hget]

theorem Sound.resume (h : s.Sound codes) {i : ℕ} {random : H256}
    (hok : ∀ codeHash ∈ (s.places t).tested, s.cache.contains codeHash = true) :
    (s.resume t i random).Sound codes := by
  have hfits := h.places t
  unfold Threads.resume
  split
  case h_1 => exact h
  case h_2 a codeHash hplace =>
    rw [hplace] at hfits
    obtain ⟨account, hp, rfl⟩ := hfits
    have hcontains : s.cache.contains account.m_codeHash = true := hok _ (by rw [hplace]; rfl)
    split
    case h_1 size hget =>
      refine h.returns ?_
      rw [(h.named t).codeAt hp]
      exact h.cache _ size hget
    case h_2 hget =>
      rw [CodeSizeCache.contains] at hcontains
      rw [CodeSizeCache.get] at hget
      rw [hget] at hcontains
      cases hcontains
  case h_3 a codeHash hplace =>
    rw [hplace] at hfits
    obtain ⟨account, hp, rfl⟩ := hfits
    obtain ⟨hrun, hnamed, hsame⟩ := (h.named t).code a
    obtain ⟨account', hp', hhash⟩ := hsame account hp
    split
    case h_1 code state heq =>
      rw [heq] at hrun hnamed hp'
      cases hrun
      refine (h.put t _ hnamed ?_).setCache (h.noted t a random)
      exact ⟨congrArg List.length ((h.named t).codeAt hp), account', hp', hhash⟩
    case h_2 heq =>
      rw [heq] at hrun
      cases hrun
  case h_4 a codeHash size hplace =>
    rw [hplace] at hfits
    obtain ⟨hsize, account, hp, rfl⟩ := hfits
    refine (h.setCache (h.cache.store hsize random)).returns ?_
    rw [(h.named t).codeAt hp]
    exact hsize
  case h_5 stores db hplace =>
    rw [hplace] at hfits
    obtain ⟨hstores, hdb⟩ := hfits
    split
    case h_1 hash size hnext =>
      have hsize : size = (codes.code hash).length := hstores _ (List.mem_of_getElem? hnext)
      have hrest := h.put t (.committing (stores.eraseIdx (i % stores.length)) db) (h.named t)
        ⟨fun entry hmem => hstores entry (List.mem_of_mem_eraseIdx hmem), hdb⟩
      exact hrest.setCache (h.cache.store hsize random)
    case h_2 => exact h.put t _ (State.named_committed _ hdb) trivial
  case h_6 => exact h

theorem Sound.step (h : s.Sound codes) {r : CodeStep C} (hnames : codes.NamesIn r)
    (hok : s.Undisturbed r) : (s.step r).Sound codes := by
  cases r with
  | use t u random =>
    change (if s.Idle t then s.use t u random else s).Sound codes
    split
    · refine h.use ?_
      rintro a code rfl
      exact hnames
    · exact h
  | code t a random =>
    change (if s.Idle t then s.code t a random else s).Sound codes
    split
    · exact h.code random
    · exact h
  | codeSize t a =>
    change (if s.Idle t then s.codeSize t a else s).Sound codes
    split
    case isTrue hidle => exact h.codeSize (hok hidle)
    case isFalse => exact h
  | commit t removeEmpty db =>
    change (if s.Idle t then s.commit t removeEmpty db else s).Sound codes
    split
    · exact h.commit hnames
    · exact h
  | resume t i random => exact h.resume hok

/-- Else a size is wrong, or the look-up throws. -/
theorem Sound.disturbed (h : s.Sound codes) {r : CodeStep C} (hdis : ¬s.Undisturbed r) :
    ¬(s.step r).Invisible := by
  intro hinv
  apply hdis
  cases r with
  | use _ _ _ | code _ _ _ | commit _ _ _ => trivial
  | codeSize t a =>
    intro hidle account hp hnew
    have hstep : s.step (.codeSize t a) =
        (s.put t ((s.states t).load a) .idle).returns t a account.m_codeCache.length := by
      rw [Threads.step, if_pos hidle, Threads.codeSize, hp]
      exact if_pos hnew
    rw [hstep] at hinv
    obtain ⟨code, hcode, hsize⟩ :=
      hinv.sizes _ (List.mem_append_right _ (List.mem_singleton_self _))
    have hrun := (((h.named t).load a).code a).1
    rw [states_put_self, hrun, codeAt_load, State.codeAt, hp] at hcode
    cases hcode
    exact (((h.named t).peek hp).length_iff hnew).mp hsize
  | resume t i random =>
    intro codeHash htested
    by_contra hmissing
    have hget : s.cache.get codeHash = none := Option.not_isSome_iff_eq_none.mp hmissing
    obtain ⟨a, hplace⟩ := Place.tested_eq_some htested
    have hstep : s.step (.resume t i random) = s.put t (s.states t) .threw :=
      resume_of_evicted hplace hget
    rw [hstep] at hinv
    exact hinv.returned t places_put_self

/-! ### Every run -/

omit [DecidableEq C] in
theorem sound_opened {dbs : C → StateDB} (hdbs : ∀ t, codes.NamesAll (dbs t)) (startNonce : U256)
    (engine : ℕ → ℕ) : (opened dbs startNonce engine).Sound codes where
  named t := ⟨hdbs t, fun _ _ => nofun, fun _ hc => nomatch hc⟩
  cache := CodeSizeCache.fits_empty
  places _ := trivial
  sizes _ hmem := nomatch hmem

/-- **Whatever the threads do, every `codeSize` returns the length of the code, exactly when no
hash is evicted between the test and the look-up of its size, and no code size is asked of an
account that was killed after it got new code.** -/
theorem invisible_iff (codes : Codes) {dbs : C → StateDB} (startNonce : U256) (engine : ℕ → ℕ)
    {steps : List (CodeStep C)} (hdbs : ∀ t, codes.NamesAll (dbs t))
    (hsteps : ∀ r ∈ steps, codes.NamesIn r) :
    (∀ pre, pre <+: steps → (pre.foldl step (opened dbs startNonce engine)).Invisible) ↔
      Runs.Along step Undisturbed (opened dbs startNonce engine) steps := by
  refine Runs.Along.iff_good_of (P := Sound codes) (G := Invisible) (q := codes.NamesIn)
    Sound.invisible (fun {s r} h hq => ⟨fun hinv => ?_, fun hok => ?_⟩)
    (fun h hq hok => h.step hq hok) hsteps (sound_opened hdbs startNonce engine)
  · by_contra hdis
    exact h.disturbed hdis hinv
  · exact (h.step hq hok).invisible

end Threads

/-! ### Where the cache shows -/

omit [Sha3] in
/-- A full cache loses the hash that is drawn. -/
theorem CodeSizeCache.get_store_of_full {cache : CodeSizeCache} {hash other : H256} {size : ℕ}
    (hfull : c_maxSize ≤ cache.m_cache.entries.length) (hcontains : cache.contains hash = true)
    (hne : hash ≠ other) : (cache.store other size hash).get hash = none := by
  obtain ⟨v, hv⟩ := Option.isSome_iff_exists.mp hcontains
  obtain ⟨before, after, hsplit⟩ := List.append_of_mem (SortedMap.find_eq_some_iff.mp hv)
  have hfirst : (cache.m_cache.entries.find? fun entry => hash ≤ entry.1) = some (hash, v) := by
    rw [List.find?_eq_some_iff_append]
    refine ⟨decide_eq_true le_rfl, before, after, hsplit, fun entry hmem => ?_⟩
    have hsorted := cache.m_cache.sorted
    rw [hsplit] at hsorted
    have hlt : entry.1 < hash := (List.pairwise_append.mp hsorted).2.2 entry hmem _
      List.mem_cons_self
    simpa using hlt
  rw [CodeSizeCache.get, CodeSizeCache.store, if_pos hfull, removeRandomElement, hfirst]
  dsimp only
  rw [SortedMap.find_insert, if_neg hne, SortedMap.find_erase, if_pos rfl]

namespace Threads
variable {C : Type} [DecidableEq C]

/-- So a thread that stores a size makes another one throw. -/
theorem resume_evicted {s : Threads C} {t t' : C} {a a' : Address} {hash other : H256} {size : ℕ}
    (hfull : CodeSizeCache.c_maxSize ≤ s.cache.m_cache.entries.length)
    (hcontains : s.cache.contains hash = true) (hne : hash ≠ other) (ht : t ≠ t')
    (hplace : s.places t = .contained a hash) (hplace' : s.places t' = .sized a' other size)
    (i j : ℕ) (random : H256) :
    (((s.step (.resume t' i hash)).step (.resume t j random)).places t) = .threw := by
  have hstep : s.step (.resume t' i hash) =
      {s with cache := s.cache.store other size hash}.returns t' a' size := by
    simp only [Threads.step, Threads.resume, hplace']
  have hkept : (s.step (.resume t' i hash)).places t = .contained a hash := by
    rw [hstep]
    exact (Function.update_of_ne ht ..).trans hplace
  have hget : (s.step (.resume t' i hash)).cache.get hash = none := by
    rw [hstep]
    exact CodeSizeCache.get_store_of_full hfull hcontains hne
  exact (congrArg (fun s => s.places t) (resume_of_evicted hkept hget)).trans places_put_self

end Threads
end Aleth.Ethereum

/-! ### Samples -/
namespace Aleth.Ethereum.Threads
open Devcore Throwing State

attribute [local instance] stateSha3

/-- No code, and one byte. -/
def sampleCodes : Codes := ⟨fun hash => if hash = EmptySHA3 then [] else [0x60], if_pos rfl⟩

theorem sampleCodes_db : sampleCodes.NamesAll sampleDB := by
  intro a stored h
  unfold sampleDB at h
  dsimp only at h
  split at h
  · cases h
    rfl
  · cases h

theorem sampleCodes_names : sampleCodes.Names [0x60] := by
  unfold Codes.Names
  decide +kernel

/-- The code of an account is set, and two threads ask for code sizes. -/
def sampleSteps : List (CodeStep Bool) :=
  [.use true (.mutation (.setCode 1 [0x60])) EmptySHA3, .codeSize true 1, .codeSize false 1,
    .resume false 0 EmptySHA3, .resume false 0 EmptySHA3, .codeSize true 2]

theorem invisible_iff_sample :
    (sampleSteps.foldl step (opened (fun _ => sampleDB) 0 fun _ => 0)).Invisible := by
  refine (invisible_iff sampleCodes 0 (fun _ => 0) (fun _ => sampleCodes_db) ?_).mpr
    (by decide +kernel) sampleSteps List.prefix_rfl
  simp only [sampleSteps, List.forall_mem_cons, List.not_mem_nil, false_implies, implies_true,
    and_true, Codes.NamesIn]
  exact sampleCodes_names

/-- The account is killed, and still says that it has new code. -/
def killedSteps : List (CodeStep Bool) :=
  [.use true (.mutation (.setCode 1 [0x60])) EmptySHA3, .use true (.kill 1) EmptySHA3,
    .codeSize true 1]

theorem killed_hasSize :
    ¬(killedSteps.foldl step (opened (fun _ => sampleDB) 0 fun _ => 0)).Invisible := by
  intro h
  have hanswers : (killedSteps.foldl step
      (opened (fun _ => sampleDB) 0 fun _ => 0)).answers.map (fun answer =>
        (answer.size, answer.code.toOption)) = [(1, some [])] := by decide +kernel
  obtain ⟨answer, hmem, heq⟩ := List.mem_map.mp (hanswers ▸ List.mem_singleton_self (1, some []))
  obtain ⟨code, hcode, hsize⟩ := h.sizes answer hmem
  rw [hcode, Prod.mk.injEq] at heq
  cases heq.2
  rw [heq.1] at hsize
  cases hsize

end Aleth.Ethereum.Threads
