import Aleth.Devcore.Bytes
import Aleth.Structure.Json
import Mathlib

/-! Cutting what a connection sends into requests (`IpcServerBase::GenerateResponse`).

The scanner follows brackets and strings across reads and hands over a text when
its last bracket closes. Only its counter of open brackets has a bound: it is an
`int`, so a text that is nested deeper is where the framing ends
(`framed_iff`). -/
namespace Aleth.Web3jsonrpc
open Devcore Json

/-! ### The code -/

/-- The variables of `GenerateResponse`, and what `OnRequest` has been called with. -/
structure Scanner where
  request : Bytes := []
  escape : Bool := false
  inString : Bool := false
  i : ℕ := 0
  depth : ℤ := 0
  calls : List Bytes := []

/-- What an `int` can hold; to go past it is undefined. -/
def toInt (v : ℤ) : Option ℤ := if -2 ^ 31 ≤ v ∧ v < 2 ^ 31 then some v else none

namespace Scanner

/-- One turn of the inner loop, at the byte `c`. -/
def turn (s : Scanner) (c : UInt8) : Option Scanner :=
  if c = quote ∧ s.inString = false then
    some {s with inString := true, escape := false, i := s.i + 1}
  else if c = quote ∧ s.inString = true ∧ s.escape = false then
    some {s with inString := false, escape := false, i := s.i + 1}
  else if s.inString = true ∧ c = backslash ∧ s.escape = false then
    some {s with escape := true, i := s.i + 1}
  else if s.inString = true then
    some {s with escape := false, i := s.i + 1}
  else if c = Bracket.object.opens ∨ c = Bracket.array.opens then
    (toInt (s.depth + 1)).map fun depth => {s with depth := depth, i := s.i + 1}
  else if c = Bracket.object.closes ∨ c = Bracket.array.closes then
    (toInt (s.depth - 1)).map fun depth =>
      if depth = 0 then
        {s with
          request := s.request.drop (s.i + 1)
          i := 0
          depth := depth
          calls := s.calls ++ [s.request.take (s.i + 1)]}
      else {s with depth := depth, i := s.i + 1}
  else some {s with i := s.i + 1}

/-- A turn steps over the byte, or hands over what has been read up to it. -/
theorem turn_cases {s s' : Scanner} {c : UInt8} (h : s.turn c = some s') :
    (∃ e b d, s' = {s with escape := e, inString := b, depth := d, i := s.i + 1}) ∨
      s' = {s with
        request := s.request.drop (s.i + 1)
        i := 0
        depth := 0
        calls := s.calls ++ [s.request.take (s.i + 1)]} := by
  unfold turn at h
  split_ifs at h with hopen hclose hesc hin hdown hup
  · exact .inl ⟨_, _, _, (Option.some.inj h).symm⟩
  · exact .inl ⟨_, _, _, (Option.some.inj h).symm⟩
  · exact .inl ⟨_, _, _, (Option.some.inj h).symm⟩
  · exact .inl ⟨_, _, _, (Option.some.inj h).symm⟩
  · obtain ⟨depth, -, rfl⟩ := Option.map_eq_some_iff.mp h
    exact .inl ⟨_, _, _, rfl⟩
  · obtain ⟨depth, -, hs⟩ := Option.map_eq_some_iff.mp h
    split_ifs at hs with hzero
    · subst hzero
      exact .inr hs.symm
    · exact .inl ⟨_, _, _, hs.symm⟩
  · exact .inl ⟨_, _, _, (Option.some.inj h).symm⟩

theorem turn_unread {s s' : Scanner} {c : UInt8} (h : s.turn c = some s')
    (hi : s.i < s.request.length) : s'.request.length - s'.i < s.request.length - s.i := by
  obtain ⟨e, b, d, rfl⟩ | rfl := turn_cases h
  · dsimp only
    omega
  · rw [List.length_drop]
    omega

/-- `while (i < request.size())`. -/
def scan (s : Scanner) : Option Scanner :=
  if hi : s.i < s.request.length then
    match h : s.turn s.request[s.i] with
    | none => none
    | some s' => scan s'
  else some s
termination_by s.request.length - s.i
decreasing_by exact turn_unread h hi

/-- `request.append(buffer, nbytes)`. -/
def append (s : Scanner) (buffer : Bytes) : Scanner := {s with request := s.request ++ buffer}

/-- The reads, up to the one that returns nothing. -/
def serve : Scanner → List Bytes → Option Scanner
  | s, [] => some s
  | s, buffer :: reads => do
    let s ← scan (s.append buffer)
    serve s reads

end Scanner

/-- What `OnRequest` is called with, in order. -/
def GenerateResponse (reads : List Bytes) : Option (List Bytes) :=
  (Scanner.serve {} reads).map Scanner.calls

/-! ### The specification -/

/-- What `c_bufferSize` lets one read return. -/
def IsRead (buffer : Bytes) : Prop := 1 ≤ buffer.length ∧ buffer.length ≤ 1024

/-- An object or an array, with white space before it. -/
structure Sent where
  space : Bytes
  body : Bytes
  nesting : ℕ
  isSpace : Space space
  derives : Derives .value nesting body
  nested : nesting ≠ 0

def Sent.text (t : Sent) : Bytes := t.space ++ t.body

/-- The texts whose last byte is among the first `n` that are sent. -/
def due : List Sent → (n : ℕ) → List Bytes
  | [], _ => []
  | t :: texts, n => if t.text.length ≤ n then t.text :: due texts (n - t.text.length) else []

/-- However the bytes are cut into reads, after any of them `OnRequest` has been called with the
texts that are complete. -/
def Framed (texts : List Sent) : Prop :=
  ∀ reads : List Bytes, (∀ buffer ∈ reads, IsRead buffer) →
    reads.flatten <+: (texts.map Sent.text).flatten →
    GenerateResponse reads = some (due texts reads.flatten.length)

/-! ### Turns -/

namespace Scanner
variable {s s' : Scanner} {c : UInt8} {p rest more : Bytes} {d : ℤ} {calls : List Bytes}

theorem scan_of_lt (hi : s.i < s.request.length) :
    s.scan = (s.turn s.request[s.i]).bind scan := by
  rw [scan, dif_pos hi]
  split
  · next h => rw [h]; rfl
  · next h => rw [h]; rfl

theorem scan_of_le (hi : s.request.length ≤ s.i) : s.scan = some s := by
  rw [scan, dif_neg (Nat.not_lt.mpr hi)]

/-- Outside of strings, with `p` read and `rest` to be read. -/
def between (p rest : Bytes) (d : ℤ) (calls : List Bytes) : Scanner where
  request := p ++ rest
  i := p.length
  depth := d
  calls := calls

/-- Inside of a string. -/
def within (p rest : Bytes) (escape : Bool) (d : ℤ) (calls : List Bytes) : Scanner where
  request := p ++ rest
  escape := escape
  inString := true
  i := p.length
  depth := d
  calls := calls

theorem between_append :
    (between p rest d calls).append more = between p (rest ++ more) d calls := by
  simp [between, append]

theorem scan_between : (between p (c :: rest) d calls).scan =
    ((between p (c :: rest) d calls).turn c).bind scan := by
  have hi : (between p (c :: rest) d calls).i < (between p (c :: rest) d calls).request.length := by
    simp [between]
  rw [scan_of_lt hi]
  simp [between]

theorem scan_within {e : Bool} : (within p (c :: rest) e d calls).scan =
    ((within p (c :: rest) e d calls).turn c).bind scan := by
  have hi : (within p (c :: rest) e d calls).i <
      (within p (c :: rest) e d calls).request.length := by
    simp [within]
  rw [scan_of_lt hi]
  simp [within]

/-! ### Outside of strings -/

theorem scan_inert (h : Inert c) :
    (between p (c :: rest) d calls).scan = (between (p ++ [c]) rest d calls).scan := by
  simp only [Inert, List.mem_cons, List.not_mem_nil, or_false, not_or] at h
  obtain ⟨hq, hopen, hclose, hopen', hclose'⟩ := h
  rw [scan_between]
  simp [turn, between, hq, hopen, hclose, hopen', hclose']

theorem scan_inerts {t : Bytes} (h : ∀ b ∈ t, Inert b) :
    (between p (t ++ rest) d calls).scan = (between (p ++ t) rest d calls).scan := by
  induction t generalizing p with
  | nil => simp
  | cons c t ih =>
    rw [List.cons_append, scan_inert (h c List.mem_cons_self),
      ih fun b hb => h b (List.mem_cons_of_mem c hb)]
    simp

theorem scan_opens (k : Bracket) : (between p (k.opens :: rest) d calls).scan =
    (toInt (d + 1)).bind fun d' => (between (p ++ [k.opens]) rest d' calls).scan := by
  rw [scan_between]
  cases k <;> simp [turn, between, Bracket.opens, quote, Option.bind_map]

theorem scan_closes (k : Bracket) (hd : 1 < d) (hmax : d < 2 ^ 31) :
    (between p (k.closes :: rest) d calls).scan =
      (between (p ++ [k.closes]) rest (d - 1) calls).scan := by
  have hint : toInt (d - 1) = some (d - 1) := if_pos (by omega)
  have hne : d - 1 ≠ 0 := by omega
  rw [scan_between]
  cases k <;> simp [turn, between, Bracket.opens, Bracket.closes, quote, hint, hne]

/-- The bracket that closes the text. -/
theorem scan_last (k : Bracket) : (between p (k.closes :: rest) 1 calls).scan =
    (between [] rest 0 (calls ++ [p ++ [k.closes]])).scan := by
  rw [scan_between]
  have hint : toInt 0 = some 0 := if_pos (by decide)
  cases k <;> simp [turn, between, Bracket.opens, Bracket.closes, quote, hint, List.take_append,
    List.take_of_length_le]

/-! ### Strings -/

theorem scan_quote : (between p (quote :: rest) d calls).scan =
    (within (p ++ [quote]) rest false d calls).scan := by
  rw [scan_between]
  simp [turn, between, within]

theorem scan_unquote : (within p (quote :: rest) false d calls).scan =
    (between (p ++ [quote]) rest d calls).scan := by
  rw [scan_within]
  simp [turn, between, within]

theorem scan_plain (hq : c ≠ quote) (hb : c ≠ backslash) :
    (within p (c :: rest) false d calls).scan = (within (p ++ [c]) rest false d calls).scan := by
  rw [scan_within]
  simp [turn, within, hq, hb]

theorem scan_escape {b : UInt8} : (within p (backslash :: b :: rest) false d calls).scan =
    (within (p ++ [backslash, b]) rest false d calls).scan := by
  have hslash : (within p (backslash :: b :: rest) false d calls).scan =
      (within (p ++ [backslash]) (b :: rest) true d calls).scan := by
    rw [scan_within]
    simp [turn, within, backslash, quote]
  rw [hslash, scan_within]
  simp [turn, within]

theorem scan_char {t : Bytes} (h : IsChar t) :
    (within p (t ++ rest) false d calls).scan = (within (p ++ t) rest false d calls).scan := by
  cases h with
  | plain _ hq hb => exact scan_plain hq hb
  | escaped _ => exact scan_escape
  | unicode h₁ h₂ h₃ h₄ =>
    rw [List.cons_append, List.cons_append, scan_escape, List.cons_append,
      scan_plain h₁.plain.1 h₁.plain.2, List.cons_append, scan_plain h₂.plain.1 h₂.plain.2,
      List.cons_append, scan_plain h₃.plain.1 h₃.plain.2, List.cons_append,
      scan_plain h₄.plain.1 h₄.plain.2]
    simp

theorem scan_chars {cs : List Bytes} (h : ∀ c ∈ cs, IsChar c) :
    (within p (cs.flatten ++ rest) false d calls).scan =
      (within (p ++ cs.flatten) rest false d calls).scan := by
  induction cs generalizing p with
  | nil => simp
  | cons c cs ih =>
    rw [List.flatten_cons, List.append_assoc, scan_char (h c List.mem_cons_self),
      ih fun b hb => h b (List.mem_cons_of_mem c hb), List.append_assoc]

theorem scan_string {t : Bytes} (h : IsString t) :
    (between p (t ++ rest) d calls).scan = (between (p ++ t) rest d calls).scan := by
  obtain ⟨cs, hcs, rfl⟩ := h
  rw [List.cons_append, scan_quote, List.append_assoc, scan_chars hcs, List.singleton_append,
    scan_unquote]
  simp

/-! ### Texts -/

/-- Below the bound a part of a text leaves the scanner where it was; above it the counter of
brackets overflows. -/
theorem scan_derives {f : Form} {n : ℕ} {t : Bytes} (h : Derives f n t) (hd : 1 ≤ d)
    (hmax : d < 2 ^ 31) : (between p (t ++ rest) d calls).scan =
      if d + n < 2 ^ 31 then (between (p ++ t) rest d calls).scan else none := by
  induction h generalizing p rest d with
  | literal h =>
    rw [scan_inerts (inert_literal h), if_pos (by simpa using hmax)]
  | number h =>
    rw [scan_inerts h.inert, if_pos (by simpa using hmax)]
  | string h =>
    rw [scan_string h, if_pos (by simpa using hmax)]
  | empty k hw =>
    rw [List.cons_append, scan_opens, toInt]
    by_cases hfits : d + 1 < 2 ^ 31
    · rw [if_pos ⟨by omega, hfits⟩, Option.bind_some, List.append_assoc, scan_inerts hw.inert,
        List.singleton_append, scan_closes k (by omega) hfits, if_pos (by simpa using hfits)]
      simp
    · rw [if_neg fun hint => hfits hint.2, if_neg (by simpa using hfits)]
      rfl
  | nest k _ ih =>
    rw [List.cons_append, scan_opens, toInt]
    by_cases hopens : d + 1 < 2 ^ 31
    · rw [if_pos ⟨by omega, hopens⟩, Option.bind_some, List.append_assoc, ih (by omega) hopens,
        List.singleton_append, scan_closes k (by omega) hopens, Nat.cast_succ, ← add_assoc,
        add_right_comm]
      simp
    · rw [if_neg fun hint => hopens hint.2, if_neg (by omega)]
      rfl
  | element hw _ hw' ih =>
    rw [List.append_assoc, scan_inerts hw.inert, List.append_assoc, ih hd hmax,
      scan_inerts hw'.inert]
    simp
  | member hw hn hw' hv _ hw'' ih =>
    have hcolon : Inert colon := by decide
    simp only [List.append_assoc, List.cons_append]
    rw [scan_inerts hw.inert, scan_string hn, scan_inerts hw'.inert, scan_inert hcolon,
      scan_inerts hv.inert, ih hd hmax, scan_inerts hw''.inert]
    simp
  | last _ ih => exact ih hd hmax
  | @cons k n m t u _ _ ih ihs =>
    have hcomma : Inert comma := by decide
    rw [List.append_assoc, ih hd hmax, List.cons_append, scan_inert hcomma, ihs hd hmax]
    by_cases hn : d + n < 2 ^ 31
    · rw [if_pos hn]
      by_cases hm : d + m < 2 ^ 31
      · rw [if_pos hm, if_pos (by omega)]
        simp
      · rw [if_neg hm, if_neg (by omega)]
    · rw [if_neg hn, if_neg (by omega)]

/-- From one text to the next. -/
theorem scan_text (t : Sent) : (between [] (t.text ++ rest) 0 calls).scan =
    if t.nesting < 2 ^ 31 then (between [] rest 0 (calls ++ [t.text])).scan else none := by
  obtain ⟨space, body, nesting, hspace, hderives, hnested⟩ := t
  have hone : toInt (0 + 1) = some 1 := if_pos (by decide)
  dsimp only [Sent.text]
  rw [List.append_assoc, scan_inerts hspace.inert, List.nil_append]
  cases hderives with
  | literal _ => exact absurd rfl hnested
  | number _ => exact absurd rfl hnested
  | string _ => exact absurd rfl hnested
  | empty k hw =>
    simp only [List.cons_append, List.append_assoc, List.nil_append]
    rw [scan_opens, hone, Option.bind_some, scan_inerts hw.inert, scan_last, if_pos (by decide)]
    simp
  | @nest k n t h =>
    simp only [List.cons_append, List.append_assoc, List.nil_append]
    rw [scan_opens, hone, Option.bind_some, scan_derives h le_rfl (by decide), scan_last]
    by_cases hn : n + 1 < 2 ^ 31
    · rw [if_pos (by omega), if_pos hn]
      simp
    · rw [if_neg (by omega), if_neg hn]

/-! ### Reads -/

theorem turn_append (hi : s.i < s.request.length) :
    (s.append more).turn c = (s.turn c).map (·.append more) := by
  have htake : (s.request ++ more).take (s.i + 1) = s.request.take (s.i + 1) :=
    List.take_append_of_le_length hi
  have hdrop : (s.request ++ more).drop (s.i + 1) = s.request.drop (s.i + 1) ++ more :=
    List.drop_append_of_le_length hi
  unfold turn
  simp only [append, htake, hdrop]
  split_ifs with hopen hclose hesc hin hdown hup
  · rfl
  · rfl
  · rfl
  · rfl
  · rw [Option.map_map]
    rfl
  · rw [Option.map_map]
    congr 1
    funext depth
    by_cases hzero : depth = 0 <;> simp [hzero]
  · rfl

theorem turn_le (h : s.turn c = some s') (hi : s.i < s.request.length) :
    s'.i ≤ s'.request.length := by
  obtain ⟨e, b, d, rfl⟩ | rfl := turn_cases h
  · exact hi
  · exact Nat.zero_le _

/-- What a turn hands over it takes from the buffer. -/
theorem turn_conserves (h : s.turn c = some s') :
    s.calls <+: s'.calls ∧ s'.calls.flatten ++ s'.request = s.calls.flatten ++ s.request := by
  obtain ⟨e, b, d, rfl⟩ | rfl := turn_cases h
  · exact ⟨List.prefix_rfl, rfl⟩
  · refine ⟨List.prefix_append .., ?_⟩
    simp

/-- Two reads are scanned as one. -/
theorem scan_append (hi : s.i ≤ s.request.length) :
    (s.append more).scan = s.scan.bind fun s' => (s'.append more).scan := by
  induction hn : s.request.length - s.i using Nat.strongRecOn generalizing s with
  | ind n ih =>
    subst hn
    by_cases hlt : s.i < s.request.length
    · have hlt' : (s.append more).i < (s.append more).request.length := by
        simp only [append, List.length_append]
        omega
      have hget : (s.append more).request[(s.append more).i] = s.request[s.i] :=
        List.getElem_append_left hlt
      rw [scan_of_lt hlt', scan_of_lt hlt, hget, turn_append hlt]
      cases h : s.turn s.request[s.i] with
      | none => rfl
      | some s' => exact ih _ (turn_unread h hlt) (turn_le h hlt) rfl
    · rw [scan_of_le (Nat.not_lt.mp hlt), Option.bind_some]

theorem scan_conserves (h : s.scan = some s') (hi : s.i ≤ s.request.length) :
    s'.i = s'.request.length ∧ s.calls <+: s'.calls ∧
      s'.calls.flatten ++ s'.request = s.calls.flatten ++ s.request := by
  induction hn : s.request.length - s.i using Nat.strongRecOn generalizing s with
  | ind n ih =>
    subst hn
    by_cases hlt : s.i < s.request.length
    · rw [scan_of_lt hlt] at h
      obtain ⟨s₁, hturn, hscan⟩ := Option.bind_eq_some_iff.mp h
      obtain ⟨hend, hcalls, hbytes⟩ := ih _ (turn_unread hturn hlt) hscan (turn_le hturn hlt) rfl
      obtain ⟨hcalls', hbytes'⟩ := turn_conserves hturn
      exact ⟨hend, hcalls'.trans hcalls, hbytes.trans hbytes'⟩
    · rw [scan_of_le (Nat.not_lt.mp hlt)] at h
      cases h
      exact ⟨by omega, List.prefix_rfl, rfl⟩

/-- However it is cut into reads, what is read is scanned as a whole. -/
theorem serve_eq_scan {reads : List Bytes} (hi : s.i = s.request.length) :
    s.serve reads = (s.append reads.flatten).scan := by
  induction reads generalizing s with
  | nil =>
    have happend : s.append ([] : List Bytes).flatten = s := by simp [append]
    rw [happend, scan_of_le hi.ge]
    rfl
  | cons buffer reads ih =>
    have hle : (s.append buffer).i ≤ (s.append buffer).request.length := by
      simp only [append, List.length_append]
      omega
    have hflat : s.append (buffer :: reads).flatten = (s.append buffer).append reads.flatten := by
      simp [append]
    rw [hflat, scan_append hle]
    cases h : (s.append buffer).scan with
    | none => simp [serve, h]
    | some s' =>
      rw [Option.bind_some, ← ih (scan_conserves h hle).1]
      simp [serve, h]

/-- A text that is not complete is not handed over: all its bytes would have been read. -/
theorem scan_incomplete {t : Sent} (ht : t.nesting < 2 ^ 31) {sent : Bytes}
    (htext : t.text = sent ++ rest) (hrest : rest ≠ []) :
    ∃ s', (between [] sent 0 calls).scan = some s' ∧ s'.calls = calls := by
  have hwhole := @scan_text [] calls t
  rw [if_pos ht, List.append_nil, htext, ← between_append, scan_append (Nat.zero_le _)] at hwhole
  obtain ⟨s', hscan, hend⟩ := Option.bind_eq_some_iff.mp (hwhole.trans (scan_of_le le_rfl))
  obtain ⟨hat, ⟨more, hmore⟩, hbytes⟩ := scan_conserves hscan (Nat.zero_le _)
  have hcalls : s'.calls = calls ++ more := hmore.symm
  have hlater : s'.calls <+: calls ++ [sent ++ rest] :=
    (scan_conserves hend (by simp [append, hat])).2.1
  rw [hcalls, List.prefix_append_right_inj, ← List.nil_append [sent ++ rest],
    List.prefix_concat_iff, List.nil_append] at hlater
  refine ⟨s', hscan, ?_⟩
  rcases hlater with hall | hno
  · have hlen := congrArg List.length hbytes
    have hpos := List.length_pos_iff.mpr hrest
    rw [hcalls, hall] at hlen
    simp only [between, List.flatten_append, List.flatten_singleton, List.length_append,
      List.length_nil] at hlen
    omega
  · rw [hcalls, List.prefix_nil.mp hno, List.append_nil]

/-- What is called after a beginning of the texts. -/
theorem scan_due {texts : List Sent} (hnest : ∀ t ∈ texts, t.nesting < 2 ^ 31) {sent : Bytes}
    (hsent : sent <+: (texts.map Sent.text).flatten) :
    ∃ s', (between [] sent 0 calls).scan = some s' ∧
      s'.calls = calls ++ due texts sent.length := by
  induction texts generalizing sent calls with
  | nil =>
    rw [List.prefix_nil.mp hsent]
    exact ⟨between [] [] 0 calls, scan_of_le le_rfl, (List.append_nil _).symm⟩
  | cons t texts ih =>
    have ht := hnest t List.mem_cons_self
    rw [List.map_cons, List.flatten_cons] at hsent
    by_cases hle : t.text.length ≤ sent.length
    · obtain ⟨rest, rfl⟩ : t.text <+: sent :=
        List.prefix_of_prefix_length_le (List.prefix_append ..) hsent hle
      have hrest := List.prefix_append_right_inj _ |>.mp hsent
      obtain ⟨s', hscan, hcalls⟩ := @ih (calls ++ [t.text])
        (fun u hu => hnest u (List.mem_cons_of_mem t hu)) rest hrest
      refine ⟨s', ?_, ?_⟩
      · rw [scan_text, if_pos ht, hscan]
      · rw [hcalls, due, if_pos hle, List.length_append, Nat.add_sub_cancel_left]
        simp
    · obtain ⟨rest, hrest⟩ : sent <+: t.text :=
        List.prefix_of_prefix_length_le hsent (List.prefix_append ..) (Nat.le_of_not_le hle)
      rw [due, if_neg hle, List.append_nil]
      refine scan_incomplete ht hrest.symm fun hnil => hle ?_
      rw [← hrest, hnil, List.append_nil]

/-- One text that is nested too deep, and the whole has no outcome. -/
theorem scan_deep {texts : List Sent} (hdeep : ∃ t ∈ texts, 2 ^ 31 ≤ t.nesting) :
    (between [] (texts.map Sent.text).flatten 0 calls).scan = none := by
  induction texts generalizing calls with
  | nil => simp at hdeep
  | cons t texts ih =>
    rw [List.map_cons, List.flatten_cons, scan_text]
    by_cases ht : t.nesting < 2 ^ 31
    · rw [if_pos ht]
      refine ih ?_
      obtain ⟨u, hu, hle⟩ := hdeep
      rcases List.mem_cons.mp hu with rfl | hu
      · exact absurd ht (Nat.not_lt.mpr hle)
      · exact ⟨u, hu, hle⟩
    · rw [if_neg ht]

theorem generateResponse_eq (reads : List Bytes) : GenerateResponse reads =
    (between [] reads.flatten 0 []).scan.map Scanner.calls := by
  have hserve : serve {} reads = (append {} reads.flatten).scan := serve_eq_scan rfl
  rw [GenerateResponse, hserve]
  rfl

end Scanner

/-- The bytes of texts one of which is nested too deep, read one by one. -/
theorem not_framed {texts : List Sent} (hdeep : ∃ t ∈ texts, 2 ^ 31 ≤ t.nesting) :
    ¬Framed texts := by
  intro h
  have hread : ∀ buffer ∈ (texts.map Sent.text).flatten.map fun b => [b], IsRead buffer := by
    intro buffer hb
    obtain ⟨b, -, rfl⟩ := List.mem_map.mp hb
    exact ⟨le_rfl, by simp⟩
  have hsingle : ((texts.map Sent.text).flatten.map fun b => [b]).flatten =
      (texts.map Sent.text).flatten := by
    rw [← List.flatMap_def, List.flatMap_singleton']
  have hall := h _ hread (by rw [hsingle])
  rw [Scanner.generateResponse_eq, hsingle, Scanner.scan_deep hdeep] at hall
  cases hall

/-- **However the bytes are cut into reads, `OnRequest` gets every text as soon as its last byte is
read, exactly when the nesting of each text can be counted in an `int`.** -/
theorem framed_iff (texts : List Sent) : Framed texts ↔ ∀ t ∈ texts, t.nesting < 2 ^ 31 := by
  constructor
  · intro h t ht
    by_contra hdeep
    exact not_framed ⟨t, ht, Nat.not_lt.mp hdeep⟩ h
  · intro hnest reads _ hsent
    obtain ⟨s', hscan, hcalls⟩ := @Scanner.scan_due [] texts hnest reads.flatten hsent
    rw [Scanner.generateResponse_eq, hscan, Option.map_some, hcalls, List.nil_append]

/-- Arrays in arrays. -/
def arrays : ℕ → Bytes
  | 0 => [Bracket.array.opens, Bracket.array.closes]
  | n + 1 => Bracket.array.opens :: (arrays n ++ [Bracket.array.closes])

theorem derives_arrays (n : ℕ) : Derives .value (n + 1) (arrays n) := by
  have hspace : Space [] := fun _ hb => absurd hb List.not_mem_nil
  induction n with
  | zero => exact .empty .array hspace
  | succ n ih =>
    have hitem : Derives (.item .array) (n + 1) (arrays n) := by
      have helement := Derives.element hspace ih hspace
      rwa [List.nil_append, List.append_nil] at helement
    exact .nest .array (.last hitem)

/-- As many arrays in one another as no `int` counts. -/
def tooDeep : Sent where
  space := []
  body := arrays (2 ^ 31 - 1)
  nesting := 2 ^ 31 - 1 + 1
  isSpace _ hb := absurd hb List.not_mem_nil
  derives := derives_arrays (2 ^ 31 - 1)
  nested := Nat.succ_ne_zero _

theorem tooDeep_overflows : ¬Framed [tooDeep] :=
  not_framed ⟨tooDeep, List.mem_singleton_self tooDeep, le_rfl⟩

end Aleth.Web3jsonrpc
