import Aleth.Structure.Json

/-! Reading the JSON that is arrays and strings.

`decode` follows the grammar strictly: what it reads is a text of the standard,
and its strings have their escapes undone. Numbers, objects, the literals and
`\u` are not read, so a reader of all JSON agrees with it where it gives a
value. `parseValue_array` is what an array amounts to that was written item by
item, with space around them. -/
namespace Json

/-- What a text says, as far as anybody looks. -/
inductive Value where
  | array (l : List Value)
  | str (s : Text)
  | int (i : ℤ)
  | other

/-! ### Reading -/

def spaces : List UInt8 := [0x20, 0x09, 0x0A, 0x0D]

def skip (t : Text) : Text := t.dropWhile (· ∈ spaces)

/-- What stands for the character behind a backslash. -/
def escapeOf (b : UInt8) : Option UInt8 :=
  [(quote, quote), (backslash, backslash), (0x2F, 0x2F), (0x62, 0x08), (0x66, 0x0C), (0x6E, 0x0A),
    (0x72, 0x0D), (0x74, 0x09)].lookup b

/-- The characters of a string, up to its closing quote. -/
def parseChars : Text → Option (Text × Text)
  | [] => none
  | [b] => if b = quote then some ([], []) else none
  | b :: c :: t =>
    if b = quote then some ([], c :: t)
    else if b = backslash then
      (escapeOf c).bind fun x => (parseChars t).map fun r => (x :: r.1, r.2)
    else if b < 0x20 then none
    else (parseChars (c :: t)).map fun r => (b :: r.1, r.2)

/-- Behind an item of an array comes another one, or the closing bracket. -/
def parseRest (items : Text → Option (List Value × Text)) (v : Value) (t : Text) :
    Option (List Value × Text) :=
  match skip t with
  | [] => none
  | b :: t =>
    if b = Bracket.array.closes then some ([v], t)
    else if b = comma then (items t).map fun r => (v :: r.1, r.2)
    else none

/-- The items of an array, up to its closing bracket. -/
def parseItems (value : Text → Option (Value × Text)) : (fuel : ℕ) → Text →
    Option (List Value × Text)
  | 0, _ => none
  | fuel + 1, t => (value (skip t)).bind fun r => parseRest (parseItems value fuel) r.1 r.2

def parseValue : (fuel : ℕ) → Text → Option (Value × Text)
  | 0, _ => none
  | _, [] => none
  | fuel + 1, b :: t =>
    if b = quote then (parseChars t).map fun r => (.str r.1, r.2)
    else if b = Bracket.array.opens then
      if (skip t).head? = some Bracket.array.closes then some (.array [], (skip t).tail)
      else (parseItems (parseValue fuel) t.length t).map fun r => (.array r.1, r.2)
    else none

/-- A text that is one value. -/
def decode (t : Text) : Option Value :=
  (parseValue t.length (skip t)).bind fun r => if skip r.2 = [] then some r.1 else none

/-! ### Space -/

theorem skip_append {w t : Text} (hw : Space w) (ht : ∀ b ∈ t.head?, b ∉ spaces) :
    skip (w ++ t) = t := by
  have hstop : t.dropWhile (· ∈ spaces) = t := by
    cases t with
    | nil => rfl
    | cons b t => exact List.dropWhile_cons_of_neg (by simpa using ht b rfl)
  have hdrop : ∀ b ∈ w, decide (b ∈ spaces) = true := fun b hb => decide_eq_true (hw b hb)
  unfold skip
  rw [List.dropWhile_append_of_pos hdrop, hstop]

theorem skip_space {w : Text} (hw : Space w) : skip w = [] :=
  List.dropWhile_eq_nil_iff.mpr fun b hb => decide_eq_true (hw b hb)

/-! ### Strings -/

theorem parseChars_plain {b : UInt8} (hctl : 0x20 ≤ b) (hq : b ≠ quote) (hb : b ≠ backslash)
    (t : Text) : parseChars (b :: t) = (parseChars t).map fun r => (b :: r.1, r.2) := by
  cases t with
  | nil =>
    show (if b = quote then some (([] : Text), ([] : Text)) else none) = none
    rw [if_neg hq]
  | cons c t => rw [parseChars, if_neg hq, if_neg hb, if_neg (UInt8.not_lt.mpr hctl)]

theorem parseChars_escape (c : UInt8) (t : Text) : parseChars (backslash :: c :: t) =
    (escapeOf c).bind fun x => (parseChars t).map fun r => (x :: r.1, r.2) := by
  rw [parseChars, if_neg (by decide), if_pos rfl]

theorem parseChars_quote (t : Text) : parseChars (quote :: t) = some ([], t) := by
  cases t with
  | nil => rfl
  | cons c t => rw [parseChars, if_pos rfl]

/-- Characters that stand for themselves. -/
theorem parseChars_plains {s : Text} (hs : ∀ b ∈ s, 0x20 ≤ b ∧ b ≠ quote ∧ b ≠ backslash)
    (t : Text) : parseChars (s ++ quote :: t) = some (s, t) := by
  induction s with
  | nil => exact parseChars_quote t
  | cons b s ih =>
    obtain ⟨hctl, hq, hb⟩ := hs b List.mem_cons_self
    rw [List.cons_append, parseChars_plain hctl hq hb,
      ih fun c hc => hs c (List.mem_cons_of_mem b hc)]
    rfl

/-! ### Arrays -/

/-- The text is a value, or no value, whatever follows it. -/
structure ParsesTo (value : Text → Option (Value × Text)) (t : Text) (v : Option Value) : Prop where
  parse : ∀ rest, value (t ++ rest) = v.map fun v => (v, rest)
  start : ∃ b s, t = b :: s ∧ b ∉ Bracket.array.closes :: spaces

/-- The items behind the opening bracket, with `before` in front of the first one. -/
def arrayBody (before between after : Text) : List Text → Text
  | [] => [Bracket.array.closes]
  | [t] => before ++ t ++ after ++ [Bracket.array.closes]
  | t :: u :: l => before ++ t ++ comma :: arrayBody between between after (u :: l)

theorem ParsesTo.skip_eq {value : Text → Option (Value × Text)} {t : Text} {v : Option Value}
    (h : ParsesTo value t v) {w : Text} (hw : Space w) (rest : Text) :
    skip (w ++ t ++ rest) = t ++ rest := by
  obtain ⟨b, s, rfl, hb⟩ := h.start
  rw [List.append_assoc]
  apply skip_append hw
  intro x hx
  cases hx
  exact fun hspace => hb (List.mem_cons_of_mem _ hspace)

theorem parseRest_closes {items : Text → Option (List Value × Text)} {w : Text} (hw : Space w)
    (v : Value) (rest : Text) :
    parseRest items v (w ++ Bracket.array.closes :: rest) = some ([v], rest) := by
  have hskip : skip (w ++ Bracket.array.closes :: rest) = Bracket.array.closes :: rest :=
    skip_append hw (by
      intro b hb
      cases hb
      decide)
  unfold parseRest
  rw [hskip]
  rfl

theorem parseRest_comma (items : Text → Option (List Value × Text)) (v : Value) (t : Text) :
    parseRest items v (comma :: t) = (items t).map fun r => (v :: r.1, r.2) := rfl

/-- The items are read one after another. -/
theorem parseItems_body {value : Text → Option (Value × Text)} {l : List Text}
    {vs : List (Option Value)} (hne : l ≠ []) (h : List.Forall₂ (ParsesTo value) l vs)
    {before between after : Text} (hbefore : Space before) (hbetween : Space between)
    (hafter : Space after) {fuel : ℕ} (hfuel : l.length ≤ fuel) (rest : Text) :
    parseItems value fuel (arrayBody before between after l ++ rest) =
      (vs.mapM id).map fun vs => (vs, rest) := by
  induction h generalizing before fuel with
  | nil => exact absurd rfl hne
  | @cons t v l vs ht hl ih =>
    obtain ⟨fuel, rfl⟩ := Nat.exists_eq_add_one_of_ne_zero (Nat.ne_zero_of_lt hfuel)
    rw [List.mapM_cons]
    cases hl with
    | nil =>
      have hbody : arrayBody before between after [t] ++ rest =
          before ++ t ++ (after ++ (Bracket.array.closes :: rest)) := by simp [arrayBody]
      rw [hbody, parseItems, ht.skip_eq hbefore, ht.parse]
      cases v with
      | none => rfl
      | some v => exact parseRest_closes hafter v rest
    | @cons u w l vs hu hl =>
      have hbody : arrayBody before between after (t :: u :: l) ++ rest =
          before ++ t ++ (comma :: (arrayBody between between after (u :: l) ++ rest)) := by
        simp [arrayBody]
      have hrest := @ih (List.cons_ne_nil u l) between hbetween fuel
        (Nat.le_of_succ_le_succ hfuel)
      rw [hbody, parseItems, ht.skip_eq hbefore, ht.parse]
      cases v with
      | none => rfl
      | some v =>
        show parseRest _ v (comma :: _) = _
        rw [parseRest_comma, hrest]
        cases List.mapM id (w :: vs) <;> rfl

theorem length_le_arrayBody (before between after : Text) (l : List Text) :
    l.length ≤ (arrayBody before between after l).length := by
  induction l generalizing before with
  | nil => exact Nat.zero_le _
  | cons t l ih =>
    cases l with
    | nil =>
      rw [arrayBody, List.length_append, List.length_singleton]
      exact Nat.le_add_left _ _
    | cons u l =>
      have hle := ih between
      rw [arrayBody, List.length_append, List.length_cons (a := comma), List.length_cons (a := t)]
      omega

/-- **An array is read as its items are**, whatever space is around them. -/
theorem parseValue_array {fuel : ℕ} {l : List Text} {vs : List (Option Value)}
    (h : List.Forall₂ (ParsesTo (parseValue fuel)) l vs) {before between after : Text}
    (hbefore : Space before) (hbetween : Space between) (hafter : Space after) :
    ParsesTo (parseValue (fuel + 1)) (Bracket.array.opens :: arrayBody before between after l)
      ((vs.mapM id).map .array) := by
  refine ⟨fun rest => ?_, _, _, rfl, by decide⟩
  have hopen : ∀ t, parseValue (fuel + 1) (Bracket.array.opens :: t) =
      if (skip t).head? = some Bracket.array.closes then some (.array [], (skip t).tail)
      else (parseItems (parseValue fuel) t.length t).map fun r => (.array r.1, r.2) := by
    intro t
    rw [parseValue, if_neg (by decide), if_pos rfl]
  rw [List.cons_append, hopen]
  cases h with
  | nil =>
    have hclose : skip (arrayBody before between after [] ++ rest) =
        Bracket.array.closes :: rest := skip_append (w := []) (by
          intro b hb
          cases hb) (by
          intro x hx
          cases hx
          decide)
    rw [hclose]
    rfl
  | @cons t v l vs ht hl =>
    have hfirst : (skip (arrayBody before between after (t :: l) ++ rest)).head? ≠
        some Bracket.array.closes := by
      have hbody : ∃ s, arrayBody before between after (t :: l) ++ rest = before ++ t ++ s := by
        cases l with
        | nil => exact ⟨after ++ [Bracket.array.closes] ++ rest, by simp [arrayBody]⟩
        | cons u l =>
          exact ⟨comma :: arrayBody between between after (u :: l) ++ rest, by simp [arrayBody]⟩
      obtain ⟨s, hs⟩ := hbody
      obtain ⟨b, t', rfl, hb⟩ := ht.start
      rw [hs, ht.skip_eq hbefore]
      intro hhead
      cases hhead
      exact hb List.mem_cons_self
    have hlen := length_le_arrayBody before between after (t :: l)
    rw [if_neg hfirst, parseItems_body (List.cons_ne_nil t l) (.cons ht hl) hbefore hbetween hafter
      (by rw [List.length_append]; omega), Option.map_map, Option.map_map]
    rfl

theorem decode_eq {t : Text} {v : Option Value} (h : ParsesTo (parseValue t.length) t v) :
    decode t = v := by
  have hskip := h.skip_eq (w := []) (by
    intro b hb
    cases hb) []
  have hparse := h.parse []
  rw [List.append_nil, List.append_nil, List.nil_append] at hskip
  rw [List.append_nil] at hparse
  unfold decode
  rw [hskip, hparse]
  cases v <;> rfl

end Json
