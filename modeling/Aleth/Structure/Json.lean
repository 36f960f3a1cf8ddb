import Mathlib

/-! The grammar of JSON, over bytes.

`Derives` is one relation for values and for what stands between brackets, so
that a property of all texts is one induction. It counts how deep the brackets
of a text are nested. Bytes above 127 may stand anywhere in a string. -/
namespace Json

abbrev Text := List UInt8

/-! ### Characters -/

def quote : UInt8 := 0x22
def backslash : UInt8 := 0x5C
def comma : UInt8 := 0x2C
def colon : UInt8 := 0x3A

/-- Space, tabulator, line feed and carriage return. -/
def Space (w : Text) : Prop := ∀ b ∈ w, b ∈ [0x20, 0x09, 0x0A, 0x0D]

inductive Bracket where
  | array
  | object
deriving DecidableEq

def Bracket.opens : Bracket → UInt8
  | array => 0x5B
  | object => 0x7B

def Bracket.closes : Bracket → UInt8
  | array => 0x5D
  | object => 0x7D

/-! ### Tokens -/

def IsDigit (b : UInt8) : Prop := 0x30 ≤ b ∧ b ≤ 0x39

def IsHexDigit (b : UInt8) : Prop :=
  IsDigit b ∨ (0x41 ≤ b ∧ b ≤ 0x46) ∨ (0x61 ≤ b ∧ b ≤ 0x66)

def Digits (t : Text) : Prop := t ≠ [] ∧ ∀ b ∈ t, IsDigit b

/-- A number: a sign, digits without leading zeros, a fraction and an exponent. -/
structure IsNumber (t : Text) : Prop where
  parts : ∃ sign int frac exp, t = sign ++ int ++ frac ++ exp ∧
    (sign = [] ∨ sign = [0x2D]) ∧
    (int = [0x30] ∨ (Digits int ∧ int.head? ≠ some 0x30)) ∧
    (frac = [] ∨ ∃ ds, Digits ds ∧ frac = 0x2E :: ds) ∧
    (exp = [] ∨ ∃ e s ds, (e = 0x45 ∨ e = 0x65) ∧ (s = [] ∨ s = [0x2B] ∨ s = [0x2D]) ∧
      Digits ds ∧ exp = e :: (s ++ ds))

/-- `true`, `false` and `null`. -/
def literals : List Text :=
  [[0x74, 0x72, 0x75, 0x65], [0x66, 0x61, 0x6C, 0x73, 0x65], [0x6E, 0x75, 0x6C, 0x6C]]

/-- A character of a string as it is written. -/
inductive IsChar : Text → Prop
  | plain {b : UInt8} (hctl : 0x20 ≤ b) (hq : b ≠ quote) (hb : b ≠ backslash) : IsChar [b]
  | escaped {b : UInt8} (h : b ∈ [quote, backslash, 0x2F, 0x62, 0x66, 0x6E, 0x72, 0x74]) :
    IsChar [backslash, b]
  | unicode {a b c d : UInt8} (ha : IsHexDigit a) (hb : IsHexDigit b) (hc : IsHexDigit c)
    (hd : IsHexDigit d) : IsChar [backslash, 0x75, a, b, c, d]

def IsString (t : Text) : Prop :=
  ∃ cs : List Text, (∀ c ∈ cs, IsChar c) ∧ t = quote :: (cs.flatten ++ [quote])

/-! ### Values -/

/-- A value, an element of an array or a member of an object with the space around it, and a list
of these. -/
inductive Form where
  | value
  | item (k : Bracket)
  | items (k : Bracket)

inductive Derives : Form → (nesting : ℕ) → Text → Prop
  | literal {t : Text} (h : t ∈ literals) : Derives .value 0 t
  | number {t : Text} (h : IsNumber t) : Derives .value 0 t
  | string {t : Text} (h : IsString t) : Derives .value 0 t
  | empty (k : Bracket) {w : Text} (hw : Space w) : Derives .value 1 (k.opens :: (w ++ [k.closes]))
  | nest (k : Bracket) {n : ℕ} {t : Text} (h : Derives (.items k) n t) :
    Derives .value (n + 1) (k.opens :: (t ++ [k.closes]))
  | element {n : ℕ} {w t w' : Text} (hw : Space w) (h : Derives .value n t) (hw' : Space w') :
    Derives (.item .array) n (w ++ (t ++ w'))
  | member {n : ℕ} {w name w' v t w'' : Text} (hw : Space w) (hn : IsString name) (hw' : Space w')
    (hv : Space v) (h : Derives .value n t) (hw'' : Space w'') :
    Derives (.item .object) n (w ++ (name ++ (w' ++ (colon :: (v ++ (t ++ w''))))))
  | last {k : Bracket} {n : ℕ} {t : Text} (h : Derives (.item k) n t) : Derives (.items k) n t
  | cons {k : Bracket} {n m : ℕ} {t u : Text} (h : Derives (.item k) n t)
    (hs : Derives (.items k) m u) : Derives (.items k) (max n m) (t ++ (comma :: u))

/-! ### Bytes that are neither quotes nor brackets -/

def Inert (b : UInt8) : Prop :=
  b ∉ [quote, Bracket.array.opens, Bracket.array.closes, Bracket.object.opens,
    Bracket.object.closes]

instance (b : UInt8) : Decidable (Inert b) := by
  unfold Inert
  infer_instance

theorem Space.inert {w : Text} (h : Space w) : ∀ b ∈ w, Inert b := by
  have hspace : ∀ b ∈ [(0x20 : UInt8), 0x09, 0x0A, 0x0D], Inert b := by
    simp [Inert, quote, Bracket.opens, Bracket.closes]
  exact fun b hb => hspace b (h b hb)

theorem inert_literal {t : Text} (h : t ∈ literals) : ∀ b ∈ t, Inert b := by
  have hall : ∀ t ∈ literals, ∀ b ∈ t, Inert b := by
    simp [literals, Inert, quote, Bracket.opens, Bracket.closes]
  exact hall t h

theorem IsDigit.inert {b : UInt8} (h : IsDigit b) : Inert b := by
  intro hm
  simp only [List.mem_cons, List.not_mem_nil, or_false] at hm
  obtain ⟨hlow, hhigh⟩ := h
  rcases hm with rfl | rfl | rfl | rfl | rfl
  · exact absurd hlow (by decide)
  all_goals exact absurd hhigh (by decide)

theorem Digits.inert {t : Text} (h : Digits t) : ∀ b ∈ t, Inert b :=
  fun b hb => (h.2 b hb).inert

theorem IsNumber.inert {t : Text} (h : IsNumber t) : ∀ b ∈ t, Inert b := by
  obtain ⟨sign, int, frac, exp, rfl, hsign, hint, hfrac, hexp⟩ := h.parts
  intro b hb
  simp only [List.mem_append] at hb
  obtain ((hb | hb) | hb) | hb := hb
  · rcases hsign with rfl | rfl
    · exact absurd hb List.not_mem_nil
    · rw [List.mem_singleton.mp hb]
      decide
  · rcases hint with rfl | ⟨hint, -⟩
    · rw [List.mem_singleton.mp hb]
      decide
    · exact hint.inert b hb
  · rcases hfrac with rfl | ⟨ds, hds, rfl⟩
    · exact absurd hb List.not_mem_nil
    · rcases List.mem_cons.mp hb with rfl | hb
      · decide
      · exact hds.inert b hb
  · rcases hexp with rfl | ⟨e, s, ds, he, hs, hds, rfl⟩
    · exact absurd hb List.not_mem_nil
    · rcases List.mem_cons.mp hb with rfl | hb
      · rcases he with rfl | rfl <;> decide
      rcases List.mem_append.mp hb with hb | hb
      · rcases hs with rfl | rfl | rfl
        · exact absurd hb List.not_mem_nil
        all_goals
          rw [List.mem_singleton.mp hb]
          decide
      · exact hds.inert b hb

theorem IsHexDigit.plain {b : UInt8} (h : IsHexDigit b) : b ≠ quote ∧ b ≠ backslash := by
  constructor
  all_goals
    rintro rfl
    revert h
    unfold IsHexDigit IsDigit
    decide

end Json
