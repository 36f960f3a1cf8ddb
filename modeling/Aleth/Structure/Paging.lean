import Mathlib

/-! Pages cut from two sources that are merged.

A sorted list holds what two sources have together; `T` and `C` tell which
entries are in which. For a page of `m` a walk of the first source stops before
its entry number `m`, and all of the second is merged in: `seen` is what that
gives. Of it the first `m` are the page, and the next one, if there is one, is
where the following page begins; else it begins where the walk stopped
(`nextOf`). The page is always right (`take_seen`). The next key is right when
and only when the cut is `Sound`, and otherwise it is behind the right one.
`exists_follows` is the result for all pages together. -/
namespace Paging
variable {κ β : Type} (T C : κ × β → Bool)

def seen : (m : ℕ) → List (κ × β) → List (κ × β)
  | _, [] => []
  | 0, x :: S => if T x then (x :: S).filter C else x :: seen 0 S
  | m + 1, x :: S => if T x then x :: seen m S else x :: seen (m + 1) S

def nextOf (m : ℕ) (S : List (κ × β)) : Option (κ × β) :=
  if m < (seen T C m S).length then (seen T C m S)[m]? else (S.filter T)[m]?

/-- The cut behind the first `m`: one of them is not in the first source, or the entry behind the
cut is in the second one, or nothing after that is. -/
def Sound (m : ℕ) (S : List (κ × β)) : Prop :=
  (∃ x ∈ S.take m, T x = false) ∨ (∀ x, S[m]? = some x → C x = true) ∨
    ∀ x ∈ S.drop (m + 1), C x = false

variable {T C} {m : ℕ} {S L : List (κ × β)} {x : κ × β}

theorem take_seen (m : ℕ) (S : List (κ × β)) : (seen T C m S).take m = S.take m := by
  induction S generalizing m with
  | nil =>
    cases m <;> rfl
  | cons x S ih =>
    cases m with
    | zero => rfl
    | succ m =>
      rw [seen]
      split
      · rw [List.take_succ_cons, List.take_succ_cons, ih m]
      · have hshort : (seen T C (m + 1) S).take m = S.take m := by
          simpa [List.take_take] using congrArg (List.take m) (ih (m + 1))
        rw [List.take_succ_cons, List.take_succ_cons, hshort]

theorem length_le_of_seen (h : (seen T C m S).length < m) : S.length < m := by
  have htake := congrArg List.length (take_seen (T := T) (C := C) m S)
  rw [List.length_take, List.length_take] at htake
  omega

theorem sound_cons_of_mem (hx : T x = true) : Sound T C (m + 1) (x :: S) ↔ Sound T C m S := by
  unfold Sound
  simp [hx]

/-- After an entry of the first source the walk is one shorter. -/
theorem nextOf_cons_of_mem (hx : T x = true) : nextOf T C (m + 1) (x :: S) = nextOf T C m S := by
  unfold nextOf
  rw [seen, if_pos hx, List.filter_cons_of_pos hx]
  simp

/-- An entry that only the second source has takes a place that the walk does not count. -/
theorem nextOf_cons_of_not_mem (hx : T x = false) :
    nextOf T C (m + 1) (x :: S) = (x :: S)[m + 1]? := by
  have hne : ¬T x = true := by simp [hx]
  unfold nextOf
  rw [seen, if_neg hne, List.filter_cons_of_neg hne, List.getElem?_cons_succ]
  split
  case isTrue h =>
    have htake := congrArg (fun l => l[m]?) (take_seen (T := T) (C := C) (m + 1) S)
    simpa [List.getElem?_take] using htake
  case isFalse h =>
    have hlen : S.length < m + 1 :=
      length_le_of_seen (T := T) (C := C) (by simp at h; omega)
    have hfilter := List.length_filter_le T S
    rw [List.getElem?_eq_none (by omega),
      List.getElem?_eq_none (by rw [List.length_cons]; omega)]

/-- The next key after a sound cut, and after another. -/
theorem nextOf_spec (hTC : ∀ x ∈ S, T x = true ∨ C x = true) (m : ℕ) :
    (Sound T C m S → nextOf T C m S = S[m]?) ∧
      (¬Sound T C m S → ∃ x ∈ S.drop (m + 1), nextOf T C m S = some x) := by
  induction S generalizing m with
  | nil =>
    refine ⟨fun _ => ?_, fun h => absurd (.inr (.inr fun x hx => ?_)) h⟩
    · cases m <;> simp [nextOf, seen]
    · simp at hx
  | cons x S ih =>
    have hTC' : ∀ y ∈ S, T y = true ∨ C y = true := fun y hy => hTC y (List.mem_cons_of_mem _ hy)
    cases hx : T x with
    | false =>
      have hC : C x = true := (hTC x List.mem_cons_self).resolve_left (by simp [hx])
      cases m with
      | zero =>
        refine ⟨fun _ => ?_, fun h => absurd (.inr (.inl fun y hy => ?_)) h⟩
        · simp [nextOf, seen, hx]
        · cases hy
          exact hC
      | succ m =>
        refine ⟨fun _ => nextOf_cons_of_not_mem hx, fun h => absurd (.inl ⟨x, ?_, hx⟩) h⟩
        exact List.mem_cons_self
    | true =>
      cases m with
      | succ m =>
        rw [sound_cons_of_mem hx, nextOf_cons_of_mem hx, List.getElem?_cons_succ,
          List.drop_succ_cons]
        exact ih hTC' m
      | zero =>
        have hnext : nextOf T C 0 (x :: S) = if 0 < ((x :: S).filter C).length then
            ((x :: S).filter C)[0]? else some x := by
          unfold nextOf
          rw [seen, if_pos hx, List.filter_cons_of_pos hx]
          rfl
        rw [hnext]
        cases hC : C x with
        | true =>
          refine ⟨fun _ => ?_, fun h => absurd (.inr (.inl fun y hy => ?_)) h⟩
          · simp [hC]
          · cases hy
            exact hC
        | false =>
          rw [List.filter_cons_of_neg (by simp [hC])]
          cases hS : S.filter C with
          | nil =>
            have hnone : ∀ y ∈ S, C y = false := fun y hy => by
              simpa using List.filter_eq_nil_iff.mp hS y hy
            exact ⟨fun _ => by simp, fun h => absurd (.inr (.inr hnone)) h⟩
          | cons y l =>
            have hy : y ∈ S ∧ C y = true := List.mem_filter.mp (hS ▸ List.mem_cons_self)
            refine ⟨?_, fun _ => ⟨y, hy.1, by simp⟩⟩
            rintro (⟨z, hz, _⟩ | h | h)
            · cases hz
            · rw [h x rfl] at hC
              cases hC
            · rw [h y hy.1] at hy
              cases hy.2

theorem seen_sublist (m : ℕ) (S : List (κ × β)) : (seen T C m S).Sublist S := by
  induction S generalizing m with
  | nil => cases m <;> exact List.Sublist.refl _
  | cons x S ih =>
    cases m with
    | zero =>
      rw [seen]
      split
      · exact List.filter_sublist
      · exact (ih 0).cons₂ x
    | succ m =>
      rw [seen]
      split
      · exact (ih m).cons₂ x
      · exact (ih (m + 1)).cons₂ x

/-- A bounded walk of the first source and all of the second. -/
theorem mem_seen (hTC : ∀ x ∈ S, T x = true ∨ C x = true) :
    x ∈ seen T C m S ↔ x ∈ (S.filter T).take m ∨ x ∈ S ∧ C x = true := by
  induction S generalizing m with
  | nil => cases m <;> simp [seen]
  | cons y S ih =>
    have ih' := fun m => @ih m fun x hx => hTC x (List.mem_cons_of_mem _ hx)
    cases hy : T y with
    | false =>
      have hC : C y = true := (hTC y List.mem_cons_self).resolve_left (by simp [hy])
      have hseen : seen T C m (y :: S) = y :: seen T C m S := by
        cases m <;> exact if_neg (by simp [hy])
      rw [hseen, List.filter_cons_of_neg (by simp [hy]), List.mem_cons, ih' m, List.mem_cons]
      constructor
      · rintro (rfl | h | h)
        · exact .inr ⟨.inl rfl, hC⟩
        · exact .inl h
        · exact .inr ⟨.inr h.1, h.2⟩
      · rintro (h | ⟨rfl | h, hx⟩)
        · exact .inr (.inl h)
        · exact .inl rfl
        · exact .inr (.inr ⟨h, hx⟩)
    | true =>
      rw [List.filter_cons_of_pos hy]
      cases m with
      | zero => rw [seen, if_pos hy, List.mem_filter]; simp
      | succ m =>
        rw [seen, if_pos hy, List.take_succ_cons, List.mem_cons, List.mem_cons, ih' m, List.mem_cons]
        constructor
        · rintro (rfl | h | h)
          · exact .inl (.inl rfl)
          · exact .inl (.inr h)
          · exact .inr ⟨.inr h.1, h.2⟩
        · rintro ((rfl | h) | ⟨rfl | h, hx⟩)
          · exact .inl rfl
          · exact .inr (.inl h)
          · exact .inl rfl
          · exact .inr (.inr ⟨h, hx⟩)

/-! ### All pages -/

variable [LinearOrder κ]

/-- What one gets by following the next keys from `S` on. -/
inductive Follows (T C : κ × β → Bool) (m : ℕ) : List (κ × β) → List (κ × β) → Prop
  | last {S : List (κ × β)} (h : nextOf T C m S = none) : Follows T C m S (S.take m)
  | more {S L : List (κ × β)} {x : κ × β} (h : nextOf T C m S = some x)
      (hrest : Follows T C m (S.filter fun e => x.1 ≤ e.1) L) : Follows T C m S (S.take m ++ L)

theorem Follows.mem (h : Follows T C m S L) (hx : x ∈ L) : x ∈ S := by
  induction h with
  | last _ => exact List.mem_of_mem_take hx
  | more _ _ ih =>
    rcases List.mem_append.mp hx with hx | hx
    · exact List.mem_of_mem_take hx
    · exact List.mem_of_mem_filter (ih hx)

/-- The next key is behind the page. -/
theorem mem_drop_of_nextOf (hTC : ∀ x ∈ S, T x = true ∨ C x = true) (h : nextOf T C m S = some x) :
    x ∈ S.drop m := by
  obtain ⟨hsound, hunsound⟩ := nextOf_spec hTC m
  by_cases hcut : Sound T C m S
  · rw [hsound hcut] at h
    obtain ⟨hlt, rfl⟩ := List.getElem?_eq_some_iff.mp h
    rw [List.drop_eq_getElem_cons hlt]
    exact List.mem_cons_self
  · obtain ⟨y, hy, hxy⟩ := hunsound hcut
    rw [h] at hxy
    cases hxy
    rw [← List.drop_drop] at hy
    exact List.mem_of_mem_drop hy

theorem filter_eq_drop (hs : S.Pairwise (fun a b => a.1 < b.1)) (h : S[m]? = some x) :
    S.filter (fun e => x.1 ≤ e.1) = S.drop m := by
  obtain ⟨hm, rfl⟩ := List.getElem?_eq_some_iff.mp h
  have hsplit : S = S.take m ++ S[m] :: S.drop (m + 1) := by
    rw [← List.drop_eq_getElem_cons hm, List.take_append_drop]
  have hdrop : S.drop m = S[m] :: S.drop (m + 1) := List.drop_eq_getElem_cons hm
  have hs' := hs
  rw [hsplit, List.pairwise_append, List.pairwise_cons] at hs'
  obtain ⟨_, ⟨hafter, _⟩, hbefore⟩ := hs'
  have hfirst : (S.take m).filter (fun e => S[m].1 ≤ e.1) = [] :=
    List.filter_eq_nil_iff.mpr fun e he hle =>
      not_lt.mpr (of_decide_eq_true hle) (hbefore e he S[m] List.mem_cons_self)
  have hlast : (S.drop m).filter (fun e => S[m].1 ≤ e.1) = S.drop m := by
    refine List.filter_eq_self.mpr fun e he => decide_eq_true ?_
    rw [hdrop] at he
    rcases List.mem_cons.mp he with rfl | he
    · exact le_rfl
    · exact le_of_lt (hafter e he)
  calc S.filter (fun e => S[m].1 ≤ e.1)
      = (S.take m ++ S.drop m).filter (fun e => S[m].1 ≤ e.1) := by rw [List.take_append_drop]
    _ = S.drop m := by rw [List.filter_append, hfirst, hlast, List.nil_append]

theorem filter_sublist_drop (hs : S.Pairwise (fun a b => a.1 < b.1)) {k : ℕ} (h : x ∈ S.drop k) :
    (S.filter fun e => x.1 ≤ e.1).Sublist (S.drop k) := by
  have hs' := hs
  rw [← List.take_append_drop k S, List.pairwise_append] at hs'
  have hfirst : (S.take k).filter (fun e => x.1 ≤ e.1) = [] :=
    List.filter_eq_nil_iff.mpr fun e he hle =>
      not_lt.mpr (of_decide_eq_true hle) (hs'.2.2 e he x h)
  have hsplit : S.filter (fun e => x.1 ≤ e.1) = (S.drop k).filter (fun e => x.1 ≤ e.1) := by
    calc S.filter (fun e => x.1 ≤ e.1)
        = (S.take k ++ S.drop k).filter (fun e => x.1 ≤ e.1) := by rw [List.take_append_drop]
      _ = (S.drop k).filter (fun e => x.1 ≤ e.1) := by
          rw [List.filter_append, hfirst, List.nil_append]
  rw [hsplit]
  exact List.filter_sublist

/-- **Following the next keys ends, and gives the whole list when and only when every cut into
pages is sound.** -/
theorem exists_follows (hm : 0 < m) (hs : S.Pairwise (fun a b => a.1 < b.1))
    (hTC : ∀ x ∈ S, T x = true ∨ C x = true) :
    ∃ L, Follows T C m S L ∧ (L = S ↔ ∀ j, Sound T C m (S.drop (j * m))) ∧
      L.length ≤ S.length := by
  induction hn : S.length using Nat.strongRecOn generalizing S with
  | ind n ih =>
    subst hn
    obtain ⟨hsound, hunsound⟩ := nextOf_spec hTC m
    cases hnext : nextOf T C m S with
    | none =>
      have hcut : Sound T C m S := by
        by_contra hno
        obtain ⟨x, _, hx⟩ := hunsound hno
        rw [hnext] at hx
        cases hx
      have hlen : S.length ≤ m := by
        rw [← List.getElem?_eq_none_iff, ← hsound hcut, hnext]
      refine ⟨S.take m, .last hnext, ⟨fun _ j => .inr (.inl fun x hx => ?_), fun _ => ?_⟩, ?_⟩
      · rw [List.getElem?_eq_none (by rw [List.length_drop]; omega)] at hx
        cases hx
      · exact List.take_of_length_le hlen
      · exact List.length_take_le' m S
    | some x =>
      by_cases hcut : Sound T C m S
      · have hx : S[m]? = some x := by rw [← hsound hcut, hnext]
        have hrest := filter_eq_drop hs hx
        obtain ⟨hlt, _⟩ := List.getElem?_eq_some_iff.mp hx
        obtain ⟨L, hfollows, hiff, hlen⟩ := ih (S.drop m).length (by rw [List.length_drop]; omega)
          (hs.sublist (List.drop_sublist m S)) (fun y hy => hTC y (List.mem_of_mem_drop hy)) rfl
        refine ⟨S.take m ++ L, .more hnext (by rwa [hrest]), ?_, ?_⟩
        · have hcancel : S.take m ++ L = S ↔ L = S.drop m := by
            conv_lhs => rhs; rw [← List.take_append_drop m S]
            exact List.append_right_inj _
          rw [hcancel, hiff]
          constructor
          · intro hall j
            cases j with
            | zero => rwa [Nat.zero_mul, List.drop_zero]
            | succ j =>
              have hj := hall j
              rwa [List.drop_drop, show m + j * m = (j + 1) * m by rw [Nat.succ_mul, Nat.add_comm]] at hj
          · intro hall j
            have hj := hall (j + 1)
            rwa [List.drop_drop, show m + j * m = (j + 1) * m by rw [Nat.succ_mul, Nat.add_comm]]
        · rw [List.length_drop] at hlen
          rw [List.length_append, List.length_take]
          omega
      · obtain ⟨y, hy, hxy⟩ := hunsound hcut
        obtain rfl : x = y := by rw [hnext] at hxy; exact Option.some.inj hxy
        have hsub := filter_sublist_drop hs hy
        have hshort := hsub.length_le
        have hpos := List.length_pos_of_mem hy
        rw [List.length_drop] at hshort hpos
        obtain ⟨L, hfollows, _, hlen⟩ := ih (S.filter fun e => x.1 ≤ e.1).length (by omega)
          (hs.sublist List.filter_sublist) (fun y hy => hTC y (List.mem_of_mem_filter hy)) rfl
        refine ⟨S.take m ++ L, .more hnext hfollows, ?_, ?_⟩
        · constructor
          · intro heq
            have hlength := congrArg List.length heq
            rw [List.length_append, List.length_take] at hlength
            omega
          · intro hall
            have h0 := hall 0
            rw [Nat.zero_mul, List.drop_zero] at h0
            exact absurd h0 hcut
        · rw [List.length_append, List.length_take]
          omega

end Paging
