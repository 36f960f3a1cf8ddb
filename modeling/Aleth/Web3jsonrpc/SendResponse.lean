import Aleth.Devcore.Bytes
import Mathlib

/-! Sending a response (`IpcServerBase::SendResponse`, `UnixDomainSocketServer::Write`).

What a write leaves over is cut one byte too far: the byte after the accepted
ones is never offered. A response arrives as the loop reports it when one write
takes it whole, or when a later write is refused and nothing accepted up to then
shows the gap (`arrivesWhole_iff`). -/
namespace Aleth.Web3jsonrpc
open Devcore

/-! ### The code -/

/-- What `send` returns, call by call. It accepts no more than it is offered. -/
abbrev Sends := ℕ → ℤ

/-- `UnixDomainSocketServer::Write`. -/
def Sends.Write (sends : Sends) (call : ℕ) (data : Bytes) : ℕ :=
  let r := min (sends call) data.length
  if r < 0 then 0 else r.toNat

/-- A size that is stored in an `int` and made a `size_t` again: the low 32 bits, with their sign
extended. -/
def throughInt (n : ℕ) : ℕ :=
  let low := n % 2 ^ 32
  if low < 2 ^ 31 then low else low + (2 ^ 64 - 2 ^ 32)

/-- `toSend.substr(bytesWritten + sizeof(char), len)`. -/
def leftOver (toSend : Bytes) (bytesWritten : ℕ) : Bytes :=
  let len := throughInt (toSend.length - bytesWritten)
  (toSend.drop (bytesWritten + 1)).take len

theorem length_leftOver (toSend : Bytes) (bytesWritten : ℕ) :
    (leftOver toSend bytesWritten).length ≤ toSend.length - (bytesWritten + 1) := by
  rw [leftOver, List.length_take, List.length_drop]
  exact min_le_right ..

/-- The loop: the bytes the socket accepts, and whether the last write took all it was offered. -/
def sendLoop (sends : Sends) (call : ℕ) (toSend : Bytes) : Bytes × Bool :=
  let bytesWritten := sends.Write call toSend
  if bytesWritten = 0 then ([], false)
  else if bytesWritten < toSend.length then
    let (accepted, fullyWritten) := sendLoop sends (call + 1) (leftOver toSend bytesWritten)
    (toSend.take bytesWritten ++ accepted, fullyWritten)
  else (toSend, true)
termination_by toSend.length
decreasing_by
  have hle := length_leftOver toSend (sends.Write call toSend)
  omega

def SendResponse (sends : Sends) (response : Bytes) : Bytes × Bool := sendLoop sends 0 response

/-! ### The specification -/

/-- What the socket accepted is a beginning of the response, and `true` means all of it. -/
def ArrivesWhole (sends : Sends) (response : Bytes) : Prop :=
  (SendResponse sends response).1 <+: response ∧
    ((SendResponse sends response).2 = true ↔ (SendResponse sends response).1 = response)

/-- From a call on, `toSend` is offered where the response goes on with `owed`: a write is refused
before one accepts all it is offered, and the bytes accepted until then are those of `owed`. -/
inductive Echoes (sends : Sends) : ℕ → Bytes → Bytes → Prop
  | refused {call : ℕ} {toSend owed : Bytes} (h : sends.Write call toSend = 0) :
    Echoes sends call toSend owed
  | goesOn {call : ℕ} {toSend owed : Bytes} (h : sends.Write call toSend < toSend.length)
    (hsame : toSend.take (sends.Write call toSend) <+: owed)
    (hrest : Echoes sends (call + 1) (leftOver toSend (sends.Write call toSend))
      (owed.drop (sends.Write call toSend))) :
    Echoes sends call toSend owed

/-! ### One write -/

section
variable {sends : Sends} {call : ℕ} {toSend owed : Bytes}

theorem Write_le : sends.Write call toSend ≤ toSend.length := by
  unfold Sends.Write
  dsimp only
  split <;> omega

theorem sendLoop_refused (h : sends.Write call toSend = 0) :
    sendLoop sends call toSend = ([], false) := by
  rw [sendLoop]
  simp [h]

theorem sendLoop_part (h0 : sends.Write call toSend ≠ 0)
    (h : sends.Write call toSend < toSend.length) :
    sendLoop sends call toSend =
      (toSend.take (sends.Write call toSend) ++
          (sendLoop sends (call + 1) (leftOver toSend (sends.Write call toSend))).1,
        (sendLoop sends (call + 1) (leftOver toSend (sends.Write call toSend))).2) := by
  rw [sendLoop]
  simp only [h0, h, if_true, if_false]

theorem sendLoop_whole (h0 : sends.Write call toSend ≠ 0)
    (h : ¬sends.Write call toSend < toSend.length) :
    sendLoop sends call toSend = (toSend, true) := by
  rw [sendLoop]
  simp only [h0, h, if_false]

theorem append_prefix_iff {a b l : Bytes} : a ++ b <+: l ↔ a <+: l ∧ b <+: l.drop a.length := by
  constructor
  · rintro ⟨t, rfl⟩
    simp
  · rintro ⟨⟨t, rfl⟩, hb⟩
    rw [List.drop_left] at hb
    exact List.prefix_append_right_inj a |>.mpr hb

theorem echoes_iff_goesOn (h0 : sends.Write call toSend ≠ 0) :
    Echoes sends call toSend owed ↔
      sends.Write call toSend < toSend.length ∧
        toSend.take (sends.Write call toSend) <+: owed ∧
        Echoes sends (call + 1) (leftOver toSend (sends.Write call toSend))
          (owed.drop (sends.Write call toSend)) := by
  constructor
  · intro he
    cases he with
    | refused h => exact absurd h h0
    | goesOn h hsame hrest => exact ⟨h, hsame, hrest⟩
  · rintro ⟨h, hsame, hrest⟩
    exact .goesOn h hsame hrest

/-! ### What the loop accepts -/

theorem length_sendLoop : (sendLoop sends call toSend).1.length ≤ toSend.length := by
  induction hn : toSend.length using Nat.strongRecOn generalizing call toSend with
  | ind n ih =>
    subst hn
    by_cases h0 : sends.Write call toSend = 0
    · rw [sendLoop_refused h0]
      exact Nat.zero_le _
    by_cases h : sends.Write call toSend < toSend.length
    · have hle := length_leftOver toSend (sends.Write call toSend)
      have hrest := @ih _ (by omega) (call + 1) (leftOver toSend (sends.Write call toSend)) rfl
      rw [sendLoop_part h0 h, List.length_append, List.length_take]
      omega
    · rw [sendLoop_whole h0 h]

/-- Once a byte is lost the loop may not report success, and what it accepts has to be what the
response has there. -/
theorem sendLoop_echoes (hlt : toSend.length < owed.length) :
    (sendLoop sends call toSend).1 <+: owed ∧ (sendLoop sends call toSend).2 = false ↔
      Echoes sends call toSend owed := by
  induction hn : toSend.length using Nat.strongRecOn generalizing call toSend owed with
  | ind n ih =>
    subst hn
    by_cases h0 : sends.Write call toSend = 0
    · rw [sendLoop_refused h0]
      have hnil : [] <+: owed := List.nil_prefix
      exact iff_of_true ⟨hnil, rfl⟩ (.refused h0)
    rw [echoes_iff_goesOn h0]
    by_cases h : sends.Write call toSend < toSend.length
    · have hle := length_leftOver toSend (sends.Write call toSend)
      have hshort : (toSend.take (sends.Write call toSend)).length = sends.Write call toSend :=
        List.length_take_of_le h.le
      have hrest := @ih _ (by omega) (call + 1) (leftOver toSend (sends.Write call toSend))
        (owed.drop (sends.Write call toSend)) (by rw [List.length_drop]; omega) rfl
      rw [sendLoop_part h0 h, append_prefix_iff, hshort, and_assoc, hrest, and_iff_right h]
    · rw [sendLoop_whole h0 h]
      exact iff_of_false (fun hend => Bool.noConfusion hend.2) fun hend => h hend.1

end

/-- **The socket accepts a beginning of the response, and the loop reports whether it is all of it,
exactly when the response is not empty and the first write accepts all of it, or else the writes
that follow show nothing of the byte each partial one loses.** -/
theorem arrivesWhole_iff (sends : Sends) (response : Bytes) :
    ArrivesWhole sends response ↔
      response ≠ [] ∧ (sends.Write 0 response = response.length ∨
        Echoes sends 0 response response) := by
  unfold ArrivesWhole SendResponse
  by_cases hnil : response = []
  · subst hnil
    have h0 : sends.Write 0 [] = 0 := Nat.le_zero.mp Write_le
    rw [sendLoop_refused h0]
    simp
  rw [and_iff_right hnil]
  by_cases h0 : sends.Write 0 response = 0
  · rw [sendLoop_refused h0]
    have hpre : [] <+: response := List.nil_prefix
    exact iff_of_true ⟨hpre, iff_of_false Bool.false_ne_true (Ne.symm hnil)⟩
      (.inr (.refused h0))
  by_cases h : sends.Write 0 response < response.length
  · have hle := length_leftOver response (sends.Write 0 response)
    have hacc := @length_sendLoop sends 1 (leftOver response (sends.Write 0 response))
    have htake : (response.take (sends.Write 0 response)).length = sends.Write 0 response :=
      List.length_take_of_le h.le
    have hne : response.take (sends.Write 0 response) ++
        (sendLoop sends 1 (leftOver response (sends.Write 0 response))).1 ≠ response := by
      intro heq
      have hlen := congrArg List.length heq
      rw [List.length_append, htake] at hlen
      omega
    have hloop := @sendLoop_echoes sends 1 (leftOver response (sends.Write 0 response))
      (response.drop (sends.Write 0 response)) (by rw [List.length_drop]; omega)
    rw [sendLoop_part h0 h, append_prefix_iff, htake, iff_false_right hne,
      Bool.not_eq_true, and_assoc, hloop, or_iff_right h.ne, echoes_iff_goesOn h0, and_iff_right h]
  · rw [sendLoop_whole h0 h]
    have hwhole : sends.Write 0 response = response.length :=
      Nat.le_antisymm Write_le (Nat.le_of_not_lt h)
    exact iff_of_true ⟨List.prefix_rfl, by simp⟩ (.inl hwhole)

/-- The bytes `abcd`, of which the first write accepts one. -/
theorem shortWrite_loses : SendResponse (fun call => if call = 0 then 1 else 4)
      [0x61, 0x62, 0x63, 0x64] = ([0x61, 0x63, 0x64], true) ∧
    ¬ArrivesWhole (fun call => if call = 0 then 1 else 4) [0x61, 0x62, 0x63, 0x64] := by
  have hsent : SendResponse (fun call => if call = 0 then 1 else 4)
      [0x61, 0x62, 0x63, 0x64] = ([0x61, 0x63, 0x64], true) := by
    unfold SendResponse
    rw [sendLoop_part (by decide) (by decide), sendLoop_whole (by decide) (by decide)]
    decide
  refine ⟨hsent, fun h => ?_⟩
  rw [ArrivesWhole, hsent] at h
  exact absurd h.1 (by decide)

end Aleth.Web3jsonrpc
