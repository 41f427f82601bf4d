import TangledPrograms.Proofs.Snapshot.Layout

/-!
# Saved snapshots are loaded

A file is read back as the snapshot that it was made of, whose learners have lost their memory. The
digits of a time stamp stand for its numbers, and the checksum of a payload is a short text.
-/

namespace TangledPrograms

open Bytes

theorem utf8ByteSize_ofList_le (l : List Char) : (String.ofList l).utf8ByteSize ≤ 4 * l.length := by
  induction l with
  | nil => simp
  | cons c l ih =>
    have hc := c.utf8Size_le_four
    rw [String.ofList_cons, String.utf8ByteSize_append, String.utf8ByteSize_singleton,
      List.length_cons]
    omega

theorem Text.length_fixedDigits (base width n : Nat) :
    (fixedDigits base width n).length = width := by
  induction width generalizing n with
  | zero => rfl
  | succ width ih => simp [fixedDigits, ih]

namespace CalendarSecond

private theorem isDigit_digitChar {n : Nat} (h : n < 10) :
    (Nat.digitChar n).isDigit = true ∧ (Nat.digitChar n).toNat - '0'.toNat = n := by
  revert n
  decide

private theorem all_isDigit_digits (width n : Nat) : (digits width n).all Char.isDigit = true := by
  induction width generalizing n with
  | zero => rfl
  | succ width ih =>
    have hlast := (isDigit_digitChar (Nat.mod_lt n (by decide))).1
    have hrest := ih (n / 10)
    simp only [digits, Text.fixedDigits, List.all_append, List.all_cons, List.all_nil, Bool.and_true,
      Bool.and_eq_true] at hrest ⊢
    exact ⟨hrest, hlast⟩

/-- The last digits of a number that has no more stand for the number. -/
theorem number?_digits {width n : Nat} (h : n < 10 ^ width) :
    number? (digits width n) = some n := by
  have hfold : (digits width n).foldl (fun n d => 10 * n + (d.toNat - '0'.toNat)) 0 = n := by
    induction width generalizing n with
    | zero =>
      obtain rfl : n = 0 := by simpa using h
      rfl
    | succ width ih =>
      have hrest := ih (Nat.div_lt_of_lt_mul (by rwa [Nat.mul_comm, ← Nat.pow_succ]))
      have hlast := (isDigit_digitChar (Nat.mod_lt n (by decide))).2
      simp only [digits, Text.fixedDigits, List.foldl_append, List.foldl_cons, List.foldl_nil]
        at hrest ⊢
      rw [hrest, hlast]
      exact Nat.div_add_mod n 10
  rw [number?, if_pos (all_isDigit_digits width n), hfold]

private theorem daysIn_le (year month : Nat) : daysIn year month ≤ 31 := by
  have hfebruary : (if isLeap year then 29 else 28) ≤ 31 := by split <;> omega
  simp only [daysIn]
  split <;> omega

private theorem lt_of_daysIn_ne_zero {year month : Nat} (h : daysIn year month ≠ 0) : month < 13 := by
  simp only [daysIn] at h
  split at h <;> simp_all

/-- The written form of a second that exists is read as the second. -/
theorem ofText?_text {t : CalendarSecond} (h : t.valid = true) : ofText? t.text = some t := by
  have hvalid := h
  simp only [valid, Bool.and_eq_true, decide_eq_true_eq] at hvalid
  obtain ⟨⟨⟨⟨⟨hyear, hfirst⟩, hlast⟩, hhour⟩, hminute⟩, hsecond⟩ := hvalid
  have hmonth := lt_of_daysIn_ne_zero (Nat.ne_of_gt (Nat.lt_of_lt_of_le hfirst hlast))
  have hday := Nat.le_trans hlast (daysIn_le t.year t.month)
  have ryear := number?_digits (show t.year < 10 ^ 4 from hyear)
  have rmonth := number?_digits (show t.month < 10 ^ 2 by omega)
  have rday := number?_digits (show t.day < 10 ^ 2 by omega)
  have rhour := number?_digits (show t.hour < 10 ^ 2 by omega)
  have rminute := number?_digits (show t.minute < 10 ^ 2 by omega)
  have rsecond := number?_digits (show t.second < 10 ^ 2 by omega)
  simp only [ofText?, text]
  rw [String.toList_ofList]
  simp only [chars, digits, Text.fixedDigits, List.nil_append, List.cons_append, ofChars?]
    at ryear rmonth rday rhour rminute rsecond ⊢
  rw [ryear, rmonth, rday, rhour, rminute, rsecond]
  simp [h]

end CalendarSecond

namespace Timestamp

/-- Seconds that exist have a written form that is read as the same time stamp. -/
theorem legible_of_valid {t : CalendarSecond} (h : t.valid = true) :
    (⟨t⟩ : Timestamp .seconds).Legible := by
  rw [Legible, ofText?, text, TimeFormat.text_seconds, TimeFormat.ofText?_seconds,
    CalendarSecond.ofText?_text h]
  rfl

theorem legible_epoch : epoch.Legible := legible_of_valid (by decide)

theorem reads {F : TimeFormat} {t : Timestamp F} (h : t.Legible)
    (hsize : t.text.utf8ByteSize < 2 ^ 64) : Reads readBytes (Bytes.text t.text) t :=
  (reads_text hsize).finish (by rw [h]; rfl)

end Timestamp

namespace Snapshot

variable {F : TimeFormat}

/-- The snapshot without its learners' memories. -/
def forget (s : Snapshot F) : Snapshot F := { s with learners := s.learners.map Learner.forget }

/-- The numbers and lengths of a snapshot fit their widths in the file, its time stamp is read back from
its text, and the positions of its windows are those that they are made with. -/
structure Fits (s : Snapshot F) : Prop where
  version : s.version < 2 ^ 32
  savedAt : s.savedAt.Legible
  settings : s.settings.Fits
  ranges : s.ranges.Fits
  counters : s.counters.Fits
  teams : FitsAll Team.Fits s.teams
  learners : FitsAll (fun l => l.addressing.Coherent ∧ l.Fits) s.learners
  agents : FitsAll AgentRecord.Fits s.agents

theorem utf8ByteSize_savedAt_le (s : Snapshot F) :
    s.savedAt.text.utf8ByteSize ≤ s.payload.length := by
  simp only [payload, Bytes.text, List.length_append, length_toUTF8]
  omega

theorem reads_payload {s : Snapshot F} (h : s.Fits) (hlength : s.payload.length < 2 ^ 64) :
    Reads readPayload s.payload s.forget := by
  have hsaved := s.utf8ByteSize_savedAt_le.trans_lt hlength
  simp only [payload]
  simp only [List.append_assoc]
  exact (reads_word32 h.version).bind <| (Timestamp.reads h.savedAt hsaved).bind <|
    (s.settings.reads h.settings).bind <| (s.ranges.reads h.ranges).bind <|
    (s.counters.reads h.counters).bind <| (h.teams.reads_self Team.reads).bind <|
    (h.learners.reads Learner.forget fun l hl => l.reads hl.1 hl.2).bind <|
    (h.agents.reads_self AgentRecord.reads).finish rfl

theorem length_hash (payload : List UInt8) : (Blake3.hash payload).length = 32 := by
  unfold Blake3.hash
  simp [Blake3.wordBytes]

theorem utf8ByteSize_checksum_le (payload : List UInt8) :
    (checksum payload).utf8ByteSize ≤ 256 := by
  have hdigits : ((Blake3.hash payload).flatMap hexByte).length = 64 := by
    simp [hexByte, hexDigits, Text.length_fixedDigits, length_hash]
  have hsize := utf8ByteSize_ofList_le ((Blake3.hash payload).flatMap hexByte)
  rw [hdigits] at hsize
  exact hsize

theorem reads_checksum (payload : List UInt8) :
    Reads readChecksum (Bytes.text (checksum payload)) (checksum payload) := by
  have hsize := utf8ByteSize_checksum_le payload
  refine (reads_word64 (by omega)).bind ?_
  rw [if_neg (by rw [UInt64.size]; omega)]
  have htake := reads_take (checksum payload).toUTF8.data.toList
  rw [length_toUTF8] at htake
  exact htake.finish (by rw [fromUTF8?_toUTF8]; rfl)

theorem reads_file {payload : List UInt8} (h : payload.length < 2 ^ 64) :
    Reads readFile (envelope payload) (checksum payload, payload) := by
  simp only [envelope]
  simp only [List.append_assoc]
  refine (reads_checksum payload).bind ((reads_word64 h).bind ?_)
  exact (reads_take payload).finish rfl

/-- A file is loaded as the snapshot that it was made of, without memories. -/
theorem ofFile_file {s : Snapshot F} (h : s.Fits) (hlength : s.payload.length < 2 ^ 64) :
    ofFile (some s.file) F = .ok s.forget := by
  have hfile := reads_file hlength []
  have hpayload := reads_payload h hlength []
  rw [List.append_nil] at hfile hpayload
  have hfile' : readFile.run s.file = .ok ((checksum s.payload, s.payload), []) := hfile
  have hpayload' : readPayload.run s.payload = .ok (s.forget, []) := hpayload
  simp only [ofFile]
  simp only [hfile', hpayload', ne_eq, not_true_eq_false, if_false]

end Snapshot

end TangledPrograms
