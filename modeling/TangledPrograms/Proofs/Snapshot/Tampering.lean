import TangledPrograms.Proofs.Bytes.Exact
import TangledPrograms.Proofs.Snapshot.Resume

/-!
# Altered files

The checksum stands in front of a file and the payload behind its own length. Whatever a file holds,
its envelope is read as the one form that these have; so a file that carries the checksum of a
snapshot, and whose payload has this checksum, is the file of the snapshot with something behind it.
Any other change is refused.
-/

namespace TangledPrograms.Snapshot

open Bytes Population

variable {F : TimeFormat}

def recorded? (f : List UInt8) : Option String :=
  match readChecksum.run f with
  | .ok (c, _) => some c
  | .error _ => none

def carried? (f : List UInt8) : Option (List UInt8) :=
  match readFile.run f with
  | .ok ((_, payload), _) => some payload
  | .error _ => none

section envelope

variable {f rest : List UInt8} {c : String} {payload : List UInt8}

theorem eq_of_readChecksum (h : readChecksum f = .ok (c, rest)) : f = Bytes.text c ++ rest := by
  obtain ⟨length, s, hlength, hbehind⟩ := Reader.ok_of_bind h
  obtain ⟨rfl, -⟩ := eq_of_readWord64 hlength
  split at hbehind
  · cases hbehind
  · obtain ⟨bytes, s', htake, hc⟩ := Reader.ok_of_bind hbehind
    obtain ⟨rfl, rfl⟩ := eq_of_take htake
    cases htext : String.fromUTF8? ⟨bytes.toArray⟩ with
    | none =>
      rw [htext] at hc
      cases hc
    | some c' =>
      rw [htext] at hc
      cases hc
      obtain rfl := eq_of_fromUTF8? htext
      rw [Bytes.text, length_toUTF8, List.append_assoc]

theorem eq_of_readFile (h : readFile f = .ok ((c, payload), rest)) :
    f = Bytes.text c ++ word64 payload.length ++ payload ++ rest ∧ payload.length < 2 ^ 64 := by
  obtain ⟨c', s, hc, hbehind⟩ := Reader.ok_of_bind h
  obtain ⟨length, s', hlength, hpayload⟩ := Reader.ok_of_bind hbehind
  obtain ⟨payload', s'', htake, hpair⟩ := Reader.ok_of_bind hpayload
  cases hpair
  obtain ⟨rfl, hbound⟩ := eq_of_readWord64 hlength
  obtain ⟨rfl, rfl⟩ := eq_of_take htake
  rw [eq_of_readChecksum hc]
  exact ⟨by simp only [List.append_assoc], hbound⟩

/-- Behind a checksum that can be read, the rest of the envelope is read or malformed. -/
theorem readFile_cases (h : recorded? f = some c) :
    (∃ payload rest, readFile.run f = .ok ((c, payload), rest)) ∨
      readFile.run f = .error .malformed := by
  obtain ⟨s, hc⟩ : ∃ s, readChecksum f = .ok (c, s) := by
    simp only [recorded?] at h
    split at h
    · rename_i hread
      cases h
      exact ⟨_, hread⟩
    · cases h
  cases hfile : readFile.run f with
  | ok x =>
    obtain ⟨⟨c', payload⟩, rest⟩ := x
    obtain ⟨_, _, hc', hbehind⟩ := Reader.ok_of_bind hfile
    obtain ⟨_, _, -, hpayload⟩ := Reader.ok_of_bind hbehind
    obtain ⟨_, _, -, hpair⟩ := Reader.ok_of_bind hpayload
    cases hpair
    rw [hc] at hc'
    cases hc'
    exact .inl ⟨payload, rest, rfl⟩
  | error e =>
    refine .inr (congrArg Except.error ?_)
    obtain hfirst | ⟨_, _, -, hbehind⟩ := Reader.error_of_bind hfile
    · rw [hc] at hfirst
      cases hfirst
    obtain hlength | ⟨_, _, -, hpayload⟩ := Reader.error_of_bind hbehind
    · exact malformed_of_readWord64 hlength
    obtain htake | ⟨_, _, -, hpure⟩ := Reader.error_of_bind hpayload
    · exact malformed_of_take htake
    · cases hpure

end envelope

theorem checksum_injOn {payloads : Set (List UInt8)} (h : Set.InjOn Blake3.hash payloads) :
    Set.InjOn checksum payloads := hex_injective.comp_injOn h

/-- What stands behind a file is not read. -/
theorem ofFile_append {s : Snapshot F} (h : s.payload.length < 2 ^ 64) (rest : List UInt8) :
    ofFile (some (s.file ++ rest)) F = ofFile (some s.file) F := by
  have hfile : readFile.run (s.file ++ rest) = .ok ((checksum s.payload, s.payload), rest) :=
    reads_file h rest
  have halone := reads_file h []
  rw [List.append_nil] at halone
  replace halone : readFile.run s.file = .ok ((checksum s.payload, s.payload), []) := halone
  simp only [ofFile]
  simp only [hfile, halone]

theorem recorded?_checksum (payload rest : List UInt8) :
    recorded? (Bytes.text (checksum payload) ++ rest) = some (checksum payload) := by
  have hread : readChecksum.run (Bytes.text (checksum payload) ++ rest) =
    .ok (checksum payload, rest) := reads_checksum payload rest
  rw [recorded?, hread]

theorem recorded?_file (s : Snapshot F) : recorded? s.file = some (checksum s.payload) := by
  simp only [file, envelope, List.append_assoc]
  exact recorded?_checksum s.payload _

section altered

variable {s : Snapshot F} {f : List UInt8} {payloads : Set (List UInt8)}
  (hinj : Set.InjOn Blake3.hash payloads) (hs : s.payload ∈ payloads)
  (hf : ∀ payload ∈ carried? f, payload ∈ payloads)
  (hsum : recorded? f = recorded? s.file)
include hinj hs hf hsum

/-- A file with the checksum of a snapshot is the snapshot's file with something behind it, or it is
refused. -/
theorem ofFile_cases :
    (∃ rest, f = s.file ++ rest ∧ ofFile (some f) F = ofFile (some s.file) F) ∨
      ofFile (some f) F = .error .malformed ∨
      ∃ actual, ofFile (some f) F =
        .error (.snapshot (.checksumMismatch (checksum s.payload) actual)) := by
  obtain ⟨payload, rest, hread⟩ | hread := readFile_cases (hsum.trans s.recorded?_file)
  · by_cases hactual : checksum payload = checksum s.payload
    · have hmem : payload ∈ payloads := hf payload (by rw [carried?, hread]; rfl)
      obtain rfl := checksum_injOn hinj hmem hs hactual
      obtain ⟨rfl, hlength⟩ := eq_of_readFile hread
      exact .inl ⟨rest, rfl, ofFile_append hlength rest⟩
    · refine .inr (.inr ⟨checksum payload, ?_⟩)
      simp only [ofFile]
      simp only [hread, hactual, ne_eq, not_false_eq_true, if_true]
  · refine .inr (.inl ?_)
    simp only [ofFile]
    simp only [hread]
    rfl

/-- A file that carries the checksum of a snapshot is not accepted as another snapshot or population
than the snapshot's own file. If anything but what stands behind that file is different, be it the
payload or its length, it is refused, as malformed or for its checksum. -/
theorem ofFile_altered :
    (∀ s', ofFile (some f) F = .ok s' → ofFile (some s.file) F = .ok s') ∧
    (∀ p, Population.ofFile (some f) F = .ok p → Population.ofFile (some s.file) F = .ok p) ∧
    ((∀ rest, f ≠ s.file ++ rest) → ofFile (some f) F = .error .malformed ∨
      ∃ actual, ofFile (some f) F =
        .error (.snapshot (.checksumMismatch (checksum s.payload) actual))) := by
  obtain ⟨rest, hrest, hsame⟩ | hrefused := ofFile_cases hinj hs hf hsum
  · refine ⟨fun s' h => hsame ▸ h, fun p h => ?_, fun hother => absurd hrest (hother rest)⟩
    rwa [Population.ofFile, hsame] at h
  · have herror : ∃ e, ofFile (some f) F = .error e := by
      obtain h | ⟨actual, h⟩ := hrefused <;> exact ⟨_, h⟩
    obtain ⟨e, he⟩ := herror
    refine ⟨fun s' h => ?_, fun p h => ?_, fun _ => hrefused⟩
    · rw [he] at h
      cases h
    · rw [Population.ofFile, he] at h
      cases h

end altered

theorem carried?_envelope {payload : List UInt8} (h : payload.length < 2 ^ 64) (rest : List UInt8) :
    carried? (envelope payload ++ rest) = some payload := by
  have hread : readFile.run (envelope payload ++ rest) = .ok ((checksum payload, payload), rest) :=
    reads_file h rest
  rw [carried?, hread]

/-- Nothing is carried where the length is more than what is left of the file. -/
theorem carried?_of_short (payload : List UInt8) {bytes : List UInt8} {n : Nat} (hn : n < 2 ^ 64)
    (h : bytes.length < n) :
    carried? (Bytes.text (checksum payload) ++ (word64 n ++ bytes)) = none := by
  simp only [carried?]
  split
  · rename_i c payload' rest hread
    obtain ⟨_, _, hc, hbehind⟩ := Reader.ok_of_bind hread
    rw [reads_checksum] at hc
    cases hc
    obtain ⟨_, _, hlength, hpayload⟩ := Reader.ok_of_bind hbehind
    rw [reads_word64 hn] at hlength
    cases hlength
    obtain ⟨_, _, htake, -⟩ := Reader.ok_of_bind hpayload
    obtain ⟨rfl, rfl⟩ := eq_of_take htake
    rw [List.length_append] at h
    omega
  · rfl

/-- A saved population with a byte behind its file, and without its last byte. -/
theorem remembering_altered :
    let saved := (capture remembering .epoch).withAgents []
    let extended := saved.file ++ [0]
    let cut := Bytes.text (checksum saved.payload) ++
      (word64 saved.payload.length ++ saved.payload.dropLast)
    Set.InjOn Blake3.hash {saved.payload} ∧ saved.payload ∈ ({saved.payload} : Set (List UInt8)) ∧
      (∀ f ∈ [extended, cut], (∀ payload ∈ carried? f, payload ∈ ({saved.payload} : Set _)) ∧
        recorded? f = recorded? saved.file) ∧
      (∃ image, ofFile (some extended) = .ok image ∧ ofFile (some saved.file) = .ok image) ∧
      (∀ rest, cut ≠ saved.file ++ rest) ∧ (ofFile (some cut) = .error .malformed ∨
        ∃ actual, ofFile (some cut) =
          .error (.snapshot (.checksumMismatch (checksum saved.payload) actual))) := by
  intro saved extended cut
  have hlength : saved.payload.length < 2 ^ 64 := by decide +kernel
  have hcut : saved.payload.dropLast.length < saved.payload.length := by decide +kernel
  have hinj : Set.InjOn Blake3.hash {saved.payload} := Set.injOn_singleton _ _
  have hs : saved.payload ∈ ({saved.payload} : Set (List UInt8)) := rfl
  have hextended : (∀ payload ∈ carried? extended, payload ∈ ({saved.payload} : Set _)) ∧
      recorded? extended = recorded? saved.file := by
    have hcarried : carried? extended = some saved.payload := carried?_envelope hlength [0]
    refine ⟨by simp [hcarried], ?_⟩
    rw [recorded?_file]
    simp only [extended, file, envelope, List.append_assoc]
    exact recorded?_checksum saved.payload _
  have hfcut : (∀ payload ∈ carried? cut, payload ∈ ({saved.payload} : Set _)) ∧
      recorded? cut = recorded? saved.file :=
    ⟨by simp [cut, carried?_of_short saved.payload hlength hcut],
      (recorded?_checksum _ _).trans saved.recorded?_file.symm⟩
  have hshort : ∀ rest, cut ≠ saved.file ++ rest := by
    intro rest h
    have hlengths := congrArg List.length h
    simp only [cut, file, envelope] at hlengths
    simp only [List.length_append] at hlengths
    omega
  obtain ⟨p₀, h₀, hrun⟩ := exists_run_remembering
  obtain ⟨image, hload, -⟩ : ∃ image, ofFile (some saved.file) = .ok image ∧
      image.restore = .ok (remembering.forget, ([] : List Agent).map Agent.record) :=
    exists_image h₀ hrun remembering_fits Timestamp.legible_epoch (by simp) ⟨by decide, by simp⟩ hlength
  have happend : ofFile (some extended) = .ok image := (ofFile_append hlength [0]).trans hload
  exact ⟨hinj, hs, List.forall_mem_cons.2 ⟨hextended, List.forall_mem_singleton.2 hfcut⟩,
    ⟨image, happend, (ofFile_altered hinj hs hextended.1 hextended.2).1 image happend⟩, hshort,
    (ofFile_altered hinj hs hfcut.1 hfcut.2).2.2 hshort⟩

end TangledPrograms.Snapshot
