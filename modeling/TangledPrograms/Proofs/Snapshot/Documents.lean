import TangledPrograms.Proofs.Document.Values
import TangledPrograms.Proofs.Snapshot.File
import TangledPrograms.Snapshot.Read

/-!
# Saved values are read back from their documents

What holds whole numbers and words only is recovered from its document if its numbers fit; a strategy
comes back with the positions that it is made with.
-/

namespace TangledPrograms

open Document

theorem Document.parse_eq_ok_iff {α : Type} {r : Reader Char α} {s : String} {a : α} :
    parse r s = .ok a ↔ readAll r s = .ok a := by
  rw [parse]
  cases readAll r s <;> simp

theorem Document.parse_eq_malformed_iff {α : Type} {r : Reader Char α} {s : String} :
    parse r s = .error .malformed ↔ readAll r s = .error .malformed := by
  rw [parse]
  cases readAll r s with
  | ok a => simp
  | error e => cases e <;> simp [ReadFailure.error]

theorem naturals_recovers {ns : List Nat} (h : FitsAll FitsWord ns) :
    Recovers (items size) (.naturals ns) ns := by
  have hitems : Recovers (items size) (.list (ns.map natural)) (ns.map id) :=
    items_recovers_map fun n hn => size_recovers (h.2 n hn)
  rwa [List.map_id] at hitems

theorem Id.recovers {k : Kind} (a : Id k) (h : a.Fits) : Recovers read (natural a.index) a :=
  (size_recovers h).finish rfl

theorem Instruction.recovers (i : Instruction) : Recovers read i.document i :=
  Gives.finish (Fields.Gives.tuple (.field (word32_recovers i.mode)
    (.field (word32_recovers i.operation) (.field (word32_recovers i.destShared)
      (.field (word32_recovers i.dest) (.field (word32_recovers i.sourceShared)
        (.field (word32_recovers i.source) .done)))))) (by simp)) rfl

theorem Program.recovers (p : Program) (h : p.Fits) : Recovers read p.document p := by
  have hcode := items_recovers_map fun i (_ : i ∈ p.code) => i.recovers
  rw [List.map_id'] at hcode
  exact Fields.Recovers.made (.field (p.id.recovers h.1) (.field hcode .done)) (by simp) (by simp) rfl

theorem Mode.recovers : ∀ m : Mode, Recovers read (.text m.name) m
  | .scalar => variant_bare_recovers rfl
  | .vector => variant_bare_recovers rfl

theorem AddressingKind.recovers : ∀ k : AddressingKind, Recovers read (.text k.name) k
  | .full => variant_bare_recovers rfl
  | .window => variant_bare_recovers rfl
  | .multiWindow => variant_bare_recovers rfl

theorem Document.ofExcept_apply {α : Type} (o : Except Halt α) (s : List Char) :
    Reader.ofExcept o s = (o.mapError ReadFailure.halted).map fun a => (a, s) := by
  cases o <;> rfl

theorem mapError_map {α β : Type} (o : Except Halt α) (f : α → β) :
    (o.map f).mapError ReadFailure.halted = (o.mapError ReadFailure.halted).map f := by
  cases o <;> rfl

/-- Where a window is written, one is made of its parameters. -/
theorem WindowAddressing.gives (w : WindowAddressing) (h : w.Fits) :
    Gives read w.document ((make w.anchor w.shape w.kernel).mapError .halted) := by
  obtain ⟨hanchor, hshape, hkernel⟩ := h
  exact Gives.bind (g := fun x : List Nat × List Nat × Nat × Unit =>
      (make x.1 x.2.1 x.2.2.1).mapError .halted)
    (Fields.Gives.record (.field (naturals_recovers hanchor) (.field (naturals_recovers hshape)
      (.field (size_recovers hkernel) .done))) (by simp) (by simp)) fun x s _ => ofExcept_apply _ s

theorem MultiWindowAddressing.gives (w : MultiWindowAddressing) (h : w.Fits) :
    Gives read w.document ((make w.anchors w.shape w.kernel w.step).mapError .halted) := by
  obtain ⟨hanchors, hshape, hkernel, hstep⟩ := h
  have hall := items_recovers_map fun a ha => naturals_recovers (hanchors.2 a ha)
  rw [List.map_id'] at hall
  exact Gives.bind (g := fun x : List (List Nat) × List Nat × Nat × Nat × Unit =>
      (make x.1 x.2.1 x.2.2.1 x.2.2.2.1).mapError .halted)
    (Fields.Gives.record (.field hall (.field (naturals_recovers hshape)
      (.field (size_recovers hkernel) (.field (size_recovers hstep) .done)))) (by simp) (by simp))
    fun x s _ => ofExcept_apply _ s

def Addressing.remake : Addressing → Except Halt Addressing
  | .full => .ok .full
  | .window w => (WindowAddressing.make w.anchor w.shape w.kernel).map .window
  | .multiWindow w => (MultiWindowAddressing.make w.anchors w.shape w.kernel w.step).map .multiWindow

theorem Addressing.Coherent.remake_eq {a : Addressing} (h : a.Coherent) : a.remake = .ok a := by
  cases a with
  | full => rfl
  | window w => exact congrArg (Except.map Addressing.window) h
  | multiWindow w => exact congrArg (Except.map Addressing.multiWindow) h

/-- Where a strategy is written, one is made of its parameters. -/
theorem Addressing.gives (a : Addressing) (h : a.Fits) :
    Gives read a.document (a.remake.mapError .halted) := by
  cases a with
  | full => exact variant_bare_recovers rfl
  | window w =>
    rw [remake, mapError_map]
    exact variant_tagged_gives rfl rfl ((w.gives h).map fun _ => rfl)
  | multiWindow w =>
    rw [remake, mapError_map]
    exact variant_tagged_gives rfl rfl ((w.gives h).map fun _ => rfl)

theorem Addressing.recovers (a : Addressing) (hc : a.Coherent) (h : a.Fits) :
    Recovers read a.document a := by
  have hgives := a.gives h
  rwa [hc.remake_eq] at hgives

/-- A strategy is parsed from its text. -/
theorem Addressing.parse_pretty {a : Addressing} (hc : a.Coherent) (h : a.Fits) :
    parse read a.document.pretty = .ok a :=
  parse_eq_ok_iff.2 (readAll_pretty (a.recovers hc h))

theorem IdCounters.recovers (c : IdCounters) (h : c.Fits) : Recovers read c.document c := by
  obtain ⟨hprogram, hlearner, hteam⟩ := h
  exact Fields.Recovers.made (.field (size_recovers hprogram) (.field (size_recovers hlearner)
    (.field (size_recovers hteam) .done))) (by simp) (by simp) rfl

theorem InstructionRanges.recovers (r : InstructionRanges) (h : r.Fits) :
    Recovers read r.document r :=
  Fields.Recovers.made (.field (word32_recovers r.operations) (.field (word32_recovers r.destinations)
    (.field (word32_recovers r.sources) (.field (size_recovers h) .done)))) (by simp) (by simp) rfl

theorem ProgramSettings.recovers (s : ProgramSettings) (h : FitsWord s.maxLength) :
    Recovers read s.document s :=
  Fields.Recovers.made (.field (word32_recovers s.destinationRange) (.field (word32_recovers s.sourceRange)
    (.field (size_recovers h) .done))) (by simp) (by simp) rfl

theorem RegisterSettings.recovers (s : RegisterSettings) (h : s.Fits) :
    Recovers read s.document s := by
  obtain ⟨hcount, hgroups, hslots⟩ := h
  exact Fields.Recovers.made (.field (size_recovers hcount) (.field (size_recovers hgroups)
    (.field (size_recovers hslots) .done))) (by simp) (by simp) rfl

theorem AddressingSettings.recovers (s : AddressingSettings) (h : s.Fits) :
    Recovers read s.document s := by
  obtain ⟨hshape, hkernel, hpoints, hstep⟩ := h
  exact Fields.Recovers.made (.field s.kind.recovers (.field (naturals_recovers hshape)
    (.field (size_recovers hkernel) (.field (size_recovers hpoints) (.field (size_recovers hstep)
      (.field (truthValue_recovers s.vectorMode) .done)))))) (by simp) (by simp) rfl

theorem Timestamp.recovers {F : TimeFormat} {t : Timestamp F} (h : t.Legible) :
    Recovers read (.text t.text) t :=
  (quoted_recovers t.text).finish (by rw [h]; rfl)

end TangledPrograms
