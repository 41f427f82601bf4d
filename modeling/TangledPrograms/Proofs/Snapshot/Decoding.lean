import Mathlib.Logic.Relation
import TangledPrograms.Proofs.Document.Faults
import TangledPrograms.Proofs.Snapshot.Documents
import TangledPrograms.Proofs.Snapshot.Numbering
import TangledPrograms.Proofs.Views

/-!
# Decoding ends with a value or a refusal

Windows are built while a text is decoded, and building one wraps its points into the axes of its shape.
That is the only thing that can halt the decoding of a strategy, a learner or a snapshot: an anchor with
a coordinate on an axis of length zero. A strategy that has been decoded has no such anchor, and gets
none when it is moved.
-/

namespace TangledPrograms

open Document Draw Reader

namespace Window

/-- The anchor has a coordinate on an axis of length zero. -/
def Unwrappable (anchor shape : List Nat) : Prop := 0 ∈ shape.take anchor.length

instance (anchor shape : List Nat) : Decidable (Unwrappable anchor shape) :=
  inferInstanceAs (Decidable (0 ∈ shape.take anchor.length))

variable {kernel : Nat} {anchor shape : List Nat}

theorem expand?_eq (kernel : Nat) (anchor shape : List Nat) : expand? kernel anchor shape =
    if kernel ≠ 0 ∧ Unwrappable anchor shape then .error .emptyAxis
    else .ok (expand kernel anchor shape) := rfl

theorem expand?_of_wrappable (h : ¬Unwrappable anchor shape) :
    expand? kernel anchor shape = .ok (expand kernel anchor shape) := if_neg fun hzero => h hzero.2

theorem expand?_of_unwrappable (hkernel : kernel ≠ 0) (h : Unwrappable anchor shape) :
    expand? kernel anchor shape = .error .emptyAxis := if_pos ⟨hkernel, h⟩

theorem not_unwrappable (h : ∀ d ∈ shape, 0 < d) : ¬Unwrappable anchor shape := fun hzero =>
  Nat.lt_irrefl 0 (h 0 (List.mem_of_mem_take hzero))

theorem unwrappable_moveAnchor {shift : List Int} {lengths : List Nat} :
    Unwrappable (moveAnchor anchor shift lengths) shape ↔ Unwrappable anchor shape := by
  rw [Unwrappable, Unwrappable, length_moveAnchor]

end Window

open Window (Unwrappable)

theorem WindowAddressing.make_eq_error_iff {anchor shape : List Nat} {kernel : Nat} {h : Halt} :
    make anchor shape kernel = .error h ↔ h = .emptyAxis ∧ Unwrappable anchor shape := by
  have hkernel : max kernel 1 ≠ 0 := by omega
  rw [make]
  by_cases hzero : Unwrappable anchor shape
  · rw [Window.expand?_of_unwrappable hkernel hzero]
    exact ⟨fun heq => ⟨(Except.error.inj heq).symm, hzero⟩, fun heq => heq.1 ▸ rfl⟩
  · rw [Window.expand?_of_wrappable hzero]
    exact ⟨nofun, fun heq => absurd heq.2 hzero⟩

/-- Several windows are expanded like one: unless an anchor cannot be wrapped. -/
theorem MultiWindowAddressing.expandAll?_eq (kernel : Nat) (anchors : List (List Nat))
    (shape : List Nat) : expandAll? kernel anchors shape =
      if kernel ≠ 0 ∧ ∃ a ∈ anchors, Unwrappable a shape then .error .emptyAxis
      else .ok (expandAll kernel anchors shape) := by
  induction anchors with
  | nil =>
    rw [if_neg fun h => nomatch h.2]
    rfl
  | cons a anchors ih =>
    have hcons : expandAll? kernel (a :: anchors) shape = (do
        let positions ← Window.expand? kernel a shape
        pure (positions ++ (← expandAll? kernel anchors shape))) := by
      simp only [expandAll?, List.mapM_cons, bind_assoc, pure_bind, List.flatten_cons]
    rw [hcons, ih, Window.expand?_eq]
    have hsplit : (kernel ≠ 0 ∧ ∃ x ∈ a :: anchors, Unwrappable x shape) ↔
        (kernel ≠ 0 ∧ Unwrappable a shape) ∨ kernel ≠ 0 ∧ ∃ x ∈ anchors, Unwrappable x shape := by
      simp only [List.mem_cons, exists_eq_or_imp, and_or_left]
    simp only [hsplit]
    by_cases hzero : kernel ≠ 0 ∧ Unwrappable a shape
    · rw [if_pos hzero]
      exact (if_pos (Or.inl hzero)).symm
    · rw [if_neg hzero]
      simp only [hzero, false_or]
      split <;> rfl

theorem MultiWindowAddressing.make_eq_error_iff {anchors : List (List Nat)} {shape : List Nat}
    {kernel step : Nat} {h : Halt} : make anchors shape kernel step = .error h ↔
      h = .emptyAxis ∧ ∃ a ∈ anchors, Unwrappable a shape := by
  have hkernel : max kernel 1 ≠ 0 := by omega
  rw [make, expandAll?_eq]
  by_cases hzero : ∃ a ∈ anchors, Unwrappable a shape
  · rw [if_pos ⟨hkernel, hzero⟩]
    exact ⟨fun heq => ⟨(Except.error.inj heq).symm, hzero⟩, fun heq => heq.1 ▸ rfl⟩
  · rw [if_neg fun h => hzero h.2]
    exact ⟨nofun, fun heq => absurd heq.2 hzero⟩

theorem MultiWindowAddressing.expandAll?_of_wrappable {kernel : Nat} {anchors : List (List Nat)}
    {shape : List Nat} (h : ∀ a ∈ anchors, ¬Unwrappable a shape) :
    expandAll? kernel anchors shape = .ok (expandAll kernel anchors shape) := by
  rw [expandAll?_eq, if_neg fun hzero => hzero.2.elim fun a ha => h a ha.1 ha.2]

section moving

variable {E : Halt → Prop}

/-- Anchors that can be wrapped can be wrapped still when they have been moved. -/
theorem MultiWindowAddressing.ensures_wrappable {w : MultiWindowAddressing}
    (h : ∀ a ∈ w.anchors, ¬Unwrappable a w.shape) :
    (w.anchors.mapM fun a : List Nat => if a.isEmpty then pure a
      else do pure (Window.moveAnchor a (← nonzeroShift a.length w.step) w.shape)).Ensures
      fun anchors => ∀ a ∈ anchors, ¬Unwrappable a w.shape := by
  refine (Ensures.mapM (R := fun _ b => ¬Unwrappable b w.shape) fun a ha => ?_).mono
    fun _ hanchors => forall_mem_of_forall₂ hanchors
  split
  · exact .pure (h a ha)
  · exact .after fun shift => .pure (mt Window.unwrappable_moveAnchor.1 (h a ha))

variable (hE : E .starved)
include hE

/-- A window that can be wrapped is moved, given random words. -/
theorem WindowAddressing.meets_perturb_of_wrappable {w : WindowAddressing}
    (h : ¬Unwrappable w.anchor w.shape) : w.perturb.Meets E fun _ => True := by
  rw [perturb]
  split
  · exact .pure trivial
  · refine (meets_nonzeroShift hE fun hstep => absurd (by decide) hstep).bind fun shift _ => ?_
    dsimp only
    rw [Window.expand?_of_wrappable (mt Window.unwrappable_moveAnchor.1 h)]
    exact .pure trivial

/-- Several windows are moved one by one, and can still be wrapped. -/
theorem MultiWindowAddressing.meets_perturb_of_wrappable {w : MultiWindowAddressing}
    (h : ∀ a ∈ w.anchors, ¬Unwrappable a w.shape) (hstep : ¬w.step < 2 ^ 63 → E .emptyRange) :
    w.perturb.Meets E fun _ => True := by
  have hmoved : (w.anchors.mapM fun a : List Nat => if a.isEmpty then pure a
      else do pure (Window.moveAnchor a (← nonzeroShift a.length w.step) w.shape)).Meets
      E fun _ => True := by
    refine (Meets.mapM (P := fun _ => True) (fun a => ?_) _).mono fun _ _ => trivial
    split
    · exact .pure trivial
    · exact (meets_nonzeroShift hE hstep).bind fun _ _ => .pure trivial
  rw [perturb]
  refine (hmoved.and_ensures (ensures_wrappable h)).bind fun anchors hanchors => ?_
  split
  · exact .pure trivial
  · rw [expandAll?_of_wrappable hanchors.2]
    exact .pure trivial

end moving

namespace Addressing

variable {a b : Addressing}

/-- No anchor has a coordinate on an axis of length zero. -/
def Clear (a : Addressing) : Prop := ∀ x ∈ a.anchors, ¬Unwrappable x a.shape

theorem remake_eq_error_iff {h : Halt} :
    a.remake = .error h ↔ h = .emptyAxis ∧ ¬a.Clear := by
  have hmap : ∀ {β : Type} (o : Except Halt β) (f : β → Addressing),
      o.map f = .error h ↔ o = .error h := fun o f => by
    cases o <;> simp [Except.map]
  cases a with
  | full => exact ⟨nofun, fun hclear => absurd nofun hclear.2⟩
  | window w =>
    rw [remake, hmap, WindowAddressing.make_eq_error_iff]
    simp [Clear, anchors, shape]
  | multiWindow w =>
    rw [remake, hmap, MultiWindowAddressing.make_eq_error_iff]
    simp [Clear, anchors, shape]

theorem Coherent.clear (h : a.Coherent) : a.Clear := by
  by_contra hclear
  cases (remake_eq_error_iff.2 ⟨rfl, hclear⟩).symm.trans h.remake_eq

/-- Moving the anchors of a clear strategy wraps nothing into an axis of length zero. -/
theorem Clear.meets_perturb {E : Halt → Prop} (h : a.Clear) (hE : E .starved)
    (hstep : ¬a.StepFits → E .emptyRange) : a.perturb.Meets E fun _ => True := by
  cases a with
  | full => exact .pure trivial
  | window w =>
    exact (w.meets_perturb_of_wrappable hE (h w.anchor List.mem_cons_self)).bind
      fun _ _ => .pure trivial
  | multiWindow w =>
    exact (w.meets_perturb_of_wrappable hE h hstep).bind fun _ _ => .pure trivial

/-- `b` is what `a` becomes when it is moved. -/
def Moves (a b : Addressing) : Prop := ∃ any s s', a.perturb s = .ok ((any, b), s')

/-- What can be done with a strategy without wrapping into an axis of length zero: it is built from its
parameters, it addresses every observation, and it is moved; given random words, moving fails only if
the step is negative as a signed word. -/
structure Workable (a : Addressing) : Prop where
  built : a.Coherent
  addresses : ∀ o : Observation, ∀ x ∈ a.anchors,
    Window.expand? a.kernel x o.shape = .ok (Window.expand a.kernel x o.shape)
  moves : ∀ s e, a.perturb s = .error e → e = .starved ∨ e = .emptyRange ∧ ¬a.StepFits

theorem Coherent.workable (h : a.Coherent) : a.Workable where
  built := h
  addresses o _ _ := Window.expand?_of_wrappable (Window.not_unwrappable o.axis_pos)
  moves s e he := by
    have hmeets := @Clear.meets_perturb a (fun e => e = .starved ∨ e = .emptyRange ∧ ¬a.StepFits)
      h.clear (.inl rfl) fun hstep => .inr ⟨rfl, hstep⟩
    by_contra hcause
    exact hmeets.ne_error hcause s he

/-- However often it is moved, a strategy that was built from its parameters can be worked with. -/
theorem Coherent.workable_of_moves (h : a.Coherent) (hmoves : Relation.ReflTransGen Moves a b) :
    b.Workable := by
  have hb : b.Coherent := by
    induction hmoves with
    | refl => exact h
    | tail _ hmove ih =>
      obtain ⟨any, s, s', hmove⟩ := hmove
      exact coherent_perturb ih s _ s' hmove
  exact hb.workable

end Addressing

def WindowAddressing.parameters : Reader Char (List Nat × List Nat × Nat × Unit) :=
  (Fields.field "anchor" (items size) (.field "dims" (items size) (.field "kernel" size .done))).read

def MultiWindowAddressing.parameters :
    Reader Char (List (List Nat) × List Nat × Nat × Nat × Unit) :=
  (Fields.field "anchors" (items (items size)) (.field "dims" (items size)
    (.field "kernel" size (.field "step" size .done)))).read

/-- At the front of the text stand the parameters of windows one of whose anchors has a coordinate on an
axis of length zero. -/
def EmptyAxisAt (s : List Char) : Prop :=
  (∃ x ∈ (WindowAddressing.parameters s).toOption, Unwrappable x.1.1 x.1.2.1) ∨
    ∃ x ∈ (MultiWindowAddressing.parameters s).toOption, ∃ a ∈ x.1.1, Unwrappable a x.1.2.1

instance (s : List Char) : Decidable (EmptyAxisAt s) := inferInstanceAs (Decidable (_ ∨ _))

/-- Decoding halts only because of an empty axis. -/
def blameEmptyAxis (h : Halt) (s : List Char) : Prop := h = .emptyAxis ∧ EmptyAxisAt s

section readers

theorem WindowAddressing.read_eq :
    read = parameters >>= fun x => Reader.ofExcept (make x.1 x.2.1 x.2.2.1) := rfl

theorem MultiWindowAddressing.read_eq :
    read = parameters >>= fun x => Reader.ofExcept (make x.1 x.2.1 x.2.2.1 x.2.2.2.1) := rfl

theorem WindowAddressing.careful_read : Careful blameEmptyAxis read Coherent := by
  have hparameters : Tame blameEmptyAxis parameters :=
    (Fields.Careful.read (.field (careful_items tame_size) (.field (careful_items tame_size)
      (.field tame_size .done)))).tame
  rw [read_eq]
  refine careful_bind_ofExcept hparameters (fun _ _ h => coherent_of_make h) fun s x rest e hs he => ?_
  obtain ⟨rfl, hzero⟩ := make_eq_error_iff.1 he
  exact ⟨rfl, .inl ⟨(x, rest), by rw [hs]; rfl, hzero⟩⟩

theorem MultiWindowAddressing.careful_read : Careful blameEmptyAxis read Coherent := by
  have hparameters : Tame blameEmptyAxis parameters :=
    (Fields.Careful.read (.field (careful_items (careful_items tame_size))
      (.field (careful_items tame_size) (.field tame_size (.field tame_size .done))))).tame
  rw [read_eq]
  refine careful_bind_ofExcept hparameters (fun _ _ h => coherent_of_make h) fun s x rest e hs he => ?_
  obtain ⟨rfl, hzero⟩ := make_eq_error_iff.1 he
  exact ⟨rfl, .inr ⟨(x, rest), by rw [hs]; rfl, hzero⟩⟩

theorem Addressing.careful_read : Careful blameEmptyAxis read Coherent := by
  refine careful_variant (List.forall_mem_singleton.2 trivial) (List.forall_mem_cons.2 ⟨?_,
    List.forall_mem_singleton.2 ?_⟩)
  · exact WindowAddressing.careful_read.bind fun w hw => .pure hw
  · exact MultiWindowAddressing.careful_read.bind fun w hw => .pure hw

variable {blame : Halt → List Char → Prop}

theorem Id.tame_read {k : Kind} : Tame blame (Id.read (k := k)) := tame_size.bind fun _ => tame_pure _

theorem Binary64.tame_read : Tame blame read := tame_float.bind fun _ => tame_pure _

theorem Instruction.tame_read : Tame blame read :=
  Careful.bind (Fields.Careful.readTuple (.field tame_word32 (.field tame_word32 (.field tame_word32
    (.field tame_word32 (.field tame_word32 (.field tame_word32 .done))))))) fun _ _ => tame_pure _

theorem Program.tame_read : Tame blame read :=
  Fields.Careful.made (.field Id.tame_read (.field (careful_items Instruction.tame_read) .done))
    fun _ _ => tame_pure _

theorem AtomicAction.tame_read : Tame blame read := by
  refine careful_variant nofun (List.forall_mem_cons.2 ⟨?_, List.forall_mem_singleton.2 ?_⟩)
  · exact tame_signed.bind fun _ => tame_pure _
  · exact (careful_items Binary64.tame_read).bind fun _ _ => tame_pure _

theorem Action.tame_read : Tame blame read := by
  refine careful_variant nofun (List.forall_mem_cons.2 ⟨?_, List.forall_mem_singleton.2 ?_⟩)
  · exact AtomicAction.tame_read.bind fun _ => tame_pure _
  · exact Id.tame_read.bind fun _ => tame_pure _

theorem Mode.tame_read : Tame blame read := careful_variant (fun _ _ => trivial) nofun

theorem AddressingKind.tame_read : Tame blame read := careful_variant (fun _ _ => trivial) nofun

theorem IdCounters.tame_read : Tame blame read :=
  Fields.Careful.made (.field tame_size (.field tame_size (.field tame_size .done)))
    fun _ _ => tame_pure _

theorem InstructionRanges.tame_read : Tame blame read :=
  Fields.Careful.made (.field tame_word32 (.field tame_word32 (.field tame_word32
    (.field tame_size .done)))) fun _ _ => tame_pure _

theorem ProgramSettings.tame_read : Tame blame read :=
  Fields.Careful.made (.field tame_word32 (.field tame_word32 (.field tame_size .done)))
    fun _ _ => tame_pure _

theorem RegisterSettings.tame_read : Tame blame read :=
  Fields.Careful.made (.field tame_size (.field tame_size (.field tame_size .done)))
    fun _ _ => tame_pure _

theorem AddressingSettings.tame_read : Tame blame read :=
  Fields.Careful.made (.field AddressingKind.tame_read (.field (careful_items tame_size)
    (.field tame_size (.field tame_size (.field tame_size (.field tame_truthValue .done))))))
    fun _ _ => tame_pure _

theorem MutationSettings.tame_read : Tame blame read := by
  have hrate : Tame blame Binary64.read := Binary64.tame_read
  exact Fields.Careful.made (.field hrate (.field hrate (.field hrate (.field hrate (.field hrate
    (.field hrate (.field hrate (.field hrate (.field hrate (.field hrate (.field hrate (.field hrate
      (.field tame_size (.field tame_size .done)))))))))))))) fun _ _ => tame_pure _

theorem Settings.tame_read : Tame blame read :=
  Fields.Careful.made (.field ProgramSettings.tame_read (.field RegisterSettings.tame_read
    (.field AddressingSettings.tame_read (.field MutationSettings.tame_read
      (.field tame_size .done))))) fun _ _ => tame_pure _

theorem Scores.tame_read : Tame blame Scores.read :=
  (tame_entries Binary64.tame_read).bind fun _ => tame_pure _

theorem Team.tame_read : Tame blame read :=
  Fields.Careful.made (.field Id.tame_read (.field (careful_items Id.tame_read)
    (.field (tame_natBelow _) (.field Scores.tame_read .done)))) fun _ _ => tame_pure _

theorem AgentRecord.tame_read : Tame blame read :=
  Fields.Careful.made (.field Id.tame_read (.field tame_size (.field Scores.tame_read .done)))
    fun _ _ => tame_pure _

theorem Timestamp.tame_read {F : TimeFormat} : Tame blame (read (F := F)) :=
  tame_quoted.bind fun _ => tame_ofOption _

theorem Learner.careful_read : Careful blameEmptyAxis read fun l => l.addressing.Coherent :=
  Fields.Careful.made (.field Id.tame_read (.field Program.tame_read (.field Mode.tame_read
    (.field Addressing.careful_read (.field tame_size (.field Action.tame_read
      (.field (tame_natBelow _) (.field tame_size .done)))))))) fun _ hx => .pure hx.2.2.2.1

theorem Snapshot.careful_read (F : TimeFormat) :
    Careful blameEmptyAxis (read F) fun s => ∀ l ∈ s.learners, l.addressing.Coherent :=
  Fields.Careful.made (.field (tame_natBelow _) (.field Timestamp.tame_read
    (.field Settings.tame_read (.field InstructionRanges.tame_read (.field IdCounters.tame_read
      (.field (careful_items Team.tame_read) (.field (careful_items Learner.careful_read)
        (.field (careful_items AgentRecord.tame_read) .done)))))))) fun _ hx => .pure hx.2.2.2.2.2.2.1

end readers

/-- The text of a strategy halts decoding exactly if the strategy has an anchor with a coordinate on an
axis of length zero. -/
theorem Addressing.parse_pretty_halts_iff {a : Addressing} (ha : a.Fits) {h : Halt} :
    parse read a.document.pretty = .error (.halted h) ↔ h = .emptyAxis ∧ ¬a.Clear := by
  rw [← remake_eq_error_iff, parse, readAll_pretty (a.gives ha)]
  cases a.remake <;> simp [Except.mapError, ReadFailure.error]

instance decidableEqOutcome {ε α : Type} [DecidableEq ε] [DecidableEq α] : DecidableEq (Except ε α)
  | .error e, .error e' => decidable_of_iff (e = e') ⟨congrArg _, Except.error.inj⟩
  | .ok a, .ok a' => decidable_of_iff (a = a') ⟨congrArg _, Except.ok.inj⟩
  | .error _, .ok _ => .isFalse nofun
  | .ok _, .error _ => .isFalse nofun

/-- A text is decoded or refused, and the strategies that have been decoded can be worked with, however
often they are moved. -/
def Settled {α : Type} (strategies : α → List Addressing) (outcome : Except Error α) : Prop :=
  outcome = .error .malformed ∨ ∃ v, outcome = .ok v ∧
    ∀ a ∈ strategies v, ∀ b, Relation.ReflTransGen Addressing.Moves a b → b.Workable

theorem Document.settled_parse {α : Type} {r : Reader Char α} {strategies : α → List Addressing}
    (hr : Careful blameEmptyAxis r fun v => ∀ a ∈ strategies v, a.Coherent) {text : String}
    (h : ∀ t, t <:+ text.toList → ¬EmptyAxisAt t) : Settled strategies (parse r text) := by
  obtain ⟨hok, hhalted⟩ := careful_readAll hr text
  rw [parse]
  cases hread : readAll r text with
  | ok v => exact .inr ⟨v, rfl, fun a ha _ hmoves => (hok v hread a ha).workable_of_moves hmoves⟩
  | error e =>
    cases e with
    | malformed => exact .inl rfl
    | halted e =>
      obtain ⟨t, ht, -, hempty⟩ := hhalted e hread
      exact absurd hempty (h t ht)

/-- Nothing halts the decoding of a text in which no windows have an anchor with a coordinate on an axis
of length zero; and a strategy that has such an anchor halts the decoding of its own text. -/
theorem Snapshot.decoding_settled (F : TimeFormat) :
    (∀ text : String, (∀ t, t <:+ text.toList → ¬EmptyAxisAt t) →
      Settled (fun a => [a]) (parse Addressing.read text) ∧
        Settled (fun l => [l.addressing]) (parse Learner.read text) ∧
        Settled (fun s => s.learners.map Learner.addressing) (ofText text F)) ∧
    ∀ a : Addressing, a.Fits → ∀ h,
      parse Addressing.read a.document.pretty = .error (.halted h) ↔ h = .emptyAxis ∧ ¬a.Clear := by
  refine ⟨fun text h => ⟨?_, ?_, ?_⟩, fun a ha h => Addressing.parse_pretty_halts_iff ha⟩
  · exact settled_parse (Addressing.careful_read.mono fun _ ha => List.forall_mem_singleton.2 ha) h
  · exact settled_parse (Learner.careful_read.mono fun _ hl => List.forall_mem_singleton.2 hl) h
  · exact settled_parse ((careful_read F).mono fun _ hs => List.forall_mem_map.2 hs) h

/-- A window with an anchor beyond its axis, as a text. -/
def outlyingText : String :=
  "\x7b\"window\":\x7b\"anchor\":[5],\"dims\":[3],\"kernel\":2\x7d\x7d"

def outlyingLearner : Learner :=
  { Snapshot.plainLearner ⟨0⟩ (.atomic (.label 1)) 1 with
    addressing := .window ⟨[5], [3], 2, [2, 0]⟩ }

/-- A window over an axis of length zero. -/
def emptyAxis : Addressing := .window ⟨[0, 7], [4, 0], 2, []⟩

namespace Snapshot

def outlying : Snapshot := { pair ⟨1, 1, 1⟩ with learners := [outlyingLearner] }

theorem outlying_settled :
    ((∀ t, t <:+ outlyingText.toList → ¬EmptyAxisAt t) ∧
      parse Addressing.read outlyingText = .ok outlyingLearner.addressing ∧
      Settled (fun a => [a]) (parse Addressing.read outlyingText)) ∧
    ((∀ t, t <:+ outlyingLearner.document.pretty.toList → ¬EmptyAxisAt t) ∧
      parse Learner.read outlyingLearner.document.pretty = .ok outlyingLearner ∧
      Settled (fun l => [l.addressing]) (parse Learner.read outlyingLearner.document.pretty)) ∧
    ((∀ t, t <:+ outlying.text.toList → ¬EmptyAxisAt t) ∧
      (ofText outlying.text).map (·.learners) = .ok [outlyingLearner] ∧
      Settled (fun s => s.learners.map Learner.addressing) (ofText outlying.text)) ∧
    emptyAxis.Fits ∧ parse Addressing.read emptyAxis.document.pretty = .error (.halted .emptyAxis) := by
  have hnowhere : ∀ text : List Char, (∀ t ∈ text.tails, ¬EmptyAxisAt t) →
      ∀ t, t <:+ text → ¬EmptyAxisAt t := fun text h t ht => h t ((List.mem_tails t text).2 ht)
  have haddressing := hnowhere outlyingText.toList (by decide +kernel)
  have hlearner := hnowhere outlyingLearner.document.pretty.toList (by
    rw [pretty, String.toList_ofList]
    decide +kernel)
  have hsnapshot := hnowhere outlying.text.toList (by
    rw [text, pretty, String.toList_ofList]
    decide +kernel)
  have hfits : emptyAxis.Fits := ⟨⟨by decide, by decide⟩, ⟨by decide, by decide⟩, by decide⟩
  have hclear : ¬emptyAxis.Clear := fun h => h [0, 7] (List.mem_singleton_self _) (by decide)
  obtain ⟨hsettled, hhalts⟩ := decoding_settled .seconds
  refine ⟨⟨haddressing, by decide +kernel, (hsettled _ haddressing).1⟩,
    ⟨hlearner, ?_, (hsettled _ hlearner).2.1⟩, ⟨hsnapshot, ?_, (hsettled _ hsnapshot).2.2⟩,
    hfits, (hhalts _ hfits _).2 ⟨rfl, hclear⟩⟩
  · rw [parse, readAll, pretty, String.toList_ofList]
    decide +kernel
  · rw [ofText, parse, readAll, text, pretty, String.toList_ofList]
    decide +kernel

end Snapshot

/-- A window and several windows over an axis of length zero. -/
theorem Addressing.empty_axis_halts :
    parse read "\x7b\"window\":\x7b\"anchor\":[0],\"dims\":[0],\"kernel\":1\x7d\x7d" =
        .error (.halted .emptyAxis) ∧
      parse read "\x7b\"multi_window\":[[[],[7,0]],[4,0],2,2]\x7d" =
        .error (.halted .emptyAxis) := by
  decide +kernel

end TangledPrograms
