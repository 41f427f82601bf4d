import TangledPrograms.Document.Schema
import TangledPrograms.Proofs.Document.Lexeme

/-!
# Where readers halt

Whatever a reader is run on, it leaves an end of the text behind the value that it reads, finds the text
malformed, or halts. The readers of words, lists, records and variants do not halt by themselves: if the
parts halt only at places that are to blame, so does the whole, and those places are in its text.
-/

namespace TangledPrograms

namespace Reader

variable {α β : Type} {blame : Halt → List Char → Prop}

/-- Run on `s`, the reader leaves an end of `s` behind a value with the property, finds the text
malformed, or halts for a reason that some end of `s` is to blame for. -/
def CarefulOn (blame : Halt → List Char → Prop) (r : Reader Char α) (s : List Char) (P : α → Prop) :
    Prop :=
  match r s with
  | .ok (a, rest) => rest <:+ s ∧ P a
  | .error .malformed => True
  | .error (.halted h) => ∃ t, t <:+ s ∧ blame h t

def Careful (blame : Halt → List Char → Prop) (r : Reader Char α) (P : α → Prop) : Prop :=
  ∀ s, CarefulOn blame r s P

abbrev Tame (blame : Halt → List Char → Prop) (r : Reader Char α) : Prop :=
  Careful blame r fun _ => True

section rules

variable {r : Reader Char α} {f : α → Reader Char β} {s t : List Char} {P : α → Prop} {Q : β → Prop}

theorem CarefulOn.of_suffix {g : Reader Char α} (ht : t <:+ s) (hg : g s = r t)
    (h : CarefulOn blame r t P) : CarefulOn blame g s P := by
  rw [CarefulOn] at h ⊢
  rw [hg]
  cases hr : r t with
  | ok x =>
    rw [hr] at h
    exact ⟨h.1.trans ht, h.2⟩
  | error e =>
    rw [hr] at h
    cases e with
    | malformed => trivial
    | halted e =>
      obtain ⟨u, hu, hblame⟩ := h
      exact ⟨u, hu.trans ht, hblame⟩

theorem CarefulOn.bind (h : CarefulOn blame r s P)
    (hf : ∀ a t, t <:+ s → P a → CarefulOn blame (f a) t Q) : CarefulOn blame (r >>= f) s Q := by
  cases hr : r s with
  | ok x =>
    rw [CarefulOn, hr] at h
    exact .of_suffix h.1 (bind_of_ok hr) (hf x.1 x.2 h.1 h.2)
  | error e =>
    rw [CarefulOn, hr] at h
    rw [CarefulOn, bind_of_error hr]
    cases e <;> exact h

theorem Careful.bind (h : Careful blame r P) (hf : ∀ a, P a → Careful blame (f a) Q) :
    Careful blame (r >>= f) Q := fun s => (h s).bind fun a t _ ha => hf a ha t

theorem Careful.mono {P' : α → Prop} (h : Careful blame r P) (hP : ∀ a, P a → P' a) :
    Careful blame r P' := fun s => by
  have hs := h s
  rw [CarefulOn] at hs ⊢
  cases hr : r s with
  | ok x =>
    rw [hr] at hs
    exact ⟨hs.1, hP x.1 hs.2⟩
  | error e =>
    rw [hr] at hs
    cases e <;> exact hs

theorem Careful.tame (h : Careful blame r P) : Tame blame r := h.mono fun _ _ => trivial

/-- Behind a value of which nothing is known. -/
theorem Tame.bind (h : Tame blame r) (hf : ∀ a, Careful blame (f a) Q) : Careful blame (r >>= f) Q :=
  Careful.bind h fun a _ => hf a

theorem Careful.pure {a : α} (h : P a) : Careful blame (Pure.pure a : Reader Char α) P :=
  fun s => ⟨s.suffix_refl, h⟩

theorem tame_pure (a : α) : Tame blame (pure a : Reader Char α) := .pure trivial

theorem careful_fail : Careful blame (fail : Reader Char α) P := fun _ => trivial

theorem careful_ofOption {o : Option α} (h : ∀ a, o = some a → P a) :
    Careful blame (ofOption o) P := by
  cases o with
  | none => exact careful_fail
  | some a => exact .pure (h a rfl)

theorem tame_ofOption (o : Option α) : Tame blame (ofOption o : Reader Char α) :=
  careful_ofOption fun _ _ => trivial

/-- Something is made of a value, or cannot be; then the text of the value is to blame. -/
theorem careful_bind_ofExcept {g : α → Except Halt β} (h : Tame blame r)
    (hok : ∀ a b, g a = .ok b → Q b)
    (herror : ∀ s a rest e, r s = .ok (a, rest) → g a = .error e → blame e s) :
    Careful blame (r >>= fun a => ofExcept (g a)) Q := fun s => by
  have hs := h s
  rw [CarefulOn] at hs ⊢
  cases hr : r s with
  | error e =>
    rw [hr] at hs
    rw [bind_of_error hr]
    cases e <;> exact hs
  | ok x =>
    rw [hr] at hs
    rw [bind_of_ok hr]
    cases hg : g x.1 with
    | ok b => exact ⟨hs.1, hok x.1 b hg⟩
    | error e => exact ⟨s, s.suffix_refl, herror s x.1 x.2 e hr hg⟩

theorem Careful.ite {c : Prop} [Decidable c] {r' : Reader Char α} (h : Careful blame r P)
    (h' : Careful blame r' P) : Careful blame (if c then r else r') P := by
  split
  · exact h
  · exact h'

theorem tame_peek? : Tame blame (peek? : Reader Char (Option Char)) :=
  fun s => ⟨s.suffix_refl, trivial⟩

theorem tame_remaining : Tame blame (remaining : Reader Char (List Char)) :=
  fun s => ⟨s.suffix_refl, trivial⟩

theorem tame_get : Tame blame (get : Reader Char (List Char)) :=
  fun s => ⟨s.suffix_refl, trivial⟩

theorem tame_next : Tame blame (next : Reader Char Char) := fun s =>
  match s with
  | [] => trivial
  | c :: rest => ⟨List.suffix_cons c rest, trivial⟩

end rules

end Reader

namespace Document

open Reader

variable {α β : Type} {blame : Halt → List Char → Prop} {r item value : Reader Char α} {P : α → Prop}

section words

theorem tame_skipBlanks : Tame blame skipBlanks := fun s => ⟨s.dropWhile_suffix isBlank, trivial⟩

theorem tame_word (cs : List Char) : Tame blame (word cs) := fun s => by
  rw [CarefulOn, word]
  by_cases h : cs.isPrefixOf s = true
  · rw [if_pos h]
    exact ⟨s.drop_suffix _, trivial⟩
  · rw [if_neg h]
    trivial

theorem tame_expect (c : Char) : Tame blame (expect c) := tame_skipBlanks.bind fun _ => tame_word _

theorem tame_accept (c : Char) : Tame blame (accept c) :=
  tame_skipBlanks.bind fun _ => tame_peek?.bind fun _ =>
    .ite (tame_next.bind fun _ => tame_pure _) (tame_pure _)

theorem tame_countDigits : Tame blame countDigits := fun s =>
  ⟨s.dropWhile_suffix Char.isDigit, trivial⟩

theorem significandDigits_suffix (s n : Nat) (cs : List Char) :
    (significandDigits s n cs).2.2 <:+ cs := by
  induction cs generalizing s n with
  | nil => exact List.suffix_rfl
  | cons c rest ih =>
    simp only [significandDigits]
    split
    · exact (ih _ _).trans (List.suffix_cons c rest)
    · exact List.suffix_rfl

/-- Behind the digits of a significand. -/
theorem carefulOn_significand {s n : Nat} {cs : List Char} {f : Nat × Nat × List Char → Reader Char α}
    {g : Reader Char α} (hg : g cs = f (significandDigits s n cs) (significandDigits s n cs).2.2)
    (h : ∀ x, Careful blame (f x) P) : CarefulOn blame g cs P :=
  .of_suffix (significandDigits_suffix s n cs) hg (h _ _)

theorem tame_wholePart : Tame blame wholePart := by
  refine tame_next.bind fun c => ?_
  split
  · exact tame_peek?.bind fun _ => .ite careful_fail (tame_pure _)
  · refine .ite (fun cs => ?_) careful_fail
    exact carefulOn_significand (f := fun x => do pure (x.1, ← countDigits)) rfl fun x =>
      tame_countDigits.bind fun _ => tame_pure _

theorem tame_places (s : Nat) : Tame blame (places s) := fun _ =>
  carefulOn_significand (f := fun x => do
      let dropped ← countDigits
      if x.2.1 + dropped = 0 then fail else pure (x.1, x.2.1)) rfl fun _ =>
    tame_countDigits.bind fun _ => .ite careful_fail (tame_pure _)

theorem tame_power : Tame blame power := by
  have hdigits : ∀ negative : Bool, Tame blame (do
      let ds := (← get).takeWhile Char.isDigit
      let _ ← countDigits
      if ds.isEmpty then fail
      else
        let n : Int := Decimal.digitsValue ds
        pure (if negative then -n else n) : Reader Char Int) := fun negative =>
    tame_get.bind fun _ => tame_countDigits.bind fun _ => .ite careful_fail (tame_pure _)
  refine tame_peek?.bind fun c => ?_
  split
  · exact tame_next.bind fun _ => (tame_pure true).bind hdigits
  · exact tame_next.bind fun _ => (tame_pure false).bind hdigits
  · exact (tame_pure false).bind hdigits

theorem tame_realNumeral (negative : Bool) (s : Nat) (e : Int) :
    Tame blame (realNumeral negative s e) := (tame_ofOption _).bind fun _ => tame_pure _

theorem tame_wholeNumeral (negative : Bool) (s dropped : Nat) :
    Tame blame (wholeNumeral negative s dropped) := by
  unfold wholeNumeral
  refine .ite (tame_realNumeral _ _ _) (.ite (tame_pure _) ?_)
  exact .ite (tame_realNumeral _ _ _) (tame_pure _)

theorem tame_unsignedNumeral (negative : Bool) : Tame blame (unsignedNumeral negative) := by
  have hpower : ∀ (s : Nat) (e : Int), Tame blame (do
      let _ ← next
      realNumeral negative s (e + (← power)) : Reader Char Numeral) := fun s e =>
    tame_next.bind fun _ => tame_power.bind fun _ => tame_realNumeral _ _ _
  refine tame_wholePart.bind fun x => tame_peek?.bind fun c => ?_
  split
  · refine tame_next.bind fun _ => (tame_places _).bind fun y => tame_peek?.bind fun c' => ?_
    split
    · exact hpower _ _
    · exact hpower _ _
    · exact tame_realNumeral _ _ _
  · exact hpower _ _
  · exact hpower _ _
  · exact tame_wholeNumeral _ _ _

theorem tame_numeral : Tame blame numeral :=
  tame_skipBlanks.bind fun _ => tame_peek?.bind fun _ =>
    .ite (tame_next.bind fun _ => tame_unsignedNumeral _) (tame_unsignedNumeral _)

theorem tame_hexUnit : Tame blame hexUnit :=
  tame_next.bind fun _ => tame_next.bind fun _ => tame_next.bind fun _ => tame_next.bind fun _ =>
    tame_ofOption _

theorem tame_unicodeChar : Tame blame unicodeChar := by
  refine tame_hexUnit.bind fun lead => .ite careful_fail (.ite ?_ (tame_pure _))
  exact (tame_word _).bind fun _ => tame_hexUnit.bind fun _ => .ite (tame_pure _) careful_fail

theorem tame_escaped : Tame blame escaped :=
  tame_next.bind fun _ => .ite tame_unicodeChar (tame_ofOption _)

theorem tame_textEnd (fuel : List Char) : Tame blame (textEnd fuel) := by
  induction fuel with
  | nil => exact careful_fail
  | cons _ fuel ih =>
    refine tame_next.bind fun c => .ite (tame_pure _) (.ite ?_ (.ite careful_fail ?_))
    · exact tame_escaped.bind fun _ => ih.bind fun _ => tame_pure _
    · exact ih.bind fun _ => tame_pure _

theorem tame_quoted : Tame blame quoted :=
  (tame_expect _).bind fun _ => tame_remaining.bind fun _ => (tame_textEnd _).bind fun _ => tame_pure _

theorem tame_skipTextEnd (fuel : List Char) : Tame blame (skipTextEnd fuel) := by
  induction fuel with
  | nil => exact careful_fail
  | cons _ fuel ih =>
    refine tame_next.bind fun c => .ite (tame_pure _) (.ite ?_ (.ite careful_fail ih))
    refine tame_next.bind fun e => .ite ?_ ?_
    · exact tame_hexUnit.bind fun _ => ih
    · exact (tame_ofOption _).bind fun _ => ih

theorem tame_skipNumber : Tame blame skipNumber := by
  have hpower : Tame blame (do
      if (← peek?) = some 'e' || (← peek?) = some 'E' then
        let _ ← next
        let _ ← power) := by
    refine tame_peek?.bind fun _ => tame_peek?.bind fun _ => .ite ?_ (tame_pure _)
    exact tame_next.bind fun _ => tame_power.bind fun _ => tame_pure _
  have hplaces : Tame blame (do
      let _ ← wholePart
      if (← peek?) = some '.' then
        let _ ← next
        if (← countDigits) = 0 then fail
      if (← peek?) = some 'e' || (← peek?) = some 'E' then
        let _ ← next
        let _ ← power) := by
    refine tame_wholePart.bind fun _ => tame_peek?.bind fun _ => .ite ?_ hpower
    exact tame_next.bind fun _ => tame_countDigits.bind fun _ => .ite careful_fail hpower
  exact tame_peek?.bind fun _ => .ite (tame_next.bind fun _ => hplaces) hplaces

theorem tame_skipName : Tame blame skipName :=
  (tame_expect _).bind fun _ => tame_remaining.bind fun _ => (tame_skipTextEnd _).bind fun _ =>
    tame_expect _

theorem tame_skipIn (fuel : List Char) :
    Tame blame (skipValueIn fuel) ∧ ∀ close, Tame blame (skipRestIn fuel close) := by
  induction fuel with
  | nil => exact ⟨careful_fail, fun _ => careful_fail⟩
  | cons _ fuel ih =>
    obtain ⟨hvalue, hrest⟩ := ih
    constructor
    · refine tame_skipBlanks.bind fun _ => tame_peek?.bind fun c => ?_
      split
      · refine tame_next.bind fun _ => (tame_accept _).bind fun _ => .ite (tame_pure _) ?_
        exact hvalue.bind fun _ => hrest _
      · refine tame_next.bind fun _ => (tame_accept _).bind fun _ => .ite (tame_pure _) ?_
        exact tame_skipName.bind fun _ => hvalue.bind fun _ => hrest _
      · exact tame_next.bind fun _ => tame_remaining.bind fun _ => tame_skipTextEnd _
      · exact tame_word _
      · exact tame_word _
      · exact tame_word _
      · exact tame_skipNumber
    · refine fun close => (tame_accept _).bind fun _ => .ite (tame_pure _) ?_
      have hnext : Tame blame (do
          skipValueIn fuel
          skipRestIn fuel close) := hvalue.bind fun _ => hrest close
      exact (tame_expect _).bind fun _ => .ite (tame_skipName.bind fun _ => hnext) hnext

theorem tame_skipValue : Tame blame skipValue :=
  tame_remaining.bind fun fuel => (tame_skipIn fuel).1

end words

section values

theorem tame_natBelow (bound : Nat) : Tame blame (natBelow bound) := by
  refine tame_numeral.bind fun n => ?_
  cases n with
  | natural n => exact .ite (tame_pure _) careful_fail
  | negative n => exact careful_fail
  | real x => exact careful_fail

theorem tame_word32 : Tame blame word32 := (tame_natBelow _).bind fun _ => tame_pure _

theorem tame_size : Tame blame size := tame_natBelow _

theorem tame_signed : Tame blame signed := by
  refine tame_numeral.bind fun n => ?_
  cases n with
  | natural n => exact .ite (tame_pure _) careful_fail
  | negative n => exact tame_pure _
  | real x => exact careful_fail

theorem tame_float : Tame blame float := by
  refine tame_numeral.bind fun n => ?_
  cases n <;> exact tame_pure _

theorem tame_truthValue : Tame blame truthValue :=
  tame_skipBlanks.bind fun _ => tame_peek?.bind fun _ =>
    .ite ((tame_word _).bind fun _ => tame_pure _) ((tame_word _).bind fun _ => tame_pure _)

theorem tame_fieldName : Tame blame fieldName :=
  tame_quoted.bind fun _ => (tame_expect _).bind fun _ => tame_pure _

/-- The values of a list have what every item has. -/
theorem careful_items (h : Careful blame item P) : Careful blame (items item) fun as => ∀ a ∈ as, P a := by
  have hrest : ∀ fuel, Careful blame (itemsRest item fuel) fun as => ∀ a ∈ as, P a := by
    intro fuel
    induction fuel with
    | nil => exact careful_fail
    | cons _ fuel ih =>
      refine (tame_accept _).bind fun _ => .ite (.pure nofun) ((tame_expect _).bind fun _ => ?_)
      exact h.bind fun a ha => ih.bind fun as has => .pure (List.forall_mem_cons.2 ⟨ha, has⟩)
  refine (tame_expect _).bind fun _ => (tame_accept _).bind fun _ => .ite (.pure nofun) ?_
  exact h.bind fun a ha => tame_remaining.bind fun fuel => (hrest fuel).bind fun as has =>
    .pure (List.forall_mem_cons.2 ⟨ha, has⟩)

theorem tame_entries (h : Tame blame value) : Tame blame (entries value) := by
  have hrest : ∀ fuel, Tame blame (entriesRest value fuel) := by
    intro fuel
    induction fuel with
    | nil => exact careful_fail
    | cons _ fuel ih =>
      refine (tame_accept _).bind fun _ => .ite (tame_pure _) ((tame_expect _).bind fun _ => ?_)
      exact tame_fieldName.bind fun _ => h.bind fun _ => ih.bind fun _ => tame_pure _
  refine (tame_expect _).bind fun _ => (tame_accept _).bind fun _ => .ite (tame_pure _) ?_
  exact tame_fieldName.bind fun _ => h.bind fun _ => tame_remaining.bind fun fuel =>
    (hrest fuel).bind fun _ => tame_pure _

theorem mem_of_lookup {l : List (String × β)} {name : String} {b : β}
    (h : l.lookup name = some b) : (name, b) ∈ l := by
  induction l with
  | nil => cases h
  | cons e l ih =>
    rw [List.lookup_cons] at h
    split at h
    · rename_i heq
      cases h
      rw [beq_iff_eq.1 heq]
      exact List.mem_cons_self
    · exact List.mem_cons_of_mem _ (ih h)

/-- A variant has what all bare ones have and every tagged one is read with. -/
theorem careful_variant {bare : List (String × α)} {tagged : List (String × Reader Char α)}
    (hbare : ∀ e ∈ bare, P e.2) (htagged : ∀ e ∈ tagged, Careful blame e.2 P) :
    Careful blame (variant bare tagged) P := by
  have hclose : ∀ a, P a → Careful blame (do
      expect '\x7d'
      pure a) P := fun a ha => (tame_expect _).bind fun _ => .pure ha
  refine tame_skipBlanks.bind fun _ => tame_peek?.bind fun _ => .ite ?_ ?_
  · exact tame_quoted.bind fun name => careful_ofOption fun a ha => hbare _ (mem_of_lookup ha)
  · refine (tame_expect _).bind fun _ => tame_fieldName.bind fun name => ?_
    cases hb : bare.lookup name with
    | some a =>
      exact tame_skipBlanks.bind fun _ => (tame_word _).bind fun _ =>
        hclose a (hbare _ (mem_of_lookup hb))
    | none =>
      cases ht : tagged.lookup name with
      | some value => exact (htagged _ (mem_of_lookup ht)).bind hclose
      | none => exact Careful.bind (P := P) careful_fail hclose

namespace Fields

variable {τ : Type} {fs : Fields τ} {Q : τ → Prop}

/-- Reading the fields of a record is careful in any order, and the record has a property once all of
them have been read. -/
def Careful (blame : Halt → List Char → Prop) (fs : Fields τ) (Q : τ → Prop) : Prop :=
  ∃ I : fs.Partial → Prop, I fs.start ∧
    (∀ key p, I p → Reader.Careful blame (fs.readNamed key p) I) ∧
    (∀ p a, I p → fs.finish? p = some a → Q a) ∧
    ∀ comma, Reader.Careful blame (fs.readInOrder comma) Q

theorem Careful.done : Careful blame .done fun _ => True :=
  ⟨fun _ => True, trivial, fun _ p _ => tame_skipValue.bind fun _ => tame_pure p, fun _ _ _ _ => trivial,
    fun _ => tame_pure ()⟩

theorem Careful.field {name : String} (hvalue : Reader.Careful blame value P)
    (hrest : fs.Careful blame Q) :
    Careful blame (.field name value fs) fun x => P x.1 ∧ Q x.2 := by
  obtain ⟨I, hstart, hnamed, hfinish, horder⟩ := hrest
  refine ⟨fun p => (∀ a, p.1 = some a → P a) ∧ I p.2, ⟨nofun, hstart⟩, fun key p hp => ?_,
    fun p a hp ha => ?_, fun comma => ?_⟩
  · rw [readNamed]
    refine .ite (.ite careful_fail ?_) ?_
    · refine hvalue.bind fun a ha => .pure ⟨fun b hb => ?_, hp.2⟩
      cases hb
      exact ha
    · exact (hnamed key p.2 hp.2).bind fun q hq => .pure ⟨hp.1, hq⟩
  · rw [finish?] at ha
    split at ha
    · rename_i x y hx hy
      cases ha
      exact ⟨hp.1 x hx, hfinish p.2 y hp.2 hy⟩
    · cases ha
  · rw [readInOrder]
    have hvalues : Reader.Careful blame (do
        let a ← value
        pure (a, ← fs.readInOrder true)) fun x => P x.1 ∧ Q x.2 :=
      hvalue.bind fun a ha => (horder true).bind fun b hb => .pure ⟨ha, hb⟩
    exact .ite ((tame_expect _).bind fun _ => hvalues) hvalues

theorem Careful.readTuple (h : fs.Careful blame Q) : Reader.Careful blame fs.readTuple Q := by
  obtain ⟨I, -, -, -, horder⟩ := h
  exact (tame_expect _).bind fun _ => (horder false).bind fun a ha =>
    (tame_expect _).bind fun _ => .pure ha

/-- A record is read with its property, be it an object or a list. -/
theorem Careful.read (h : fs.Careful blame Q) : Reader.Careful blame fs.read Q := by
  refine tame_skipBlanks.bind fun _ => tame_peek?.bind fun _ => .ite h.readTuple ?_
  obtain ⟨I, hstart, hnamed, hfinish, -⟩ := h
  have hrest : ∀ fuel p, I p → Reader.Careful blame (fs.readObjectRest fuel p) I := by
    intro fuel
    induction fuel with
    | nil => exact fun _ _ => careful_fail
    | cons _ fuel ih =>
      refine fun p hp => (tame_accept _).bind fun _ => .ite (.pure hp) ?_
      exact (tame_expect _).bind fun _ => tame_fieldName.bind fun key =>
        (hnamed key p hp).bind fun q hq => ih q hq
  refine (tame_expect _).bind fun _ => (tame_accept _).bind fun _ => .ite ?_ ?_
  · exact careful_ofOption fun a ha => hfinish _ a hstart ha
  · refine tame_fieldName.bind fun key => (hnamed key _ hstart).bind fun p hp => ?_
    exact tame_remaining.bind fun fuel => (hrest fuel p hp).bind fun q hq =>
      careful_ofOption fun a ha => hfinish q a hq ha

/-- What is made of a record. -/
theorem Careful.made {f : τ → Reader Char α} (h : fs.Careful blame Q)
    (hf : ∀ x, Q x → Reader.Careful blame (f x) P) : Reader.Careful blame (fs.read >>= f) P :=
  h.read.bind hf

end Fields

/-- A whole text is read as a value with the property, or an end of it is to blame for a halt. -/
theorem careful_readAll (h : Careful blame r P) (s : String) :
    (∀ a, readAll r s = .ok a → P a) ∧
      ∀ e, readAll r s = .error (.halted e) → ∃ t, t <:+ s.toList ∧ blame e t := by
  have hs := h s.toList
  rw [CarefulOn] at hs
  rw [readAll, StateT.run]
  cases hr : r s.toList with
  | error e =>
    rw [hr] at hs
    refine ⟨nofun, fun e' he => ?_⟩
    cases he
    exact hs
  | ok x =>
    rw [hr] at hs
    dsimp only
    split
    · refine ⟨fun a ha => ?_, nofun⟩
      cases ha
      exact hs.2
    · exact ⟨nofun, nofun⟩

end values

end Document

end TangledPrograms
