import TangledPrograms.Random.Seeded
import Mathlib.Data.List.Forall2

/-!
# What every answer of a random computation has

`x.Ensures q` says that `q` holds of whatever `x` answers, on any random words. A computation that
halts answers nothing; `x.Meets E q` says that besides it halts only for reasons in `E`.
-/

namespace TangledPrograms

section errors

variable {ε α β : Type} {x : Except ε α} {f : α → Except ε β} {P : ε → Prop}

theorem error_of_bind (hx : ∀ e, x = .error e → P e) (hf : ∀ a e, f a = .error e → P e) :
    ∀ e, (x >>= f) = .error e → P e := fun e h => by
  cases x with
  | error e' =>
    cases h
    exact hx _ rfl
  | ok a => exact hf a e h

theorem error_of_mapM (hf : ∀ a e, f a = .error e → P e) :
    ∀ (as : List α) e, as.mapM f = .error e → P e
  | [], _, h => by cases h
  | a :: as, e, h => by
    rw [List.mapM_cons] at h
    refine error_of_bind (hf a) (fun b => ?_) e h
    exact error_of_bind (error_of_mapM hf as) fun _ _ h => by cases h

theorem ok_of_bind {b : β} (h : (x >>= f) = .ok b) : ∃ a, x = .ok a ∧ f a = .ok b := by
  cases x with
  | error e => cases h
  | ok a => exact ⟨a, rfl, h⟩

theorem ok_of_mapM : ∀ {as : List α} {bs : List β}, as.mapM f = .ok bs →
    ∀ a ∈ as, ∃ b ∈ bs, f a = .ok b
  | [], _, _ => nofun
  | a :: as, bs, h => by
    rw [List.mapM_cons] at h
    obtain ⟨b, hb, h⟩ := ok_of_bind h
    obtain ⟨rest, hrest, h⟩ := ok_of_bind h
    cases h
    refine List.forall_mem_cons.2 ⟨⟨b, List.mem_cons_self, hb⟩, fun c hc => ?_⟩
    obtain ⟨d, hd, hfd⟩ := ok_of_mapM hrest c hc
    exact ⟨d, List.mem_cons_of_mem _ hd, hfd⟩

theorem exists_ok_of_mapM : ∀ {as : List α}, (∀ a ∈ as, ∃ b, f a = .ok b) →
    ∃ bs, as.mapM f = .ok bs
  | [], _ => ⟨[], rfl⟩
  | a :: as, h => by
    rw [List.forall_mem_cons] at h
    obtain ⟨b, hb⟩ := h.1
    obtain ⟨bs, hbs⟩ := exists_ok_of_mapM h.2
    refine ⟨b :: bs, ?_⟩
    rw [List.mapM_cons, hb, hbs]
    rfl

end errors

namespace Draw

variable {α β : Type} {x : Draw α} {f : α → Draw β} {P : α → Prop} {Q : β → Prop}

/-- Whatever the computation answers has the property. -/
def Ensures (x : Draw α) (P : α → Prop) : Prop := ∀ s a s', x s = .ok (a, s') → P a

theorem Ensures.pure {a : α} (h : P a) : Ensures (Pure.pure a) P := fun s b s' hb => by
  cases hb
  exact h

theorem Ensures.mono {P' : α → Prop} (h : x.Ensures P) (hP : ∀ a, P a → P' a) : x.Ensures P' :=
  fun s a s' ha => hP a (h s a s' ha)

theorem Ensures.bind (hx : x.Ensures P) (hf : ∀ a, P a → (f a).Ensures Q) :
    (x >>= f).Ensures Q := fun s b s' hb => by
  change (x s).bind (fun r => f r.1 r.2) = _ at hb
  cases hxs : x s with
  | error e =>
    rw [hxs] at hb
    cases hb
  | ok r =>
    rw [hxs] at hb
    exact hf r.1 (hx s r.1 r.2 hxs) r.2 b s' hb

theorem ensures_true : x.Ensures fun _ => True := fun _ _ _ _ => trivial

/-- For a computation of which nothing is known. -/
theorem Ensures.after (hf : ∀ a, (f a).Ensures Q) : (x >>= f).Ensures Q :=
  ensures_true.bind fun a _ => hf a

/-- Item by item, what the answers for a list have. -/
theorem Ensures.mapM {R : α → β → Prop} : ∀ {l : List α}, (∀ a ∈ l, (f a).Ensures (R a)) →
    (l.mapM f).Ensures fun bs => List.Forall₂ R l bs
  | [], _ => .pure .nil
  | a :: l, h => by
    rw [List.mapM_cons]
    refine (h a List.mem_cons_self).bind fun b hb => ?_
    refine (Ensures.mapM fun a ha => h a (List.mem_cons_of_mem _ ha)).bind fun bs hbs => ?_
    exact .pure (.cons hb hbs)

/-- The computation halts only for reasons in `E`, and its answers have the property. -/
def Meets (x : Draw α) (E : Halt → Prop) (P : α → Prop) : Prop :=
  ∀ s, match x s with
    | .ok (a, _) => P a
    | .error h => E h

section meets

variable {E : Halt → Prop}

theorem Meets.pure {a : α} (h : P a) : Meets (Pure.pure a) E P := fun _ => h

theorem Meets.mono {P' : α → Prop} (h : x.Meets E P) (hP : ∀ a, P a → P' a) : x.Meets E P' := by
  intro s
  have hs := h s
  split at hs
  · exact hP _ hs
  · exact hs

theorem Meets.bind (hx : x.Meets E P) (hf : ∀ a, P a → (f a).Meets E Q) :
    (x >>= f).Meets E Q := by
  intro s
  have hs := hx s
  change match (x s).bind (fun r => f r.1 r.2) with
    | .ok (b, _) => Q b
    | .error h => E h
  cases hxs : x s with
  | error e =>
    rw [hxs] at hs
    exact hs
  | ok r =>
    rw [hxs] at hs
    exact hf r.1 hs r.2

theorem Meets.mapM {P : β → Prop} (h : ∀ a, (f a).Meets E P) (l : List α) :
    (l.mapM f).Meets E fun bs => bs.length = l.length ∧ ∀ b ∈ bs, P b := by
  induction l with
  | nil => exact .pure (by simp)
  | cons a l ih =>
    rw [List.mapM_cons]
    refine (h a).bind fun b hb => ?_
    refine ih.bind fun bs ⟨hlength, hbs⟩ => ?_
    exact .pure ⟨congrArg Nat.succ hlength, List.forall_mem_cons.2 ⟨hb, hbs⟩⟩

theorem Meets.ensures (h : x.Meets E P) : x.Ensures P := by
  intro s a s' ha
  have hs := h s
  rwa [ha] at hs

theorem Meets.and_ensures {P' : α → Prop} (h : x.Meets E P) (h' : x.Ensures P') :
    x.Meets E fun a => P a ∧ P' a := by
  intro s
  have hs := h s
  split at hs
  · exact ⟨hs, h' _ _ _ ‹_›⟩
  · exact hs

/-- It does not halt for any other reason. -/
theorem Meets.ne_error (h : x.Meets E P) {e : Halt} (he : ¬ E e) (s : Source) :
    x s ≠ .error e := by
  intro hs
  have hhalt := h s
  rw [hs] at hhalt
  exact he hhalt

theorem Ensures.meets (h : x.Ensures P) : x.Meets (fun _ => True) P := by
  intro s
  split
  · exact h _ _ _ ‹_›
  · trivial

/-- For a computation of which nothing is asked. -/
theorem meets_of_forall (h : ∀ a, P a) : x.Meets (fun _ => True) P :=
  Ensures.meets fun _ a _ _ => h a

theorem meets_ofExcept {o : Except Halt α} (hok : ∀ a, o = .ok a → P a)
    (herror : ∀ h, o = .error h → E h) : (ofExcept o).Meets E P := by
  intro s
  cases o with
  | ok a => exact hok a rfl
  | error h => exact herror h rfl

theorem ensures_ofExcept {o : Except Halt α} (h : ∀ a, o = .ok a → P a) :
    (ofExcept o).Ensures P := (meets_ofExcept (E := fun _ => True) h fun _ _ => trivial).ensures

end meets

end Draw

end TangledPrograms
