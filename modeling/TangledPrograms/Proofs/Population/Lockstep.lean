import TangledPrograms.Proofs.Population.Forgetting

/-!
# Commands without memories

A command that builds no uniqueness corpus is answered alike by populations that differ in memories
only, and leaves such populations behind. Two exceptions are to be made: a removed learner is handed
out with its memory, and a recorded decision is remembered.
-/

namespace TangledPrograms

def Reply.forget : Reply → Reply
  | .removedLearner l => .removedLearner l.forget
  | r => r

def Command.buildsCorpus : Command → Bool
  | .mutateLearner _ scope => !scope.references.isEmpty
  | _ => false

def Reply.forgetBoth (r : Reply × Population) : Reply × Population := (r.1.forget, r.2.forget)

section

variable {α : Type} {answer : α → Reply} {keep : α → α}

private theorem forgetBoth_reply (h : ∀ a, (answer (keep a)).forget = (answer a).forget)
    (e : Edited α) : Reply.forgetBoth ((e.forget keep).reply answer) =
      Reply.forgetBoth (e.reply answer) := by
  cases e with
  | done a p => exact Prod.ext (h a) p.forget_forget
  | refused e p => exact Prod.ext rfl p.forget_forget

private theorem edit_forget {e e' : Edited α} (he : e' = e.forget keep)
    (h : ∀ a, (answer (keep a)).forget = (answer a).forget) :
    Reply.forgetBoth <$> (pure (e'.reply answer) : Draw (Reply × Population)) =
      Reply.forgetBoth <$> pure (e.reply answer) := by
  rw [he, map_pure, map_pure]
  exact congrArg pure (forgetBoth_reply h e)

private theorem draw_forget {x x' : Draw (Edited α)} (hx : x' = Edited.forget keep <$> x)
    (h : ∀ a, (answer (keep a)).forget = (answer a).forget) :
    Reply.forgetBoth <$> (x' >>= fun e => pure (e.reply answer)) =
      Reply.forgetBoth <$> (x >>= fun e => pure (e.reply answer)) := by
  rw [hx, bind_map_left, map_bind, map_bind]
  refine bind_congr fun e => ?_
  rw [map_pure, map_pure]
  exact congrArg pure (forgetBoth_reply h e)

end

private theorem same_forget {r r' : Reply} (h : r' = r) (p : Population) :
    Reply.forgetBoth <$> (pure (r', p.forget) : Draw (Reply × Population)) =
      Reply.forgetBoth <$> pure (r, p) := by
  rw [h, map_pure, map_pure]
  exact congrArg pure (Prod.ext rfl p.forget_forget)

/-- No command but one that builds a uniqueness corpus tells a population from the one that has
forgotten everything. -/
theorem Command.perform_forget {c : Command} (hc : c.buildsCorpus = false) (p : Population) :
    Reply.forgetBoth <$> c.perform p.forget = Reply.forgetBoth <$> c.perform p := by
  cases c with
  | addTeam => exact same_forget rfl p.addTeam.2
  | createProgram =>
    simp only [perform]
    rw [Population.createProgram_forget, bind_map_left, map_bind, map_bind]
    exact bind_congr fun r => same_forget rfl r.2
  | addLearner action => exact draw_forget (p.addLearner_forget action) fun _ => rfl
  | addLearnerWith program action addressing group =>
    exact edit_forget (p.addLearnerWith_forget program action addressing group) fun _ => rfl
  | cloneLearner parent => exact edit_forget (p.cloneLearner_forget parent) fun _ => rfl
  | join t l => exact edit_forget (p.join_forget t l) fun _ => rfl
  | leave t l => exact edit_forget (p.leave_forget t l) fun _ => rfl
  | rewire l action => exact edit_forget (p.rewire_forget l action) fun _ => rfl
  | removeTeam t => exact edit_forget (p.removeTeam_forget t) fun _ => rfl
  | removeLearner l => exact edit_forget (p.removeLearner_forget l) fun _ => rfl
  | mutateAction l parent pool => exact draw_forget (p.mutateAction_forget l parent pool) fun _ => rfl
  | mutateLearner l scope =>
    have hscope : scope.references.isEmpty = true := by simpa [buildsCorpus] using hc
    exact draw_forget (p.mutateLearner_forget l hscope) fun _ => rfl
  | actRecording t input bank =>
    obtain ⟨hdecision, hpopulation⟩ := p.actRecording_forget t input bank
    have hboth : Reply.forgetBoth ((p.forget.actRecording t input bank).map .decided id) =
        Reply.forgetBoth ((p.actRecording t input bank).map .decided id) :=
      Prod.ext (congrArg (fun d => Reply.forget (.decided d)) hdecision) hpopulation
    simp only [perform]
    rw [map_pure, map_pure, hboth]
  | commitScores t scores => exact edit_forget (p.commitScores_forget t scores) fun _ => rfl
  | teamAct t input bank visited =>
    exact same_forget (congrArg _ (p.teamAct_forget t input bank visited)) p
  | learnerAct l input bank visited =>
    exact same_forget (congrArg _ (p.learnerAct_forget l input bank visited)) p
  | checkReferences =>
    simp only [perform]
    rw [Population.checkReferences_forget]
    cases p.checkReferences with
    | ok _ => exact same_forget rfl p
    | error e => exact same_forget rfl p
  | unreferenced =>
    exact same_forget (congrArg _ p.unreferencedLearners_forget) p

def Reply.forgetAll (r : List (Reply × Source) × Population) : List (Reply × Source) × Population :=
  (r.1.map fun a => (a.1.forget, a.2), r.2.forget)

private theorem of_map_eq {ε α β : Type} {x y : Except ε α} {f : α → β} (h : x.map f = y.map f) :
    (∃ e, x = .error e ∧ y = .error e) ∨ ∃ a b, x = .ok a ∧ y = .ok b ∧ f a = f b := by
  cases x with
  | error e =>
    cases y with
    | error e' => exact .inl ⟨e, rfl, congrArg _ (Except.error.inj h).symm⟩
    | ok b => cases h
  | ok a =>
    cases y with
    | error e' => cases h
    | ok b => exact .inr ⟨a, b, rfl, rfl, Except.ok.inj h⟩

private theorem map_apply {α β : Type} (f : α → β) (x : Draw α) (source : Source) :
    (f <$> x) source = (x source).map (Prod.map f id) := by
  change (x source).bind _ = _
  cases x source <;> rfl

/-- Populations that differ in memories only reply alike, halt alike, and stay so. -/
theorem Command.performAll_congr {commands : List (Command × Source)}
    (h : ∀ c ∈ commands, c.1.buildsCorpus = false) {p q : Population} (hpq : p.forget = q.forget) :
    (performAll commands p).map Reply.forgetAll = (performAll commands q).map Reply.forgetAll := by
  -- What the induction carries is that the two populations agree without their memories: that is all
  -- a step needs of them, and it leaves them so.
  induction commands generalizing p q with
  | nil => exact congrArg Except.ok (Prod.ext rfl hpq)
  | cons c rest ih =>
    obtain ⟨c, source⟩ := c
    obtain ⟨hc, hrest⟩ := List.forall_mem_cons.1 h
    have hstep : Reply.forgetBoth <$> c.perform p = Reply.forgetBoth <$> c.perform q := by
      rw [← perform_forget hc p, ← perform_forget hc q, hpq]
    have hperform := congrFun hstep source
    rw [map_apply, map_apply] at hperform
    simp only [performAll]
    rcases of_map_eq hperform with ⟨e, hp, hq⟩ | ⟨r, r', hp, hq, hr⟩
    · rw [hp, hq]
    · obtain ⟨⟨reply, p'⟩, left⟩ := r
      obtain ⟨⟨reply', q'⟩, left'⟩ := r'
      simp only [Prod.map_apply, Reply.forgetBoth, Prod.mk.injEq] at hr
      obtain ⟨⟨hreply, hleft⟩, hsource⟩ := hr
      rw [hp, hq]
      simp only [bind, Except.bind]
      rcases of_map_eq (ih hrest hleft) with ⟨e, hp', hq'⟩ | ⟨s, s', hp', hq', hs⟩
      · rw [hp', hq']
      · simp only [Reply.forgetAll, Prod.mk.injEq] at hs
        rw [hp', hq']
        simp only [Except.map, pure, Except.pure, Reply.forgetAll, List.map_cons]
        rw [hreply, hs.1, hs.2, show left = left' from hsource]

end TangledPrograms
