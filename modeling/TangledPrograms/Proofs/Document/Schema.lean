import TangledPrograms.Document.Schema
import TangledPrograms.Proofs.Document.Lexeme
import TangledPrograms.Snapshot.Written

/-!
# Documents are read back

A reader of a document takes the document's text, wherever it stands, and comes to one outcome: a value,
or a failure. Lists, records, variants and maps come to what their parts come to, and to the failure of
the first part that has one. A value is recovered if it is the outcome; whole numbers and texts are.
-/

namespace TangledPrograms.Document

open Reader

variable {α β γ : Type}

/-- At every level, between blanks and what may stand after a value, the reader takes the text of the
document and comes to the outcome. The text does not begin like the end of a list. -/
structure Gives (r : Reader Char α) (d : Document) (o : Except ReadFailure α) : Prop where
  opens : ∀ level, ∃ c text, d.render level = c :: text ∧ isBlank c = false ∧ c ≠ ']'
  reads : ∀ (level : Nat) {blanks rest : List Char}, blanks.all isBlank = true → Ended rest →
    r (blanks ++ (d.render level ++ rest)) = o.map fun a => (a, rest)

abbrev Recovers (r : Reader Char α) (d : Document) (a : α) : Prop := Gives r d (.ok a)

section outcomes

variable {r : Reader Char α} {d : Document} {o : Except ReadFailure α}

theorem Gives.reads_unspaced (h : Gives r d o) (level : Nat) {rest : List Char}
    (hrest : Ended rest) : r (d.render level ++ rest) = o.map fun a => (a, rest) :=
  @reads _ _ _ _ h level [] rest rfl hrest

/-- What is made of a value as soon as it has been read. -/
theorem Gives.bind {f : α → Reader Char β} {g : α → Except ReadFailure β} (h : Gives r d o)
    (hf : ∀ a s, o = .ok a → f a s = (g a).map fun b => (b, s)) : Gives (r >>= f) d (o.bind g) where
  opens := h.opens
  reads level blanks rest hblanks hrest := by
    rw [bind_of_map (h.reads level hblanks hrest)]
    cases o with
    | error e => rfl
    | ok a => exact hf a rest rfl

theorem Gives.map {f : α → Reader Char β} {g : α → β} (h : Gives r d o)
    (hf : ∀ a, f a = pure (g a)) : Gives (r >>= f) d (o.map g) := by
  have hbind : Gives (r >>= f) d (o.bind fun a => .ok (g a)) := h.bind fun a s _ => by
    rw [hf]
    rfl
  cases o with
  | error e => exact hbind
  | ok a => exact hbind

theorem Gives.finish {a : α} {b : β} {f : α → Reader Char β} (h : Recovers r d a)
    (hf : f a = pure b) : Recovers (r >>= f) d b := by
  have hbind : Gives (r >>= f) d ((Except.ok a).bind fun _ => .ok b) := by
    refine h.bind fun a' s ha => ?_
    cases ha
    rw [hf]
    rfl
  exact hbind

/-- A document is read from the whole text. -/
theorem readAll_pretty (h : Gives r d o) : readAll r d.pretty = o := by
  have hread := h.reads_unspaced 0 ended_nil
  rw [List.append_nil] at hread
  have hrun : r.run d.pretty.toList = o.map fun a => (a, []) := by
    rw [pretty, String.toList_ofList]
    exact hread
  rw [readAll, hrun]
  cases o <;> rfl

end outcomes

section Numbers

theorem render_natural (level n : Nat) : (natural n).render level = Nat.toDigits 10 n := by
  change (toString n).toList = _
  rw [Nat.toString_eq_ofList_toDigits, String.toList_ofList]

theorem natBelow_recovers {bound n : Nat} (h : n < bound) (hbound : bound ≤ UInt64.size) :
    Recovers (natBelow bound) (natural n) n where
  opens level := by
    rw [render_natural]
    cases hds : Nat.toDigits 10 n with
    | nil => exact absurd hds Nat.toDigits_ne_nil
    | cons d ds =>
      have hd : d.isDigit = true :=
        Nat.isDigit_of_mem_toDigits (b := 10) (n := n) (by decide) (by decide) (by simp [hds])
      refine ⟨d, ds, rfl, not_isBlank_of_isDigit hd, ?_⟩
      rintro rfl
      simp at hd
  reads level blanks rest hblanks hrest := by
    rw [render_natural, natBelow,
      bind_of_ok (numeral_append hblanks (Nat.lt_of_lt_of_le h hbound) hrest)]
    simp only [if_pos h]
    rfl

theorem size_recovers {n : Nat} (h : n < 2 ^ 64) : Recovers size (natural n) n :=
  natBelow_recovers h (Nat.le_refl _)

end Numbers

section Lists

variable {item : Reader Char α} {write : β → Document} {read : β → Except ReadFailure α}

theorem ended_items {level : Nat} {ds : List Document} {rest : List Char} :
    Ended (renderItems (level + 1) ds ++ (newLine level ++ rest)) := by
  cases ds with
  | nil => exact ended_newLine level _
  | cons e ds => exact ended_comma _

theorem itemsRest_append {level : Nat} {bs : List β} (h : ∀ b ∈ bs, Gives item (write b) (read b))
    {fuel : List Char} (hfuel : bs.length < fuel.length) (rest : List Char) :
    itemsRest item fuel (renderItems (level + 1) (bs.map write) ++ (newLine level ++ ']' :: rest)) =
      (bs.mapM read).map fun as => (as, rest) := by
  induction bs generalizing fuel with
  | nil =>
    obtain _ | ⟨f, fuel⟩ := fuel
    · simp at hfuel
    · rw [itemsRest, List.map_nil, renderItems, List.nil_append,
        bind_of_ok (accept_append (isBlank_newLine level) (by decide))]
      rfl
  | cons b bs ih =>
    obtain _ | ⟨f, fuel⟩ := fuel
    · simp at hfuel
    · rw [List.forall_mem_cons] at h
      have htext : renderItems (level + 1) ((b :: bs).map write) ++ (newLine level ++ ']' :: rest) =
          ',' :: (newLine (level + 1) ++ ((write b).render (level + 1) ++
            (renderItems (level + 1) (bs.map write) ++ (newLine level ++ ']' :: rest)))) := by
        simp [renderItems]
      rw [htext, itemsRest, bind_of_ok (accept_cons_other (by decide) (by decide))]
      simp only [Bool.false_eq_true, if_false]
      rw [bind_of_ok (expect_cons (by decide)),
        bind_of_map (h.1.reads (level + 1) (isBlank_newLine _) ended_items), List.mapM_cons]
      cases read b with
      | error e => rfl
      | ok a =>
        change (itemsRest item fuel >>= fun as => pure (a :: as) : Reader Char (List α)) _ = _
        rw [bind_of_map (ih h.2 (Nat.lt_of_succ_lt_succ hfuel))]
        cases bs.mapM read <;> rfl

theorem length_le_renderItems (level : Nat) (ds : List Document) :
    ds.length ≤ (renderItems level ds).length := by
  induction ds with
  | nil => exact Nat.zero_le _
  | cons d ds ih =>
    simp only [renderItems, List.length_cons, List.length_append]
    omega

/-- A list comes to the values of its items, or to the first failure. -/
theorem items_gives {bs : List β} (h : ∀ b ∈ bs, Gives item (write b) (read b)) :
    Gives (items item) (.list (bs.map write)) (bs.mapM read) where
  opens level := by
    cases bs with
    | nil => exact ⟨'[', [']'], rfl, by decide, by decide⟩
    | cons b bs => exact ⟨'[', _, rfl, by decide, by decide⟩
  reads level blanks rest hblanks hrest := by
    cases bs with
    | nil =>
      change items item (blanks ++ '[' :: ([] ++ ']' :: rest)) = _
      rw [items, bind_of_ok (expect_append hblanks (by decide)),
        bind_of_ok (@accept_append [] _ _ rfl (by decide))]
      rfl
    | cons b bs =>
      rw [List.forall_mem_cons] at h
      obtain ⟨c, text, hopen, hblank, hclose⟩ := h.1.opens (level + 1)
      have htail : bs.length <
          (renderItems (level + 1) (bs.map write) ++ (newLine level ++ ']' :: rest)).length := by
        have hitems := length_le_renderItems (level + 1) (bs.map write)
        simp only [List.length_append, List.length_cons, List.length_map] at hitems ⊢
        omega
      have htext : (Document.list ((b :: bs).map write)).render level ++ rest =
          '[' :: (newLine (level + 1) ++ ((write b).render (level + 1) ++
            (renderItems (level + 1) (bs.map write) ++ (newLine level ++ ']' :: rest)))) := by
        simp [render]
      have hended : Ended (renderItems (level + 1) (bs.map write) ++ (newLine level ++ ']' :: rest)) :=
        ended_items
      have hread := h.1.reads_unspaced (level + 1) hended
      rw [htext, items, bind_of_ok (expect_append hblanks (by decide))]
      rw [hopen] at hread ⊢
      rw [List.cons_append] at hread ⊢
      rw [bind_of_ok (accept_other (isBlank_newLine _) hblank hclose)]
      simp only [Bool.false_eq_true, if_false]
      rw [bind_of_map hread, List.mapM_cons]
      cases read b with
      | error e => rfl
      | ok a =>
        change (itemsRest item _ >>= fun as => pure (a :: as) : Reader Char (List α)) _ = _
        rw [bind_of_map (itemsRest_append h.2 htail rest)]
        cases bs.mapM read <;> rfl

theorem items_recovers_map {read : β → α} {bs : List β}
    (h : ∀ b ∈ bs, Recovers item (write b) (read b)) :
    Recovers (items item) (.list (bs.map write)) (bs.map read) := by
  have hitems := items_gives h
  rwa [show bs.mapM (fun b => Except.ok (read b)) = .ok (bs.map read) from List.mapM_pure] at hitems

end Lists

section Records

variable {blanks : List Char}

theorem fieldName_append (hblanks : blanks.all isBlank = true) (name : String) (rest : List Char) :
    fieldName (blanks ++ (quote name ++ ':' :: rest)) = .ok (name, rest) := by
  rw [fieldName, bind_of_ok (quoted_append hblanks name _),
    bind_of_ok (expect_cons (by decide))]
  rfl

theorem fieldName_quote (name : String) (rest : List Char) :
    fieldName (quote name ++ ':' :: rest) = .ok (name, rest) := @fieldName_append [] rfl name rest

theorem ended_fields {level : Nat} {ds : List (String × Document)} {rest : List Char} :
    Ended (renderFields (level + 1) ds ++ (newLine level ++ rest)) := by
  cases ds with
  | nil => exact ended_newLine level _
  | cons e ds => exact ended_comma _

theorem length_le_renderFields (level : Nat) (ds : List (String × Document)) :
    ds.length ≤ (renderFields level ds).length := by
  induction ds with
  | nil => exact Nat.zero_le _
  | cons d ds ih =>
    simp only [renderFields, List.length_cons, List.length_append]
    omega

theorem renderFields_cons (level : Nat) (name : String) (d : Document)
    (ds : List (String × Document)) (rest : List Char) :
    renderFields (level + 1) ((name, d) :: ds) ++ (newLine level ++ '\x7d' :: rest) =
      ',' :: (newLine (level + 1) ++ (quote name ++ ':' :: ([' '] ++ (d.render (level + 1) ++
        (renderFields (level + 1) ds ++ (newLine level ++ '\x7d' :: rest)))))) := by
  simp [renderFields, renderField]

theorem render_record_cons (level : Nat) (name : String) (d : Document)
    (ds : List (String × Document)) (rest : List Char) :
    (Document.record ((name, d) :: ds)).render level ++ rest =
      '\x7b' :: (newLine (level + 1) ++ (quote name ++ ':' :: ([' '] ++ (d.render (level + 1) ++
        (renderFields (level + 1) ds ++ (newLine level ++ '\x7d' :: rest)))))) := by
  simp [render, renderField]

namespace Fields

variable {τ : Type}

/-- The fields of a record, each with what it comes to from the document under its name; the first
failure is that of the record. -/
inductive Gives : {τ : Type} → Fields τ → List (String × Document) → Except ReadFailure τ → Prop where
  | done : Gives .done [] (.ok ())
  | field {α β : Type} {name : String} {value : Reader Char α} {fs : Fields β} {d : Document}
      {o : Except ReadFailure α} {ds : List (String × Document)} {o' : Except ReadFailure β}
      (hvalue : Document.Gives value d o) (hrest : Gives fs ds o') :
      Gives (.field name value fs) ((name, d) :: ds) (o.bind fun a => o'.map fun b => (a, b))

def Recovers (fs : Fields τ) (ds : List (String × Document)) (a : τ) : Prop := Gives fs ds (.ok a)

theorem Recovers.done : Recovers .done [] () := Gives.done

theorem Recovers.field {name : String} {value : Reader Char α} {fs : Fields β} {d : Document} {a : α}
    {ds : List (String × Document)} {b : β} (hvalue : Document.Recovers value d a)
    (hrest : Recovers fs ds b) : Recovers (.field name value fs) ((name, d) :: ds) (a, b) :=
  Gives.field hvalue hrest

/-- Reading the named values one after the other takes the fields from a state to another one, or
fails. -/
inductive Collects (fs : Fields τ) :
    fs.Partial → List (String × Document) → Except ReadFailure fs.Partial → Prop where
  | nil {p : fs.Partial} : Collects fs p [] (.ok p)
  | stop {p : fs.Partial} {name : String} {d : Document} {ds : List (String × Document)}
      {e : ReadFailure} (hread : Document.Gives (fs.readNamed name p) d (.error e)) :
      Collects fs p ((name, d) :: ds) (.error e)
  | cons {p p' : fs.Partial} {name : String} {d : Document} {ds : List (String × Document)}
      {o : Except ReadFailure fs.Partial}
      (hread : Document.Recovers (fs.readNamed name p) d p') (hrest : Collects fs p' ds o) :
      Collects fs p ((name, d) :: ds) o

/-- Values of other names leave the first field as it is. -/
theorem Collects.behind {fs : Fields τ} {p : fs.Partial} {ds : List (String × Document)}
    {o : Except ReadFailure fs.Partial} (h : Collects fs p ds o) {name : String}
    {value : Reader Char α} {x : Option α} (hname : ∀ e ∈ ds, e.1 ≠ name) :
    Collects (.field name value fs) (x, p) ds (o.map fun q => (x, q)) := by
  induction h with
  | nil => exact .nil
  | stop hread =>
    refine .stop ?_
    rw [readNamed, if_neg (hname _ List.mem_cons_self)]
    exact hread.map fun _ => rfl
  | cons hread _ ih =>
    refine .cons ?_ (ih fun e he => hname e (List.mem_cons_of_mem _ he))
    rw [readNamed, if_neg (hname _ List.mem_cons_self)]
    exact hread.finish rfl

/-- Fields of different names are collected in their order. -/
theorem Gives.collects {fs : Fields τ} {ds : List (String × Document)} {o : Except ReadFailure τ}
    (h : fs.Gives ds o) (hnodup : (ds.map Prod.fst).Nodup) :
    ∃ q, Collects fs fs.start ds q ∧ q.map fs.finish? = o.map some := by
  induction h with
  | done => exact ⟨.ok (), .nil, rfl⟩
  | @field α β name value fs d o ds o' hvalue _ ih =>
    rw [List.map_cons, List.nodup_cons] at hnodup
    obtain ⟨q, hq, hfinish⟩ := ih hnodup.2
    have hname : ∀ e ∈ ds, e.1 ≠ name := fun e he heq =>
      hnodup.1 (List.mem_map.2 ⟨e, he, heq⟩)
    have hread : ∀ x : Except ReadFailure α, Document.Gives value d x →
        Document.Gives ((Fields.field name value fs).readNamed name (none, fs.start)) d
          (x.map fun a => (some a, fs.start)) := fun x hx => by
      rw [readNamed, if_pos rfl]
      exact hx.map fun _ => rfl
    cases o with
    | error e => exact ⟨.error e, .stop (hread _ hvalue), rfl⟩
    | ok a =>
      refine ⟨q.map fun q => (some a, q), .cons (hread _ hvalue) (hq.behind hname), ?_⟩
      cases q with
      | error e =>
        cases o' with
        | error e' =>
          cases hfinish
          rfl
        | ok b => cases hfinish
      | ok q =>
        cases o' with
        | error e' => cases hfinish
        | ok b =>
          have hfound : fs.finish? q = some b := Except.ok.inj hfinish
          simp only [Except.map, Except.bind, finish?, hfound]

theorem readObjectRest_append {fs : Fields τ} {p : fs.Partial} {level : Nat}
    {ds : List (String × Document)} {o : Except ReadFailure fs.Partial} (h : Collects fs p ds o)
    {fuel : List Char} (hfuel : ds.length < fuel.length) (rest : List Char) :
    fs.readObjectRest fuel p (renderFields (level + 1) ds ++ (newLine level ++ '\x7d' :: rest)) =
      o.map fun q => (q, rest) := by
  induction h generalizing fuel with
  | nil =>
    obtain _ | ⟨f, fuel⟩ := fuel
    · simp at hfuel
    · rw [readObjectRest, renderFields, List.nil_append,
        bind_of_ok (accept_append (isBlank_newLine level) (by decide))]
      rfl
  | @stop p name d ds e hread =>
    obtain _ | ⟨f, fuel⟩ := fuel
    · simp at hfuel
    · rw [renderFields_cons, readObjectRest, bind_of_ok (accept_cons_other (by decide) (by decide))]
      simp only [Bool.false_eq_true, if_false]
      rw [bind_of_ok (expect_cons (by decide)),
        bind_of_ok (fieldName_append (isBlank_newLine _) name _),
        bind_of_map (hread.reads (level + 1) (by decide) ended_fields)]
      rfl
  | @cons p p' name d ds o hread _ ih =>
    obtain _ | ⟨f, fuel⟩ := fuel
    · simp at hfuel
    · rw [renderFields_cons, readObjectRest, bind_of_ok (accept_cons_other (by decide) (by decide))]
      simp only [Bool.false_eq_true, if_false]
      rw [bind_of_ok (expect_cons (by decide)),
        bind_of_ok (fieldName_append (isBlank_newLine _) name _),
        bind_of_ok (hread.reads (level + 1) (by decide) ended_fields),
        ih (Nat.lt_of_succ_lt_succ hfuel)]

/-- A record comes to what its fields come to, of which there is one at least. -/
theorem Gives.record {fs : Fields τ} {ds : List (String × Document)} {o : Except ReadFailure τ}
    (h : fs.Gives ds o) (hnodup : (ds.map Prod.fst).Nodup) (hne : ds ≠ []) :
    Document.Gives fs.read (.record ds) o where
  opens level := by
    cases ds with
    | nil => exact absurd rfl hne
    | cons d ds => exact ⟨'\x7b', _, rfl, by decide, by decide⟩
  reads level blanks rest hblanks hrest := by
    obtain ⟨q, hq, hfinish⟩ := h.collects hnodup
    have hopen : ∀ (name : String) (d : Document) (ds : List (String × Document)),
        fs.read (blanks ++ ((Document.record ((name, d) :: ds)).render level ++ rest)) =
          (do
            let p ← fs.readNamed name fs.start
            let p ← fs.readObjectRest (← remaining) p
            ofOption (fs.finish? p) : Reader Char τ)
          ([' '] ++ (d.render (level + 1) ++
            (renderFields (level + 1) ds ++ (newLine level ++ '\x7d' :: rest)))) := by
      intro name d ds
      rw [render_record_cons, read, bind_of_ok (skipBlanks_append hblanks (by decide))]
      change readObject fs ('\x7b' :: _) = _
      rw [readObject, bind_of_ok (expect_cons (by decide)),
        bind_of_ok (accept_quote (isBlank_newLine _) (by decide) name _)]
      simp only [Bool.false_eq_true, if_false]
      rw [bind_of_ok (fieldName_quote name _)]
    cases hq with
    | nil => exact absurd rfl hne
    | @stop _ name d ds e hread =>
      rw [hopen, bind_of_map (hread.reads (level + 1) (by decide) ended_fields)]
      cases o with
      | error e' =>
        cases hfinish
        rfl
      | ok a => cases hfinish
    | @cons _ p' name d ds _ hread hcollects =>
      have htail : ds.length <
          (renderFields (level + 1) ds ++ (newLine level ++ '\x7d' :: rest)).length := by
        have hfields := length_le_renderFields (level + 1) ds
        simp only [List.length_append, List.length_cons]
        omega
      rw [hopen, bind_of_ok (hread.reads (level + 1) (by decide) ended_fields)]
      change (fs.readObjectRest _ p' >>= fun p => ofOption (fs.finish? p) : Reader Char τ) _ = _
      rw [bind_of_map (readObjectRest_append hcollects htail rest)]
      cases q with
      | error e =>
        cases o with
        | error e' =>
          cases hfinish
          rfl
        | ok a => cases hfinish
      | ok q =>
        cases o with
        | error e' => cases hfinish
        | ok a =>
          have hfound : fs.finish? q = some a := Except.ok.inj hfinish
          simp only [Except.bind, hfound]
          rfl

/-- The same for a value made of the fields. -/
theorem Recovers.made {fs : Fields τ} {ds : List (String × Document)} {a : τ} {b : α}
    {f : τ → Reader Char α} (h : fs.Recovers ds a) (hnodup : (ds.map Prod.fst).Nodup) (hne : ds ≠ [])
    (hf : f a = pure b) : Document.Recovers (fs.read >>= f) (.record ds) b :=
  (Gives.record h hnodup hne).finish hf

end Fields

end Records

section Variants

variable {bare : List (String × α)} {tagged : List (String × Reader Char α)} {name : String} {a : α}

theorem variant_bare_recovers (h : bare.lookup name = some a) :
    Recovers (variant bare tagged) (.text name) a where
  opens level := ⟨'"', _, rfl, by decide, by decide⟩
  reads level blanks rest hblanks hrest := by
    have hname := @quoted_append [] rfl name rest
    rw [variant]
    change (skipBlanks >>= _ : Reader Char α) (blanks ++ '"' :: (_ ++ rest)) = _
    rw [bind_of_ok (skipBlanks_append hblanks (by decide)), bind_of_ok (peek?_cons _ _), if_pos rfl]
    change (quoted >>= _ : Reader Char α) ([] ++ (quote name ++ rest)) = _
    rw [bind_of_ok hname, h]
    rfl

theorem variant_tagged_gives {value : Reader Char α} {d : Document} {o : Except ReadFailure α}
    (hbare : bare.lookup name = none) (htagged : tagged.lookup name = some value)
    (h : Gives value d o) : Gives (variant bare tagged) (.tagged name d) o where
  opens level := ⟨'\x7b', _, rfl, by decide, by decide⟩
  reads level blanks rest hblanks hrest := by
    rw [Document.tagged, render_record_cons, variant,
      bind_of_ok (skipBlanks_append hblanks (by decide)), bind_of_ok (peek?_cons _ _),
      if_neg (by decide), bind_of_ok (expect_cons (by decide)),
      bind_of_ok (fieldName_append (isBlank_newLine _) name _), hbare, htagged]
    simp only
    rw [bind_of_map (h.reads (level + 1) (by decide) ended_fields)]
    cases o with
    | error e => rfl
    | ok a =>
      simp only [Except.bind, renderFields, List.nil_append]
      rw [bind_of_ok (expect_append (isBlank_newLine _) (by decide))]
      rfl

end Variants

end TangledPrograms.Document
