import TangledPrograms.Proofs.Document.Number
import TangledPrograms.Proofs.OrderedMap

/-!
# Values of every kind are read back

Words, signed numbers, truth values and texts are recovered. A map comes to what its values come to under
their names, and so does a list of a record's fields. Where a value may be lost on the way, a document is
recovered exactly if all of its parts are.
-/

namespace TangledPrograms.Document

open Reader

variable {α β : Type}

section Plain

theorem word32_recovers (w : UInt32) : Recovers word32 (natural w.toNat) w :=
  (natBelow_recovers w.toNat_lt (by decide)).finish (by rw [UInt32.ofNat_toNat])

theorem truthValue_recovers (b : Bool) : Recovers truthValue (.truth b) b where
  opens level := by cases b <;> exact ⟨_, _, rfl, by decide, by decide⟩
  reads level blanks rest hblanks hrest := by
    cases b with
    | false =>
      change truthValue (blanks ++ 'f' :: ("alse".toList ++ rest)) = _
      rw [truthValue, bind_of_ok (skipBlanks_append hblanks (by decide)), bind_of_ok (peek?_cons ..)]
      rfl
    | true =>
      change truthValue (blanks ++ 't' :: ("rue".toList ++ rest)) = _
      rw [truthValue, bind_of_ok (skipBlanks_append hblanks (by decide)), bind_of_ok (peek?_cons ..)]
      rfl

theorem quoted_recovers (s : String) : Recovers quoted (.text s) s where
  opens level := ⟨'"', _, rfl, by decide, by decide⟩
  reads level blanks rest hblanks hrest := quoted_append hblanks s rest

theorem render_integer_negSucc (level m : Nat) :
    (Document.integer (Int.negSucc m)).render level = '-' :: Nat.toDigits 10 (m + 1) := by
  change ("-" ++ Nat.repr (m + 1)).toList = _
  rw [String.toList_append, Nat.toList_repr]
  rfl

theorem signed_recovers (n : Int64) : Recovers signed (.integer n.toInt) n := by
  have hlow := n.le_toInt
  have hhigh := n.toInt_lt
  have hback := Int64.ofInt_toInt n
  have hsize : UInt64.size = 2 ^ 64 := rfl
  cases hn : n.toInt with
  | ofNat m =>
    rw [hn, Int.ofNat_eq_natCast] at hhigh
    rw [hn] at hback
    have hm : m < UInt64.size / 2 := by omega
    have hfits : m < UInt64.size := by omega
    constructor
    · exact (natBelow_recovers hfits (Nat.le_refl _)).opens
    · intro level blanks rest hblanks hrest
      change signed (blanks ++ ((natural m).render level ++ rest)) = _
      rw [render_natural, signed, bind_of_ok (numeral_append hblanks (by omega) hrest)]
      simp only [if_pos hm]
      rw [show Int64.ofNat m = n from hback]
      rfl
  | negSucc m =>
    rw [hn] at hlow hback
    have hm : m + 1 ≤ UInt64.size / 2 := by
      rw [Int.negSucc_eq] at hlow
      omega
    constructor
    · exact fun level => ⟨'-', _, render_integer_negSucc level m, by decide, by decide⟩
    · intro level blanks rest hblanks hrest
      have hnumeral := @numeral_digits blanks rest true (m + 1) hblanks (by omega) hrest
      have hwhole : wholeNumeral true (m + 1) 0 rest = .ok (.negative (m + 1), rest) := by
        have hfits : ¬UInt64.size / 2 < m + 1 := by omega
        simp [wholeNumeral, hfits]
        rfl
      have hneg : -((m + 1 : Nat) : Int) = Int.negSucc m := rfl
      rw [if_pos rfl, hwhole] at hnumeral
      rw [render_integer_negSucc, signed, bind_of_ok hnumeral]
      simp only
      rw [hneg, hback]
      rfl

end Plain

section Maps

variable {value : Reader Char α} {write : β → Document} {read : β → Except ReadFailure α}

def named (name : String) (o : Except ReadFailure α) : Except ReadFailure (String × α) :=
  o.map fun a => (name, a)

theorem entriesRest_append {level : Nat} {es : List (String × β)}
    (h : ∀ e ∈ es, Gives value (write e.2) (read e.2)) {fuel : List Char}
    (hfuel : es.length < fuel.length) (rest : List Char) :
    entriesRest value fuel (renderFields (level + 1) (es.map fun e => (e.1, write e.2)) ++
        (newLine level ++ '\x7d' :: rest)) =
      (es.mapM fun e => named e.1 (read e.2)).map fun as => (as, rest) := by
  induction es generalizing fuel with
  | nil =>
    obtain _ | ⟨f, fuel⟩ := fuel
    · simp at hfuel
    · rw [entriesRest, List.map_nil, renderFields, List.nil_append,
        bind_of_ok (accept_append (isBlank_newLine level) (by decide))]
      rfl
  | cons e es ih =>
    obtain _ | ⟨f, fuel⟩ := fuel
    · simp at hfuel
    · rw [List.forall_mem_cons] at h
      rw [List.map_cons, renderFields_cons, entriesRest,
        bind_of_ok (accept_cons_other (by decide) (by decide))]
      simp only [Bool.false_eq_true, if_false]
      rw [bind_of_ok (expect_cons (by decide)),
        bind_of_ok (fieldName_append (isBlank_newLine _) e.1 _),
        bind_of_map (h.1.reads (level + 1) (by decide) ended_fields), List.mapM_cons]
      cases read e.2 with
      | error e => rfl
      | ok a =>
        change (entriesRest value fuel >>= fun as => pure ((e.1, a) :: as) :
          Reader Char (List (String × α))) _ = _
        rw [bind_of_map (ih h.2 (Nat.lt_of_succ_lt_succ hfuel))]
        cases es.mapM fun e => named e.1 (read e.2) <;> rfl

/-- A map comes to the values of its entries under their names, or to the first failure. -/
theorem entries_gives {es : List (String × β)} (h : ∀ e ∈ es, Gives value (write e.2) (read e.2)) :
    Gives (entries value) (.record (es.map fun e => (e.1, write e.2)))
      (es.mapM fun e => named e.1 (read e.2)) where
  opens level := by
    cases es with
    | nil => exact ⟨'\x7b', ['\x7d'], rfl, by decide, by decide⟩
    | cons e es => exact ⟨'\x7b', _, rfl, by decide, by decide⟩
  reads level blanks rest hblanks hrest := by
    cases es with
    | nil =>
      change entries value (blanks ++ '\x7b' :: ([] ++ '\x7d' :: rest)) = _
      rw [entries, bind_of_ok (expect_append hblanks (by decide)),
        bind_of_ok (@accept_append [] _ _ rfl (by decide))]
      rfl
    | cons e es =>
      rw [List.forall_mem_cons] at h
      have htail : es.length < (renderFields (level + 1) (es.map fun e => (e.1, write e.2)) ++
          (newLine level ++ '\x7d' :: rest)).length := by
        have hfields := length_le_renderFields (level + 1) (es.map fun e => (e.1, write e.2))
        simp only [List.length_append, List.length_cons, List.length_map] at hfields ⊢
        omega
      rw [List.map_cons, render_record_cons, entries, bind_of_ok (expect_append hblanks (by decide)),
        bind_of_ok (accept_quote (isBlank_newLine _) (by decide) e.1 _)]
      simp only [Bool.false_eq_true, if_false]
      rw [bind_of_ok (fieldName_quote e.1 _),
        bind_of_map (h.1.reads (level + 1) (by decide) ended_fields), List.mapM_cons]
      cases read e.2 with
      | error e => rfl
      | ok a =>
        change (entriesRest value _ >>= fun as => pure ((e.1, a) :: as) :
          Reader Char (List (String × α))) _ = _
        rw [bind_of_map (entriesRest_append h.2 htail rest)]
        cases es.mapM fun e => named e.1 (read e.2) <;> rfl

end Maps

section Tuples

namespace Fields

variable {name : String} {value : Reader Char α} {fs : Fields β} {d : Document}
  {o : Except ReadFailure α} {ds : List (String × Document)} {o' : Except ReadFailure β}

theorem readInOrder_comma (s : List Char) :
    (Fields.field name value fs).readInOrder true (',' :: s) =
      (Fields.field name value fs).readInOrder false s := by
  rw [readInOrder, if_pos rfl, bind_of_ok (expect_cons (by decide))]
  rfl

/-- A first field before fields that are read. -/
theorem readInOrder_field {level : Nat} {rest : List Char} (hvalue : Document.Gives value d o)
    (hrest : fs.readInOrder true
        (renderItems (level + 1) (ds.map Prod.snd) ++ (newLine level ++ ']' :: rest)) =
      o'.map fun b => (b, newLine level ++ ']' :: rest)) :
    (Fields.field name value fs).readInOrder false (newLine (level + 1) ++ (d.render (level + 1) ++
        (renderItems (level + 1) (ds.map Prod.snd) ++ (newLine level ++ ']' :: rest)))) =
      (o.bind fun a => o'.map fun b => (a, b)).map fun x => (x, newLine level ++ ']' :: rest) := by
  change (value >>= fun a => (fs.readInOrder true >>= fun b => pure (a, b)) : Reader Char (α × β)) _ = _
  rw [bind_of_map (hvalue.reads (level + 1) (isBlank_newLine _) ended_items)]
  cases o with
  | error e => rfl
  | ok a =>
    change (fs.readInOrder true >>= fun b => pure (a, b) : Reader Char (α × β)) _ = _
    rw [bind_of_map hrest]
    cases o' <;> rfl

theorem readInOrder_append {τ : Type} {fs : Fields τ} {ds : List (String × Document)}
    {o : Except ReadFailure τ} (h : fs.Gives ds o) (level : Nat) (rest : List Char) :
    fs.readInOrder true (renderItems (level + 1) (ds.map Prod.snd) ++ (newLine level ++ ']' :: rest)) =
      o.map fun a => (a, newLine level ++ ']' :: rest) := by
  induction h with
  | done => rfl
  | @field α β name value fs d o ds o' hvalue _ ih =>
    have htext : renderItems (level + 1) (((name, d) :: ds).map Prod.snd) ++
        (newLine level ++ ']' :: rest) =
        ',' :: (newLine (level + 1) ++ (d.render (level + 1) ++
          (renderItems (level + 1) (ds.map Prod.snd) ++ (newLine level ++ ']' :: rest)))) := by
      simp [renderItems]
    rw [htext, readInOrder_comma, readInOrder_field hvalue ih]

/-- The fields of a record are read from a list of their values. -/
theorem Gives.tuple {τ : Type} {fs : Fields τ} {ds : List (String × Document)}
    {o : Except ReadFailure τ} (h : fs.Gives ds o) (hne : ds ≠ []) :
    Document.Gives fs.readTuple (.list (ds.map Prod.snd)) o := by
  cases h with
  | done => exact absurd rfl hne
  | @field α β name value fs d o ds o' hvalue hrest =>
    constructor
    · exact fun level => ⟨'[', _, rfl, by decide, by decide⟩
    · intro level blanks rest hblanks _
      have htext : (Document.list (((name, d) :: ds).map Prod.snd)).render level ++ rest =
          '[' :: (newLine (level + 1) ++ (d.render (level + 1) ++
            (renderItems (level + 1) (ds.map Prod.snd) ++ (newLine level ++ ']' :: rest)))) := by
        simp [render]
      rw [htext, readTuple, bind_of_ok (expect_append hblanks (by decide)),
        bind_of_map (readInOrder_field hvalue (readInOrder_append hrest level rest))]
      cases o.bind fun a => o'.map fun b => (a, b) with
      | error e => rfl
      | ok a =>
        change (expect ']' >>= fun _ => pure a : Reader Char _) _ = _
        rw [bind_of_ok (expect_append (isBlank_newLine level) (by decide))]
        rfl

end Fields

end Tuples

section Lossy

variable {r item value : Reader Char α} {d : Document} {a : α} {P P' R R' : Prop}

/-- What is read is a value exactly if `R` holds, and the value that was written exactly if `P` does. -/
def Conveys (r : Reader Char α) (d : Document) (a : α) (P R : Prop) : Prop :=
  ∃ x : Option α, Gives r d (found x) ∧ (x = some a ↔ P) ∧ (x.isSome = true ↔ R)

theorem Recovers.conveys (h : Recovers r d a) : Conveys r d a True True :=
  ⟨some a, h, iff_of_true rfl trivial, iff_of_true rfl trivial⟩

namespace Conveys

theorem congr (h : Conveys r d a P R) (hP : P ↔ P') (hR : R ↔ R') : Conveys r d a P' R' := by
  rwa [← hP, ← hR]

theorem readAll_pretty (h : Conveys r d a P R) :
    (readAll r d.pretty = .ok a ↔ P) ∧ (readAll r d.pretty = .error .malformed ↔ ¬R) := by
  obtain ⟨x, hgives, hP, hR⟩ := h
  rw [Document.readAll_pretty hgives, ← hP, ← hR]
  cases x <;> simp [found]

/-- What is made of a value loses nothing of it. -/
theorem map {f : α → Reader Char β} {g : α → β} (h : Conveys r d a P R)
    (hf : ∀ y, f y = pure (g y)) (hg : ∀ y, g y = g a → y = a) :
    Conveys (r >>= f) d (g a) P R := by
  obtain ⟨x, hgives, hP, hR⟩ := h
  refine ⟨x.map g, ?_, ?_, ?_⟩
  · have hmap := hgives.map hf
    cases x <;> exact hmap
  · rw [← hP, Option.map_eq_some_iff]
    exact ⟨fun ⟨y, hy, h⟩ => hg y h ▸ hy, fun h => ⟨a, h, rfl⟩⟩
  · rw [Option.isSome_map, hR]

end Conveys

section Traversal

variable {f : β → Option α} {bs : List β}

theorem mapM_found : (bs.mapM fun b => found (f b)) = found (bs.mapM f) := by
  induction bs with
  | nil => rfl
  | cons b bs ih =>
    rw [List.mapM_cons, List.mapM_cons, ih]
    cases f b with
    | none => rfl
    | some a => cases bs.mapM f <;> rfl

theorem mapM_eq_some_iff {g : β → α} :
    bs.mapM f = some (bs.map g) ↔ ∀ b ∈ bs, f b = some (g b) := by
  induction bs with
  | nil => exact iff_of_true rfl nofun
  | cons b bs ih =>
    rw [List.mapM_cons, List.forall_mem_cons, ← ih]
    cases f b with
    | none => simp
    | some a => cases bs.mapM f <;> simp

theorem isSome_mapM_iff : (bs.mapM f).isSome = true ↔ ∀ b ∈ bs, (f b).isSome = true := by
  induction bs with
  | nil => exact iff_of_true rfl nofun
  | cons b bs ih =>
    rw [List.mapM_cons, List.forall_mem_cons, ← ih]
    cases f b with
    | none => simp
    | some a => cases bs.mapM f <;> simp

end Traversal

theorem items_conveys {write : β → Document} {read : β → α} {P R : β → Prop} {bs : List β}
    (h : ∀ b ∈ bs, Conveys item (write b) (read b) (P b) (R b)) :
    Conveys (items item) (.list (bs.map write)) (bs.map read) (∀ b ∈ bs, P b) (∀ b ∈ bs, R b) := by
  choose! x hgives hP hR using h
  refine ⟨bs.mapM x, ?_, ?_, ?_⟩
  · exact mapM_found ▸ items_gives hgives
  · rw [mapM_eq_some_iff]
    exact forall₂_congr hP
  · rw [isSome_mapM_iff]
    exact forall₂_congr hR

/-- Entries keep their names. -/
theorem map_fst_of_mapM {f : β → Option α} {es : List (String × β)} {as : List (String × α)}
    (h : (es.mapM fun e => (f e.2).map fun a => (e.1, a)) = some as) :
    as.map Prod.fst = es.map Prod.fst := by
  induction es generalizing as with
  | nil =>
    cases h
    rfl
  | cons e es ih =>
    rw [List.mapM_cons] at h
    obtain ⟨a, ha, h⟩ := Option.bind_eq_some_iff.1 h
    obtain ⟨as', has', h⟩ := Option.bind_eq_some_iff.1 h
    obtain ⟨b, -, rfl⟩ := Option.map_eq_some_iff.1 ha
    cases h
    rw [List.map_cons, List.map_cons, ih has']

/-- A sorted map comes back as its values do. -/
theorem orderedMap_conveys {write : α → Document} {P R : α → Prop} {m : OrderedMap String α}
    (h : ∀ a ∈ m.values, Conveys value (write a) a (P a) (R a)) :
    Conveys (do pure (.ofList (← entries value))) (.record (m.entries.map fun e => (e.1, write e.2))) m
      (∀ a ∈ m.values, P a) (∀ a ∈ m.values, R a) := by
  choose! x hgives hP hR using h
  have hmem : ∀ e ∈ m.entries, e.2 ∈ m.values := fun e he => List.mem_map.2 ⟨e, he, rfl⟩
  have hentries : Gives (entries value) (.record (m.entries.map fun e => (e.1, write e.2)))
      (m.entries.mapM fun e => named e.1 (found (x e.2))) :=
    @entries_gives α α value write (fun a => found (x a)) _ fun e he => hgives e.2 (hmem e he)
  have hnamed : ∀ e : String × α, named e.1 (found (x e.2)) = found ((x e.2).map fun a => (e.1, a)) :=
    fun e => by cases x e.2 <;> rfl
  simp only [hnamed] at hentries
  rw [mapM_found] at hentries
  have hsame : (m.entries.mapM fun e => (x e.2).map fun a => (e.1, a)) = some m.entries ↔
      ∀ a ∈ m.values, P a := by
    have hid : (m.entries.mapM fun e => (x e.2).map fun a => (e.1, a)) = some (m.entries.map id) ↔
        ∀ e ∈ m.entries, ((x e.2).map fun a => (e.1, a)) = some e := mapM_eq_some_iff
    rw [List.map_id] at hid
    rw [hid, OrderedMap.values, List.forall_mem_map]
    refine forall₂_congr fun e he => ?_
    rw [← hP e.2 (hmem e he)]
    cases x e.2 <;> simp [Prod.ext_iff]
  have hsome : (m.entries.mapM fun e => (x e.2).map fun a => (e.1, a)).isSome = true ↔
      ∀ a ∈ m.values, R a := by
    rw [isSome_mapM_iff, OrderedMap.values, List.forall_mem_map]
    refine forall₂_congr fun e he => ?_
    rw [Option.isSome_map, hR e.2 (hmem e he)]
  rw [← hsame, ← hsome]
  generalize hes : (m.entries.mapM fun e => (x e.2).map fun a => (e.1, a)) = es at hentries ⊢
  refine ⟨es.map .ofList, ?_, ?_, by rw [Option.isSome_map]⟩
  · have hmap := hentries.map (f := fun as => pure (OrderedMap.ofList as)) (g := .ofList) fun _ => rfl
    cases es <;> exact hmap
  · -- The names that were written are sorted, so that no entry takes the place of another one.
    constructor
    · intro h
      obtain ⟨as, rfl, hm⟩ := Option.map_eq_some_iff.1 h
      have hsorted : as.Pairwise fun a b => compare a.1 b.1 = .lt := by
        rw [← List.pairwise_map (f := Prod.fst) (R := fun a b : String => compare a b = .lt),
          map_fst_of_mapM hes]
        exact List.pairwise_map.2 m.sorted
      rw [← hm, OrderedMap.entries_ofList hsorted]
    · rintro rfl
      rw [Option.map_some, OrderedMap.ofList_entries]

namespace Fields

/-- What the fields come to is made of values exactly if `R` holds, and of what was written exactly if
`P` does. -/
def Conveys {τ : Type} (fs : Fields τ) (ds : List (String × Document)) (a : τ) (P R : Prop) : Prop :=
  ∃ x : Option τ, fs.Gives ds (found x) ∧ (x = some a ↔ P) ∧ (x.isSome = true ↔ R)

namespace Conveys

variable {name : String} {fs : Fields β} {ds : List (String × Document)} {b : β}

theorem done : Conveys .done [] () True True :=
  ⟨some (), .done, iff_of_true rfl trivial, iff_of_true rfl trivial⟩

theorem field (hvalue : Document.Conveys value d a P R) (hrest : fs.Conveys ds b P' R') :
    Conveys (.field name value fs) ((name, d) :: ds) (a, b) (P ∧ P') (R ∧ R') := by
  obtain ⟨x, hgives, hP, hR⟩ := hvalue
  obtain ⟨y, hgives', hP', hR'⟩ := hrest
  refine ⟨x.bind fun a => y.map fun b => (a, b), ?_, ?_, ?_⟩
  · have hboth : Gives (.field name value fs) _ _ := .field hgives hgives'
    cases x with
    | none => exact hboth
    | some a => cases y <;> exact hboth
  · rw [← hP, ← hP']
    cases x <;> cases y <;> simp
  · rw [← hR, ← hR']
    cases x <;> cases y <;> simp

/-- A field of which nothing is lost. -/
theorem plain (hvalue : Document.Recovers value d a) (hrest : fs.Conveys ds b P' R') :
    Conveys (.field name value fs) ((name, d) :: ds) (a, b) P' R' := by
  have hfield : Conveys (.field name value fs) _ _ _ _ := field hvalue.conveys hrest
  rwa [true_and, true_and] at hfield

theorem made {f : β → Reader Char α} {g : β → α} (h : fs.Conveys ds b P R)
    (hnodup : (ds.map Prod.fst).Nodup) (hne : ds ≠ []) (hf : ∀ y, f y = pure (g y))
    (hg : ∀ y, g y = g b → y = b) : Document.Conveys (fs.read >>= f) (.record ds) (g b) P R := by
  obtain ⟨x, hgives, hx⟩ := h
  exact Document.Conveys.map ⟨x, Gives.record hgives hnodup hne, hx⟩ hf hg

end Conveys

end Fields

theorem variant_tagged_conveys {bare : List (String × α)} {tagged : List (String × Reader Char α)}
    {name : String} (hbare : bare.lookup name = none) (htagged : tagged.lookup name = some value)
    (h : Conveys value d a P R) : Conveys (variant bare tagged) (.tagged name d) a P R := by
  obtain ⟨x, hgives, hx⟩ := h
  exact ⟨x, variant_tagged_gives hbare htagged hgives, hx⟩

end Lossy

end TangledPrograms.Document
