import TangledPrograms.Addressing.Window
import TangledPrograms.Identifier
import Mathlib.Data.List.Forall2
import Mathlib.Tactic.Ring

/-!
# Coordinates and places

A coordinate that lies within a shape has its place in a block of that shape, the last axis running
fastest. Wrapping a coordinate puts it within the shape. A window holds the places of its anchor moved
by every offset within a cube, in the order of the offsets; all sums and products are those of words,
so that the window is the one meant only where none of them exceeds a word.

Numbers are not bounded, but the counters, lengths and positions that they stand for are words of 64
bits. As long as they fit, they count and multiply as words do; `lowWord` is what a word keeps of a
number that does not fit.
-/

namespace TangledPrograms

/-- A word holds the number. -/
abbrev FitsWord (n : Nat) : Prop := n < 2 ^ 64

def Id.Fits {k : Kind} (a : Id k) : Prop := FitsWord a.index

def IdCounters.Fits (c : IdCounters) : Prop :=
  FitsWord c.nextProgram ∧ FitsWord c.nextLearner ∧ FitsWord c.nextTeam

theorem lowWord_of_lt {n : Nat} (h : n < UInt64.size) : lowWord n = n := Nat.mod_eq_of_lt h

theorem lowWord_lt (n : Nat) : lowWord n < UInt64.size := Nat.mod_lt _ (by decide)

theorem lowWord_le (n : Nat) : lowWord n ≤ n := Nat.mod_le n _

/-- What a sum has lost before a product and a sum is lost after them. -/
theorem lowWord_mul_add (n a b : Nat) : lowWord (lowWord n * a + b) = lowWord (n * a + b) := by
  simp only [lowWord, Nat.add_mod, Nat.mul_mod, Nat.mod_mod]

/-- Pieces of equal length, one after the other, are read by piece and place in it. -/
theorem getElem?_flatMap {α β : Type} {f : α → List β} {m : Nat} :
    ∀ {l : List α}, (∀ a ∈ l, (f a).length = m) → ∀ {i j : Nat}, j < m →
      (l.flatMap f)[i * m + j]? = l[i]?.bind fun a => (f a)[j]?
  | [], _, i, j, _ => by simp
  | a :: l, h, 0, j, hj => by
    have ha := h a List.mem_cons_self
    rw [List.flatMap_cons, List.getElem?_append_left (by omega)]
    simp
  | a :: l, h, i + 1, j, hj => by
    have ha := h a List.mem_cons_self
    have hplace : (i + 1) * m + j = (f a).length + (i * m + j) := by
      rw [ha, Nat.succ_mul]
      omega
    rw [List.flatMap_cons, hplace, List.getElem?_append_right (Nat.le_add_right _ _),
      Nat.add_sub_cancel_left, getElem?_flatMap (fun b hb => h b (List.mem_cons_of_mem _ hb)) hj,
      List.getElem?_cons_succ]

theorem length_flatMap_const {α β : Type} {f : α → List β} {m : Nat} {l : List α}
    (h : ∀ a ∈ l, (f a).length = m) : (l.flatMap f).length = l.length * m := by
  induction l with
  | nil => simp
  | cons a l ih =>
    rw [List.flatMap_cons, List.length_append, h a List.mem_cons_self,
      ih fun b hb => h b (List.mem_cons_of_mem _ hb), List.length_cons, Nat.succ_mul, Nat.add_comm]

theorem forall_mem_of_forall₂ {α β : Type} {P : β → Prop} {xs : List α} {ys : List β}
    (h : List.Forall₂ (fun _ y => P y) xs ys) : ∀ y ∈ ys, P y := by
  induction h with
  | nil => exact nofun
  | cons hy _ ih => exact List.forall_mem_cons.2 ⟨hy, ih⟩

/-- The place of a coordinate in a block of the given shape, the last axis fastest. -/
def place : List Nat → List Nat → Nat
  | _ :: shape, c :: coords => c * volume shape + place shape coords
  | _, _ => 0

/-- The coordinate has as many axes as the shape and lies below the length of each. -/
abbrev Within (shape coords : List Nat) : Prop := List.Forall₂ (· < ·) coords shape

def wrap (shape coords : List Nat) : List Nat := List.zipWith (· % ·) coords shape

def moved (anchor offset : List Nat) : List Nat := List.zipWith (· + ·) anchor offset

def movedWord (anchor offset : List Nat) : List Nat := (moved anchor offset).map lowWord

/-- Where no coordinate exceeds a word, nothing is lost. -/
theorem movedWord_eq {anchor offset : List Nat} (h : ∀ c ∈ moved anchor offset, c < UInt64.size) :
    movedWord anchor offset = moved anchor offset :=
  (List.map_congr_left fun c hc => lowWord_of_lt (h c hc)).trans (List.map_id _)

/-- A moved coordinate is a coordinate of the anchor and one of the offset. -/
theorem exists_of_mem_moved {anchor offset : List Nat} {c : Nat} (h : c ∈ moved anchor offset) :
    ∃ a ∈ anchor, ∃ o ∈ offset, a + o = c := by
  rw [moved, ← List.map_uncurry_zip_eq_zipWith] at h
  obtain ⟨⟨a, o⟩, hpair, rfl⟩ := List.mem_map.1 h
  obtain ⟨ha, ho⟩ := List.of_mem_zip hpair
  exact ⟨a, ha, o, ho, rfl⟩

theorem volume_cons (d : Nat) (shape : List Nat) : volume (d :: shape) = d * volume shape := rfl

theorem volume_replicate (n d : Nat) : volume (List.replicate n d) = d ^ n := by
  induction n with
  | zero => rfl
  | succ n ih =>
    rw [List.replicate_succ, volume_cons, ih, Nat.pow_succ]
    ring

theorem place_lt {shape coords : List Nat} (h : Within shape coords) :
    place shape coords < volume shape := by
  induction h with
  | nil => exact Nat.one_pos
  | @cons c d coords shape hc _ ih =>
    calc c * volume shape + place shape coords < c * volume shape + volume shape :=
          Nat.add_lt_add_left ih _
      _ = (c + 1) * volume shape := (Nat.succ_mul _ _).symm
      _ ≤ d * volume shape := Nat.mul_le_mul_right _ hc

theorem within_wrap {shape coords : List Nat} (hlength : coords.length = shape.length)
    (hpos : ∀ d ∈ shape, 0 < d) : Within shape (wrap shape coords) := by
  induction shape generalizing coords with
  | nil =>
    rw [List.length_eq_zero_iff.1 hlength]
    exact .nil
  | cons d shape ih =>
    cases coords with
    | nil => simp at hlength
    | cons c coords =>
      have hrest := ih (Nat.succ.inj hlength) fun e he => hpos e (List.mem_cons_of_mem _ he)
      exact .cons (Nat.mod_lt _ (hpos d List.mem_cons_self)) hrest

theorem place_inj {shape x y : List Nat} (hx : Within shape x) (hy : Within shape y)
    (h : place shape x = place shape y) : x = y := by
  induction hx generalizing y with
  | nil =>
    cases hy
    rfl
  | @cons c d x shape hc hx ih =>
    obtain _ | @⟨e, _, y, _, he, hy⟩ := hy
    have hlow := place_lt hx
    have hlow' := place_lt hy
    have hhigh : ∀ n p, p < volume shape → (n * volume shape + p) / volume shape = n := by
      intro n p hp
      rw [Nat.mul_comm, Nat.mul_add_div (by omega), Nat.div_eq_of_lt hp, Nat.add_zero]
    have hce : c = e := by
      rw [← hhigh c _ hlow, ← hhigh e _ hlow']
      exact congrArg (· / volume shape) h
    subst hce
    rw [ih hy (Nat.add_left_cancel h)]

def coordinates : List Nat → Nat → List Nat
  | [], _ => []
  | _ :: shape, p => p / volume shape :: coordinates shape (p % volume shape)

theorem within_coordinates {shape : List Nat} {p : Nat} (h : p < volume shape) :
    Within shape (coordinates shape p) := by
  induction shape generalizing p with
  | nil => exact .nil
  | cons d shape ih =>
    rw [volume_cons] at h
    have hrest : 0 < volume shape := Nat.pos_of_mul_pos_left (Nat.zero_lt_of_lt h)
    exact .cons (Nat.div_lt_of_lt_mul (Nat.mul_comm d _ ▸ h)) (ih (Nat.mod_lt _ hrest))

theorem place_coordinates {shape : List Nat} {p : Nat} (h : p < volume shape) :
    place shape (coordinates shape p) = p := by
  induction shape generalizing p with
  | nil => exact (Nat.lt_one_iff.1 h).symm
  | cons d shape ih =>
    rw [volume_cons] at h
    have hrest : 0 < volume shape := Nat.pos_of_mul_pos_left (Nat.zero_lt_of_lt h)
    rw [coordinates, place, ih (Nat.mod_lt _ hrest)]
    exact Nat.div_add_mod' ..

theorem volume_concat (shape : List Nat) (d : Nat) : volume (shape ++ [d]) = volume shape * d := by
  induction shape with
  | nil => simp [volume]
  | cons e shape ih => rw [List.cons_append, volume_cons, volume_cons, ih, Nat.mul_assoc]

/-- The last axis is the fastest. -/
theorem place_concat {shape coords : List Nat} (d c : Nat) (h : coords.length = shape.length) :
    place (shape ++ [d]) (coords ++ [c]) = place shape coords * d + c := by
  induction shape generalizing coords with
  | nil =>
    rw [List.length_eq_zero_iff.1 h]
    simp [place, volume]
  | cons e shape ih =>
    obtain _ | ⟨b, coords⟩ := coords
    · simp at h
    · rw [List.cons_append, List.cons_append, place, place, volume_concat, ih (Nat.succ.inj h)]
      ring

/-- A coordinate within the shape is not changed by wrapping. -/
theorem wrap_eq_self {shape coords : List Nat} (h : Within shape coords) :
    wrap shape coords = coords := by
  induction h with
  | nil => rfl
  | @cons c d coords shape hc _ ih =>
    have hrest : wrap (d :: shape) (c :: coords) = c % d :: wrap shape coords := rfl
    rw [hrest, Nat.mod_eq_of_lt hc, ih]

/-- An anchor is the point of its window without offset. -/
theorem moved_zero (anchor : List Nat) :
    moved anchor (List.replicate anchor.length 0) = anchor := by
  induction anchor with
  | nil => rfl
  | cons c anchor ih => exact congrArg (c :: ·) ih

theorem Within.exists_of_mem {shape coords : List Nat} (h : Within shape coords) {c : Nat}
    (hc : c ∈ coords) : ∃ d ∈ shape, c < d := by
  obtain ⟨i, hi, rfl⟩ := List.getElem_of_mem hc
  have hi' : i < shape.length := h.length_eq ▸ hi
  exact ⟨shape[i], List.getElem_mem hi', h.get hi hi'⟩

theorem within_replicate {d : Nat} (hd : 0 < d) :
    ∀ n, Within (List.replicate n d) (List.replicate n 0)
  | 0 => .nil
  | n + 1 => .cons hd (within_replicate hd n)

theorem within_replicate_iff {n d : Nat} {x : List Nat} :
    Within (List.replicate n d) x ↔ x.length = n ∧ ∀ c ∈ x, c < d := by
  constructor
  · intro h
    refine ⟨by simpa using h.length_eq, ?_⟩
    generalize hs : List.replicate n d = shape at h
    have hall : ∀ e ∈ shape, e = d := fun e he => List.eq_of_mem_replicate (hs ▸ he)
    clear hs
    induction h with
    | nil => exact nofun
    | @cons c e x shape hc _ ih =>
      rw [List.forall_mem_cons] at hall ⊢
      exact ⟨hall.1 ▸ hc, ih hall.2⟩
  · rintro ⟨rfl, h⟩
    induction x with
    | nil => exact .nil
    | cons c x ih =>
      rw [List.forall_mem_cons] at h
      exact .cons h.1 (ih h.2)

theorem place_zero (shape : List Nat) : ∀ n, place shape (List.replicate n 0) = 0
  | 0 => by cases shape <;> rfl
  | n + 1 => by
    cases shape with
    | nil => rfl
    | cons d shape => rw [List.replicate_succ, place, place_zero shape n, Nat.zero_mul]

namespace Window

theorem length_expandFrom (kernel before : Nat) (axes : List (Nat × Nat)) :
    (expandFrom kernel before axes).length = kernel ^ axes.length := by
  induction axes generalizing before with
  | nil => rfl
  | cons axis axes ih =>
    rw [expandFrom, length_flatMap_const fun o _ => ih _, List.length_range, List.length_cons,
      Nat.pow_succ, Nat.mul_comm]

/-- The entry of an offset is the place of the anchor moved by it, all in words. -/
theorem getElem?_expandFrom {kernel : Nat} {shape anchor offset : List Nat} {before : Nat}
    (hbefore : before < UInt64.size) (hlength : anchor.length = shape.length)
    (h : Within (List.replicate shape.length kernel) offset) :
    (expandFrom kernel before (anchor.zip shape))[place (List.replicate shape.length kernel) offset]? =
      some (lowWord (before * volume shape + place shape (wrap shape (movedWord anchor offset)))) := by
  induction shape generalizing before anchor offset with
  | nil =>
    rw [List.length_eq_zero_iff.1 hlength]
    cases h
    simp [expandFrom, place, volume, lowWord_of_lt hbefore]
  | cons d shape ih =>
    obtain _ | ⟨a, anchor⟩ := anchor
    · simp at hlength
    · have hrest : anchor.length = shape.length := Nat.succ.inj hlength
      rw [List.length_cons, List.replicate_succ] at h ⊢
      obtain _ | @⟨o, _, offset, _, ho, hoffset⟩ := h
      have hsize : ∀ o ∈ List.range kernel,
          (expandFrom kernel (lowWord (before * d + lowWord (a + o) % d)) (anchor.zip shape)).length =
            kernel ^ shape.length := by
        intro o _
        rw [length_expandFrom, List.length_zip, hrest, Nat.min_self]
      have hplace : place (List.replicate shape.length kernel) offset < kernel ^ shape.length := by
        rw [← volume_replicate]
        exact place_lt hoffset
      have hsum : movedWord (a :: anchor) (o :: offset) =
        lowWord (a + o) :: movedWord anchor offset := rfl
      rw [List.zip_cons_cons, expandFrom, place, volume_replicate, getElem?_flatMap hsize hplace,
        List.getElem?_range ho, Option.bind_some, ih (lowWord_lt _) hrest hoffset, lowWord_mul_add,
        hsum]
      simp only [wrap, List.zipWith_cons_cons, place, volume_cons]
      congr 2
      ring

theorem lt_of_mem_expandFrom {kernel p : Nat} {axes : List (Nat × Nat)} (before : Nat)
    (hpos : ∀ axis ∈ axes, 0 < axis.2) (hp : p ∈ expandFrom kernel before axes) :
    p < (before + 1) * volume (axes.map Prod.snd) := by
  induction axes generalizing before with
  | nil =>
    rw [expandFrom, List.mem_singleton] at hp
    simp [hp, volume]
  | cons axis axes ih =>
    obtain ⟨a, d⟩ := axis
    rw [List.forall_mem_cons] at hpos
    rw [expandFrom, List.mem_flatMap] at hp
    obtain ⟨o, -, hp⟩ := hp
    have hmod : lowWord (a + o) % d < d := Nat.mod_lt _ hpos.1
    have hword := lowWord_le (before * d + lowWord (a + o) % d)
    calc p < (lowWord (before * d + lowWord (a + o) % d) + 1) * volume (axes.map Prod.snd) :=
          ih _ hpos.2 hp
      _ ≤ (before * d + d) * volume (axes.map Prod.snd) := Nat.mul_le_mul_right _ (by omega)
      _ = (before + 1) * volume (((a, d) :: axes).map Prod.snd) := by
        rw [List.map_cons, volume_cons]
        ring

theorem expand_eq {kernel : Nat} {anchor shape : List Nat} (hlength : anchor.length = shape.length)
    (hshape : shape ≠ []) : expand kernel anchor shape = expandFrom kernel 0 (anchor.zip shape) := by
  obtain _ | ⟨d, shape⟩ := shape
  · exact absurd rfl hshape
  · obtain _ | ⟨a, anchor⟩ := anchor
    · simp at hlength
    · rfl

theorem length_expand {kernel : Nat} {anchor shape : List Nat}
    (hlength : anchor.length = shape.length) (hshape : shape ≠ []) :
    (expand kernel anchor shape).length = kernel ^ shape.length := by
  rw [expand_eq hlength hshape, length_expandFrom, List.length_zip, hlength, Nat.min_self]

theorem lt_of_mem_expand {kernel p : Nat} {anchor shape : List Nat}
    (hlength : anchor.length = shape.length) (hshape : shape ≠ []) (hpos : ∀ d ∈ shape, 0 < d)
    (hp : p ∈ expand kernel anchor shape) : p < volume shape := by
  rw [expand_eq hlength hshape] at hp
  have hlt := lt_of_mem_expandFrom 0 (fun axis haxis => hpos _ (List.of_mem_zip haxis).2) hp
  rwa [List.map_snd_zip hlength.ge, Nat.zero_add, Nat.one_mul] at hlt

/-- No sum and no product on the way to the positions of a window exceeds a word. -/
structure InWords (kernel : Nat) (anchor shape : List Nat) : Prop where
  sum : ∀ a ∈ anchor, a + kernel ≤ UInt64.size
  volume : volume shape ≤ UInt64.size

section offset

variable {kernel : Nat} {anchor shape offset : List Nat}

theorem getElem?_expand (hlength : anchor.length = shape.length) (hshape : shape ≠ [])
    (h : Within (List.replicate shape.length kernel) offset) :
    (expand kernel anchor shape)[place (List.replicate shape.length kernel) offset]? =
      some (lowWord (place shape (wrap shape (movedWord anchor offset)))) := by
  rw [expand_eq hlength hshape, getElem?_expandFrom (by decide) hlength h, Nat.zero_mul,
    Nat.zero_add]

theorem InWords.moved_lt (hwords : InWords kernel anchor shape) {n : Nat}
    (h : Within (List.replicate n kernel) offset) : ∀ c ∈ moved anchor offset, c < UInt64.size := by
  intro c hc
  obtain ⟨a, ha, o, ho, rfl⟩ := exists_of_mem_moved hc
  have hsum := hwords.sum a ha
  have hoffset := (within_replicate_iff.1 h).2 o ho
  omega

/-- Where no word is exceeded, a window has the place of its anchor moved by each offset. -/
theorem InWords.getElem?_expand (hwords : InWords kernel anchor shape)
    (hlength : anchor.length = shape.length) (hshape : shape ≠ []) (hpos : ∀ d ∈ shape, 0 < d)
    (h : Within (List.replicate shape.length kernel) offset) :
    (expand kernel anchor shape)[place (List.replicate shape.length kernel) offset]? =
      some (place shape (wrap shape (moved anchor offset))) := by
  have hcoords : (moved anchor offset).length = shape.length := by
    have hoffset := (within_replicate_iff.1 h).1
    rw [moved, List.length_zipWith, hlength, hoffset, Nat.min_self]
  have hplace := place_lt (within_wrap hcoords hpos)
  rw [Window.getElem?_expand hlength hshape h, movedWord_eq (hwords.moved_lt h),
    lowWord_of_lt (hplace.trans_le hwords.volume)]

end offset

end Window

end TangledPrograms
