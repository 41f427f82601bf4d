import TangledPrograms.Proofs.Addressing
import TangledPrograms.Proofs.Coordinates
import TangledPrograms.Proofs.Snapshot.Documents

/-!
# What strategies show of observations

A window shows the entries of an observation at its anchor moved by every offset, each axis wrapped to
the observation's own length. It does so for the shape that its positions are stored for as for any
other, and it does so still when it has been moved, saved and loaded.
-/

namespace TangledPrograms

open Draw

namespace Observation

variable {o : Observation}

def entry? (o : Observation) (coords : List Nat) : Option Float := o.values[place o.shape coords]?

theorem getElem?_wrapped {p : Nat} (h : p < o.values.size) : o.values[p]? = some (o.wrapped p) := by
  simp only [wrapped, Nat.mod_eq_of_lt h]
  exact Array.getElem?_eq_getElem h

theorem entry?_eq_wrapped {coords : List Nat} (h : Within o.shape coords) :
    o.entry? coords = some (o.wrapped (place o.shape coords)) :=
  getElem?_wrapped (o.volume_shape ▸ place_lt h)

theorem ext {o o' : Observation} (hvalues : o.values = o'.values) (hshape : o.shape = o'.shape) :
    o = o' := by
  cases o
  cases o'
  cases hvalues
  cases hshape
  rfl

/-- Positions that a shape describes are gathered. -/
theorem gather?_eq_some {positions shape : List Nat} (hpositions : positions ≠ [])
    (hshape : shape ≠ []) (hpos : ∀ d ∈ shape, 0 < d) (hvolume : volume shape = positions.length) :
    ∃ v, o.gather? positions shape = some v ∧ v.shape = shape ∧
      v.values = (positions.map o.wrapped).toArray := by
  have hvalues : ¬ (positions.map o.wrapped).toArray.isEmpty = true := by simpa using hpositions
  have haxes : ¬ (shape = [] ∨ 0 ∈ shape) := by
    rintro (h | h)
    · exact hshape h
    · exact absurd (hpos 0 h) (Nat.lt_irrefl 0)
  have hcount : volume shape = (positions.map o.wrapped).toArray.size := by simpa using hvolume
  simp only [gather?, make, if_neg hvalues, dif_neg haxes, dif_pos hcount]
  exact ⟨_, rfl, rfl, rfl⟩

end Observation

namespace Window

theorem expand?_eq_ok {kernel : Nat} {anchor shape positions : List Nat}
    (h : expand? kernel anchor shape = .ok positions) : expand kernel anchor shape = positions := by
  simp only [expand?] at h
  split at h
  · cases h
  · exact Except.ok.inj h

theorem length_moveAnchor (anchor : List Nat) (shift : List Int) (shape : List Nat) :
    (moveAnchor anchor shift shape).length = anchor.length := by
  induction anchor generalizing shift shape with
  | nil => rfl
  | cons c anchor ih =>
    rcases shift with _ | ⟨s, shift⟩
    · rfl
    · rcases shape with _ | ⟨d, shape⟩
      · rfl
      · rw [moveAnchor, List.length_cons, List.length_cons, ih]

/-- A moved coordinate is at most half a word: it is a remainder of division by a signed one. -/
theorem moveCoordinate_lt_half (coordinate : Nat) (shift : Int) {length : Nat}
    (h : FitsWord length) : moveCoordinate coordinate shift length < 2 ^ 63 := by
  have hnonzero : signedWord (max length 1) ≠ 0 := by
    intro hzero
    have hdvd := Int.dvd_of_bmod_eq_zero hzero
    have hle := Int.le_of_dvd (by omega) hdvd
    have hlt : max length 1 < 2 ^ 64 := by
      have : length < 2 ^ 64 := h
      omega
    simp only [UInt64.size] at hle
    omega
  have hlow : -(2 ^ 63 : Int) ≤ signedWord (max length 1) :=
    Int.le_bmod (m := UInt64.size) (by decide)
  have hhigh : signedWord (max length 1) < 2 ^ 63 := Int.bmod_lt (m := UInt64.size) (by decide)
  have hmod := Int.emod_lt_abs (Int.bmod (signedWord coordinate + shift) UInt64.size) hnonzero
  have habs : |signedWord (max length 1)| ≤ 2 ^ 63 := abs_le.2 ⟨hlow, hhigh.le⟩
  rw [moveCoordinate]
  omega

/-- A coordinate of a moved anchor has been moved, or it was there before. -/
theorem mem_moveAnchor {anchor : List Nat} {shift : List Int} {shape : List Nat} {c : Nat}
    (hs : ∀ d ∈ shape, FitsWord d) (hc : c ∈ moveAnchor anchor shift shape) :
    c < 2 ^ 63 ∨ c ∈ anchor := by
  induction anchor generalizing shift shape with
  | nil => simp [moveAnchor] at hc
  | cons a anchor ih =>
    rcases shift with _ | ⟨s, shift⟩
    · exact .inr hc
    · rcases shape with _ | ⟨d, shape⟩
      · exact .inr hc
      · rw [List.forall_mem_cons] at hs
        rw [moveAnchor, List.mem_cons] at hc
        obtain hc | hc := hc
        · exact .inl (hc ▸ moveCoordinate_lt_half a s hs.1)
        · exact (ih hs.2 hc).imp_right (List.mem_cons_of_mem _)

theorem fits_moveAnchor {anchor : List Nat} {shape : List Nat} (shift : List Int)
    (ha : FitsAll FitsWord anchor) (hs : FitsAll FitsWord shape) :
    FitsAll FitsWord (moveAnchor anchor shift shape) := by
  refine ⟨(length_moveAnchor anchor shift shape).symm ▸ ha.1, fun c hc => ?_⟩
  obtain hc | hc := mem_moveAnchor hs.2 hc
  · exact hc.trans (by norm_num [UInt64.size])
  · exact ha.2 c hc

end Window

namespace WindowAddressing

variable {w : WindowAddressing} {o : Observation}

/-- The stored positions are not out of date. -/
theorem Coherent.positions_eq (h : w.Coherent) :
    w.positions = Window.expand w.kernel w.anchor w.shape ∧ 0 < w.kernel := by
  obtain ⟨positions, hpositions, hw⟩ := make_eq_ok_iff.1 h
  have hkernel : max w.kernel 1 = w.kernel := congrArg kernel hw
  have hstored : positions = w.positions := congrArg WindowAddressing.positions hw
  rw [hkernel] at hpositions
  exact ⟨hstored ▸ (Window.expand?_eq_ok hpositions).symm, by omega⟩

/-- The stored positions and those found anew are taken alike. -/
theorem Coherent.select?_eq (h : w.Coherent) (ho : o.shape.length = w.anchor.length) :
    w.select? o = o.gather? (Window.expand w.kernel w.anchor o.shape)
      (List.replicate w.anchor.length w.kernel) := by
  rw [select?, if_neg (not_not.2 ho)]
  by_cases hshape : o.shape = w.shape
  · simp only [h.positions_eq.1, hshape, if_true]
  · simp only [if_neg hshape]

theorem select?_eq_none (ho : o.shape.length ≠ w.anchor.length) : w.select? o = none := by
  rw [select?, if_pos ho]

end WindowAddressing

namespace MultiWindowAddressing

variable {w : MultiWindowAddressing} {o : Observation}

theorem expandAll?_eq_ok {kernel : Nat} {anchors : List (List Nat)} {shape positions : List Nat}
    (h : expandAll? kernel anchors shape = .ok positions) :
    expandAll kernel anchors shape = positions := by
  induction anchors generalizing positions with
  | nil =>
    cases h
    rfl
  | cons a anchors ih =>
    simp only [expandAll?, List.mapM_cons] at h ih
    cases ha : Window.expand? kernel a shape with
    | error e =>
      rw [ha] at h
      cases h
    | ok first =>
      cases hrest : anchors.mapM fun a => Window.expand? kernel a shape with
      | error e =>
        rw [ha, hrest] at h
        cases h
      | ok rest =>
        rw [ha, hrest] at h
        cases h
        have hall : expandAll kernel anchors shape = rest.flatten := ih (by rw [hrest]; rfl)
        rw [expandAll, List.flatMap_cons, Window.expand?_eq_ok ha]
        exact congrArg (first ++ ·) hall

theorem Coherent.positions_eq (h : w.Coherent) :
    w.positions = expandAll w.kernel w.anchors w.shape ∧ 0 < w.kernel := by
  obtain ⟨positions, hpositions, hw⟩ := make_eq_ok_iff.1 h
  have hkernel : max w.kernel 1 = w.kernel := congrArg kernel hw
  have hstored : positions = w.positions := congrArg MultiWindowAddressing.positions hw
  rw [hkernel] at hpositions
  exact ⟨hstored ▸ (expandAll?_eq_ok hpositions).symm, by omega⟩

theorem Coherent.select?_eq (h : w.Coherent) (ho : ∀ a ∈ w.anchors, a.length = o.shape.length) :
    w.select? o = o.gather? (expandAll w.kernel w.anchors o.shape)
      [(expandAll w.kernel w.anchors o.shape).length] := by
  have hany : ¬ (w.anchors.any fun a => a.length ≠ o.shape.length) = true := by simpa using ho
  rw [select?]
  by_cases hshape : o.shape = w.shape
  · rw [if_pos hshape, h.positions_eq.1, hshape]
  · rw [if_neg hshape, if_neg hany]

theorem select?_eq_none {a : List Nat} (ha : a ∈ w.anchors) (hshape : o.shape ≠ w.shape)
    (ho : a.length ≠ o.shape.length) : w.select? o = none := by
  have hany : (w.anchors.any fun a => a.length ≠ o.shape.length) = true := by
    rw [List.any_eq_true]
    exact ⟨a, ha, by simpa using ho⟩
  rw [select?, if_neg hshape, if_pos hany]

end MultiWindowAddressing

namespace Addressing

def anchors : Addressing → List (List Nat)
  | .full => []
  | .window w => [w.anchor]
  | .multiWindow w => w.anchors

def shape : Addressing → List Nat
  | .full => []
  | .window w => w.shape
  | .multiWindow w => w.shape

def kernel : Addressing → Nat
  | .full => 0
  | .window w => w.kernel
  | .multiWindow w => w.kernel

/-- A strategy with windows, which lie in blocks of the stored shape. -/
structure Windowed (a : Addressing) : Prop where
  anchors_ne_nil : a.anchors ≠ []
  length_anchor : ∀ x ∈ a.anchors, x.length = a.shape.length
  axis_pos : ∀ d ∈ a.shape, 0 < d

/-- The shape of what a strategy shows: one window keeps its axes, several are put on one axis. -/
def viewShape : Addressing → List Nat
  | .multiWindow w => [w.anchors.length * w.kernel ^ w.shape.length]
  | a => List.replicate a.shape.length a.kernel

def points (a : Addressing) (shape : List Nat) : List Nat :=
  a.anchors.flatMap fun x => Window.expand a.kernel x shape

variable {a b : Addressing} {o : Observation}

theorem length_points {shape : List Nat} (h : ∀ x ∈ a.anchors, x.length = shape.length)
    (hshape : shape ≠ []) : (a.points shape).length = a.anchors.length * a.kernel ^ shape.length :=
  length_flatMap_const fun x hx => Window.length_expand (h x hx) hshape

/-- The positions of the windows stand one window after the other. -/
theorem getElem?_points {shape anchor offset : List Nat} {i : Nat}
    (h : ∀ x ∈ a.anchors, x.length = shape.length) (hshape : shape ≠ [])
    (hi : a.anchors[i]? = some anchor)
    (hoffset : Within (List.replicate shape.length a.kernel) offset) :
    (a.points shape)[i * a.kernel ^ shape.length +
        place (List.replicate shape.length a.kernel) offset]? =
      (Window.expand a.kernel anchor shape)[place (List.replicate shape.length a.kernel) offset]? := by
  have hsize : ∀ x ∈ a.anchors, (Window.expand a.kernel x shape).length = a.kernel ^ shape.length :=
    fun x hx => Window.length_expand (h x hx) hshape
  have hplace : place (List.replicate shape.length a.kernel) offset < a.kernel ^ shape.length := by
    rw [← volume_replicate]
    exact place_lt hoffset
  rw [points, getElem?_flatMap hsize hplace, hi, Option.bind_some]

theorem Coherent.kernel_pos (hc : a.Coherent) (hw : a.Windowed) : 0 < a.kernel := by
  rcases a with _ | w | w
  · exact absurd rfl hw.anchors_ne_nil
  · exact (WindowAddressing.Coherent.positions_eq hc).2
  · exact (MultiWindowAddressing.Coherent.positions_eq hc).2

theorem Coherent.select?_eq (hc : a.Coherent) (hw : a.Windowed)
    (ho : o.shape.length = a.shape.length) :
    a.select? o = o.gather? (a.points o.shape) a.viewShape := by
  have hlength : ∀ x ∈ a.anchors, x.length = o.shape.length := fun x hx =>
    (hw.length_anchor x hx).trans ho.symm
  rcases a with _ | w | w
  · exact absurd rfl hw.anchors_ne_nil
  · have hanchor : w.anchor.length = o.shape.length := hlength _ List.mem_cons_self
    have hpoints : (window w).points o.shape = Window.expand w.kernel w.anchor o.shape :=
      List.append_nil _
    have hshape : (window w).viewShape = List.replicate w.anchor.length w.kernel :=
      congrArg (List.replicate · w.kernel) (hanchor.trans ho).symm
    rw [hpoints, hshape]
    exact WindowAddressing.Coherent.select?_eq hc hanchor.symm
  · have hshape : (multiWindow w).viewShape = [((multiWindow w).points o.shape).length] := by
      rw [length_points hlength o.shape_ne_nil, ho]
      rfl
    rw [hshape]
    exact MultiWindowAddressing.Coherent.select?_eq hc hlength

theorem volume_viewShape (hw : a.Windowed) :
    volume a.viewShape = a.anchors.length * a.kernel ^ a.shape.length := by
  rcases a with _ | w | w
  · exact absurd rfl hw.anchors_ne_nil
  · exact (volume_replicate _ _).trans (Nat.one_mul _).symm
  · exact Nat.mul_one _

theorem pos_of_mem_viewShape (hw : a.Windowed) (hkernel : 0 < a.kernel) :
    ∀ d ∈ a.viewShape, 0 < d := by
  intro d hd
  rcases a with _ | w | w
  · exact absurd rfl hw.anchors_ne_nil
  · exact (List.eq_of_mem_replicate hd) ▸ hkernel
  · rw [List.mem_singleton.1 hd]
    exact Nat.mul_pos (List.length_pos_iff.2 hw.anchors_ne_nil) (Nat.pow_pos hkernel)

/-- A strategy with windows shows the numbers at the points of its windows, if the observation has as
many axes. -/
theorem Coherent.view_eq (hc : a.Coherent) (hw : a.Windowed)
    (ho : o.shape.length = a.shape.length) :
    (a.view o).shape = a.viewShape ∧
      (a.view o).values = ((a.points o.shape).map o.wrapped).toArray := by
  have hlength : ∀ x ∈ a.anchors, x.length = o.shape.length := fun x hx =>
    (hw.length_anchor x hx).trans ho.symm
  have hcount := length_points hlength o.shape_ne_nil
  have hkernel := hc.kernel_pos hw
  have hpoints : a.points o.shape ≠ [] := by
    rw [← List.length_pos_iff, hcount]
    exact Nat.mul_pos (List.length_pos_iff.2 hw.anchors_ne_nil) (Nat.pow_pos hkernel)
  have hvolume : volume a.viewShape = (a.points o.shape).length := by
    rw [hcount, volume_viewShape hw, ho]
  have hshape : a.viewShape ≠ [] := by
    rcases a with _ | w | w
    · exact absurd rfl hw.anchors_ne_nil
    · intro hnil
      have haxes : w.shape.length = 0 := by simpa [viewShape, shape] using hnil
      exact o.shape_ne_nil (List.length_eq_zero_iff.1 (ho.trans haxes))
    · exact List.cons_ne_nil _ _
  obtain ⟨v, hv, hvshape, hvalues⟩ :=
    Observation.gather?_eq_some hpoints hshape (pos_of_mem_viewShape hw hkernel) hvolume
  rw [view, hc.select?_eq hw ho, hv]
  exact ⟨hvshape, hvalues⟩

/-- A strategy with windows hands on an observation with another number of axes. -/
theorem Windowed.view_eq_self (hw : a.Windowed) (ho : o.shape.length ≠ a.shape.length) :
    a.view o = o := by
  have hnone : a.select? o = none := by
    rcases a with _ | w | w
    · rfl
    · have hanchor := hw.length_anchor w.anchor List.mem_cons_self
      exact WindowAddressing.select?_eq_none (hanchor ▸ ho)
    · obtain ⟨x, hx⟩ := List.exists_mem_of_ne_nil _ hw.anchors_ne_nil
      have hanchor := hw.length_anchor x hx
      refine MultiWindowAddressing.select?_eq_none hx (fun h => ho (congrArg _ h)) ?_
      exact fun h => ho (h.symm.trans hanchor)
  rw [view, hnone]
  rfl

/-- The shape that positions are stored for has no part in what is shown. -/
theorem view_congr (ha : a.Coherent) (hwa : a.Windowed) (hb : b.Coherent) (hwb : b.Windowed)
    (hkind : a.kind = b.kind) (hanchors : a.anchors = b.anchors) (hkernel : a.kernel = b.kernel)
    (o : Observation) : a.view o = b.view o := by
  obtain ⟨x, hx⟩ := List.exists_mem_of_ne_nil _ hwa.anchors_ne_nil
  have haxes : a.shape.length = b.shape.length :=
    (hwa.length_anchor x hx).symm.trans (hwb.length_anchor x (hanchors ▸ hx))
  by_cases ho : o.shape.length = a.shape.length
  · obtain ⟨hshape, hvalues⟩ := ha.view_eq hwa ho
    obtain ⟨hshape', hvalues'⟩ := hb.view_eq hwb (ho.trans haxes)
    refine Observation.ext ?_ ?_
    · rw [hvalues, hvalues', points, points, hanchors, hkernel]
    · rw [hshape, hshape']
      rcases a with _ | w | w <;> rcases b with _ | w' | w' <;> try cases hkind
      · rfl
      · exact congrArg₂ List.replicate haxes hkernel
      · simp only [viewShape]
        rw [show w.anchors = w'.anchors from hanchors, show w.kernel = w'.kernel from hkernel,
          show w.shape.length = w'.shape.length from haxes]
  · rw [hwa.view_eq_self ho, hwb.view_eq_self (haxes ▸ ho)]

/-- Strategies of one kind with as many windows of one size for blocks of one shape. A coordinate of the
second is one of the first, or at most half a word. -/
structure SameFrame (a b : Addressing) : Prop where
  kind : a.kind = b.kind
  shape : a.shape = b.shape
  kernel : a.kernel = b.kernel
  anchors : List.Forall₂ (fun x y => x.length = y.length) a.anchors b.anchors
  coordinate : ∀ y ∈ b.anchors, ∀ c ∈ y, c < 2 ^ 63 ∨ ∃ x ∈ a.anchors, c ∈ x

theorem SameFrame.refl (a : Addressing) : SameFrame a a :=
  ⟨rfl, rfl, rfl, List.forall₂_same.2 fun _ _ => rfl, fun x hx _ hc => .inr ⟨x, hx, hc⟩⟩

theorem SameFrame.trans {c : Addressing} (h : SameFrame a b) (h' : SameFrame b c) :
    SameFrame a c where
  kind := h.kind.trans h'.kind
  shape := h.shape.trans h'.shape
  kernel := h.kernel.trans h'.kernel
  anchors := by
    have hxs := h.anchors
    have hys := h'.anchors
    generalize a.anchors = xs at hxs
    generalize b.anchors = ys at hxs hys
    generalize c.anchors = zs at hys
    induction hxs generalizing zs with
    | nil => exact hys
    | cons hx _ ih =>
      cases hys with
      | cons hy hys => exact .cons (hx.trans hy) (ih _ hys)
  coordinate z hz n hn := by
    obtain hlt | ⟨y, hy, hny⟩ := h'.coordinate z hz n hn
    · exact .inl hlt
    · exact h.coordinate y hy n hny

theorem SameFrame.windowed (h : SameFrame a b) (hw : a.Windowed) : b.Windowed where
  anchors_ne_nil hnil := by
    have hlength := h.anchors.length_eq
    rw [hnil, List.length_nil, List.length_eq_zero_iff] at hlength
    exact hw.anchors_ne_nil hlength
  length_anchor := by
    have hanchors := h.anchors
    have hlength := hw.length_anchor
    rw [h.shape] at hlength
    generalize a.anchors = xs at hanchors hlength
    generalize b.anchors = ys at hanchors
    induction hanchors with
    | nil => exact nofun
    | cons hxy _ ih =>
      rw [List.forall_mem_cons] at hlength ⊢
      exact ⟨hxy.symm.trans hlength.1, ih hlength.2⟩
  axis_pos := h.shape ▸ hw.axis_pos

theorem sameFrame_perturb (h : a.Fits) :
    a.perturb.Ensures fun r => SameFrame a r.2 ∧ r.2.Fits := by
  rcases a with _ | w | w
  · exact .pure ⟨.refl _, h⟩
  · refine Ensures.bind (P := fun r => SameFrame (window w) (window r.2) ∧ r.2.Fits) ?_
      fun r hr => .pure hr
    simp only [WindowAddressing.perturb]
    split
    · exact .pure ⟨.refl _, h⟩
    · refine .after fun shift => .after fun positions => .pure ⟨⟨rfl, rfl, rfl, ?_, ?_⟩, ?_⟩
      · exact .cons (Window.length_moveAnchor ..).symm .nil
      · exact List.forall_mem_singleton.2 fun c hc =>
          (Window.mem_moveAnchor h.2.1.2 hc).imp_right fun hold => ⟨_, List.mem_cons_self, hold⟩
      · exact ⟨Window.fits_moveAnchor shift h.1 h.2.1, h.2⟩
  · refine Ensures.bind (P := fun r => SameFrame (multiWindow w) (multiWindow r.2) ∧ r.2.Fits) ?_
      fun r hr => .pure hr
    simp only [MultiWindowAddressing.perturb]
    refine (Ensures.mapM (R := fun x y => x.length = y.length ∧ FitsAll FitsWord y ∧
      ∀ c ∈ y, c < 2 ^ 63 ∨ ∃ x ∈ w.anchors, c ∈ x) fun x hx => ?_).bind fun anchors hanchors => ?_
    · split
      · exact .pure ⟨rfl, h.1.2 x hx, fun c hc => .inr ⟨x, hx, hc⟩⟩
      · refine .after fun shift => .pure ⟨(Window.length_moveAnchor ..).symm, ?_, fun c hc => ?_⟩
        · exact Window.fits_moveAnchor shift (h.1.2 x hx) h.2.1
        · exact (Window.mem_moveAnchor h.2.1.2 hc).imp_right fun hold => ⟨x, hx, hold⟩
    · split
      · exact .pure ⟨.refl _, h⟩
      · refine .after fun positions => .pure ⟨⟨rfl, rfl, rfl, ?_, ?_⟩, ⟨?_, ?_⟩, h.2⟩
        · exact hanchors.imp fun _ _ hxy => hxy.1
        · exact forall_mem_of_forall₂ (hanchors.imp fun _ _ hxy => hxy.2.2)
        · exact hanchors.length_eq ▸ h.1.1
        · exact forall_mem_of_forall₂ (hanchors.imp fun _ _ hxy => hxy.2.1)

/-- Strategies that a strategy becomes when it is moved, and saved and loaded in either form. -/
inductive Reached (a : Addressing) : Addressing → Prop where
  | start : Reached a a
  | moved {b c : Addressing} {any : Bool} {s s' : Source} (h : Reached a b)
      (hmove : b.perturb s = .ok ((any, c), s')) : Reached a c
  | loaded {b c : Addressing} {rest : List UInt8} (h : Reached a b)
      (hload : Addressing.readBytes b.bytes = .ok (c, rest)) : Reached a c
  | parsed {b c : Addressing} (h : Reached a b)
      (hparse : Document.parse Addressing.read b.document.pretty = .ok c) : Reached a c

theorem Reached.keeps (h : Reached a b) (hc : a.Coherent) (hf : a.Fits) :
    SameFrame a b ∧ b.Coherent ∧ b.Fits := by
  induction h with
  | start => exact ⟨.refl a, hc, hf⟩
  | @moved b c any s s' _ hmove ih =>
    obtain ⟨hframe, hcb, hfb⟩ := ih
    obtain ⟨hmoved, hfits⟩ := sameFrame_perturb hfb s (any, c) s' hmove
    exact ⟨hframe.trans hmoved, coherent_perturb hcb s (any, c) s' hmove, hfits⟩
  | @loaded b c rest _ hload ih =>
    have hread := Addressing.reads b ih.2.1 ih.2.2 []
    rw [List.append_nil, hload] at hread
    cases hread
    exact ih
  | @parsed b c _ hparse ih =>
    rw [parse_pretty ih.2.1 ih.2.2] at hparse
    cases hparse
    exact ih

end Addressing

/-- The view is a block with an axis for each axis of the window. Its entry at an offset is the
observation's entry at the anchor moved by the offset and wrapped. -/
structure WindowAddressing.Shows (w : WindowAddressing) (o v : Observation) : Prop where
  shape : v.shape = List.replicate w.anchor.length w.kernel
  entry : ∀ offset, Within v.shape offset → ∃ x, v.entry? offset = some x ∧
    o.entry? (wrap o.shape (moved w.anchor offset)) = some x

/-- The view has one axis, on which the windows stand in the order of their anchors, each with its
last axis fastest. -/
structure MultiWindowAddressing.Shows (w : MultiWindowAddressing) (o v : Observation) : Prop where
  shape : v.shape = [w.anchors.length * w.kernel ^ o.shape.length]
  entry : ∀ (i : Nat) (anchor offset : List Nat), w.anchors[i]? = some anchor →
    Within (List.replicate o.shape.length w.kernel) offset → ∃ x,
      v.entry? [i * w.kernel ^ o.shape.length +
        place (List.replicate o.shape.length w.kernel) offset] = some x ∧
      o.entry? (wrap o.shape (moved anchor offset)) = some x

namespace Addressing

/-- What a strategy ought to show of an observation. -/
def Shows (a : Addressing) (o v : Observation) : Prop :=
  match a with
  | .full => v = o
  | .window w => w.Shows o v
  | .multiWindow w => w.Shows o v

variable {a b : Addressing} {o : Observation}

/-- No sum and no product on the way to the positions of the windows exceeds a word. -/
def InWords (a : Addressing) (shape : List Nat) : Prop :=
  ∀ x ∈ a.anchors, Window.InWords a.kernel x shape

/-- Windows that exceed no word exceed none when they have been moved either. -/
theorem SameFrame.inWords (h : SameFrame a b) (hkernel : a.kernel ≤ 2 ^ 63) {shape : List Nat}
    (ha : a.InWords shape) : b.InWords shape := by
  intro y hy
  have hlength := h.anchors.length_eq
  obtain ⟨x₀, hx₀⟩ : ∃ x, x ∈ a.anchors :=
    List.exists_mem_of_length_pos (hlength ▸ List.length_pos_of_mem hy)
  refine ⟨fun c hc => ?_, (ha x₀ hx₀).volume⟩
  rw [← h.kernel]
  obtain hlt | ⟨x, hx, hcx⟩ := h.coordinate y hy c hc
  · have hsize : (2 ^ 63 + 2 ^ 63 : Nat) = UInt64.size := rfl
    omega
  · exact (ha x hx).sum c hcx

/-- The view's number for a point of a window. -/
theorem Coherent.getElem?_view (hc : a.Coherent) (hw : a.Windowed) (hwords : a.InWords o.shape)
    (ho : o.shape.length = a.shape.length) {anchor offset : List Nat} {i : Nat}
    (hi : a.anchors[i]? = some anchor)
    (hoffset : Within (List.replicate o.shape.length a.kernel) offset) :
    ∃ x, (a.view o).values[i * a.kernel ^ o.shape.length +
        place (List.replicate o.shape.length a.kernel) offset]? = some x ∧
      o.entry? (wrap o.shape (moved anchor offset)) = some x := by
  have hlength : ∀ x ∈ a.anchors, x.length = o.shape.length := fun x hx =>
    (hw.length_anchor x hx).trans ho.symm
  have hanchor := List.mem_of_getElem? hi
  have hmoved : (moved anchor offset).length = o.shape.length := by
    have hoffset := hoffset.length_eq
    rw [List.length_replicate] at hoffset
    rw [moved, List.length_zipWith, hlength anchor hanchor, hoffset, Nat.min_self]
  have hwithin : Within o.shape (wrap o.shape (moved anchor offset)) :=
    within_wrap hmoved o.axis_pos
  refine ⟨_, ?_, Observation.entry?_eq_wrapped hwithin⟩
  rw [(hc.view_eq hw ho).2, List.getElem?_toArray, List.getElem?_map,
    getElem?_points hlength o.shape_ne_nil hi hoffset,
    (hwords anchor hanchor).getElem?_expand (hlength anchor hanchor) o.shape_ne_nil o.axis_pos hoffset]
  rfl

theorem Coherent.shows (hc : a.Coherent) (hw : a.Windowed) (hwords : a.InWords o.shape)
    (ho : o.shape.length = a.shape.length) : a.Shows o (a.view o) := by
  obtain ⟨hshape, -⟩ := hc.view_eq hw ho
  rcases a with _ | w | w
  · exact absurd rfl hw.anchors_ne_nil
  · have haxes : w.anchor.length = w.shape.length := hw.length_anchor w.anchor List.mem_cons_self
    have hshape : ((window w).view o).shape = List.replicate o.shape.length w.kernel :=
      hshape.trans (congrArg (List.replicate · w.kernel) ho.symm)
    refine ⟨hshape.trans (congrArg (List.replicate · w.kernel) (ho.trans haxes.symm)), ?_⟩
    intro offset hoffset
    rw [hshape] at hoffset
    obtain ⟨x, hx, hentry⟩ := hc.getElem?_view hw hwords ho (i := 0) rfl hoffset
    refine ⟨x, ?_, hentry⟩
    rw [Nat.zero_mul, Nat.zero_add] at hx
    rw [Observation.entry?, hshape]
    exact hx
  · refine ⟨hshape.trans (congrArg (fun n => [w.anchors.length * w.kernel ^ n]) ho.symm), ?_⟩
    intro i anchor offset hi hoffset
    obtain ⟨x, hx, hentry⟩ := hc.getElem?_view hw hwords ho hi hoffset
    refine ⟨x, ?_, hentry⟩
    have hplace : ∀ n p, place [n] [p] = p := fun n p => Nat.mul_one p
    rw [Observation.entry?, hshape, viewShape, hplace]
    exact hx

theorem Reached.view_shows (h : Reached a b) (hc : a.Coherent) (hf : a.Fits) (hw : a.Windowed) :
    SameFrame a b ∧ b.Coherent ∧
    (∀ rest, Addressing.readBytes (b.bytes ++ rest) = .ok (b, rest)) ∧
    Document.parse Addressing.read b.document.pretty = .ok b ∧
    ∀ o : Observation,
      (a.kernel ≤ 2 ^ 63 → a.InWords o.shape → b.InWords o.shape) ∧
      (b.InWords o.shape → o.shape.length = a.shape.length → b.Shows o (b.view o)) ∧
      (o.shape.length ≠ a.shape.length → b.view o = o) ∧
      ∀ c : Addressing, c.Coherent → c.Windowed → c.kind = b.kind → c.anchors = b.anchors →
        c.kernel = b.kernel → c.view o = b.view o := by
  obtain ⟨hframe, hcb, hfb⟩ := h.keeps hc hf
  have hwb := hframe.windowed hw
  refine ⟨hframe, hcb, b.reads hcb hfb, parse_pretty hcb hfb,
    fun o => ⟨fun hkernel => hframe.inWords hkernel, fun hwords ho => ?_, fun ho => ?_, ?_⟩⟩
  · exact hcb.shows hwb hwords (hframe.shape ▸ ho)
  · exact hwb.view_eq_self (hframe.shape ▸ ho)
  · intro c hcc hwc hkind hanchors hkernel
    exact view_congr hcc hwc hcb hwb hkind hanchors hkernel o

/-- Two windows, one of which wraps around both axes. -/
def cornerWindows : Addressing := .multiWindow ⟨[[3, 4], [0, 1]], [4, 5], 2, 1, [19, 15, 4, 0, 1, 2, 6, 7]⟩

/-- The same windows, each moved by one towards the origin. -/
def movedWindows : Addressing :=
  .multiWindow ⟨[[2, 3], [3, 0]], [4, 5], 2, 1, [13, 14, 18, 19, 15, 16, 0, 1]⟩

def nineNumbers : Observation :=
  ⟨#[0, 1, 2, 3, 4, 5, 6, 7, 8], [3, 3], by decide, by decide, rfl⟩

theorem movedWindows_shows : cornerWindows.Reached movedWindows ∧
    cornerWindows.InWords nineNumbers.shape ∧
    movedWindows.Shows nineNumbers (movedWindows.view nineNumbers) := by
  let source : Source := ⟨fun _ => 0, 0, 8⟩
  have hanswer : (cornerWindows.perturb source).map Prod.fst = .ok (true, movedWindows) := by
    decide +kernel
  have hreached : cornerWindows.Reached movedWindows := by
    cases hmove : cornerWindows.perturb source with
    | error e =>
      rw [hmove] at hanswer
      cases hanswer
    | ok r =>
      rw [hmove] at hanswer
      obtain ⟨answer, s'⟩ := r
      cases hanswer
      exact .moved .start hmove
  have hcoherent : cornerWindows.Coherent := by
    change MultiWindowAddressing.make _ _ _ _ = _
    decide
  have hfits : cornerWindows.Fits := by
    refine ⟨⟨by decide, ?_⟩, ⟨by decide, ?_⟩, ?_, ?_⟩
    · intro a ha
      refine ⟨?_, ?_⟩ <;> revert a <;> decide
    all_goals decide
  have hwindowed : cornerWindows.Windowed := ⟨by decide, by decide, by decide⟩
  have hwords : cornerWindows.InWords nineNumbers.shape := by
    intro x hx
    refine ⟨?_, by decide⟩
    revert x
    decide
  obtain ⟨hkept, hshows, -⟩ :=
    (hreached.view_shows hcoherent hfits hwindowed).2.2.2.2 nineNumbers
  exact ⟨hreached, hwords, hshows (hkept (by decide) hwords) rfl⟩

end Addressing

end TangledPrograms
