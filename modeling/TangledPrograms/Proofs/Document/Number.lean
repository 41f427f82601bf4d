import TangledPrograms.Proofs.Decimal.Shortest
import TangledPrograms.Proofs.Document.Schema

/-!
# How floats are read back

A finite float is written as its shortest decimal, with a point or an exponent or both, and a reader
takes the decimal apart again: the significand in one word, and a power of ten. What it makes of the two
is rounded twice, so it need not be the float that was written. A float that is not finite is written as
null, and no number is read from that.
-/

namespace TangledPrograms

/-- The significand and the power of ten that are read where the decimal was written: a whole number
without exponent has one decimal place. -/
def Decimal.Scaled.asRead (s : Scaled) : ℕ × ℤ :=
  if s.coefficient = 0 then (0, -1)
  else if 0 ≤ s.exponent ∧ (Nat.toDigits 10 s.coefficient).length + s.exponent ≤ 16 then
    (s.coefficient * 10 ^ (s.exponent.toNat + 1), -1)
  else (s.coefficient, s.exponent)

/-- The float that is read where `x` was written, if any is. -/
def Decimal.reread (x : Float) : Option Float :=
  if x.isFinite then
    let read := (shortest documentStyle.tie x).asRead
    (scaled (.ofNat read.1) read.2).map fun y => if isNegative x then -y else y
  else none

namespace Document

open Reader Decimal

def found {α : Type} : Option α → Except ReadFailure α
  | some a => .ok a
  | none => .error .malformed

section parts

variable {rest : List Char} {negative : Bool}

theorem noDigit_cons {c : Char} (h : c.isDigit = false) (rest : List Char) : NoDigit (c :: rest) :=
  fun d hd => by
    cases hd
    exact h

theorem places_append {ds : List Char} {s : ℕ} (hne : ds ≠ []) (hds : ∀ c ∈ ds, c.isDigit = true)
    (hbound : Nat.ofDigitChars 10 ds s < UInt64.size) (hrest : NoDigit rest) :
    places s (ds ++ rest) = .ok ((Nat.ofDigitChars 10 ds s, ds.length), rest) := by
  have hscan := significandDigits_append 0 hds hbound hrest
  have hlength : ds.length ≠ 0 := mt List.length_eq_zero_iff.1 hne
  simp only [places]
  rw [bind_of_ok (show (get : Reader Char (List Char)) (ds ++ rest) =
    .ok (ds ++ rest, ds ++ rest) from rfl), hscan]
  simp only
  rw [bind_of_ok (show (set rest : Reader Char PUnit) (ds ++ rest) = .ok (⟨⟩, rest) from rfl),
    bind_of_ok (countDigits_noDigit hrest), Nat.zero_add, Nat.add_zero, if_neg hlength]
  rfl

theorem takeWhile_digits {ds : List Char} (hds : ∀ c ∈ ds, c.isDigit = true) (hrest : NoDigit rest) :
    (ds ++ rest).takeWhile Char.isDigit = ds ∧ (ds ++ rest).dropWhile Char.isDigit = rest := by
  have htail : rest.takeWhile Char.isDigit = [] ∧ rest.dropWhile Char.isDigit = rest := by
    cases rest with
    | nil => exact ⟨rfl, rfl⟩
    | cons c rest =>
      have hc := hrest c rfl
      simp [hc]
  rw [List.takeWhile_append_of_pos hds, List.dropWhile_append_of_pos hds, htail.1, htail.2]
  exact ⟨List.append_nil ds, rfl⟩

/-- The power of ten after an `e`. -/
theorem power_append (e : ℤ) (hrest : NoDigit rest) :
    power ((if e < 0 then '-' else '+') :: (Nat.toDigits 10 e.natAbs ++ rest)) = .ok (e, rest) := by
  have hds := isDigit_of_mem_toDigits (n := e.natAbs)
  obtain ⟨htake, hdrop⟩ := takeWhile_digits hds hrest
  have hvalue : digitsValue (Nat.toDigits 10 e.natAbs) = e.natAbs :=
    Nat.ofDigitChars_ten_toDigits
  have hsign : ∀ minus : Bool, (do
      let ds := (← get).takeWhile Char.isDigit
      let _ ← countDigits
      if ds.isEmpty then fail
      else
        let n : ℤ := digitsValue ds
        pure (if minus then -n else n) : Reader Char ℤ) (Nat.toDigits 10 e.natAbs ++ rest) =
      .ok (if minus then -(e.natAbs : ℤ) else e.natAbs, rest) := by
    intro minus
    rw [bind_of_ok (show (get : Reader Char (List Char)) (Nat.toDigits 10 e.natAbs ++ rest) =
      .ok (Nat.toDigits 10 e.natAbs ++ rest, Nat.toDigits 10 e.natAbs ++ rest) from rfl)]
    simp only [htake]
    rw [bind_of_ok (show countDigits (Nat.toDigits 10 e.natAbs ++ rest) =
      .ok ((Nat.toDigits 10 e.natAbs).length, rest) by rw [countDigits, htake, hdrop]),
      if_neg (by simp [Nat.toDigits_ne_nil]), hvalue]
    rfl
  by_cases he : e < 0
  · rw [if_pos he]
    refine (hsign true).trans ?_
    rw [if_pos rfl, Int.ofNat_natAbs_of_nonpos he.le, neg_neg]
  · rw [if_neg he]
    refine (hsign false).trans ?_
    rw [if_neg (by decide), Int.natAbs_of_nonneg (not_lt.1 he)]

def exponentText : Option ℤ → List Char
  | none => []
  | some e => 'e' :: (if e < 0 then '-' else '+') :: Nat.toDigits 10 e.natAbs

theorem noDigit_exponentText (e : Option ℤ) (hrest : Ended rest) :
    NoDigit (exponentText e ++ rest) := by
  cases e with
  | none => exact hrest.noDigit
  | some e => exact noDigit_cons rfl _

/-- A number with decimal places. -/
theorem unsignedNumeral_places (negative : Bool) (whole ds : List Char) {s : ℕ} (e : Option ℤ) (hne : ds ≠ [])
    (hwhole : wholePart (whole ++ '.' :: (ds ++ (exponentText e ++ rest))) =
      .ok ((s, 0), '.' :: (ds ++ (exponentText e ++ rest))))
    (hds : ∀ c ∈ ds, c.isDigit = true) (hbound : Nat.ofDigitChars 10 ds s < UInt64.size)
    (hrest : Ended rest) :
    unsignedNumeral negative (whole ++ '.' :: (ds ++ (exponentText e ++ rest))) =
      realNumeral negative (Nat.ofDigitChars 10 ds s) (-(ds.length : ℤ) + e.getD 0) rest := by
  have hplaces := places_append hne hds hbound (noDigit_exponentText e hrest)
  rw [unsignedNumeral, bind_of_ok hwhole]
  simp only
  rw [bind_of_ok (peek?_cons _ _)]
  simp only
  rw [bind_of_ok (show next ('.' :: (ds ++ (exponentText e ++ rest))) = .ok ('.', _) from rfl),
    bind_of_ok hplaces]
  simp only [Nat.cast_zero, zero_sub]
  cases e with
  | none =>
    rw [Option.getD_none, add_zero]
    cases rest with
    | nil => rfl
    | cons c rest => obtain rfl | rfl := hrest c rfl <;> rfl
  | some e =>
    change (do
      let e ← power
      realNumeral negative (Nat.ofDigitChars 10 ds s) (-(ds.length : ℤ) + e) : Reader Char Numeral)
      (_ :: (Nat.toDigits 10 e.natAbs ++ rest)) = _
    rw [bind_of_ok (power_append e hrest.noDigit), Option.getD_some]

/-- A number without decimal places, with an exponent. -/
theorem unsignedNumeral_power (negative : Bool) (whole : List Char) {s : ℕ} (e : ℤ)
    (hwhole : wholePart (whole ++ (exponentText (some e) ++ rest)) =
      .ok ((s, 0), exponentText (some e) ++ rest)) (hrest : Ended rest) :
    unsignedNumeral negative (whole ++ (exponentText (some e) ++ rest)) =
      realNumeral negative s e rest := by
  rw [unsignedNumeral, bind_of_ok hwhole]
  change (do
    let e ← power
    realNumeral negative s ((0 : ℕ) + e) : Reader Char Numeral)
    (_ :: (Nat.toDigits 10 e.natAbs ++ rest)) = _
  rw [bind_of_ok (power_append e hrest.noDigit), Nat.cast_zero, zero_add]

end parts

section layout

variable {rest : List Char} {negative : Bool} {s : Scaled}

theorem ofDigitChars_zeros (k v : ℕ) :
    Nat.ofDigitChars 10 (List.replicate k '0') v = v * 10 ^ k := by
  induction k generalizing v with
  | zero => simp
  | succ k ih =>
    rw [List.replicate_succ, Nat.ofDigitChars_cons, ih, Nat.pow_succ]
    have hzero : '0'.toNat - '0'.toNat = 0 := rfl
    rw [hzero]
    ring

theorem isDigit_of_mem_zeros {k : ℕ} : ∀ c ∈ List.replicate k '0', c.isDigit = true := by
  intro c hc
  rw [List.eq_of_mem_replicate hc]
  rfl

def bodyText (s : Scaled) : List Char :=
  if s.coefficient = 0 then ['0', '.', '0']
  else
    let digits := Nat.toDigits 10 s.coefficient
    let place := digits.length + s.exponent
    if documentStyle.positional place then positionalText documentStyle digits place
    else scientificText digits place

/-- The text begins with a digit, and where it stands the decimal's parts are read. -/
structure Carries (s : Scaled) (text : List Char) : Prop where
  opens : ∃ d tail, text = d :: tail ∧ d.isDigit = true
  reads : ∀ (negative : Bool) {rest : List Char}, Ended rest →
    unsignedNumeral negative (text ++ rest) = realNumeral negative s.asRead.1 s.asRead.2 rest

theorem carries_zero (h : s.coefficient = 0) : Carries s ['0', '.', '0'] where
  opens := ⟨'0', _, rfl, rfl⟩
  reads negative rest hrest := by
    have hread : s.asRead = (0, -1) := if_pos h
    rw [hread]
    have hplaces := unsignedNumeral_places negative ['0'] ['0'] none (by simp)
      (wholePart_zero (noDigit_cons rfl _)) (by simp) (by decide) hrest
    rw [show Nat.ofDigitChars 10 ['0'] 0 = 0 from rfl] at hplaces
    simpa [exponentText] using hplaces

section nonzero

variable {d : Char} {ds : List Char} (hcoefficient : s.coefficient ≤ 10 ^ 17)
  (hne : s.coefficient ≠ 0) (hdigits : Nat.toDigits 10 s.coefficient = d :: ds)
include hne hdigits

theorem digits_facts : (∀ c ∈ d :: ds, c.isDigit = true) ∧ d ≠ '0' ∧
    Nat.ofDigitChars 10 (d :: ds) 0 = s.coefficient := by
  refine ⟨hdigits ▸ isDigit_of_mem_toDigits, toDigits_leading hne d ?_, ?_⟩
  · rw [hdigits]
    rfl
  · rw [← hdigits]
    exact Nat.ofDigitChars_ten_toDigits

omit hdigits in
theorem asRead_of_exponent_neg (h : s.exponent < 0) : s.asRead = (s.coefficient, s.exponent) := by
  rw [Scaled.asRead, if_neg hne, if_neg fun hpos => by omega]

omit hdigits in
theorem asRead_of_scientific
    (h : documentStyle.positional ((Nat.toDigits 10 s.coefficient).length + s.exponent) = false) :
    s.asRead = (s.coefficient, s.exponent) := by
  have hlength := List.length_pos_iff.2 (Nat.toDigits_ne_nil (b := 10) (n := s.coefficient))
  simp only [documentStyle, Bool.and_eq_false_iff, decide_eq_false_iff_not] at h
  rw [Scaled.asRead, if_neg hne, if_neg fun hpos => by omega]

include hcoefficient

/-- Below one: zeros before the digits. -/
theorem carries_small (hplace : ((d :: ds).length : ℤ) + s.exponent ≤ 0) :
    Carries s ('0' :: '.' ::
      (List.replicate (-(((d :: ds).length : ℤ) + s.exponent)).toNat '0' ++ d :: ds)) where
  opens := ⟨'0', _, rfl, rfl⟩
  reads negative rest hrest := by
    obtain ⟨hdigit, -, hvalue⟩ := digits_facts hne hdigits
    generalize hzeros : (-(((d :: ds).length : ℤ) + s.exponent)).toNat = k
    have hplaces : Nat.ofDigitChars 10 (List.replicate k '0' ++ d :: ds) 0 = s.coefficient := by
      rw [Nat.ofDigitChars_append, ofDigitChars_zeros, Nat.zero_mul, hvalue]
    have hread := unsignedNumeral_places negative ['0'] (List.replicate k '0' ++ d :: ds) none
      (by simp)
      (wholePart_zero (noDigit_cons rfl _))
      (fun c hc => (List.mem_append.1 hc).elim (isDigit_of_mem_zeros c) (hdigit c))
      (by rw [hplaces]; exact Nat.lt_of_le_of_lt hcoefficient (by decide)) hrest
    have hexponent : -((List.replicate k '0' ++ d :: ds).length : ℤ) + (none : Option ℤ).getD 0 =
        s.exponent := by
      rw [List.length_append, List.length_replicate, Option.getD_none]
      omega
    rw [hplaces, hexponent] at hread
    rw [asRead_of_exponent_neg hne (by rw [List.length_cons] at hplace; omega)]
    exact hread

omit hcoefficient in
/-- A whole number without exponent: zeros after the digits, and a zero place. -/
theorem carries_whole (hexponent : 0 ≤ s.exponent)
    (hplace : ((d :: ds).length : ℤ) + s.exponent ≤ 16) :
    Carries s (d :: ds ++ List.replicate s.exponent.toNat '0' ++ ['.', '0']) where
  opens := ⟨d, _, rfl, (digits_facts hne hdigits).1 d List.mem_cons_self⟩
  reads negative rest hrest := by
    obtain ⟨hdigit, hlead, hvalue⟩ := digits_facts hne hdigits
    have hread : s.asRead = (s.coefficient * 10 ^ (s.exponent.toNat + 1), -1) := by
      rw [Scaled.asRead, if_neg hne, hdigits, if_pos ⟨hexponent, hplace⟩]
    generalize hzeros : s.exponent.toNat = k at hread ⊢
    have hsmall : s.coefficient * 10 ^ k < 10 ^ 16 := by
      have hlength := lt_pow_length_toDigits s.coefficient
      rw [hdigits] at hlength
      calc s.coefficient * 10 ^ k < 10 ^ (d :: ds).length * 10 ^ k :=
            Nat.mul_lt_mul_of_pos_right hlength (Nat.pow_pos (by decide))
        _ = 10 ^ ((d :: ds).length + k) := (Nat.pow_add ..).symm
        _ ≤ 10 ^ 16 := Nat.pow_le_pow_right (by decide) (by omega)
    have hwhole : Nat.ofDigitChars 10 (d :: (ds ++ List.replicate k '0')) 0 =
        s.coefficient * 10 ^ k := by
      rw [← List.cons_append, Nat.ofDigitChars_append, hvalue, ofDigitChars_zeros]
    have hall : ∀ c ∈ d :: (ds ++ List.replicate k '0'), c.isDigit = true := by
      intro c hc
      rw [← List.cons_append, List.mem_append] at hc
      exact hc.elim (hdigit c) (isDigit_of_mem_zeros c)
    have hlast : Nat.ofDigitChars 10 ['0'] (s.coefficient * 10 ^ k) =
        s.coefficient * 10 ^ (k + 1) := by
      rw [Nat.pow_succ, ← Nat.mul_assoc]
      exact (ofDigitChars_zeros 1 _).trans (by rw [Nat.pow_one])
    have hdone := unsignedNumeral_places negative (d :: (ds ++ List.replicate k '0')) ['0'] none
      (by simp) (wholePart_digits _ hall hlead (by rw [hwhole]; exact hsmall.trans (by decide))
        (noDigit_cons rfl _)) (by simp) (by
          rw [hwhole, hlast, Nat.pow_succ, ← Nat.mul_assoc]
          have : (UInt64.size : ℕ) = 2 ^ 64 := rfl
          omega) hrest
    rw [hwhole, hlast] at hdone
    rw [hread]
    simpa [exponentText] using hdone

/-- The point among the digits. -/
theorem carries_pointed {w : ℕ} (hw : 0 < w) (hlt : w < (d :: ds).length)
    (hexponent : s.exponent = w - (d :: ds).length) :
    Carries s ((d :: ds).take w ++ '.' :: (d :: ds).drop w) := by
  obtain ⟨hdigit, hlead, hvalue⟩ := digits_facts hne hdigits
  obtain ⟨w, rfl⟩ := Nat.exists_eq_succ_of_ne_zero hw.ne'
  rw [List.take_succ_cons, List.drop_succ_cons]
  refine ⟨⟨d, _, rfl, hdigit d List.mem_cons_self⟩, fun negative rest hrest => ?_⟩
  have hsplit : Nat.ofDigitChars 10 (ds.drop w) (Nat.ofDigitChars 10 (d :: ds.take w) 0) =
      s.coefficient := by
    rw [← Nat.ofDigitChars_append, List.cons_append, List.take_append_drop, hvalue]
  have hbound : s.coefficient < UInt64.size := Nat.lt_of_le_of_lt hcoefficient (by decide)
  have hfirst := Nat.lt_of_le_of_lt (hsplit ▸ le_ofDigitChars (ds.drop w) _) hbound
  have hne' : ds.drop w ≠ [] := by
    rw [← List.length_pos_iff, List.length_drop]
    rw [List.length_cons] at hlt
    omega
  have hread := unsignedNumeral_places negative (d :: ds.take w) (ds.drop w) none hne'
    (wholePart_digits _ (fun c hc => hdigit c (by
      rcases List.mem_cons.1 hc with rfl | hc
      · exact List.mem_cons_self
      · exact List.mem_cons_of_mem _ (List.mem_of_mem_take hc))) hlead hfirst (noDigit_cons rfl _))
    (fun c hc => hdigit c (List.mem_cons_of_mem _ (List.mem_of_mem_drop hc)))
    (hsplit ▸ hbound) hrest
  have hplaces : -((ds.drop w).length : ℤ) + (none : Option ℤ).getD 0 = s.exponent := by
    rw [List.length_cons] at hlt hexponent
    rw [List.length_drop, Option.getD_none, hexponent]
    omega
  rw [hsplit, hplaces] at hread
  rw [asRead_of_exponent_neg hne (by omega)]
  simpa [exponentText] using hread

/-- An exponent after the digits. -/
theorem carries_scientific
    (hpositional : documentStyle.positional ((Nat.toDigits 10 s.coefficient).length + s.exponent) =
      false) : Carries s (scientificText (d :: ds) ((d :: ds).length + s.exponent)) := by
  obtain ⟨hdigit, hlead, hvalue⟩ := digits_facts hne hdigits
  have hbound : s.coefficient < UInt64.size := Nat.lt_of_le_of_lt hcoefficient (by decide)
  have hread := asRead_of_scientific hne hpositional
  cases ds with
  | nil =>
    refine ⟨⟨d, _, rfl, hdigit d List.mem_cons_self⟩, fun negative rest hrest => ?_⟩
    have hpower : (([d] : List Char).length : ℤ) + s.exponent - 1 = s.exponent := by
      rw [List.length_singleton]
      omega
    have htext : scientificText [d] (([d] : List Char).length + s.exponent) =
        [d] ++ exponentText (some s.exponent) := by
      rw [scientificText, hpower]
      rfl
    have hwhole := wholePart_digits [] hdigit hlead (hvalue ▸ hbound)
      (noDigit_exponentText (some s.exponent) hrest)
    rw [hvalue] at hwhole
    have hdone := unsignedNumeral_power negative [d] s.exponent hwhole hrest
    rw [htext, hread, List.append_assoc]
    exact hdone
  | cons d' ds =>
    refine ⟨⟨d, _, rfl, hdigit d List.mem_cons_self⟩, fun negative rest hrest => ?_⟩
    generalize hpower : ((d :: d' :: ds).length : ℤ) + s.exponent - 1 = power
    have htext : scientificText (d :: d' :: ds) ((d :: d' :: ds).length + s.exponent) =
        [d] ++ '.' :: (d' :: ds ++ exponentText (some power)) := by
      rw [← hpower, exponentText]
      change (d :: '.' :: d' :: ds) ++ ['e', _] ++ Nat.toDigits 10 _ = _
      simp
    have hsplit : Nat.ofDigitChars 10 (d' :: ds) (Nat.ofDigitChars 10 [d] 0) = s.coefficient := by
      rw [← Nat.ofDigitChars_append]
      exact hvalue
    have hfirst := Nat.lt_of_le_of_lt (hsplit ▸ le_ofDigitChars (d' :: ds) _) hbound
    have hdone := unsignedNumeral_places negative [d] (d' :: ds) (some power) (by simp)
      (wholePart_digits [] (fun c hc => hdigit c (by simp_all)) hlead hfirst
        (noDigit_cons rfl _))
      (fun c hc => hdigit c (List.mem_cons_of_mem _ hc)) (hsplit ▸ hbound) hrest
    have hexponent : -((d' :: ds).length : ℤ) + (some power).getD 0 = s.exponent := by
      rw [Option.getD_some, ← hpower]
      simp only [List.length_cons]
      omega
    rw [hsplit, hexponent] at hdone
    rw [htext, hread]
    simpa using hdone

end nonzero

/-- Every short decimal is carried by its text. -/
theorem carries_bodyText (hcoefficient : s.coefficient ≤ 10 ^ 17) : Carries s (bodyText s) := by
  by_cases hne : s.coefficient = 0
  · rw [bodyText, if_pos hne]
    exact carries_zero hne
  obtain ⟨d, ds, hdigits⟩ := List.exists_cons_of_ne_nil (Nat.toDigits_ne_nil (b := 10) (n := s.coefficient))
  simp only [bodyText, if_neg hne]
  by_cases hpositional :
      documentStyle.positional ((Nat.toDigits 10 s.coefficient).length + s.exponent) = true
  · rw [if_pos hpositional, hdigits, positionalText]
    rw [hdigits] at hpositional
    split
    · exact carries_small hcoefficient hne hdigits ‹_›
    · rename_i hplace
      dsimp only
      split
      · rename_i hle
        have hzeros : (((d :: ds).length : ℤ) + s.exponent).toNat - (d :: ds).length =
            s.exponent.toNat := by omega
        simp only [documentStyle, Bool.and_eq_true, decide_eq_true_eq] at hpositional
        rw [hzeros]
        exact carries_whole hne hdigits (by omega) hpositional.2
      · rename_i hlt
        refine carries_pointed hcoefficient hne hdigits ?_ (not_le.1 hlt) ?_ <;> omega
  · rw [Bool.not_eq_true] at hpositional
    rw [if_neg (by rw [hpositional]; decide), hdigits]
    exact carries_scientific hcoefficient hne hdigits hpositional

end layout

theorem float_gives (x : Float) : Gives float (.number x) (found (reread x)) := by
  by_cases hfinite : x.isFinite = true
  · have hcarries := carries_bodyText (coefficient_shortest_le documentStyle.tie x)
    generalize hs : shortest documentStyle.tie x = s at hcarries
    obtain ⟨d, tail, htext, hd⟩ := hcarries.opens
    have hrender : ∀ level, (Document.number x).render level =
        if isNegative x then '-' :: d :: tail else d :: tail := by
      intro level
      have hbody : finiteText documentStyle x =
          if isNegative x then '-' :: bodyText s else bodyText s := by
        rw [← hs]
        rfl
      rw [render, numberText, if_pos hfinite, hbody, htext]
    constructor
    · intro level
      rw [hrender]
      split
      · exact ⟨'-', _, rfl, by decide, by decide⟩
      · refine ⟨d, tail, rfl, not_isBlank_of_isDigit hd, ?_⟩
        rintro rfl
        simp at hd
    · intro level blanks rest hblanks hrest
      have hread := hcarries.reads (isNegative x) hrest
      rw [htext, List.cons_append] at hread
      have hnumeral := (numeral_signed hblanks hd).trans hread
      rw [hrender, float, reread, if_pos hfinite, hs]
      cases hscaled : scaled (.ofNat s.asRead.1) s.asRead.2 with
      | none =>
        have hfail : realNumeral (isNegative x) s.asRead.1 s.asRead.2 rest = .error .malformed := by
          rw [realNumeral, hscaled]
          rfl
        simp only [hscaled]
        exact bind_of_error (hnumeral.trans hfail)
      | some y =>
        have hreal : realNumeral (isNegative x) s.asRead.1 s.asRead.2 rest =
            .ok (.real (if isNegative x then -y else y), rest) := by
          rw [realNumeral, hscaled]
          rfl
        simp only [hscaled]
        rw [bind_of_ok (hnumeral.trans hreal)]
        rfl
  · have hrender : ∀ level, (Document.number x).render level = "null".toList := by
      intro level
      rw [render, numberText, if_neg hfinite]
    have hnone : reread x = none := by rw [reread, if_neg hfinite]
    constructor
    · exact fun level => ⟨'n', _, hrender level, by decide, by decide⟩
    · intro level blanks rest hblanks hrest
      have hnumeral : numeral (blanks ++ ("null".toList ++ rest)) = .error .malformed := by
        change numeral (blanks ++ 'n' :: _) = _
        rw [numeral, bind_of_ok (skipBlanks_append hblanks (by decide))]
        rfl
      rw [hrender, float, hnone]
      exact bind_of_error hnumeral

end Document

end TangledPrograms
