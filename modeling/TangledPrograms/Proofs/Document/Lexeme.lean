import TangledPrograms.Document.Basic
import TangledPrograms.Document.Lexeme
import TangledPrograms.Proofs.Bytes.Reads

/-!
# Words of JSON are read back

A reader is run over blanks, a written word and what follows it. Brackets and commas are taken, a
quoted text is read as the text, and the decimal digits of a number as the number. Nothing may follow
the digits that would carry the number on.
-/

namespace TangledPrograms

theorem Reader.bind_of_ok {σ α β : Type} {r : Reader σ α} {f : α → Reader σ β} {s s' : List σ} {a : α}
    (h : r s = .ok (a, s')) : (r >>= f) s = f a s' := by
  change (r s).bind (fun x => f x.1 x.2) = _
  rw [h]
  rfl

theorem Reader.bind_of_map {σ α β : Type} {r : Reader σ α} {f : α → Reader σ β} {s s' : List σ}
    {o : Except ReadFailure α} (h : r s = o.map fun a => (a, s')) :
    (r >>= f) s = o.bind fun a => f a s' := by
  change (r s).bind (fun x => f x.1 x.2) = _
  rw [h]
  cases o <;> rfl

theorem Reader.bind_of_error {σ α β : Type} {r : Reader σ α} {f : α → Reader σ β} {s : List σ}
    {e : ReadFailure} (h : r s = .error e) : (r >>= f) s = .error e := by
  change (r s).bind (fun x => f x.1 x.2) = _
  rw [h]
  rfl

theorem Reader.peek?_cons {σ : Type} (c : σ) (rest : List σ) :
    peek? (c :: rest) = .ok (some c, c :: rest) := rfl

namespace Document

open Reader

/-- What stands after a value in a document: nothing, a comma or a new line. -/
def Ended (rest : List Char) : Prop := ∀ c ∈ rest.head?, c = ',' ∨ c = '\n'

theorem ended_nil : Ended [] := nofun

theorem ended_comma (rest : List Char) : Ended (',' :: rest) := fun c hc => by
  cases hc
  exact .inl rfl

theorem ended_newLine (level : Nat) (rest : List Char) : Ended (newLine level ++ rest) :=
  fun c hc => by
    cases hc
    exact .inr rfl

theorem isBlank_newLine (level : Nat) : (newLine level).all isBlank = true := by
  simp only [newLine, List.all_cons, List.all_replicate]
  split <;> decide

section Blanks

variable {blanks rest : List Char} {c : Char}

theorem skipBlanks_append (hblanks : blanks.all isBlank = true) (hc : isBlank c = false) :
    skipBlanks (blanks ++ c :: rest) = .ok ((), c :: rest) := by
  have hdrop : (blanks ++ c :: rest).dropWhile isBlank = c :: rest := by
    induction blanks with
    | nil => simp [hc]
    | cons b blanks ih =>
      rw [List.all_cons, Bool.and_eq_true] at hblanks
      rw [List.cons_append, List.dropWhile_cons_of_pos hblanks.1, ih hblanks.2]
  rw [skipBlanks, hdrop]

theorem word_singleton (c : Char) (rest : List Char) : word [c] (c :: rest) = .ok ((), rest) := by
  simp [word]

theorem expect_append (hblanks : blanks.all isBlank = true) (hc : isBlank c = false) :
    expect c (blanks ++ c :: rest) = .ok ((), rest) := by
  rw [expect, bind_of_ok (skipBlanks_append hblanks hc), word_singleton]

theorem expect_cons (hc : isBlank c = false) : expect c (c :: rest) = .ok ((), rest) :=
  @expect_append [] rest c rfl hc

theorem accept_append (hblanks : blanks.all isBlank = true) (hc : isBlank c = false) :
    accept c (blanks ++ c :: rest) = .ok (true, rest) := by
  rw [accept, bind_of_ok (skipBlanks_append hblanks hc), bind_of_ok (peek?_cons c rest), if_pos rfl]
  rfl

theorem accept_other {d : Char} (hblanks : blanks.all isBlank = true) (hc : isBlank c = false)
    (h : c ≠ d) : accept d (blanks ++ c :: rest) = .ok (false, c :: rest) := by
  have hother : some c ≠ some d := fun heq => h (Option.some.inj heq)
  rw [accept, bind_of_ok (skipBlanks_append hblanks hc), bind_of_ok (peek?_cons c rest),
    if_neg hother]
  rfl

theorem accept_cons_other {d : Char} (hc : isBlank c = false) (h : c ≠ d) :
    accept d (c :: rest) = .ok (false, c :: rest) := @accept_other [] rest c d rfl hc h

end Blanks

section Texts

private theorem hexUnit_hexDigits {n : Nat} (h : n < 32) (rest : List Char) :
    hexUnit (Bytes.hexDigits 4 n ++ rest) = .ok (n, rest) := by
  have hvalue : ∀ n < 32, Bytes.hexNumber? (Bytes.hexDigits 4 n) = some n := by decide
  have hdigits : Bytes.hexDigits 4 n = [Nat.digitChar (n / 16 / 16 / 16 % 16),
    Nat.digitChar (n / 16 / 16 % 16), Nat.digitChar (n / 16 % 16), Nat.digitChar (n % 16)] := rfl
  have hn := hvalue n h
  rw [hdigits] at hn ⊢
  change ofOption (Bytes.hexNumber? _) rest = _
  rw [hn]
  rfl

private theorem escaped_control {c : Char} (h : c.toNat < 32) (rest : List Char) :
    escaped ('u' :: (Bytes.hexDigits 4 c.toNat ++ rest)) = .ok (c, rest) := by
  change (if 'u' = 'u' then unicodeChar else ofOption (shortEscape? 'u'))
    (Bytes.hexDigits 4 c.toNat ++ rest) = _
  rw [if_pos rfl, unicodeChar, bind_of_ok (hexUnit_hexDigits h rest), if_neg, if_neg,
    Char.ofNat_toNat]
  · rfl
  all_goals
    simp only [Bool.and_eq_true, decide_eq_true_eq]
    omega

/-- The written form of a character is read as the character. -/
private theorem textEnd_escape (c : Char) (f : Char) (fuel rest : List Char) :
    textEnd (f :: fuel) (escape c ++ rest) =
      (do pure (c :: (← textEnd fuel)) : Reader Char (List Char)) rest := by
  have hshort : ∀ e, shortEscape? e = some c → escape c = ['\\', e] → e ≠ 'u' →
      textEnd (f :: fuel) (escape c ++ rest) =
        (do pure (c :: (← textEnd fuel)) : Reader Char (List Char)) rest := by
    intro e he hescape hu
    rw [hescape]
    change (escaped >>= fun c => do pure (c :: (← textEnd fuel)) : Reader Char (List Char))
      (e :: rest) = _
    refine bind_of_ok ?_
    change (if e = 'u' then unicodeChar else ofOption (shortEscape? e)) rest = _
    rw [if_neg hu, he]
    rfl
  by_cases hquote : c = '"'
  · subst hquote
    exact hshort '"' rfl rfl (by decide)
  by_cases hslash : c = '\\'
  · subst hslash
    exact hshort '\\' rfl rfl (by decide)
  by_cases hn : c = '\n'
  · subst hn
    exact hshort 'n' rfl rfl (by decide)
  by_cases hr : c = '\r'
  · subst hr
    exact hshort 'r' rfl rfl (by decide)
  by_cases ht : c = '\t'
  · subst ht
    exact hshort 't' rfl rfl (by decide)
  by_cases hb : c.toNat = 8
  · obtain rfl : c = Char.ofNat 8 := by rw [← hb, Char.ofNat_toNat]
    exact hshort 'b' rfl rfl (by decide)
  by_cases hf : c.toNat = 12
  · obtain rfl : c = Char.ofNat 12 := by rw [← hf, Char.ofNat_toNat]
    exact hshort 'f' rfl rfl (by decide)
  by_cases hcontrol : c.toNat < 32
  · have hescape : escape c = '\\' :: 'u' :: Bytes.hexDigits 4 c.toNat := by
      simp only [escape, hquote, hslash, hn, hr, ht, hb, hf, hcontrol, if_false, if_true]
    rw [hescape]
    change (escaped >>= fun c => do pure (c :: (← textEnd fuel)) : Reader Char (List Char))
      ('u' :: (Bytes.hexDigits 4 c.toNat ++ rest)) = _
    exact bind_of_ok (escaped_control hcontrol rest)
  · have hescape : escape c = [c] := by
      simp only [escape, hquote, hslash, hn, hr, ht, hb, hf, hcontrol, if_false]
    rw [hescape]
    change (if c = '"' then pure [] else if c = '\\' then _ else if c.toNat < 32 then fail
      else do pure (c :: (← textEnd fuel)) : Reader Char (List Char)) rest = _
    rw [if_neg hquote, if_neg hslash, if_neg hcontrol]

private theorem textEnd_append {cs fuel : List Char} (h : cs.length < fuel.length)
    (rest : List Char) :
    textEnd fuel (cs.flatMap escape ++ '"' :: rest) = .ok (cs, rest) := by
  induction cs generalizing fuel with
  | nil =>
    cases fuel with
    | nil => simp at h
    | cons f fuel => rfl
  | cons c cs ih =>
    cases fuel with
    | nil => simp at h
    | cons f fuel =>
      rw [List.flatMap_cons, List.append_assoc, textEnd_escape,
        bind_of_ok (ih (Nat.lt_of_succ_lt_succ h))]
      rfl

private theorem length_le_escape (cs : List Char) : cs.length ≤ (cs.flatMap escape).length := by
  induction cs with
  | nil => exact Nat.zero_le _
  | cons c cs ih =>
    have hpos : 1 ≤ (escape c).length := by
      unfold escape
      repeat' split
      all_goals simp
    rw [List.flatMap_cons, List.length_append, List.length_cons]
    omega

variable {blanks : List Char}

theorem quoted_append (hblanks : blanks.all isBlank = true) (s : String) (rest : List Char) :
    quoted (blanks ++ (quote s ++ rest)) = .ok (s, rest) := by
  have hopen : blanks ++ (quote s ++ rest) =
      blanks ++ '"' :: (s.toList.flatMap escape ++ '"' :: rest) := by simp [quote]
  have hfuel : s.toList.length < (s.toList.flatMap escape ++ '"' :: rest).length := by
    have := length_le_escape s.toList
    rw [List.length_append, List.length_cons]
    omega
  rw [hopen, quoted, bind_of_ok (expect_append hblanks (by decide))]
  change (textEnd (s.toList.flatMap escape ++ '"' :: rest) >>=
    fun cs => pure (String.ofList cs) : Reader Char String) _ = _
  rw [bind_of_ok (textEnd_append hfuel rest), String.ofList_toList]
  rfl

theorem accept_quote {c : Char} (hblanks : blanks.all isBlank = true) (hc : '"' ≠ c) (s : String)
    (rest : List Char) : accept c (blanks ++ (quote s ++ rest)) = .ok (false, quote s ++ rest) :=
  accept_other hblanks (by decide) hc

end Texts

section Numbers

theorem le_ofDigitChars (ds : List Char) (n : Nat) : n ≤ Nat.ofDigitChars 10 ds n := by
  rw [Nat.ofDigitChars_eq_ofDigitChars_zero]
  have hpow : 1 ≤ 10 ^ ds.length := Nat.one_le_pow _ _ (by decide)
  calc n = 1 * n := (Nat.one_mul n).symm
    _ ≤ 10 ^ ds.length * n := Nat.mul_le_mul_right n hpow
    _ ≤ _ := Nat.le_add_right _ _

/-- What follows the digits of a number does not carry them on. -/
def NoDigit (rest : List Char) : Prop := ∀ c ∈ rest.head?, c.isDigit = false

theorem Ended.noDigit {rest : List Char} (h : Ended rest) : NoDigit rest := by
  intro c hc
  obtain rfl | rfl := h c hc <;> rfl

theorem significandDigits_append {ds rest : List Char} {s : Nat} (n : Nat)
    (hds : ∀ c ∈ ds, c.isDigit = true) (hbound : Nat.ofDigitChars 10 ds s < UInt64.size)
    (hrest : NoDigit rest) :
    significandDigits s n (ds ++ rest) = (Nat.ofDigitChars 10 ds s, n + ds.length, rest) := by
  induction ds generalizing s n with
  | nil =>
    cases rest with
    | nil => rfl
    | cons c rest =>
      have hc := hrest c rfl
      simp [significandDigits, hc, Nat.ofDigitChars_nil]
  | cons d ds ih =>
    rw [Nat.ofDigitChars_cons] at hbound ⊢
    have hd := hds d List.mem_cons_self
    have hfits := Nat.lt_of_le_of_lt (le_ofDigitChars ds _) hbound
    have hnext := ih (n + 1) (fun c hc => hds c (List.mem_cons_of_mem _ hc)) hbound
    simp only [List.cons_append, significandDigits, hd, hfits, Bool.true_and, decide_true, if_true,
      hnext, List.length_cons]
    congr 2
    omega

theorem countDigits_noDigit {rest : List Char} (h : NoDigit rest) :
    countDigits rest = .ok (0, rest) := by
  cases rest with
  | nil => rfl
  | cons c rest =>
    have hc := h c rfl
    simp [countDigits, hc]

/-- Only zero is written with a leading zero. -/
theorem toDigits_leading {n : Nat} (hn : n ≠ 0) : ∀ c ∈ (Nat.toDigits 10 n).head?, c ≠ '0' := by
  induction n using Nat.strong_induction_on with
  | _ n ih =>
    obtain h | h := Nat.lt_or_ge n 10
    · rw [Nat.toDigits_of_lt_base h]
      rintro c ⟨⟩ hc
      exact hn (Nat.digitChar_eq_zero.1 hc)
    · rw [Nat.toDigits_of_base_le (by decide) h, List.head?_append_of_ne_nil _ Nat.toDigits_ne_nil]
      exact ih (n / 10) (Nat.div_lt_self (by omega) (by decide)) (by omega)

theorem wholePart_zero {rest : List Char} (hrest : NoDigit rest) :
    wholePart ('0' :: rest) = .ok ((0, 0), rest) := by
  change (if rest.head?.any Char.isDigit = true then fail else pure (0, 0) :
    Reader Char (Nat × Nat)) rest = _
  rw [if_neg]
  · rfl
  · cases rest with
    | nil => simp
    | cons c rest => simpa using hrest c rfl

theorem wholePart_digits {d : Char} (ds : List Char) {rest : List Char} (hdigits : ∀ c ∈ d :: ds, c.isDigit = true)
    (hlead : d ≠ '0') (hbound : Nat.ofDigitChars 10 (d :: ds) 0 < UInt64.size)
    (hrest : NoDigit rest) :
    wholePart (d :: (ds ++ rest)) = .ok ((Nat.ofDigitChars 10 (d :: ds) 0, 0), rest) := by
  have hvalue : Nat.ofDigitChars 10 (d :: ds) 0 =
      Nat.ofDigitChars 10 ds (d.toNat - '0'.toNat) := by
    rw [Nat.ofDigitChars_cons, Nat.mul_zero, Nat.zero_add]
  rw [hvalue] at hbound ⊢
  have hd := hdigits d List.mem_cons_self
  have hscan := significandDigits_append 1 (fun c hc => hdigits c (List.mem_cons_of_mem _ hc))
    hbound hrest
  simp only [wholePart]
  rw [bind_of_ok (show next (d :: (ds ++ rest)) = .ok (d, ds ++ rest) from rfl)]
  split
  · exact absurd rfl hlead
  · rw [if_pos hd, bind_of_ok (show (get : Reader Char (List Char)) (ds ++ rest) =
      .ok (ds ++ rest, ds ++ rest) from rfl), hscan]
    simp only
    rw [bind_of_ok (show (set rest : Reader Char PUnit) (ds ++ rest) = .ok (⟨⟩, rest) from rfl),
      bind_of_ok (countDigits_noDigit hrest)]
    rfl

theorem isDigit_of_mem_toDigits {n : Nat} : ∀ c ∈ Nat.toDigits 10 n, c.isDigit = true := fun _ hc =>
  Nat.isDigit_of_mem_toDigits (by decide) (by decide) hc

theorem wholePart_append {n : Nat} {rest : List Char} (hn : n < UInt64.size) (hrest : NoDigit rest) :
    wholePart (Nat.toDigits 10 n ++ rest) = .ok ((n, 0), rest) := by
  by_cases hzero : n = 0
  · subst hzero
    rw [Nat.toDigits_zero]
    exact wholePart_zero hrest
  · have hvalue := Nat.ofDigitChars_ten_toDigits (n := n)
    have hlead := toDigits_leading hzero
    have hdigits := isDigit_of_mem_toDigits (n := n)
    cases hds : Nat.toDigits 10 n with
    | nil => exact absurd hds Nat.toDigits_ne_nil
    | cons d ds =>
      rw [hds] at hvalue hlead hdigits
      have hwhole := wholePart_digits ds hdigits (hlead d rfl) (hvalue ▸ hn) hrest
      rwa [hvalue] at hwhole

theorem not_isBlank_of_isDigit {c : Char} (h : c.isDigit = true) : isBlank c = false := by
  by_contra hblank
  simp only [isBlank, Bool.not_eq_false, Bool.or_eq_true, decide_eq_true_eq] at hblank
  obtain ((rfl | rfl) | rfl) | rfl := hblank <;> simp at h

/-- A number after its sign. -/
theorem numeral_signed {blanks body rest : List Char} {negative : Bool} {d : Char}
    (hblanks : blanks.all isBlank = true) (hd : d.isDigit = true) :
    numeral (blanks ++ ((if negative then '-' :: d :: body else d :: body) ++ rest)) =
      unsignedNumeral negative (d :: (body ++ rest)) := by
  cases negative with
  | true =>
    rw [if_pos rfl, List.cons_append, numeral, bind_of_ok (skipBlanks_append hblanks (by decide)),
      bind_of_ok (peek?_cons _ _)]
    rfl
  | false =>
    have hminus : some d ≠ some '-' := by
      rintro ⟨⟩
      simp at hd
    rw [if_neg (by decide), List.cons_append, numeral,
      bind_of_ok (skipBlanks_append hblanks (not_isBlank_of_isDigit hd)), bind_of_ok (peek?_cons _ _)]
    simp only [hminus, decide_false]
    rfl

/-- The digits of a whole number after its sign. -/
theorem numeral_digits {blanks rest : List Char} {negative : Bool} {n : Nat}
    (hblanks : blanks.all isBlank = true) (hn : n < UInt64.size) (hrest : Ended rest) :
    numeral (blanks ++ ((if negative then '-' :: Nat.toDigits 10 n else Nat.toDigits 10 n) ++ rest)) =
      wholeNumeral negative n 0 rest := by
  have hwhole := wholePart_append hn hrest.noDigit
  have hdigits := isDigit_of_mem_toDigits (n := n)
  cases hds : Nat.toDigits 10 n with
  | nil => exact absurd hds Nat.toDigits_ne_nil
  | cons d ds =>
    rw [hds] at hwhole hdigits
    rw [numeral_signed hblanks (hdigits d List.mem_cons_self), unsignedNumeral]
    rw [List.cons_append] at hwhole
    rw [bind_of_ok hwhole]
    cases rest with
    | nil => rfl
    | cons c rest => obtain rfl | rfl := hrest c rfl <;> rfl

theorem numeral_append {blanks rest : List Char} {n : Nat} (hblanks : blanks.all isBlank = true)
    (hn : n < UInt64.size) (hrest : Ended rest) :
    numeral (blanks ++ (Nat.toDigits 10 n ++ rest)) = .ok (.natural n, rest) :=
  @numeral_digits _ _ false _ hblanks hn hrest

end Numbers

end Document

end TangledPrograms
