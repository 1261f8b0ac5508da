import Mathlib
import QuantumWorkbench.Decimal.Reading
import QuantumWorkbench.Text.Blank

/-!
# Characters of numbers

The text of a number has digits, a sign, a point or the letters of a word, but neither white space
nor the signs of a sum or a product. The digits of a natural number spell it.
-/

namespace QuantumWorkbench.Decimal

/-- A character that is neither white space nor a sign of a sum or a product. -/
def IsPlain (c : Char) : Prop := Text.isBlank c = false ∧ c ≠ '+' ∧ c ≠ '*'

instance : DecidablePred IsPlain := fun c =>
  inferInstanceAs (Decidable (Text.isBlank c = false ∧ c ≠ '+' ∧ c ≠ '*'))

theorem toNat_of_isDigit {c : Char} (h : c.isDigit = true) : 48 ≤ c.toNat ∧ c.toNat ≤ 57 := by
  simpa [Char.isDigit, UInt32.le_iff_toNat_le] using h

theorem isPlain_of_isDigit {c : Char} (h : c.isDigit = true) : IsPlain c := by
  obtain ⟨hlow, hhigh⟩ := toNat_of_isDigit h
  refine ⟨?_, ?_, ?_⟩
  · simp only [Text.isBlank]
    simp
    omega
  · rintro rfl
    exact absurd hlow (by decide)
  · rintro rfl
    exact absurd hlow (by decide)

/-- All characters of a text are plain. -/
def IsPlainText (s : String) : Prop := ∀ c ∈ s.toList, IsPlain c

theorem IsPlainText.append {s t : String} (hs : IsPlainText s) (ht : IsPlainText t) :
    IsPlainText (s ++ t) := by
  rw [IsPlainText, String.toList_append]
  exact List.forall_mem_append.2 ⟨hs, ht⟩

theorem isPlainText_ofList {cs : List Char} (h : ∀ c ∈ cs, c.isDigit = true) :
    IsPlainText (String.ofList cs) := by
  rw [IsPlainText, String.toList_ofList]
  exact fun c hc => isPlain_of_isDigit (h c hc)

theorem isPlainText_toString (n : ℕ) : IsPlainText (toString n) := by
  rw [Nat.toString_eq_ofList_toDigits]
  exact isPlainText_ofList fun c hc => Nat.isDigit_of_mem_toDigits (by decide) (by decide) hc

/-- Zeros beside digits are digits. -/
theorem isDigit_of_mem_replicate {n : ℕ} {c : Char} (h : c ∈ List.replicate n '0') :
    c.isDigit = true := by
  rw [List.eq_of_mem_replicate h]
  rfl

theorem isPlainText_placePoint (places n : ℕ) : IsPlainText (placePoint places n) := by
  rw [placePoint]
  split
  · exact isPlainText_toString n
  · have hpoint : IsPlainText "." := by simp [IsPlainText, IsPlain, Text.isBlank]
    refine ((isPlainText_toString _).append hpoint).append (isPlainText_ofList ?_)
    exact List.forall_mem_append.2 ⟨fun c => isDigit_of_mem_replicate,
      fun c hc => Nat.isDigit_of_mem_toDigits (by decide) (by decide) hc⟩

theorem isPlainText_positional (n : ℕ) (k : ℤ) : IsPlainText (positional n k) := by
  rw [positional]
  split
  · exact (isPlainText_toString n).append (isPlainText_ofList fun c => isDigit_of_mem_replicate)
  · exact isPlainText_placePoint _ _

/-- **The text of a double is plain.** -/
theorem isPlainText_shortest (x : Float) : IsPlainText (shortest x) := by
  have hempty : IsPlainText "" := by simp [IsPlainText]
  have hminus : IsPlainText "-" := by simp [IsPlainText, IsPlain, Text.isBlank]
  have hzero : IsPlainText "0" := by simp [IsPlainText, IsPlain, Text.isBlank]
  have hinf : IsPlainText "inf" := by simp [IsPlainText, IsPlain, Text.isBlank]
  have hminusInf : IsPlainText "-inf" := by simp [IsPlainText, IsPlain, Text.isBlank]
  have hnan : IsPlainText "NaN" := by simp [IsPlainText, IsPlain, Text.isBlank]
  rw [shortest]
  split
  · exact hnan
  · split
    · exact hminusInf
    · exact hinf
  · refine IsPlainText.append ?_ ?_
    · split
      · exact hminus
      · exact hempty
    · split
      · exact hzero
      · exact isPlainText_positional _ _

/-- **The digits of a number spell it.** -/
theorem natOfDigits_toDigits (n : ℕ) : natOfDigits (Nat.toDigits 10 n) = n :=
  Nat.ofDigitChars_ten_toDigits

/-! ## Texts that are no number -/

/-- A text is not a word that starts with another character. -/
theorem ofList_cons_ne {c d : Char} (h : c ≠ d) (cs ds : List Char) :
    String.ofList (c :: cs) ≠ String.ofList (d :: ds) := fun heq =>
  h (List.cons.inj (String.ofList_injective heq)).1

/-- A text that starts with a letter is no number, unless it starts as one of the words does. -/
theorem read?_eq_none {c : Char} (hletter : c.isAlpha = true) (hi : c.toLower ≠ 'i')
    (hn : c.toLower ≠ 'n') (cs : List Char) : read? (String.ofList (c :: cs)) = none := by
  have hne : ∀ d : Char, d.isAlpha = false → c ≠ d := by
    rintro d hd rfl
    rw [hletter] at hd
    cases hd
  have hdigit : c.isDigit = false := by
    by_contra h
    obtain ⟨hlow, hhigh⟩ := toNat_of_isDigit (Bool.eq_true_of_not_eq_false h)
    simp [Char.isAlpha, Char.isUpper, Char.isLower, UInt32.le_iff_toNat_le] at hletter
    omega
  -- neither a sign nor a digit is split off, and what is left starts no fraction
  have hsign : spanSign (c :: cs) = (false, c :: cs) := by
    rw [spanSign.eq_3]
    · exact fun _ h => hne '-' rfl (List.cons.inj h).1
    · exact fun _ h => hne '+' rfl (List.cons.inj h).1
  have hdigits : spanDigits (c :: cs) = ([], c :: cs) := by
    rw [spanDigits, List.takeWhile_cons_of_neg (by simp [hdigit]),
      List.dropWhile_cons_of_neg (by simp [hdigit])]
  have hunsigned : readUnsigned (c :: cs) = none := by
    simp [readUnsigned, hdigits, hne '.' rfl]
  have hinf : String.ofList ((c :: cs).map Char.toLower) ≠ "inf" :=
    ofList_cons_ne hi _ ['n', 'f']
  have hinfinity : String.ofList ((c :: cs).map Char.toLower) ≠ "infinity" :=
    ofList_cons_ne hi _ ['n', 'f', 'i', 'n', 'i', 't', 'y']
  have hnan : String.ofList ((c :: cs).map Char.toLower) ≠ "nan" :=
    ofList_cons_ne hn _ ['a', 'n']
  simp only [read?, String.toList_ofList, hsign, hunsigned, hinf, hinfinity, hnan, decide_false,
    Bool.or_self, Bool.false_eq_true, if_false, Option.map_none]

end QuantumWorkbench.Decimal
