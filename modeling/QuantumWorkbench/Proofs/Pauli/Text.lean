import Mathlib
import QuantumWorkbench.Proofs.Decimal.Characters
import QuantumWorkbench.Proofs.Double.Exact
import QuantumWorkbench.Proofs.Pauli.Reading

/-!
# Sums read back from their text

The text of a product has its coefficient and its factors as pieces. None of them has white space or
a sign that pieces are cut at, so a text is cut where it was joined; and a letter that names a Pauli
matrix starts no number, so each piece is read as what it was written for.
-/

namespace QuantumWorkbench

/-! ## Letters and digits -/

namespace Pauli

variable {piece : List Char} {f : PauliFactor}

theorem factor?_eq_some_iff : factor? piece = some f ↔
    ∃ c cs, piece = c :: cs ∧ ofLetter? c.toUpper = some f.1 ∧ index? cs = some f.2 := by
  cases piece with
  | nil => simp [factor?]
  | cons c cs =>
    obtain ⟨p, q⟩ := f
    cases hp : ofLetter? c.toUpper <;> cases hq : index? cs <;> simp [factor?, hp, hq]

/-- A factor starts with a letter that starts no word. -/
theorem number?_of_factor? (h : factor? piece = some f) : PauliTerm.number? Float piece = none := by
  obtain ⟨c, cs, rfl, hletter, -⟩ := factor?_eq_some_iff.1 h
  have hupper : f.1.letter = c.toUpper := by simpa using List.find?_some hletter
  have halpha : c.isAlpha = true := by
    rw [← Char.isAlpha_toUpper_eq_isAlpha, ← hupper]
    cases f.1 <;> rfl
  have hlower : c.toLower = f.1.letter.toLower := by
    rw [hupper, Char.toLower_toUpper_eq_toLower]
  have hi : c.toLower ≠ 'i' := by
    rw [hlower]
    cases f.1 <;> decide
  have hn : c.toLower ≠ 'n' := by
    rw [hlower]
    cases f.1 <;> decide
  have hread : (NumberText.read? : String → Option Float) = Decimal.read? := rfl
  rw [PauliTerm.number?, hread, Decimal.read?_eq_none halpha hi hn]

/-- No piece is a number as well as a factor. -/
theorem named?_eq_factor? : PauliTerm.named? Float = factor? := by
  funext piece
  rw [PauliTerm.named?]
  split
  · next hnumber =>
    cases h : factor? piece with
    | none => rfl
    | some f =>
      rw [number?_of_factor? h] at hnumber
      cases hnumber
  · rfl

theorem index?_toDigits {q : ℕ} (hq : q < Index.limit) : index? (Nat.toDigits 10 q) = some q := by
  have hdigits : (Nat.toDigits 10 q).all Char.isDigit = true :=
    List.all_eq_true.2 fun c hc => Nat.isDigit_of_mem_toDigits (by decide) (by decide) hc
  have hne : (Nat.toDigits 10 q).isEmpty = false :=
    List.isEmpty_eq_false_iff.2 Nat.toDigits_ne_nil
  simp [index?, hdigits, hne, Decimal.natOfDigits_toDigits, Index.checked?, hq]

end Pauli

namespace PauliFactor

theorem toList_text (f : PauliFactor) : (text f).toList = f.1.letter :: Nat.toDigits 10 f.2 := by
  rw [text, String.toList_append, String.toList_ofList, Nat.toString_eq_ofList_toDigits,
    String.toList_ofList, List.singleton_append]

theorem isPlainText_text (f : PauliFactor) : Decimal.IsPlainText (text f) := by
  intro c hc
  rw [toList_text] at hc
  rcases List.mem_cons.1 hc with rfl | hc
  · cases f.1 <;> decide
  · exact Decimal.isPlain_of_isDigit (Nat.isDigit_of_mem_toDigits (by decide) (by decide) hc)

/-- **A factor is read back from its text.** -/
theorem factor?_text {f : PauliFactor} (hf : f.2 < Index.limit) :
    Pauli.factor? (text f).toList = some f := by
  rw [toList_text, Pauli.factor?_eq_some_iff]
  refine ⟨_, _, rfl, ?_, Pauli.index?_toDigits hf⟩
  cases f.1 <;> rfl

end PauliFactor

/-! ## Pieces of a text -/

namespace PauliTerm

/-- The pieces of the text of a product: its coefficient, then its factors. -/
def spelling (t : PauliTerm Float) : List (List Char) :=
  (NumberText.shortest t.coefficient).toList :: t.factors.map fun f => f.text.toList

theorem toList_text (t : PauliTerm Float) : t.text.toList = ['*'].intercalate t.spelling := by
  have hrest : ∀ (cs : List Char) (fs : List PauliFactor),
      ['*'].intercalate (cs :: fs.map fun f => f.text.toList) =
        cs ++ fs.flatMap fun f => '*' :: f.text.toList := by
    intro cs fs
    induction fs generalizing cs with
    | nil => simp
    | cons f fs ih => simp [List.intercalate_cons_cons, ih]
  rw [text, String.toList_append, String.toList_join, List.flatMap_map, spelling, hrest]
  simp [String.toList_append]

theorem isPlain_of_mem_spelling {t : PauliTerm Float} {piece : List Char}
    (h : piece ∈ t.spelling) : ∀ c ∈ piece, Decimal.IsPlain c := by
  rcases List.mem_cons.1 h with rfl | h
  · exact Decimal.isPlainText_shortest t.coefficient
  · obtain ⟨f, -, rfl⟩ := List.mem_map.1 h
    exact f.isPlainText_text

theorem plus_notMem_text (t : PauliTerm Float) : '+' ∉ t.text.toList := by
  intro hmem
  rw [toList_text] at hmem
  rcases Text.mem_intercalate.2 hmem with hstar | ⟨piece, hpiece, hmem⟩
  · exact absurd hstar (by decide)
  · exact (isPlain_of_mem_spelling hpiece _ hmem).2.1 rfl

/-- The text of a product is cut where it was joined. -/
theorem map_trimChars_splitAt_text (t : PauliTerm Float) :
    (Text.splitAt '*' t.text.toList).map Text.trimChars = t.spelling := by
  have hstar : ∀ piece ∈ t.spelling, '*' ∉ piece :=
    fun piece hpiece hmem => (isPlain_of_mem_spelling hpiece _ hmem).2.2 rfl
  have htrim : ∀ piece ∈ t.spelling, Text.trimChars piece = piece := fun piece hpiece =>
    Text.trimChars_of_forall_not fun c hc => (isPlain_of_mem_spelling hpiece c hc).1
  have hne : t.spelling ≠ [] := List.cons_ne_nil _ _
  rw [toList_text, Text.splitAt_intercalate hne hstar]
  exact (List.map_congr_left htrim).trans (List.map_id _)

/-- What it means that a product can be read back from its text: its factors are sorted by strictly
increasing qubit, their qubits are indices, and its coefficient is a number that is read back. -/
structure IsReadable (t : PauliTerm Float) : Prop where
  sorted : (t.factors.map Prod.snd).Pairwise (· < ·)
  index : ∀ f ∈ t.factors, f.2 < Index.limit
  defined : t.coefficient.isNaN = false
  coefficient : NumberText.read? (NumberText.shortest t.coefficient) = some t.coefficient

/-- **A product is read back from its pieces.** -/
theorem IsReadable.isReadFrom_spelling {t : PauliTerm Float} (h : t.IsReadable) :
    t.IsReadFrom t.spelling := by
  -- the first piece is the only number, and the other pieces are the factors in their order
  have hnumber : number? Float (NumberText.shortest t.coefficient).toList = some t.coefficient := by
    rw [number?, String.ofList_toList, h.coefficient]
  have hfactor : ∀ f ∈ t.factors, Pauli.factor? f.text.toList = some f :=
    fun f hf => f.factor?_text (h.index f hf)
  have hnumbers : (t.factors.map fun f => f.text.toList).filterMap (number? Float) = [] := by
    rw [List.filterMap_eq_nil_iff]
    rintro _ hpiece
    obtain ⟨f, hf, rfl⟩ := List.mem_map.1 hpiece
    exact Pauli.number?_of_factor? (hfactor f hf)
  have hnamed : t.spelling.filterMap (named? Float) = t.factors := by
    have hfirst : named? Float (NumberText.shortest t.coefficient).toList = none := by
      rw [named?, hnumber]
      rfl
    rw [spelling, List.filterMap_cons_none hfirst, List.filterMap_map, Pauli.named?_eq_factor?]
    exact (List.filterMap_congr hfactor).trans (List.filterMap_some)
  refine ⟨fun hblank => ?_, fun piece hpiece => ?_, ?_, ?_, h.sorted⟩
  · -- a text without characters is no number
    have hempty := (List.cons.inj hblank).1
    rw [hempty] at hnumber
    cases hnumber
  · rcases List.mem_cons.1 hpiece with rfl | hpiece
    · exact .inl (by rw [hnumber]; rfl)
    · obtain ⟨f, hf, rfl⟩ := List.mem_map.1 hpiece
      exact .inr (by rw [Pauli.named?_eq_factor?, hfactor f hf]; rfl)
  · rw [spelling, List.filterMap_cons_some hnumber, hnumbers]
    exact (Double.one_mul_eq h.defined).symm
  · rw [hnamed]

end PauliTerm

namespace Hamiltonian

theorem toList_text (h : Hamiltonian Float) :
    h.text.toList = ([' '] ++ '+' :: [' ']).intercalate (h.terms.map fun t => t.text.toList) := by
  rw [text, String.toList_intercalate, List.map_map]
  rfl

/-- A text is cut where it was joined. -/
theorem pieces_text {h : Hamiltonian Float} (hterms : h.terms ≠ []) :
    pieces h.text = h.terms.map PauliTerm.spelling := by
  have hplus : ∀ part ∈ h.terms.map fun t => t.text.toList, '+' ∉ part := by
    rintro _ hpart
    obtain ⟨t, -, rfl⟩ := List.mem_map.1 hpart
    exact t.plus_notMem_text
  -- the blanks beside the signs of the sum are trimmed away
  have hblank : Text.IsBlanks [' '] := List.forall_mem_singleton.2 (by decide)
  have hparts := Text.map_trimChars_splitAt_intercalate isBlank_plus hblank hblank
    (fun hnil => hterms (List.map_eq_nil_iff.1 hnil)) hplus
  rw [pieces_eq, toList_text, hparts, List.map_map, List.map_map]
  refine List.map_congr_left fun t _ => ?_
  rw [Function.comp_apply, Function.comp_apply,
    Text.map_trimChars_splitAt_trimChars isBlank_star, t.map_trimChars_splitAt_text]

/-- **A sum is read back from its text.** -/
theorem read_text {h : Hamiltonian Float} (hterms : h.terms ≠ [])
    (hreadable : ∀ t ∈ h.terms, t.IsReadable) : read h.text = .ok h := by
  rw [read_eq_ok_iff, pieces_text hterms, List.forall₂_map_left_iff, List.forall₂_same]
  exact fun t ht => (hreadable t ht).isReadFrom_spelling

/-- **Texts of Hamiltonians.** A sum of at least one product is read back from its text, where each
product was made of factors whose qubits are indices and has a finite coefficient that is itself
read back from its text. The products that are read from any text have their qubits in strictly
increasing order. The text is the join of its pieces, and the same products are read where the
factors of each are joined in another order and where white space is written around pieces. A text
with a product that names a qubit twice is refused. -/
theorem text_roundTrip :
    (∀ h : Hamiltonian Float, h.terms ≠ [] →
      (∀ t ∈ h.terms,
        (∃ coefficient fs, PauliTerm.make coefficient fs = .ok t ∧ ∀ f ∈ fs, f.2 < Index.limit) ∧
        t.coefficient.isFinite = true ∧
        NumberText.read? (NumberText.shortest t.coefficient) = some t.coefficient) →
      read h.text = .ok h) ∧
    (∀ (text : String) (h : Hamiltonian Float), read text = .ok h →
      (∀ t ∈ h.terms, (t.factors.map Prod.snd).Pairwise (· < ·)) ∧
      join (cut text) = text ∧
      (∀ products, Rearranged Float (cut text) products → read (join products) = .ok h) ∧
      (∀ products, Spaced (cut text) products → read (join products) = .ok h)) ∧
    (∀ text : String, ∀ ps ∈ pieces text,
      ¬ ((ps.filterMap Pauli.factor?).map Prod.snd).Nodup →
      ∃ e : TaskError Float, read text = .error e) := by
  refine ⟨fun h hterms hmade => ?_, fun text h hread => ⟨?_, join_cut text, ?_, ?_⟩,
    fun text ps hps hrepeated => ?_⟩
  · refine read_text hterms fun t ht => ?_
    obtain ⟨⟨coefficient, fs, hmake, hindex⟩, hfinite, hcoefficient⟩ := hmade t ht
    obtain ⟨-, hfactors, hsorted⟩ := PauliTerm.make_eq_ok_iff.1 hmake
    exact ⟨hsorted, fun f hf => hindex f (hfactors.mem_iff.1 hf), Double.isNaN_of_isFinite hfinite,
      hcoefficient⟩
  · intro t ht
    obtain ⟨_, hread⟩ := (exists_isReadFrom hread).1 t ht
    exact hread.sorted
  · exact fun products hproducts => read_join_of_rearranged hread hproducts
  · exact fun products hproducts => read_join_of_spaced hread hproducts
  · exact exists_read_eq_error hps (Pauli.named?_eq_factor? ▸ hrepeated)

/-- Half of a product of two matrices, less a constant. -/
def shiftedPair : Hamiltonian Float := ⟨[⟨0.5, [(.x, 0), (.z, 3)]⟩, ⟨-1.25, []⟩]⟩

/-- The sum is read back from its text; a product of two factors is read alike with the factors
swapped and with a blank around their sign; and it is refused where both name the same qubit. -/
theorem text_roundTrip_shiftedPair :
    read shiftedPair.text = .ok shiftedPair ∧
    (read "X1*Y0" : Except (TaskError Float) _) = .ok ⟨[⟨1, [(.y, 0), (.x, 1)]⟩]⟩ ∧
    (read (join [[['Y', '0'], ['X', '1']]]) : Except (TaskError Float) _) =
      .ok ⟨[⟨1, [(.y, 0), (.x, 1)]⟩]⟩ ∧
    (read (join [[['X', '1', ' '], [' ', 'Y', '0']]]) : Except (TaskError Float) _) =
      .ok ⟨[⟨1, [(.y, 0), (.x, 1)]⟩]⟩ ∧
    ∃ e : TaskError Float, read "X1*Y1" = .error e := by
  have hpair : (read "X1*Y0" : Except (TaskError Float) _) =
      .ok ⟨[⟨1, [(.y, 0), (.x, 1)]⟩]⟩ := rfl
  have hblanks : Text.IsBlanks [' '] := List.forall_mem_singleton.2 (by decide)
  have hnone : Text.IsBlanks [] := fun _ h => absurd h List.not_mem_nil
  obtain ⟨-, -, hrearranged, hspaced⟩ := text_roundTrip.2.1 _ _ hpair
  refine ⟨text_roundTrip.1 shiftedPair (List.cons_ne_nil _ _) ?_, hpair, hrearranged _ ?_,
    hspaced _ ?_, text_roundTrip.2.2 "X1*Y1" [['X', '1'], ['Y', '1']] ?_ (by decide)⟩
  · intro t ht
    rcases List.mem_cons.1 ht with rfl | ht
    · exact ⟨⟨0.5, [(.z, 3), (.x, 0)], rfl, by decide⟩, rfl, rfl⟩
    · obtain rfl := List.mem_singleton.1 ht
      exact ⟨⟨-1.25, [], rfl, by decide⟩, rfl, rfl⟩
  · exact .cons ⟨.swap _ _ _, rfl⟩ .nil
  · exact .cons (.cons ⟨[], [' '], hnone, hblanks, rfl⟩
      (.cons ⟨[' '], [], hblanks, hnone, rfl⟩ .nil)) .nil
  · exact List.mem_singleton_self _

end Hamiltonian

end QuantumWorkbench
