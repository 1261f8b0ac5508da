import Mathlib
import QuantumWorkbench.Text.Blank

/-!
# Parts of a text

A text that is split where a character stands is the join of its parts, and parts that do not have
that character are found again in their join. White space at the ends is lost when the ends are
trimmed, and only there; so a text can be trimmed before it is split or its parts afterwards.
-/

namespace QuantumWorkbench.Text

variable {sep : Char} {cs : List Char}

/-! ## Splitting -/

/-- Splitting is that of the library. -/
theorem splitAt_eq_splitOn (sep : Char) (cs : List Char) : splitAt sep cs = cs.splitOn sep := by
  induction cs with
  | nil => rfl
  | cons c cs ih =>
    rw [splitAt, List.splitOn_cons_eq_if_modifyHead, ih]
    by_cases hc : c = sep
    · rw [if_pos hc, if_pos (beq_iff_eq.2 hc)]
    · rw [if_neg hc, if_neg (fun h => hc (beq_iff_eq.1 h))]
      cases hparts : cs.splitOn sep with
      | nil => exact absurd hparts (List.splitOn_ne_nil _ _)
      | cons part parts => rfl

theorem intercalate_splitAt (sep : Char) (cs : List Char) :
    [sep].intercalate (splitAt sep cs) = cs := by
  rw [splitAt_eq_splitOn, List.intercalate_splitOn]

theorem splitAt_intercalate {parts : List (List Char)} (hparts : parts ≠ [])
    (hsep : ∀ part ∈ parts, sep ∉ part) : splitAt sep ([sep].intercalate parts) = parts := by
  rw [splitAt_eq_splitOn, List.splitOn_intercalate sep hsep hparts]

theorem splitAt_ne_nil : splitAt sep cs ≠ [] := by
  rw [splitAt_eq_splitOn]
  exact List.splitOn_ne_nil _ _

theorem splitAt_of_notMem (h : sep ∉ cs) : splitAt sep cs = [cs] := by
  have hsingle : splitAt sep ([sep].intercalate [cs]) = [cs] :=
    splitAt_intercalate (List.cons_ne_nil cs []) (by simpa using h)
  rwa [List.intercalate_singleton] at hsingle

theorem splitAt_append_cons (h : sep ∉ cs) (rest : List Char) :
    splitAt sep (cs ++ sep :: rest) = cs :: splitAt sep rest := by
  rw [splitAt_eq_splitOn, splitAt_eq_splitOn, List.splitOn_append_cons_self_of_not_mem h]

/-- Parts do not have the character that separates them. -/
theorem notMem_of_mem_splitAt {part : List Char} (h : part ∈ splitAt sep cs) : sep ∉ part := by
  induction cs generalizing part with
  | nil =>
    obtain rfl := List.mem_singleton.1 h
    exact List.not_mem_nil
  | cons c cs ih =>
    rw [splitAt] at h
    by_cases hc : c = sep
    · rw [if_pos hc, List.mem_cons] at h
      rcases h with rfl | h
      · exact List.not_mem_nil
      · exact ih h
    · rw [if_neg hc] at h
      -- the character joins the first of the later parts, and there always is one
      cases hparts : splitAt sep cs with
      | nil => exact absurd hparts splitAt_ne_nil
      | cons first parts =>
        rw [hparts] at h ih
        rcases List.mem_cons.1 h with rfl | h
        · exact List.not_mem_cons_of_ne_of_not_mem (Ne.symm hc) (ih List.mem_cons_self)
        · exact ih (List.mem_cons_of_mem first h)

/-- A join has the characters of its parts, and beside them only the one that separates them. -/
theorem mem_intercalate {c : Char} {parts : List (List Char)} :
    (∀ part ∈ parts, c ∈ part → c ∈ [sep].intercalate parts) ∧
      (c ∈ [sep].intercalate parts → c = sep ∨ ∃ part ∈ parts, c ∈ part) := by
  induction parts with
  | nil => simp
  | cons part parts ih =>
    cases parts with
    | nil => simpa using Or.inr
    | cons next parts =>
      obtain ⟨hof, hto⟩ := ih
      rw [List.intercalate_cons_cons]
      constructor
      · intro part' hpart' hc
        rcases List.mem_cons.1 hpart' with rfl | hpart'
        · exact List.mem_append_left _ (List.mem_append_left _ hc)
        · exact List.mem_append_right _ (hof part' hpart' hc)
      -- in the first part, between the parts, or in a later part
      · intro hc
        rcases List.mem_append.1 hc with hc | hc
        · rcases List.mem_append.1 hc with hc | hc
          · exact .inr ⟨part, List.mem_cons_self, hc⟩
          · exact .inl (List.mem_singleton.1 hc)
        · rcases hto hc with hsep | ⟨part', hpart', hc⟩
          · exact .inl hsep
          · exact .inr ⟨part', List.mem_cons_of_mem part hpart', hc⟩

/-! ## White space at the ends -/

/-- All of a text is white space. -/
def IsBlanks (cs : List Char) : Prop := ∀ c ∈ cs, isBlank c = true

/-- White space at the ends does not outlast trimming. -/
theorem trimChars_append {l r : List Char} (hl : IsBlanks l) (hr : IsBlanks r) :
    trimChars (l ++ cs ++ r) = trimChars cs := by
  have hdrop : r.dropWhile isBlank = [] := List.dropWhile_eq_nil_iff.2 hr
  have hend : (r.reverse ++ (cs.dropWhile isBlank).reverse).dropWhile isBlank =
      (cs.dropWhile isBlank).reverse.dropWhile isBlank :=
    List.dropWhile_append_of_pos fun c hc => hr c (List.mem_reverse.1 hc)
  rw [trimChars, trimChars, List.append_assoc, List.dropWhile_append_of_pos hl,
    List.dropWhile_append]
  split
  · next hblank =>
    rw [List.isEmpty_iff.1 hblank, hdrop]
  · rw [List.reverse_append, hend]

theorem trimChars_of_forall_not (h : ∀ c ∈ cs, isBlank c = false) : trimChars cs = cs := by
  have hdrop : ∀ ds : List Char, (∀ c ∈ ds, isBlank c = false) → ds.dropWhile isBlank = ds := by
    intro ds hds
    cases ds with
    | nil => rfl
    | cons d ds => rw [List.dropWhile_cons_of_neg (by simp [hds d List.mem_cons_self])]
  rw [trimChars, hdrop cs h, hdrop _ (fun c hc => h c (List.mem_reverse.1 hc)), List.reverse_reverse]

/-- A text is what trimming leaves, between white space. -/
theorem exists_eq_append_trimChars (cs : List Char) :
    ∃ l r, IsBlanks l ∧ IsBlanks r ∧ cs = l ++ trimChars cs ++ r := by
  have hfront := List.takeWhile_append_dropWhile (p := isBlank) (l := cs)
  have hback := List.takeWhile_append_dropWhile (p := isBlank)
    (l := (cs.dropWhile isBlank).reverse)
  refine ⟨cs.takeWhile isBlank, ((cs.dropWhile isBlank).reverse.takeWhile isBlank).reverse,
    fun c hc => List.mem_takeWhile_imp hc,
    fun c hc => List.mem_takeWhile_imp (List.mem_reverse.1 hc), ?_⟩
  rw [trimChars, List.append_assoc, ← List.reverse_append, hback, List.reverse_reverse, hfront]

/-! ## Trimming parts -/

section

variable (hsep : isBlank sep = false)
include hsep

theorem notMem_of_isBlanks (h : IsBlanks cs) : sep ∉ cs := fun hmem => by
  rw [h sep hmem] at hsep
  cases hsep

/-- White space in front of a text only reaches its first part. -/
theorem map_trimChars_splitAt_append_left {l : List Char} (hl : IsBlanks l) :
    (splitAt sep (l ++ cs)).map trimChars = (splitAt sep cs).map trimChars := by
  induction l with
  | nil => rfl
  | cons c l ih =>
    obtain ⟨hc, hl⟩ := List.forall_mem_cons.1 hl
    have hne : c ≠ sep := fun h => by
      rw [h, hsep] at hc
      cases hc
    have htrim : ∀ part, trimChars (c :: part) = trimChars part := fun part => by
      have h : trimChars ([c] ++ part ++ []) = trimChars part := trimChars_append
        (List.forall_mem_singleton.2 hc) (fun _ h => absurd h List.not_mem_nil)
      rwa [List.append_nil] at h
    rw [← ih hl, List.cons_append, splitAt, if_neg hne]
    cases hparts : splitAt sep (l ++ cs) with
    | nil => exact absurd hparts splitAt_ne_nil
    | cons part parts => rw [List.map_cons, List.map_cons, htrim]

/-- White space behind a text only reaches its last part. -/
theorem exists_splitAt_append_right {r : List Char} (hr : IsBlanks r) (cs : List Char) :
    ∃ parts last, splitAt sep cs = parts ++ [last] ∧
      splitAt sep (cs ++ r) = parts ++ [last ++ r] := by
  induction cs with
  | nil => exact ⟨[], [], rfl, splitAt_of_notMem (notMem_of_isBlanks hsep hr)⟩
  | cons c cs ih =>
    obtain ⟨parts, last, hcs, hcsr⟩ := ih
    rw [List.cons_append, splitAt, splitAt, hcs, hcsr]
    by_cases hc : c = sep
    · rw [if_pos hc, if_pos hc]
      exact ⟨[] :: parts, last, rfl, rfl⟩
    · rw [if_neg hc, if_neg hc]
      cases parts with
      | nil => exact ⟨[], c :: last, rfl, rfl⟩
      | cons part parts => exact ⟨(c :: part) :: parts, last, rfl, rfl⟩

/-- **Parts are trimmed alike** whether the text is trimmed before or not. -/
theorem map_trimChars_splitAt_trimChars (cs : List Char) :
    (splitAt sep (trimChars cs)).map trimChars = (splitAt sep cs).map trimChars := by
  obtain ⟨l, r, hl, hr, hcs⟩ := exists_eq_append_trimChars cs
  obtain ⟨parts, last, hparts, hparts'⟩ := exists_splitAt_append_right hsep hr (trimChars cs)
  have hlast : trimChars (last ++ r) = trimChars last :=
    trimChars_append (l := []) (fun _ h => absurd h List.not_mem_nil) hr
  conv_rhs => rw [hcs, List.append_assoc, map_trimChars_splitAt_append_left hsep hl, hparts']
  rw [hparts, List.map_append, List.map_append, List.map_singleton, List.map_singleton, hlast]

/-- Parts are found again in a join that has white space around the places where they meet. -/
theorem map_trimChars_splitAt_intercalate {l r : List Char} (hl : IsBlanks l) (hr : IsBlanks r)
    {parts : List (List Char)} (hparts : parts ≠ []) (hnot : ∀ part ∈ parts, sep ∉ part) :
    (splitAt sep ((l ++ sep :: r).intercalate parts)).map trimChars = parts.map trimChars := by
  induction parts with
  | nil => exact absurd rfl hparts
  | cons part parts ih =>
    obtain ⟨hpart, hnot⟩ := List.forall_mem_cons.1 hnot
    cases parts with
    | nil => rw [List.intercalate_singleton, splitAt_of_notMem hpart]
    | cons next parts =>
      -- the white space before a sign goes to the part in front, that after it to the next one
      have hfirst : sep ∉ part ++ l :=
        List.not_mem_append hpart (notMem_of_isBlanks hsep hl)
      have htrim : trimChars (part ++ l) = trimChars part :=
        trimChars_append (l := []) (fun _ h => absurd h List.not_mem_nil) hl
      have hjoin : (l ++ sep :: r).intercalate (part :: next :: parts) =
          (part ++ l) ++ sep :: (r ++ (l ++ sep :: r).intercalate (next :: parts)) := by
        simp [List.intercalate_cons_cons]
      rw [hjoin, splitAt_append_cons hfirst, List.map_cons, htrim,
        map_trimChars_splitAt_append_left hsep hr, ih (List.cons_ne_nil _ _) hnot]
      rfl

end

end QuantumWorkbench.Text
