import Mathlib
import QuantumWorkbench.Pauli.Text
import QuantumWorkbench.Proofs.Pauli.Product
import QuantumWorkbench.Proofs.Text.Parts

/-!
# What is read from a text

A text is cut into pieces, and what is read from it only depends on them. Each piece is a number or
a factor; the numbers of a product are multiplied in their order, and the factors sorted, so that
the order in which factors are written does not show. White space around pieces belongs to none of
them.
-/

namespace QuantumWorkbench

/-- A list is mapped with success exactly where each item is. -/
theorem mapM_eq_ok_iff {ε β γ : Type} {f : β → Except ε γ} {bs : List β} {cs : List γ} :
    bs.mapM f = .ok cs ↔ List.Forall₂ (fun b c => f b = .ok c) bs cs := by
  induction bs generalizing cs with
  | nil =>
    rw [List.mapM_nil, List.forall₂_nil_left_iff]
    exact ⟨fun h => (Except.ok.inj h).symm, fun h => h ▸ rfl⟩
  | cons b bs ih =>
    rw [List.mapM_cons, bind_eq_ok, List.forall₂_cons_left_iff]
    constructor
    · rintro ⟨c, hc, hrest⟩
      obtain ⟨cs', hcs', h⟩ := bind_eq_ok.1 hrest
      exact ⟨c, cs', hc, ih.1 hcs', (Except.ok.inj h).symm⟩
    · rintro ⟨c, cs', hc, hcs', rfl⟩
      exact ⟨c, hc, bind_eq_ok.2 ⟨cs', ih.2 hcs', rfl⟩⟩

/-- Lists whose items have the same images one by one. -/
theorem map_eq_map_of_forall₂ {β γ δ : Type} {f : β → δ} {g : γ → δ} {bs : List β} {cs : List γ}
    (h : List.Forall₂ (fun b c => f b = g c) bs cs) : bs.map f = cs.map g := by
  have heq : List.Forall₂ Eq (bs.map f) (cs.map g) :=
    List.forall₂_map_left_iff.2 (List.forall₂_map_right_iff.2 h)
  rwa [List.forall₂_eq_eq_eq] at heq

/-- What all items of a list have goes over to those that are related to them. -/
theorem forall_mem_of_forall₂ {β γ : Type} {R : β → γ → Prop} {P : β → Prop} {Q : γ → Prop}
    {bs : List β} {cs : List γ} (h : List.Forall₂ R bs cs) (hbs : ∀ b ∈ bs, P b)
    (hR : ∀ b c, R b c → P b → Q c) : ∀ c ∈ cs, Q c := by
  induction h with
  | nil => exact fun _ h => absurd h List.not_mem_nil
  | cons hfirst _ ih =>
    obtain ⟨hb, hbs⟩ := List.forall_mem_cons.1 hbs
    exact List.forall_mem_cons.2 ⟨hR _ _ hfirst hb, ih hbs⟩

variable {α : Type} [Scalar α] [NumberText α]

/-- The sign of a product is no white space. -/
theorem isBlank_star : Text.isBlank '*' = false := by decide

/-- The sign of a sum is no white space. -/
theorem isBlank_plus : Text.isBlank '+' = false := by decide

/-! ## Pieces of a product -/

namespace PauliTerm

/-- The number that a piece of a product spells. -/
def number? (α : Type) [NumberText α] (piece : List Char) : Option α :=
  NumberText.read? (String.ofList piece)

/-- The factor that a piece of a product spells, unless it is a number. -/
def named? (α : Type) [NumberText α] (piece : List Char) : Option PauliFactor :=
  if (number? α piece).isSome then none else Pauli.factor? piece

/-- What it means that a product is read from pieces: each piece is a number or a factor, the
coefficient multiplies the numbers in their order, and the factors are those of the pieces, sorted
by strictly increasing qubit. A single piece without text is no product. -/
structure IsReadFrom (t : PauliTerm α) (pieces : List (List Char)) : Prop where
  nonblank : pieces ≠ [[]]
  readable : ∀ piece ∈ pieces, (number? α piece).isSome ∨ (named? α piece).isSome
  coefficient : t.coefficient = (pieces.filterMap (number? α)).foldl (· * ·) 1
  factors : t.factors.Perm (pieces.filterMap (named? α))
  sorted : (t.factors.map Prod.snd).Pairwise (· < ·)

/-- Pieces of a product can be joined where there are some and none has a sign that separates
them. -/
def CanJoin (pieces : List (List Char)) : Prop :=
  pieces ≠ [] ∧ ∀ piece ∈ pieces, '+' ∉ piece ∧ '*' ∉ piece

/-- **The step**: a piece that is read is multiplied or collected. -/
theorem readFactor_eq_ok_iff {sofar sofar' : α × List PauliFactor} {piece : List Char} :
    readFactor sofar piece = .ok sofar' ↔
      ((number? α piece).isSome ∨ (named? α piece).isSome) ∧
        sofar' = ((number? α piece).toList.foldl (· * ·) sofar.1,
          sofar.2 ++ (named? α piece).toList) := by
  rw [named?]
  cases hnumber : number? α piece with
  | some x =>
    rw [number?] at hnumber
    simp [readFactor, hnumber, eq_comm (a := sofar')]
  | none =>
    rw [number?] at hnumber
    cases hfactor : Pauli.factor? piece <;>
      simp [readFactor, hnumber, hfactor, eq_comm (a := sofar')]

/-- **The run**: pieces that are all read are multiplied and collected in their order. -/
theorem foldlM_readFactor_eq_ok_iff {pieces : List (List Char)}
    {sofar sofar' : α × List PauliFactor} :
    pieces.foldlM readFactor sofar = .ok sofar' ↔
      (∀ piece ∈ pieces, (number? α piece).isSome ∨ (named? α piece).isSome) ∧
        sofar' = ((pieces.filterMap (number? α)).foldl (· * ·) sofar.1,
          sofar.2 ++ pieces.filterMap (named? α)) := by
  -- over the pieces, for any product so far: the first piece changes it for the others
  induction pieces generalizing sofar with
  | nil => simp [pure, Except.pure, eq_comm (a := sofar')]
  | cons piece pieces ih =>
    have hnumbers : (piece :: pieces).filterMap (number? α) =
        (number? α piece).toList ++ pieces.filterMap (number? α) := by
      cases h : number? α piece <;> simp [h]
    have hnamed : (piece :: pieces).filterMap (named? α) =
        (named? α piece).toList ++ pieces.filterMap (named? α) := by
      cases h : named? α piece <;> simp [h]
    rw [List.foldlM_cons, bind_eq_ok, List.forall_mem_cons, hnumbers, hnamed, List.foldl_append,
      ← List.append_assoc, and_assoc]
    constructor
    · rintro ⟨next, hnext, hrest⟩
      obtain ⟨hpiece, rfl⟩ := readFactor_eq_ok_iff.1 hnext
      exact ⟨hpiece, ih.1 hrest⟩
    · rintro ⟨hpiece, hrest⟩
      exact ⟨_, readFactor_eq_ok_iff.2 ⟨hpiece, rfl⟩, ih.2 hrest⟩

/-- **Reading a product** is reading its trimmed pieces. -/
theorem read_eq_ok_iff {cs : List Char} {t : PauliTerm α}
    (hcs : (Text.splitAt '*' cs).map Text.trimChars ≠ [[]]) :
    read cs = .ok t ↔ t.IsReadFrom ((Text.splitAt '*' cs).map Text.trimChars) := by
  rw [read, bind_eq_ok]
  constructor
  · rintro ⟨sofar, hpieces, hmake⟩
    obtain ⟨hreadable, rfl⟩ := foldlM_readFactor_eq_ok_iff.1 hpieces
    obtain ⟨hcoefficient, hfactors, hsorted⟩ := make_eq_ok_iff.1 hmake
    exact ⟨hcs, hreadable, hcoefficient, hfactors, hsorted⟩
  · rintro ⟨-, hreadable, hcoefficient, hfactors, hsorted⟩
    exact ⟨_, foldlM_readFactor_eq_ok_iff.2 ⟨hreadable, rfl⟩,
      make_eq_ok_iff.2 ⟨hcoefficient, hfactors, hsorted⟩⟩

/-- A product is read alike where its factors are written in another order. -/
theorem IsReadFrom.of_perm {t : PauliTerm α} {ps ps' : List (List Char)}
    (h : t.IsReadFrom ps) (hperm : ps.Perm ps') (hnumbers : ps.filterMap (number? α) =
      ps'.filterMap (number? α)) : t.IsReadFrom ps' where
  nonblank hblank := h.nonblank (List.perm_singleton.1 (hblank ▸ hperm))
  readable p hp := h.readable p (hperm.mem_iff.2 hp)
  coefficient := h.coefficient.trans (congrArg _ hnumbers)
  factors := h.factors.trans (hperm.filterMap _)
  sorted := h.sorted

end PauliTerm

/-! ## Pieces of a sum -/

namespace Hamiltonian

/-- The pieces of each product of a text, with the white space around them. -/
def cut (text : String) : List (List (List Char)) :=
  (Text.splitAt '+' text.toList).map (Text.splitAt '*')

/-- The pieces of each product of a text. -/
def pieces (text : String) : List (List (List Char)) := (cut text).map (List.map Text.trimChars)

/-- The text of pieces. -/
def join (products : List (List (List Char))) : String :=
  String.ofList (['+'].intercalate (products.map ['*'].intercalate))

/-- A text is the join of its pieces. -/
theorem join_cut (text : String) : join (cut text) = text := by
  have hproducts : ((Text.splitAt '+' text.toList).map (Text.splitAt '*')).map ['*'].intercalate =
      Text.splitAt '+' text.toList := by
    rw [List.map_map]
    exact (List.map_congr_left fun part _ => Text.intercalate_splitAt '*' part).trans
      (List.map_id _)
  rw [join, cut, hproducts, Text.intercalate_splitAt, String.ofList_toList]

/-- Pieces of products can be joined where there are some and none has a sign that separates
them. -/
def CanJoin (products : List (List (List Char))) : Prop :=
  products ≠ [] ∧ ∀ ps ∈ products, PauliTerm.CanJoin ps

theorem canJoin_cut (text : String) : CanJoin (cut text) := by
  refine ⟨fun h => Text.splitAt_ne_nil (List.map_eq_nil_iff.1 h), fun ps hps => ?_⟩
  obtain ⟨part, hpart, rfl⟩ := List.mem_map.1 hps
  refine ⟨Text.splitAt_ne_nil, fun p hp => ⟨fun hplus => ?_, Text.notMem_of_mem_splitAt hp⟩⟩
  -- a piece of a part has no characters that the part does not have
  have hmem : '+' ∈ ['*'].intercalate (Text.splitAt '*' part) :=
    Text.mem_intercalate.1 p hp hplus
  rw [Text.intercalate_splitAt] at hmem
  exact Text.notMem_of_mem_splitAt hpart hmem

/-- Pieces are found again in their join. -/
theorem cut_join {products : List (List (List Char))} (h : CanJoin products) :
    cut (join products) = products := by
  obtain ⟨hproducts, hpieces⟩ := h
  have hplus : ∀ part ∈ products.map ['*'].intercalate, '+' ∉ part := by
    intro part hpart hplus
    obtain ⟨ps, hps, rfl⟩ := List.mem_map.1 hpart
    rcases Text.mem_intercalate.2 hplus with hstar | ⟨p, hp, hplus⟩
    · exact absurd hstar (by decide)
    · exact ((hpieces ps hps).2 p hp).1 hplus
  -- the sum is cut first: a sign of a product cannot hide one of the sum
  rw [cut, join, String.toList_ofList,
    Text.splitAt_intercalate (fun h => hproducts (List.map_eq_nil_iff.1 h)) hplus, List.map_map]
  refine (List.map_congr_left fun ps hps => ?_).trans (List.map_id products)
  obtain ⟨hps, hstar⟩ := hpieces ps hps
  exact Text.splitAt_intercalate hps fun p hp => (hstar p hp).2

/-- A part is blank where it is a single piece without text. -/
theorem map_trimChars_splitAt_eq_iff {part : List Char} :
    (Text.splitAt '*' part).map Text.trimChars = [[]] ↔ Text.trimChars part = [] := by
  constructor
  · intro h
    obtain ⟨piece, hpiece, htrim⟩ := List.map_eq_singleton_iff.1 h
    have hpart := Text.intercalate_splitAt '*' part
    rw [hpiece, List.intercalate_singleton] at hpart
    rwa [← hpart]
  · intro h
    rw [← Text.map_trimChars_splitAt_trimChars isBlank_star, h]
    rfl

/-- The pieces of a part do not depend on the white space at its ends. -/
theorem pieces_eq (text : String) : pieces text =
    ((Text.splitAt '+' text.toList).map Text.trimChars).map
      fun part => (Text.splitAt '*' part).map Text.trimChars := by
  rw [pieces, cut, List.map_map, List.map_map]
  exact List.map_congr_left fun part _ =>
    (Text.map_trimChars_splitAt_trimChars isBlank_star part).symm

/-- **Reading a sum** is reading the pieces of its products. -/
theorem read_eq_ok_iff {text : String} {h : Hamiltonian α} :
    read text = .ok h ↔
      List.Forall₂ (fun ps t => PauliTerm.IsReadFrom t ps) (pieces text) h.terms := by
  have hpart : ∀ (part : List Char) (t : PauliTerm α),
      (if (Text.trimChars part).isEmpty then .error (.emptyTerm text)
        else PauliTerm.read (Text.trimChars part) : Except (TaskError α) _) = .ok t ↔
      t.IsReadFrom ((Text.splitAt '*' part).map Text.trimChars) := by
    intro part t
    -- a blank part is refused, and its pieces are those that no product is read from
    by_cases hblank : Text.trimChars part = []
    · have hpieces := map_trimChars_splitAt_eq_iff.2 hblank
      rw [if_pos (List.isEmpty_iff.2 hblank)]
      exact ⟨fun h => (by cases h), fun h => absurd hpieces h.nonblank⟩
    · have htrim := Text.map_trimChars_splitAt_trimChars isBlank_star part
      have hpieces := mt map_trimChars_splitAt_eq_iff.1 hblank
      rw [if_neg (mt List.isEmpty_iff.1 hblank), PauliTerm.read_eq_ok_iff (htrim ▸ hpieces), htrim]
  rw [read, bind_eq_ok, pieces, cut, List.map_map, List.forall₂_map_left_iff]
  constructor
  · rintro ⟨terms, hterms, hh⟩
    obtain rfl := Except.ok.inj hh
    exact (mapM_eq_ok_iff.1 hterms).imp fun part t => (hpart part t).1
  · intro hterms
    exact ⟨h.terms, mapM_eq_ok_iff.2 (hterms.imp fun part t => (hpart part t).2), rfl⟩

/-! ## Texts that read alike -/

/-- Pieces with white space written around some of them: around the signs of the sum and of its
products, and at both ends. -/
def Spaced (products products' : List (List (List Char))) : Prop :=
  List.Forall₂ (List.Forall₂ fun p p' =>
    ∃ l r, Text.IsBlanks l ∧ Text.IsBlanks r ∧ p' = l ++ p ++ r) products products'

/-- Pieces whose factors are written in another order within each product. The numbers of a product
keep their order among themselves. -/
def Rearranged (α : Type) [NumberText α] (products products' : List (List (List Char))) : Prop :=
  List.Forall₂ (fun ps ps' => ps.Perm ps' ∧
    (ps.map Text.trimChars).filterMap (PauliTerm.number? α) =
      (ps'.map Text.trimChars).filterMap (PauliTerm.number? α)) products products'

/-- Pieces are the same up to the white space around them. -/
theorem Spaced.map_trimChars {products products' : List (List (List Char))}
    (h : Spaced products products') :
    products.map (List.map Text.trimChars) = products'.map (List.map Text.trimChars) := by
  refine map_eq_map_of_forall₂ (h.imp fun ps ps' hps => map_eq_map_of_forall₂ (hps.imp ?_))
  rintro p p' ⟨l, r, hl, hr, rfl⟩
  exact (Text.trimChars_append hl hr).symm

/-- Pieces can be joined where those of which each product is rewritten can. -/
theorem CanJoin.of_forall₂ {R : List (List Char) → List (List Char) → Prop}
    {products products' : List (List (List Char))} (h : CanJoin products)
    (hproducts : List.Forall₂ R products products')
    (hR : ∀ ps ps', R ps ps' → PauliTerm.CanJoin ps → PauliTerm.CanJoin ps') :
    CanJoin products' := by
  obtain ⟨hne, hpieces⟩ := h
  exact ⟨fun hnil => hne (List.forall₂_nil_right_iff.1 (hnil ▸ hproducts)),
    forall_mem_of_forall₂ hproducts hpieces hR⟩

theorem Spaced.canJoin {products products' : List (List (List Char))}
    (h : Spaced products products') (hjoin : CanJoin products) : CanJoin products' := by
  refine hjoin.of_forall₂ h fun ps ps' hps hpieces => ?_
  obtain ⟨hne, hsigns⟩ := hpieces
  refine ⟨fun hnil => hne (List.forall₂_nil_right_iff.1 (hnil ▸ hps)),
    forall_mem_of_forall₂ hps hsigns ?_⟩
  rintro p p' ⟨l, r, hl, hr, rfl⟩ ⟨hplus, hstar⟩
  -- white space has neither of the signs
  exact ⟨List.not_mem_append (List.not_mem_append (Text.notMem_of_isBlanks isBlank_plus hl) hplus)
      (Text.notMem_of_isBlanks isBlank_plus hr),
    List.not_mem_append (List.not_mem_append (Text.notMem_of_isBlanks isBlank_star hl) hstar)
      (Text.notMem_of_isBlanks isBlank_star hr)⟩

omit [Scalar α] in
theorem Rearranged.canJoin {products products' : List (List (List Char))}
    (h : Rearranged α products products') (hjoin : CanJoin products) : CanJoin products' := by
  refine hjoin.of_forall₂ h fun ps ps' hps hpieces => ⟨fun hnil => ?_, fun p hp => ?_⟩
  · exact hpieces.1 (List.perm_nil.1 (hnil ▸ hps.1))
  · exact hpieces.2 p (hps.1.mem_iff.2 hp)

/-- **White space around pieces does not show.** -/
theorem read_join_of_spaced {text : String} {h : Hamiltonian α} (hread : read text = .ok h)
    {products : List (List (List Char))} (hproducts : Spaced (cut text) products) :
    read (join products) = .ok h := by
  rw [read_eq_ok_iff, pieces] at hread ⊢
  rwa [cut_join (hproducts.canJoin (canJoin_cut text)), ← hproducts.map_trimChars]

/-- **The order of factors does not show.** -/
theorem read_join_of_rearranged {text : String} {h : Hamiltonian α} (hread : read text = .ok h)
    {products : List (List (List Char))} (hproducts : Rearranged α (cut text) products) :
    read (join products) = .ok h := by
  rw [read_eq_ok_iff, pieces, List.forall₂_map_left_iff] at hread ⊢
  rw [cut_join (hproducts.canJoin (canJoin_cut text))]
  generalize cut text = products₀, h.terms = terms at hread hproducts
  -- the products are read one by one, so each may be rearranged by itself
  induction hproducts generalizing terms with
  | nil => exact hread
  | cons hps _ ih =>
    obtain ⟨t, terms', ht, hrest, rfl⟩ := List.forall₂_cons_left_iff.1 hread
    exact .cons (ht.of_perm (hps.1.map _) hps.2) (ih _ hrest)

/-- Each product that is read is read from the pieces of one, and the pieces of each are read. -/
theorem exists_isReadFrom {text : String} {h : Hamiltonian α} (hread : read text = .ok h) :
    (∀ t ∈ h.terms, ∃ ps, t.IsReadFrom ps) ∧
      ∀ ps ∈ pieces text, ∃ t : PauliTerm α, t.IsReadFrom ps := by
  have hterms := read_eq_ok_iff.1 hread
  exact ⟨forall_mem_of_forall₂ hterms (P := fun _ => True) (fun _ _ => trivial)
      fun ps _ ht _ => ⟨ps, ht⟩,
    forall_mem_of_forall₂ hterms.flip (P := fun _ => True) (fun _ _ => trivial)
      fun t _ ht _ => ⟨t, ht⟩⟩

/-- **A qubit named twice is refused**, whatever else a text has. -/
theorem exists_read_eq_error {text : String} {ps : List (List Char)} (hps : ps ∈ pieces text)
    (hrepeated : ¬ ((ps.filterMap (PauliTerm.named? α)).map Prod.snd).Nodup) :
    ∃ e, (read text : Except (TaskError α) _) = .error e := by
  cases hread : (read text : Except (TaskError α) _) with
  | error e => exact ⟨e, rfl⟩
  | ok h =>
    -- a product that is read has its qubits sorted, and sorting names no qubit twice
    obtain ⟨t, ht⟩ := (exists_isReadFrom hread).2 ps hps
    have hsorted := ht.sorted.imp fun h => h.ne
    exact absurd ((ht.factors.map Prod.snd).nodup_iff.1 hsorted) hrepeated

end Hamiltonian

end QuantumWorkbench
