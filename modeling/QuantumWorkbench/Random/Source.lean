import QuantumWorkbench.Scalar.Basic
import QuantumWorkbench.Random.ChaCha

/-!
# Sources of random draws

The samplers ask for three kinds of draw: a bit, an index below a bound, and a scalar from zero up
to but not including one. They are written over any source of such draws; the seeded generator is
one.
-/

namespace QuantumWorkbench.Random

/-- How bits, bounded indices and unit scalars are drawn from a state. -/
structure Source (σ α : Type) where
  bit : σ → Nat × σ
  below : Nat → σ → Nat × σ
  unit : σ → α × σ

/-- Draws a number of times and lists the draws before others, the latest first. -/
@[specialize] def drawsOnto {σ β : Type} (draw : σ → β × σ) : Nat → List β → σ → List β × σ
  | 0, drawn, s => (drawn, s)
  | n + 1, drawn, s =>
    let (x, s) := draw s
    drawsOnto draw n (x :: drawn) s

/-- Draws from a source a number of times, in order. -/
@[inline] def draws {σ β : Type} (draw : σ → β × σ) (n : Nat) (s : σ) : List β × σ :=
  let (drawn, s) := drawsOnto draw n [] s
  (drawn.reverse, s)

theorem drawsOnto_append {σ β : Type} (draw : σ → β × σ) (n : Nat) (drawn drawn' : List β) (s : σ) :
    drawsOnto draw n (drawn ++ drawn') s =
      ((drawsOnto draw n drawn s).1 ++ drawn', (drawsOnto draw n drawn s).2) := by
  induction n generalizing drawn s with
  | zero => rfl
  | succ n ih => exact ih ((draw s).1 :: drawn) (draw s).2

theorem draws_zero {σ β : Type} (draw : σ → β × σ) (s : σ) : draws draw 0 s = ([], s) := rfl

theorem draws_succ {σ β : Type} (draw : σ → β × σ) (n : Nat) (s : σ) :
    draws draw (n + 1) s =
      ((draw s).1 :: (draws draw n (draw s).2).1, (draws draw n (draw s).2).2) := by
  have h := drawsOnto_append draw n [] [(draw s).1] (draw s).2
  simp only [List.nil_append] at h
  simp [draws, drawsOnto, h]

theorem length_draws {σ β : Type} (draw : σ → β × σ) (n : Nat) (s : σ) :
    (draws draw n s).1.length = n := by
  induction n generalizing s with
  | zero => rfl
  | succ n ih => rw [draws_succ, List.length_cons, ih]

namespace Generator

/-- How often a bounded draw is repeated at most. Each attempt fails with probability below one
half. -/
def maxAttempts : Nat := 512

/-- The largest low half of a product that a draw below `n` accepts: the largest multiple of `n` by
a power of two that fits a word, less one. -/
def zone (n : Nat) : Nat := n <<< (63 - Nat.log2 n) - 1

/-- An index below `n` without bias: a word times `n`, accepted where the low half lies in the
zone; the high half is the index. -/
def belowFrom (n : Nat) : Nat → Generator → Nat × Generator
  | 0, g => (0, g)
  | attempts + 1, g =>
    let (w, g) := g.doubleWord
    let product := w.toNat * n
    if product % UInt64.size ≤ zone n then (product / UInt64.size, g) else belowFrom n attempts g

theorem belowFrom_lt {n : Nat} (hn : 0 < n) (attempts : Nat) (g : Generator) :
    (belowFrom n attempts g).1 < n := by
  induction attempts generalizing g with
  | zero => exact hn
  | succ attempts ih =>
    simp only [belowFrom]
    split
    · -- the word is below its size, so the high half of the product is below the bound
      exact Nat.div_lt_of_lt_mul
        (Nat.mul_lt_mul_of_pos_right g.doubleWord.1.toNat_lt_size hn)
    · exact ih _

/-- The draws of the seeded generator: the top bit of a word; a bounded index; the top fifty-three
bits of a double word as a fraction. -/
def source {α : Type} [Scalar α] : Source Generator α where
  bit g :=
    let (w, g) := g.word
    (w.toNat * 2 / UInt32.size, g)
  below n g := g.belowFrom n Generator.maxAttempts
  unit g :=
    let (w, g) := g.doubleWord
    let steps : α := Scalar.num (1 <<< 53)
    (Scalar.num (w.toNat >>> 11) * (1 / steps), g)

end Generator

end QuantumWorkbench.Random
