/-!
# A seeded stream of random words

The ChaCha stream cipher with twelve rounds, used as a generator: the key is expanded from a 64-bit
seed, the block counter starts at zero, and the sixteen words of each block are handed out in order.
The same seed gives the same words on every machine.
-/

namespace QuantumWorkbench.Random

/-- Rotation of a word to the left. -/
def rotateLeft (x : UInt32) (n : UInt32) : UInt32 := (x <<< n) ||| (x >>> (32 - n))

/-- The sixteen words of a block. -/
abbrev Block := Vector UInt32 16

/-- One quarter round on four positions of a block. -/
def quarterRound (b : Block) (i j k l : Fin 16) : Block :=
  let b := b.set i (b[i] + b[j])
  let b := b.set l (rotateLeft (b[l] ^^^ b[i]) 16)
  let b := b.set k (b[k] + b[l])
  let b := b.set j (rotateLeft (b[j] ^^^ b[k]) 12)
  let b := b.set i (b[i] + b[j])
  let b := b.set l (rotateLeft (b[l] ^^^ b[i]) 8)
  let b := b.set k (b[k] + b[l])
  b.set j (rotateLeft (b[j] ^^^ b[k]) 7)

/-- A round on the columns of a block followed by a round on its diagonals. -/
def doubleRound (b : Block) : Block :=
  -- columns
  let b := quarterRound b 0 4 8 12
  let b := quarterRound b 1 5 9 13
  let b := quarterRound b 2 6 10 14
  let b := quarterRound b 3 7 11 15
  -- diagonals
  let b := quarterRound b 0 5 10 15
  let b := quarterRound b 1 6 11 12
  let b := quarterRound b 2 7 8 13
  quarterRound b 3 4 9 14

/-- The block before the rounds: four constants, the key, the counter and a zero stream number. -/
def initialBlock (key : Vector UInt32 8) (counter : UInt64) : Block :=
  #v[0x61707865, 0x3320646e, 0x79622d32, 0x6b206574,
    key[0], key[1], key[2], key[3], key[4], key[5], key[6], key[7],
    counter.toUInt32, (counter >>> 32).toUInt32, 0, 0]

/-- The block of a counter: six double rounds, then the initial words added back. -/
def block (key : Vector UInt32 8) (counter : UInt64) : Block :=
  let start := initialBlock key counter
  let mixed := (List.range 6).foldl (fun b _ => doubleRound b) start
  mixed.zipWith (· + ·) start

/-- One step of the expansion of a seed: the next seed, and the key word it gives. -/
def seedStep (seed : UInt64) : UInt64 × UInt32 :=
  let seed := seed * 6364136223846793005 + 11634580027462260723
  -- the word is rotated by the five top bits of the seed
  let mixed := (((seed >>> 18) ^^^ seed) >>> 27).toUInt32
  let turn := (seed >>> 59).toUInt32
  (seed, if turn = 0 then mixed else (mixed >>> turn) ||| (mixed <<< (32 - turn)))

/-- The key words of a seed, as many as asked for. -/
def keyWords : Nat → UInt64 → List UInt32
  | 0, _ => []
  | n + 1, seed =>
    let (seed, word) := seedStep seed
    word :: keyWords n seed

/-- A generator: its key, the number of the next block, and the words of the current block that
are still unused. -/
structure Generator where
  key : Vector UInt32 8
  counter : UInt64
  unused : List UInt32

namespace Generator

/-- The generator of a seed. -/
def ofSeed (seed : UInt64) : Generator :=
  let words := keyWords 8 seed
  ⟨Vector.ofFn fun i => words.getD i 0, 0, []⟩

/-- The next 32-bit word. -/
def word (g : Generator) : UInt32 × Generator :=
  match g.unused with
  | w :: ws => (w, { g with unused := ws })
  | [] =>
    let b := (block g.key g.counter).toList
    (b.headD 0, ⟨g.key, g.counter + 1, b.tail⟩)

/-- The next 64-bit word: two words, the lower half first. -/
def doubleWord (g : Generator) : UInt64 × Generator :=
  let (low, g) := g.word
  let (high, g) := g.word
  (low.toUInt64 ||| (high.toUInt64 <<< 32), g)

end Generator

end QuantumWorkbench.Random
