/-!
Pseudorandom words by the ChaCha stream with eight rounds, keyed by a seed, and what is drawn from
them: numbers below a bound, permutations and elements of a list.
-/
namespace SemanticParsing.Random

abbrev Key := Vector UInt32 8

abbrev Block := Vector UInt32 16

/-- Words of the key, by a linear congruential generator whose state is permuted on output. -/
def keyWords : Nat → UInt64 → List UInt32
  | 0, _ => []
  | n + 1, state =>
    let state := state * 6364136223846793005 + 11634580027462260723
    let word := (((state >>> 18) ^^^ state) >>> 27).toUInt32
    let turn := (state >>> 59).toUInt32
    ((word >>> turn) ||| (word <<< ((32 - turn) % 32))) :: keyWords n state

theorem length_keyWords (n : Nat) (state : UInt64) : (keyWords n state).length = n := by
  induction n generalizing state with
  | zero => rfl
  | succ n ih => simp [keyWords, ih]

def Key.ofSeed (seed : UInt64) : Key :=
  ⟨(keyWords 8 seed).toArray, by simp [length_keyWords]⟩

def rotateLeft (word amount : UInt32) : UInt32 :=
  (word <<< amount) ||| (word >>> (32 - amount))

namespace Block

def quarterRound (a b c d : Fin 16) (s : Block) : Block :=
  let s := s.set a (s[a] + s[b])
  let s := s.set d (rotateLeft (s[d] ^^^ s[a]) 16)
  let s := s.set c (s[c] + s[d])
  let s := s.set b (rotateLeft (s[b] ^^^ s[c]) 12)
  let s := s.set a (s[a] + s[b])
  let s := s.set d (rotateLeft (s[d] ^^^ s[a]) 8)
  let s := s.set c (s[c] + s[d])
  s.set b (rotateLeft (s[b] ^^^ s[c]) 7)

def doubleRound (s : Block) : Block :=
  let s := quarterRound 0 4 8 12 s
  let s := quarterRound 1 5 9 13 s
  let s := quarterRound 2 6 10 14 s
  let s := quarterRound 3 7 11 15 s
  let s := quarterRound 0 5 10 15 s
  let s := quarterRound 1 6 11 12 s
  let s := quarterRound 2 7 8 13 s
  quarterRound 3 4 9 14 s

/-- Four constant words, the key, the block counter with its low word first, and no nonce. -/
def initial (key : Key) (counter : UInt64) : Block :=
  #v[0x61707865, 0x3320646e, 0x79622d32, 0x6b206574,
    key[0], key[1], key[2], key[3], key[4], key[5], key[6], key[7],
    counter.toUInt32, (counter >>> 32).toUInt32, 0, 0]

def ofCounter (key : Key) (counter : UInt64) : Block :=
  let start := initial key counter
  let mixed := doubleRound (doubleRound (doubleRound (doubleRound start)))
  Vector.zipWith (· + ·) mixed start

end Block

def streamWord (key : Key) (position : Nat) : UInt32 :=
  let block := Block.ofCounter key (UInt64.ofNat (position / 16))
  block.get ⟨position % 16, Nat.mod_lt _ (by decide)⟩

structure Generator where
  key : Key
  position : Nat := 0

namespace Generator

def ofSeed (seed : UInt64) : Generator := { key := Key.ofSeed seed }

def next (g : Generator) : Nat × Generator :=
  ((streamWord g.key g.position).toNat, { g with position := g.position + 1 })

/-- The greatest low half of a product that is accepted for a bound. It leaves each result
equally many words, and more than half of all words are accepted. -/
def acceptedUpTo (bound : Nat) : Nat := bound * Nat.pow 2 (31 - bound.log2) - 1

/-- Words tried before one is taken as it is. Passing over so many has a chance below
`2 ^ -1000`. -/
def tries : Nat := 1000

/-- Draws words until one is accepted and scales it down to the bound. -/
def drawBelow (bound : Nat) : Nat → Generator → Nat × Generator
  | 0, g => (0, g)
  | left + 1, g =>
    let (word, g) := g.next
    let product := word * bound
    if product % UInt32.size ≤ acceptedUpTo bound ∨ left = 0 then (product / UInt32.size, g)
    else drawBelow bound left g

def below (g : Generator) (bound : Nat) : Nat × Generator := drawBelow bound tries g

/-- Exchanges each of the last elements, from the end to the second, with one that does not come
after it. -/
def shuffleFrom {α : Type} : Nat → Array α → Generator → Array α × Generator
  | 0, xs, g => (xs, g)
  | i + 1, xs, g =>
    let (j, g) := g.below (i + 2)
    shuffleFrom i (xs.swapIfInBounds (i + 1) j) g

def permutation (g : Generator) (n : Nat) : List Nat × Generator :=
  let (xs, g) := shuffleFrom (n - 1) (Array.range n) g
  (xs.toList, g)

def choose? {α : Type} (g : Generator) (xs : List α) : Option α × Generator :=
  if xs.isEmpty then (none, g)
  else
    let (i, g) := g.below xs.length
    (xs[i]?, g)

end Generator

end SemanticParsing.Random
