/-!
# Random letters

A 64-bit seed determines a stream of 32-bit words. The seed is spread over a key of eight words by a
linear congruential generator, and block `n` of sixteen words of the stream is the ChaCha20 block of
that key with block counter `n` and nonce zero.

Letters are drawn from an unending supply of words. One word is scaled to the alphabet. If what the
scaling drops is too close to the next letter to decide, the next word decides whether it carries
over, so a letter uses up one word or two.
-/

namespace PastTime

/-! ## The key stream -/

namespace ChaCha

/-- The sixteen words that a block is computed on. -/
abbrev Block := Vector UInt32 16

def rotateLeft (word amount : UInt32) : UInt32 := (word <<< amount) ||| (word >>> (32 - amount))

def rotateRight (word amount : UInt32) : UInt32 := rotateLeft word (32 - amount)

/-- The quarter round on four words. -/
def quarter (a b c d : UInt32) : UInt32 × UInt32 × UInt32 × UInt32 :=
  let a := a + b
  let d := rotateLeft (d ^^^ a) 16
  let c := c + d
  let b := rotateLeft (b ^^^ c) 12
  let a := a + b
  let d := rotateLeft (d ^^^ a) 8
  let c := c + d
  let b := rotateLeft (b ^^^ c) 7
  (a, b, c, d)

/-- The quarter round on four places of a block. -/
def quarterAt (block : Block) (i j k l : Fin 16) : Block :=
  let (a, b, c, d) := quarter block[i] block[j] block[k] block[l]
  (((block.set i a).set j b).set k c).set l d

/-- A round on the columns and a round on the diagonals. -/
def doubleRound (block : Block) : Block :=
  let block := quarterAt block 0 4 8 12
  let block := quarterAt block 1 5 9 13
  let block := quarterAt block 2 6 10 14
  let block := quarterAt block 3 7 11 15
  let block := quarterAt block 0 5 10 15
  let block := quarterAt block 1 6 11 12
  let block := quarterAt block 2 7 8 13
  quarterAt block 3 4 9 14

/-- The words of the text "expand 32-byte k". -/
def constants : List UInt32 := [0x61707865, 0x3320646e, 0x79622d32, 0x6b206574]

/-- Key words drawn from a congruential generator, whose output is permuted by a rotation. -/
def keyWords : (count : Nat) → (state : UInt64) → List UInt32
  | 0, _ => []
  | count + 1, state =>
    let state := state * 6364136223846793005 + 11634580027462260723
    let word := (((state >>> 18) ^^^ state) >>> 27).toUInt32
    rotateRight word (state >>> 59).toUInt32 :: keyWords count state

/-- The block from which block `counter` of the stream is computed. -/
def start (seed : UInt64) (counter : Nat) : Block :=
  let low := counter.toUInt32
  let high := (counter / UInt32.size).toUInt32
  let words := constants ++ keyWords 8 seed ++ [low, high, 0, 0]
  Vector.ofFn fun i => words.getD i 0

/-- Block `counter` of the stream: ten double rounds, added to where they started. -/
def block (seed : UInt64) (counter : Nat) : Block :=
  let first := start seed counter
  Vector.zipWith (· + ·) first (Nat.repeat doubleRound 10 first)

/-- Word `index` of the stream. -/
def word (seed : UInt64) (index : Nat) : UInt32 :=
  (block seed (index / 16)).get ⟨index % 16, Nat.mod_lt _ (by decide)⟩

end ChaCha

/-! ## Letters -/

/-- An unending supply of words, by position. -/
abbrev Words := Nat → UInt32

namespace Words

/-- The words of a list, over and over. -/
def cycle (script : List UInt32) : Words :=
  let script := script.toArray
  fun index => script.getD (index % script.size) 0

/-- The words that a seed determines. -/
def seeded (seed : UInt64) : Words := ChaCha.word seed

end Words

namespace Letter

/-- The number of letters. -/
def alphabetSize : Nat := 26

/-- The number of values of a word. -/
def wordSize : Nat := UInt32.size

/-- The letter with the given index, counted from `a`. -/
def ofIndex (index : Nat) : Char := Char.ofNat ('a'.toNat + index)

/-- Draws a letter from the words at `position`, and says where the words go on. -/
def draw (words : Words) (position : Nat) : Char × Nat :=
  let scaled := (words position).toNat * alphabetSize
  let index := scaled / wordSize
  let dropped := scaled % wordSize
  if wordSize - alphabetSize < dropped then
    let carry := (words (position + 1)).toNat * alphabetSize / wordSize
    (ofIndex (if wordSize ≤ dropped + carry then index + 1 else index), position + 2)
  else (ofIndex index, position + 1)

/-- Draws letters one after the other. -/
def drawMany (words : Words) : (count position : Nat) → List Char × Nat
  | 0, position => ([], position)
  | count + 1, position =>
    let (letter, position) := draw words position
    let (letters, position) := drawMany words count position
    (letter :: letters, position)

end Letter

end PastTime
