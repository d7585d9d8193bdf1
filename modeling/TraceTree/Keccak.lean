/-!
The Keccak-256 digest: a sponge of 200 bytes that takes 136 bytes at a time, over the permutation
of 24 rounds on 25 lanes of 64 bits. A lane at column `x` and row `y` stands at place `x + 5 * y`.
-/
namespace TraceTree.Keccak

/-- The 25 lanes. -/
abbrev Lanes := Vector UInt64 25

/-- The lane at column `x` and row `y`, both taken modulo five. -/
def lane (a : Lanes) (x y : Nat) : UInt64 :=
  a.get ⟨x % 5 + 5 * (y % 5), by omega⟩

/-- The lanes given by a rule on column and row. -/
def tabulate (f : Nat → Nat → UInt64) : Lanes := .ofFn fun i => f (i.val % 5) (i.val / 5)

/-- Rotation to the left; a rotation by none is the lane itself. -/
def rotate (w : UInt64) (n : Nat) : UInt64 :=
  if n = 0 then w else (w <<< UInt64.ofNat n) ||| (w >>> UInt64.ofNat (64 - n))

/-- How far the lane at each place is rotated. -/
def rotations : Vector Nat 25 :=
  #v[0, 1, 62, 28, 27, 36, 44, 6, 55, 20, 3, 10, 43, 25, 39, 41, 45, 15, 21, 8, 18, 2, 61, 56, 14]

/-- What each round adds to the first lane. -/
def roundConstants : List UInt64 :=
  [0x0000000000000001, 0x0000000000008082, 0x800000000000808A, 0x8000000080008000,
   0x000000000000808B, 0x0000000080000001, 0x8000000080008081, 0x8000000000008009,
   0x000000000000008A, 0x0000000000000088, 0x0000000080008009, 0x000000008000000A,
   0x000000008000808B, 0x800000000000008B, 0x8000000000008089, 0x8000000000008003,
   0x8000000000008002, 0x8000000000000080, 0x000000000000800A, 0x800000008000000A,
   0x8000000080008081, 0x8000000000008080, 0x0000000080000001, 0x8000000080008008]

/-- The sum of a column. -/
def parity (a : Lanes) (x : Nat) : UInt64 :=
  lane a x 0 ^^^ lane a x 1 ^^^ lane a x 2 ^^^ lane a x 3 ^^^ lane a x 4

/-- Adds to every lane the sums of two columns beside it. -/
def theta (a : Lanes) : Lanes :=
  let sums : Vector UInt64 5 := .ofFn fun i => parity a i.val
  let sum := fun x => sums.get ⟨x % 5, by omega⟩
  tabulate fun x y => lane a x y ^^^ sum (x + 4) ^^^ rotate (sum (x + 1)) 1

/-- Rotates every lane and moves it to its new place. -/
def rhoPi (a : Lanes) : Lanes :=
  tabulate fun x y =>
    let source := (x + 3 * y) % 5
    rotate (lane a source x) (rotations.get ⟨source + 5 * (x % 5), by omega⟩)

/-- Mixes each lane with the two after it in its row. -/
def chi (a : Lanes) : Lanes :=
  tabulate fun x y => lane a x y ^^^ (~~~ lane a (x + 1) y &&& lane a (x + 2) y)

/-- Adds the round's constant to the first lane. -/
def iota (a : Lanes) (c : UInt64) : Lanes := a.set 0 (a[0] ^^^ c)

def round (a : Lanes) (c : UInt64) : Lanes := iota (chi (rhoPi (theta a))) c

def permute (a : Lanes) : Lanes := roundConstants.foldl round a

/-! ### The sponge -/

/-- How many bytes one block takes. -/
def rate : Nat := 136

/-- The lane of eight bytes, the first lowest. -/
def laneOfBytes (bytes : List UInt8) : UInt64 :=
  bytes.foldr (fun b w => (w <<< 8) ||| b.toUInt64) 0

/-- The bytes of a lane, the lowest first. -/
def bytesOfLane (w : UInt64) : List UInt8 :=
  (List.range 8).map fun i => (w >>> UInt64.ofNat (8 * i)).toUInt8

/-- Adds a block to the first lanes and permutes. -/
def absorb (a : Lanes) (block : List UInt8) : Lanes :=
  permute (.ofFn fun i => a[i] ^^^ laneOfBytes ((block.drop (8 * i.val)).take 8))

/-- The message filled up to whole blocks: a one bit first, a one bit last. -/
def pad (message : List UInt8) : List UInt8 :=
  let zeros := rate - 1 - message.length % rate
  if zeros = 0 then message ++ [0x81] else message ++ 0x01 :: (List.replicate (zeros - 1) 0 ++ [0x80])

/-- Cuts a message into blocks and absorbs them; `fuel` is at least their number. -/
def absorbAll (a : Lanes) : Nat → List UInt8 → Lanes
  | 0, _ => a
  | fuel + 1, message =>
    if message.isEmpty then a
    else absorbAll (absorb a (message.take rate)) fuel (message.drop rate)

/-- The 32 bytes of the digest. -/
def digest (message : List UInt8) : List UInt8 :=
  let padded := pad message
  let a := absorbAll (.replicate 25 0) padded.length padded
  (a.toList.take 4).flatMap bytesOfLane

end TraceTree.Keccak
