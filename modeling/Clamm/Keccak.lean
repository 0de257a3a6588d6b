/-!
# Keccak-256

The hash that contract addresses are derived with: the sponge over the permutation Keccak-f[1600]
with a rate of 136 bytes, where a message is followed by a one bit, zeros and a final one bit.

A state is 25 lanes of 64 bits; lane `x + 5 * y` is the lane of column `x` and row `y`. Bytes are
read into lanes, and lanes are written out, least significant byte first. `Keccak.hash` reads the
first 32 bytes of the output as a number, most significant byte first.
-/

namespace Clamm.Keccak

/-- The 25 lanes. -/
abbrev State := Vector UInt64 25

/-- The lane of column `x` and row `y`, both taken modulo five. -/
def lane (s : State) (x y : Nat) : UInt64 := s.get (Fin.ofNat 25 (x % 5 + 5 * (y % 5)))

/-- The state whose lane of column `x` and row `y` is `f x y`. -/
def ofLanes (f : Nat → Nat → UInt64) : State := Vector.ofFn fun i => f (i.val % 5) (i.val / 5)

/-- Rotates a lane toward its most significant bit. -/
def rotate (w : UInt64) (n : Nat) : UInt64 :=
  if n = 0 then w else w <<< UInt64.ofNat n ||| w >>> UInt64.ofNat (64 - n)

/-- How far each lane is rotated, row by row. -/
def rotations : List Nat :=
  [0, 1, 62, 28, 27,
   36, 44, 6, 55, 20,
   3, 10, 43, 25, 39,
   41, 45, 15, 21, 8,
   18, 2, 61, 56, 14]

/-- The constant of each round. -/
def roundConstants : List UInt64 :=
  [0x0000000000000001, 0x0000000000008082, 0x800000000000808a, 0x8000000080008000,
   0x000000000000808b, 0x0000000080000001, 0x8000000080008081, 0x8000000000008009,
   0x000000000000008a, 0x0000000000000088, 0x0000000080008009, 0x000000008000000a,
   0x000000008000808b, 0x800000000000008b, 0x8000000000008089, 0x8000000000008003,
   0x8000000000008002, 0x8000000000000080, 0x000000000000800a, 0x800000008000000a,
   0x8000000080008081, 0x8000000000008080, 0x0000000080000001, 0x8000000080008008]

/-- Adds to every lane the parities of the two neighbouring columns. -/
def theta (s : State) : State :=
  let parity : Vector UInt64 5 := Vector.ofFn fun x =>
    lane s x 0 ^^^ lane s x 1 ^^^ lane s x 2 ^^^ lane s x 3 ^^^ lane s x 4
  let column (x : Nat) : UInt64 := parity.get (Fin.ofNat 5 x)
  ofLanes fun x y => lane s x y ^^^ column (x + 4) ^^^ rotate (column (x + 1)) 1

/-- Rotates each lane and moves it to its new place. -/
def rhoPi (s : State) : State :=
  ofLanes fun x y =>
    let column := (x + 3 * y) % 5
    rotate (lane s column x) (rotations.getD (column + 5 * x) 0)

/-- Combines each lane with the next two of its row. -/
def chi (s : State) : State :=
  ofLanes fun x y => lane s x y ^^^ (~~~(lane s (x + 1) y) &&& lane s (x + 2) y)

/-- One round. -/
def round (s : State) (constant : UInt64) : State :=
  let t := chi (rhoPi (theta s))
  t.set 0 (t.get 0 ^^^ constant)

/-- The permutation of the state. -/
def permute (s : State) : State := roundConstants.foldl round s

/-- The number of bytes absorbed between permutations. -/
def rate : Nat := 136

/-- Extends a message to a multiple of the rate. -/
def pad (message : List UInt8) : List UInt8 :=
  match rate - 1 - message.length % rate with
  | 0 => message ++ [0x81]
  | zeros + 1 => message ++ 0x01 :: List.replicate zeros 0x00 ++ [0x80]

/-- Reads up to eight bytes, least significant first. -/
def laneOfBytes (bytes : List UInt8) : UInt64 :=
  bytes.foldr (fun b w => w <<< 8 ||| b.toUInt64) 0

/-- Adds one block of bytes to the state and permutes it. -/
def absorbBlock (s : State) (block : List UInt8) : State :=
  permute (Vector.ofFn fun i =>
    s.get i ^^^ laneOfBytes ((block.drop (8 * i.val)).take 8))

/-- Absorbs a padded message block by block. -/
def absorb (s : State) : List UInt8 → State
  | [] => s
  | b :: bs => absorb (absorbBlock s ((b :: bs).take rate)) ((b :: bs).drop rate)
termination_by bytes => bytes.length
decreasing_by
  simp only [List.length_drop, List.length_cons, rate]
  omega

/-- The eight bytes of a lane, least significant first. -/
def bytesOfLane (w : UInt64) : List UInt8 :=
  (List.range 8).map fun i => (w >>> UInt64.ofNat (8 * i)).toUInt8

/-- The hash of a message. -/
def hash (message : List UInt8) : BitVec 256 :=
  let s := absorb (Vector.replicate 25 0) (pad message)
  let bytes := (s.toList.take 4).flatMap bytesOfLane
  BitVec.ofNat 256 (bytes.foldl (fun n b => n * 256 + b.toNat) 0)

/-- The bytes of a bit vector, most significant first. -/
def bytes {w : Nat} (x : BitVec w) : List UInt8 :=
  (List.range (w / 8)).reverse.map fun i => UInt8.ofNat (x.toNat >>> (8 * i))

end Clamm.Keccak
