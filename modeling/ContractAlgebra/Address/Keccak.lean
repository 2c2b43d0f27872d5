/-!
# The Keccak-256 hash

A sponge over a state of 25 lanes of 64 bits, 5 by 5, with the lane of column `x` and row `y` at
index `x + 5 * y`. A message is padded with `0x01 … 0x80` and absorbed in blocks of 136 bytes; the
first four lanes are the hash.
-/

namespace ContractAlgebra.Keccak

/-- The lanes of the sponge, row after row. -/
abbrev State := Vector UInt64 25

/-- The lane at a column and a row, both taken modulo 5. -/
def State.lane (s : State) (x y : Nat) : UInt64 :=
  s.get ⟨x % 5 + 5 * (y % 5), by omega⟩

/-- The state with the given lane at each column and row. -/
def State.ofLanes (f : Nat → Nat → UInt64) : State :=
  Vector.ofFn fun i => f (i.val % 5) (i.val / 5)

/-- Turns a lane to the left. -/
def rotateLeft (lane : UInt64) (amount : Nat) : UInt64 :=
  (lane <<< amount.toUInt64) ||| (lane >>> (64 - amount).toUInt64)

/-- How far each lane is turned in a round. -/
def rotations : Vector Nat 25 :=
  #v[0, 1, 62, 28, 27, 36, 44, 6, 55, 20, 3, 10, 43, 25, 39, 41, 45, 15, 21, 8, 18, 2, 61, 56, 14]

/-- The constants that tell the rounds apart. -/
def roundConstants : List UInt64 :=
  [0x0000000000000001, 0x0000000000008082, 0x800000000000808A, 0x8000000080008000,
   0x000000000000808B, 0x0000000080000001, 0x8000000080008081, 0x8000000000008009,
   0x000000000000008A, 0x0000000000000088, 0x0000000080008009, 0x000000008000000A,
   0x000000008000808B, 0x800000000000008B, 0x8000000000008089, 0x8000000000008003,
   0x8000000000008002, 0x8000000000000080, 0x000000000000800A, 0x800000008000000A,
   0x8000000080008081, 0x8000000000008080, 0x0000000080000001, 0x8000000080008008]

/-- Adds to each lane the parities of the two columns beside it. -/
def theta (s : State) : State :=
  let parity (x : Nat) := s.lane x 0 ^^^ s.lane x 1 ^^^ s.lane x 2 ^^^ s.lane x 3 ^^^ s.lane x 4
  State.ofLanes fun x y => s.lane x y ^^^ parity (x + 4) ^^^ rotateLeft (parity (x + 1)) 1

/-- Turns each lane by its own amount. -/
def rho (s : State) : State :=
  s.zipWith rotateLeft rotations

/-- Moves the lanes to new places. -/
def pi (s : State) : State :=
  State.ofLanes fun x y => s.lane (x + 3 * y) x

/-- Mixes each lane with the next two of its row. -/
def chi (s : State) : State :=
  State.ofLanes fun x y => s.lane x y ^^^ ((~~~ s.lane (x + 1) y) &&& s.lane (x + 2) y)

/-- One round. -/
def round (s : State) (constant : UInt64) : State :=
  let mixed := chi (pi (rho (theta s)))
  mixed.set 0 (mixed[0] ^^^ constant)

/-- The permutation of the sponge: all rounds in order. -/
def permute (s : State) : State :=
  roundConstants.foldl round s

/-- How many bytes are absorbed at a time. -/
def rate : Nat := 136

/-- A message filled up to whole blocks. -/
def pad (message : List UInt8) : List UInt8 :=
  match rate - 1 - message.length % rate with
  | 0 => message ++ [0x81]
  | zeros + 1 => message ++ [0x01] ++ List.replicate zeros 0 ++ [0x80]

/-- The lane of eight bytes, lowest byte first. -/
def laneOfBytes (bytes : List UInt8) : UInt64 :=
  bytes.foldr (fun byte lane => (lane <<< 8) ||| byte.toUInt64) 0

/-- The eight bytes of a lane, lowest byte first. -/
def bytesOfLane (lane : UInt64) : List UInt8 :=
  (List.range 8).map fun i => (lane >>> (8 * i).toUInt64).toUInt8

/-- Adds a block to the state and permutes it. -/
def absorb (s : State) (block : List UInt8) : State :=
  permute (Vector.ofFn fun i => s[i] ^^^ laneOfBytes ((block.drop (8 * i.val)).take 8))

/-- The 32 bytes of a message's hash. -/
def hash (message : List UInt8) : List UInt8 :=
  let padded := pad message
  let blocks := (List.range (padded.length / rate)).map fun i => (padded.drop (rate * i)).take rate
  let s := blocks.foldl absorb (Vector.replicate 25 0)
  (List.range 4).flatMap fun i => bytesOfLane (s.lane i 0)

end ContractAlgebra.Keccak
