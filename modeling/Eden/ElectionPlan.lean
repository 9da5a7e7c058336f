import Eden.ChainPrimitives

/-!
How an election with a given number of participants is divided into rounds and groups, the
random generator that shuffles its voters and the seed the generator starts from.
-/

namespace Eden.ElectionPlan

open Eden.ExceptReasoning
open Eden.ChainPrimitives

/-! ### Rounds and groups -/

/-- `int_pow`, in 32 bits. -/
def intPow (base exponent : Nat) : Nat := base ^ exponent % 2 ^ 32

/-- The search of `int_root` in `[low, high)`; each turn halves the interval. -/
def intRootBetween (x y : Nat) : (fuel low high : Nat) → Nat
  | 0, low, _ => low
  | fuel + 1, low, high =>
      if high - low ≤ 1 then low
      else
        let mid := (high + low) / 2
        if x < intPow mid y then intRootBetween x y fuel low mid
        else intRootBetween x y fuel mid high

def intRoot (x y : Nat) : Nat := intRootBetween x y 12 0 12

/-- The loop of `count_rounds`; a 16-bit number of members leaves it after eight turns. -/
def countRoundsFrom (numMembers : Nat) : (fuel i result : Nat) → Nat
  | 0, _, result => result
  | fuel + 1, i, result =>
      if i ≤ numMembers then countRoundsFrom numMembers fuel (i * 4) (result + 1) else result

def countRounds (numMembers : Nat) : Nat := countRoundsFrom numMembers 16 12 1

/-- The truncated quotient `log(num / den) / log(p / q)`: the largest `k` for which `(p / q) ^ k`
is at most `num / den`. -/
def largeRounds (num den p q : Nat) : Nat :=
  Nat.findGreatest (fun k => p ^ k * den ≤ num * q ^ k) 64

def getGroupSizes (numMembers numRounds : Nat) : Outcome (List Nat) :=
  let basicGroupSize := intRoot numMembers numRounds
  if basicGroupSize = 3 then do
    let large := largeRounds numMembers (intPow 4 (numRounds - 1) * 3) 5 4
    check (large ≤ 1) "More that one large round is unexpected when the final group size is 3."
    return (List.range numRounds).map fun i =>
      if i + 1 = numRounds then 3 else if numRounds - large - 1 ≤ i then 5 else 4
  else if 6 ≤ basicGroupSize then
    let divisor := intPow 6 (numRounds - 1)
    return (List.range numRounds).map fun i =>
      if i + 1 = numRounds then (numMembers + divisor - 1) / divisor else if i = 0 then 5 else 6
  else
    let large := largeRounds numMembers (intPow basicGroupSize numRounds) (basicGroupSize + 1)
      basicGroupSize
    return (List.range numRounds).map fun i =>
      if i < numRounds - large then basicGroupSize else basicGroupSize + 1

structure RoundConfig where
  numParticipants : Nat
  numGroups : Nat
  deriving DecidableEq, Repr, Inhabited

abbrev ElectionConfig := List RoundConfig

/-- The rounds after the first one and the number of groups of the first one, from the group
sizes of the later rounds; participants are counted in 16 bits. -/
def laterRounds (sizes : List Nat) : ElectionConfig × Nat :=
  sizes.foldr (fun size later =>
    let participants := later.2 * size % 2 ^ 16
    (⟨participants, later.2⟩ :: later.1, participants)) ([], 1)

def makeElectionConfig (numParticipants : Nat) : Outcome ElectionConfig :=
  if numParticipants = 0 then return []
  else do
    let sizes ← getGroupSizes numParticipants (countRounds numParticipants)
    let later := laterRounds sizes.tail
    return ⟨numParticipants, later.2⟩ :: later.1

namespace RoundConfig

variable (c : RoundConfig)

/-- In 8 bits. -/
def groupMaxSize : Nat := (c.numParticipants + c.numGroups - 1) / c.numGroups % 2 ^ 8

def numShortGroups : Nat := c.groupMaxSize * c.numGroups - c.numParticipants

def numLargeGroups : Nat := c.numGroups - c.numShortGroups

def groupMinSize : Nat := c.groupMaxSize - 1

def memberIndexToGroup (idx : Nat) : Nat :=
  let membersInLarge := (c.groupMinSize + 1) * c.numLargeGroups
  if idx < membersInLarge then idx / (c.groupMinSize + 1)
  else (idx - membersInLarge) / c.groupMinSize + c.numLargeGroups

def groupToFirstMemberIndex (idx : Nat) : Nat :=
  let membersInLarge := (c.groupMinSize + 1) * c.numLargeGroups
  if idx < c.numLargeGroups then idx * (c.groupMinSize + 1)
  else membersInLarge + (idx - c.numLargeGroups) * c.groupMinSize

/-- The size of the group that starts at a member index. -/
def groupSizeAt (idx : Nat) : Nat :=
  c.groupMinSize + if idx < c.numLargeGroups * c.groupMaxSize then 1 else 0

end RoundConfig

/-! ### Random numbers -/

/-- A generator that hashes the seed and a counter: 32 bytes of seed, 8 bytes of counter and the
last hash. -/
structure ElectionRng where
  buf : Bytes
  index : Nat
  deriving DecidableEq, Repr, Inhabited

namespace ElectionRng

def ofSeed (seed : Checksum) : ElectionRng := ⟨seed.take 32 ++ List.replicate 40 0, 32⟩

/-- `seed()` -/
def seed (r : ElectionRng) : Checksum := r.buf.take 32

/-- Hash the seed and the counter and count on, when the last hash is used up. -/
def refill (sha256 : Bytes → Checksum) (r : ElectionRng) : ElectionRng :=
  if r.index < 32 then r
  else
    let counter := littleEndian ((r.buf.drop 32).take 8)
    ⟨r.buf.take 32 ++ littleEndianBytes 8 (counter + 1) ++ sha256 (r.buf.take 40), 0⟩

/-- `operator()`: the next number and the generator after it. -/
def next (sha256 : Bytes → Checksum) (r : ElectionRng) : Nat × ElectionRng :=
  let r := r.refill sha256
  (littleEndian ((r.buf.drop (40 + r.index)).take 4), { r with index := r.index + 4 })

/-- The generator after a number has been drawn. -/
def advance (sha256 : Bytes → Checksum) (r : ElectionRng) : ElectionRng := (r.next sha256).2

end ElectionRng

/-! ### Seeds -/

structure ElectionSeeder where
  current : Checksum
  startTime : Nat
  endTime : Nat
  deriving DecidableEq, Repr, Inhabited

namespace ElectionSeeder

/-- A seeder before the first seed: the greatest hash. -/
def new (startTime endTime : Nat) : ElectionSeeder :=
  ⟨List.replicate 32 255, startTime, endTime⟩

/-- The double hash of a block header, as the number that proof of work compares. -/
def blockHash (sha256 : Bytes → Checksum) (header : Bytes) : Checksum :=
  (sha256 (sha256 (header.take 80))).reverse

/-- The time stamp of a block header, in seconds. -/
def blockTime (header : Bytes) : Nat := littleEndian ((header.drop 68).take 4)

def update (sha256 : Bytes → Checksum) (seeder : ElectionSeeder) (header : Bytes) :
    Outcome ElectionSeeder := do
  check (80 ≤ header.length) "Stream overrun"
  let hash := blockHash sha256 header
  check (bigEndian hash < bigEndian seeder.current)
    "New seed block must have greater POW than previous seed."
  check (secOfTimePoint (toTimePoint seeder.startTime) ≤ blockTime header) "Seed block is too early"
  check (blockTime header < secOfTimePoint (toTimePoint seeder.endTime)) "Seed block is too late"
  return { seeder with current := hash }

end ElectionSeeder

end Eden.ElectionPlan
