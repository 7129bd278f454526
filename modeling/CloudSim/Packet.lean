import CloudSim.Table

/-! Machine integers, tensors and the packets that workers and switches exchange. -/
namespace CloudSim

/-- Conversion to a 32-bit `unsigned`. -/
def u32 (x : Nat) : Nat := x % 2^32

/-- Subtraction of two `unsigned` values. -/
def sub32 (a b : Nat) : Nat := u32 (a + (2^32 - u32 b))

theorem u32_of_lt (h : x < 2^32) : u32 x = x := Nat.mod_eq_of_lt h

theorem u32_lt (x : Nat) : u32 x < 2^32 := Nat.mod_lt _ (by decide)

theorem sub32_of_le (le : b ≤ a) (bound : a < 2^32) : sub32 a b = a - b := by
  simp only [sub32,u32]
  omega

/-- A 64-bit unsigned converted to `int`. -/
def intOf (n : Nat) : Int := if u32 n < 2^31 then u32 n else (u32 n : Int) - 2^32

theorem intOf_of_lt {n : Nat} (bound : n < 2^31) : intOf n = n := by
  rw [intOf,u32_of_lt (by omega),if_pos bound]

def u64 (x : Nat) : Nat := x % 2^64

/-- Subtraction of two `uint64_t` values. -/
def sub64 (a b : Nat) : Nat := u64 (a + (2^64 - u64 b))

theorem u64_of_lt (h : x < 2^64) : u64 x = x := Nat.mod_eq_of_lt h

theorem sub64_of_le (le : b ≤ a) (bound : a < 2^64) : sub64 a b = a - b := by
  simp only [sub64,u64]
  omega

/-- What `read_env_and_print` fixes for a run, with the hash behind `get_key`. -/
structure Config where
  numSlots : Nat
  numUpdates : Nat
  chunkSize : Nat
  getKey : Nat → Nat → Nat

/-- A `Tensor *`: the object that one worker allocates for one layer of a job. -/
structure TensorRef where
  machine : Nat
  job : Nat
  tensorId : Nat
  deriving DecidableEq, Repr

/-- `tensor->key`. It names the layer of the job and not the worker. -/
def TensorRef.key (cfg : Config) (r : TensorRef) : Nat := cfg.getKey r.job r.tensorId

/-- The fields of a `Tensor` that change while its job runs, and its size. -/
structure Tensor where
  size : Nat
  allreducedSize : Nat := 0
  iter : Nat := 0
  chunkId : Nat := 0
  numPktsExpected : Nat := 0
  deriving DecidableEq, Repr

/-- `SwitchMLPacket`. -/
structure Packet where
  jobId : Nat
  nWorkers : Nat
  gradSize : Nat
  upward : Bool
  id : Nat
  slot : Nat
  ver : Nat
  offset : Nat
  tensor : TensorRef
  deriving DecidableEq, Repr

inductive Node where
  | tor (id : Nat)
  | core
  | worker (id : Nat)
  deriving DecidableEq, Repr

/-- A packet handed to the network by `sendOnSimple`. -/
structure Hop where
  dest : Node
  packet : Packet
  deriving DecidableEq, Repr

end CloudSim
