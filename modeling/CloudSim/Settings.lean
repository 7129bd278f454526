import CloudSim.Packet

/-! The settings that a run reads from its environment, and when the packet size and the number
of updates in a packet agree. -/
namespace CloudSim

/-- The numbers behind the environment variables, as `std::stoul` and `std::stoi` return them. -/
structure Environment where
  nicGbps : Option Nat := none
  switchBufferBytes : Option Nat := none
  switchPorts : Option Int := none
  gpusPerNode : Option Nat := none
  rttUs : Option Nat := none
  chunkSize : Option Nat := none
  numSlots : Option Nat := none
  printMask : Option Nat := none
  mtu : Option Nat := none
  numUpdates : Option Nat := none
  collectiveStatistics : Bool := false

structure Settings where
  defaultDataSize : Nat
  hostNic : Nat
  switchBuffer : Nat
  switchPorts : Int
  gpusPerNode : Nat
  rtt : Nat
  chunkSize : Nat
  numSlots : Nat
  numUpdates : Nat
  printMask : Nat
  collectiveStatistics : Bool
  deriving DecidableEq, Repr

namespace Settings

def overhead : Nat := 8 + 14 + 20 + 8 + 16 + 4 + 12

/-- The packet size and the number of updates, on `uint32_t`; `none` stands for `LOG(FATAL)`. -/
def geometry : Option Nat → Option Nat → Option (Nat × Nat)
  | some m,some u =>
    if u32 m < u32 (overhead + u32 u * 4) then none else some (u32 m,u32 u)
  | some m,none => some (u32 m,sub32 (u32 m) overhead / 4)
  | none,some u => some (u32 (overhead + u32 u * 4),u32 u)
  | none,none => some (1500,256)

def readEnvAndPrint (env : Environment) : Option Settings := do
  let gbps := env.nicGbps.getD 100
  let (size,updates) ← geometry env.mtu env.numUpdates
  return {
    defaultDataSize := size
    hostNic := u32 (1000 * gbps)
    switchBuffer := u32 (env.switchBufferBytes.getD 100000000)
    switchPorts := env.switchPorts.getD 8
    gpusPerNode := u32 (env.gpusPerNode.getD 4)
    rtt := u32 (env.rttUs.getD 1)
    chunkSize := u32 (env.chunkSize.getD 262144)
    numSlots := u32 (env.numSlots.getD (if gbps = 100 then 512 else 128))
    numUpdates := updates
    printMask := u32 (env.printMask.getD (1 <<< 3 ||| 1 <<< 7))
    collectiveStatistics := env.collectiveStatistics }

/-- A packet carries an update, and its updates fit in it. -/
structure Consistent (s : Settings) : Prop where
  updates : 1 ≤ s.numUpdates
  fits : overhead + 4 * s.numUpdates ≤ s.defaultDataSize

/-- The chosen number of updates is positive and its packet has a 32-bit size, or the chosen
size has room for an update. -/
def Sized : Option Nat → Option Nat → Prop
  | _,some u => 1 ≤ u32 u ∧ overhead + 4 * u32 u < 2^32
  | some m,none => overhead + 4 ≤ u32 m
  | none,none => True

instance (mtu updates : Option Nat) : Decidable (Sized mtu updates) :=
  match mtu,updates with
  | none,some _ | some _,some _ => inferInstanceAs (Decidable (_ ∧ _))
  | some _,none => inferInstanceAs (Decidable (_ ≤ _))
  | none,none => isTrue trivial

theorem geometry_consistent_iff {mtu updates : Option Nat} {size n : Nat}
    (accepted : geometry mtu updates = some (size,n)) :
    1 ≤ n ∧ overhead + 4 * n ≤ size ↔ Sized mtu updates := by
  cases updates with
  | some u =>
    cases mtu with
    | some m =>
      simp only [geometry,Option.ite_none_left_eq_some,Option.some.injEq,Prod.mk.injEq] at accepted
      obtain ⟨roomy,rfl,rfl⟩ := accepted
      -- past 2^32 the check compares the wrapped size, which the exact comparison rejects
      simp only [Sized,overhead,u32] at *
      omega
    | none =>
      simp only [geometry,Option.some.injEq,Prod.mk.injEq] at accepted
      obtain ⟨rfl,rfl⟩ := accepted
      simp only [Sized,overhead,u32] at *
      omega
  | none =>
    cases mtu with
    | some m =>
      simp only [geometry,Option.some.injEq,Prod.mk.injEq] at accepted
      obtain ⟨rfl,rfl⟩ := accepted
      simp only [Sized,overhead,sub32,u32] at *
      omega
    | none =>
      simp only [geometry,Option.some.injEq,Prod.mk.injEq] at accepted
      obtain ⟨rfl,rfl⟩ := accepted
      simp [Sized,overhead]

theorem readEnvAndPrint_geometry {env : Environment} {s : Settings}
    (accepted : readEnvAndPrint env = some s) :
    geometry env.mtu env.numUpdates = some (s.defaultDataSize,s.numUpdates) := by
  obtain ⟨⟨size,updates⟩,derived,assigned⟩ := Option.bind_eq_some_iff.mp accepted
  cases assigned
  exact derived

/-- The settings that a run accepts are consistent exactly when no arithmetic on the packet size
wraps and there is an update to carry. -/
theorem accepted_consistent_iff (env : Environment) (s : Settings)
    (accepted : readEnvAndPrint env = some s) : s.Consistent ↔ Sized env.mtu env.numUpdates := by
  rw [← geometry_consistent_iff (readEnvAndPrint_geometry accepted)]
  exact ⟨fun c => ⟨c.updates,c.fits⟩,fun ⟨updates,fits⟩ => ⟨updates,fits⟩⟩

theorem accepted_consistent_iff_jumbo : ∃ s, readEnvAndPrint { mtu := some 9000 } = some s ∧
    s.Consistent := by
  have accepted : ∃ s, readEnvAndPrint { mtu := some 9000 } = some s := ⟨_,rfl⟩
  obtain ⟨s,read⟩ := accepted
  exact ⟨s,read,(accepted_consistent_iff _ s read).mpr (by decide)⟩

/-- A packet size below the overhead, no updates at all, and updates of 2^32 bytes. -/
theorem accepted_inconsistent :
    (∃ s, readEnvAndPrint { mtu := some 80 } = some s ∧ s.numUpdates = 1073741823 ∧
      ¬s.Consistent) ∧
    (∃ s, readEnvAndPrint { mtu := some 1500, numUpdates := some 0 } = some s ∧ ¬s.Consistent) ∧
    ∃ s, readEnvAndPrint { numUpdates := some (2^30) } = some s ∧ s.defaultDataSize = 82 ∧
      ¬s.Consistent := by
  refine ⟨⟨_,rfl,rfl,fun c => ?_⟩,⟨_,rfl,fun c => ?_⟩,⟨_,rfl,rfl,fun c => ?_⟩⟩
  · exact absurd c.fits (by decide)
  · exact absurd c.updates (by decide)
  · exact absurd c.fits (by decide)

end Settings
end CloudSim
