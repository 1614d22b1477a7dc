import SlurmSpank.Cpuset.Atomicity
import SlurmSpank.Cpuset.Slurm

/-! # What `create_cpuset` makes of a count

A lookup that fails ends in a count below 1. Nothing on the way to `cpuset_create` asks
whether the count is positive: the allocator answers a count that is not with an empty mask.
-/

namespace SlurmSpank.Cpuset

open Foundation Hierarchy

variable {machine : Machine} {calls : Calls} {fuel : Nat} {conf : CpusetConf}
  {id uid : BitVec 32} {ncpus : Int} {h before : Cpusets} {alloc : Bitmask} {map : Nodemap}

/-- The size of a grant. -/
theorem Grants.weight (hlists : machine.Lists)
    (hgrants : Grants machine calls fuel conf ncpus h map alloc) (hncpus : 0 ≤ ncpus) :
    (alloc.bits.card : Int) =
      if conf.policy = .worstFit then ncpus else min ncpus map.reachable.card := by
  obtain ⟨hok, hpolicy, -⟩ := createMap_spec hlists hgrants.map_eq
  obtain ⟨map', hgranted⟩ := hgrants.granted
  exact ((nodemapAllocate_some hok hpolicy hgranted).2.2 hncpus).2.2

end SlurmSpank.Cpuset
