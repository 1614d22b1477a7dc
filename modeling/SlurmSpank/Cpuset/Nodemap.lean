import SlurmSpank.Cpuset.Bitmask
import SlurmSpank.Cpuset.Conf
import SlurmSpank.Lib.List

/-! # The nodemap and the CPU allocator

The data and functions of `nodemap.c`. A node is passed together with the allocation
it serves, whose `map` stands for both back pointers of the source; the node list
stored in that map is replaced once a traversal is over.
-/

namespace SlurmSpank.Cpuset

open Lib

/-- `struct node`: one NUMA node. -/
structure Node where
  nodeid : Nat
  ncpus : Nat
  navail : Int
  localcpus : Bitmask
  usedcpus : Bitmask
  deriving DecidableEq

/-- `struct policy`. -/
structure Policy where
  reverse : Bool
  bestFit : Bool
  firstFit : Bool
  worstFit : Bool
  allocIdleFirst : Bool
  allocIdleMultiplesOnly : Bool
  deriving DecidableEq, Repr

/-- `default_policy`. -/
def defaultPolicy : Policy where
  reverse := false
  bestFit := true
  firstFit := false
  worstFit := false
  allocIdleFirst := true
  allocIdleMultiplesOnly := false

/-- `struct nodemap`. -/
structure Nodemap where
  policy : Policy
  nnodes : Nat
  ncpus : Nat
  navail : Int
  usedcpus : Bitmask
  cpus : Bitmask
  nodelist : List Node
  deriving DecidableEq

/-- `struct allocation`. -/
structure Allocation where
  ntasks : Int
  nleft : Int
  map : Nodemap
  allocatedCpus : Bitmask
  deriving DecidableEq

/-- What libcpuset reports about the machine: the sizes of the CPU and memory masks,
the CPUs local to a memory node, and the memory nodes local to a set of CPUs, where
`none` is a failed call. -/
structure Numa where
  cpumaskSize : Nat
  memmaskSize : Nat
  localcpus : Nat → Finset Nat
  localmems : Finset Nat → Option (Finset Nat)

/-! ## Building the map -/

/-- The policy that `nodemap_policy_update` reads off a configuration. -/
def policyOf (conf : CpusetConf) : Policy where
  bestFit := conf.policy = .bestFit
  worstFit := conf.policy = .worstFit
  firstFit := conf.policy = .firstFit
  allocIdleFirst := conf.allocIdle
  allocIdleMultiplesOnly := conf.allocIdleMultiple
  reverse := conf.reverseOrder

/-- `nodemap_policy_update`. -/
def nodemapPolicyUpdate (map : Nodemap) (conf : CpusetConf) : Nodemap :=
  { map with policy := policyOf conf }

/-- `node_create`. -/
def nodeCreate (numa : Numa) (map : Nodemap) (id : Nat) : Node :=
  let localcpus := Bitmask.ofFinset numa.cpumaskSize (numa.localcpus id)
  let ncpus := localcpus.weight
  let offset := localcpus.first
  let usedcpus := (List.range ncpus).foldl
    (fun used i => if map.usedcpus.isbitset (offset + i) then used.setbit i else used)
    (Bitmask.alloc ncpus)
  { nodeid := id
    ncpus := ncpus
    navail := ncpus - usedcpus.weight
    localcpus := localcpus
    usedcpus := usedcpus }

/-- `node_cpus_available`. A failed `cpuset_localmems` returns the nonzero value of
`log_err`, which the caller takes for a yes. -/
def nodeCpusAvailable (numa : Numa) (map : Nodemap) (id : Nat) : Bool :=
  match numa.localmems map.cpus.bits with
  | none => true
  | some mems => decide (id ∈ mems ∧ id < numa.memmaskSize)

/-- `nodemap_create`. The current usage is the result of `used_cpus_bitmask`, read only
when the caller passes no mask, and `cpus` that of `current_cpuset_cpus`. -/
def nodemapCreate (numa : Numa) (conf : CpusetConf) (used current : Option Bitmask)
    (cpus : Bitmask) : Option Nodemap :=
  let usedcpus := match used with
    | some used => some ((Bitmask.alloc used.weight).copy used)
    | none => current
  match usedcpus with
  | none => none
  | some usedcpus =>
      let map : Nodemap :=
        { policy := defaultPolicy
          nnodes := numa.memmaskSize
          ncpus := numa.cpumaskSize
          navail := 0
          usedcpus := usedcpus
          cpus := cpus
          nodelist := [] }
      let nodelist := (List.range map.nnodes).foldl
        (fun nodes i =>
          if nodeCpusAvailable numa map i then listPush nodes (nodeCreate numa map i) else nodes)
        []
      let map := { map with
        nodelist := nodelist
        navail := map.ncpus - map.usedcpus.weight }
      some (nodemapPolicyUpdate map conf)

/-! ## Taking single CPUs -/

/-- `allocation_create`. -/
def allocationCreate (map : Nodemap) (ntasks : Int) : Allocation where
  ntasks := ntasks
  nleft := ntasks
  map := map
  allocatedCpus := Bitmask.alloc map.ncpus

/-- `node_cpu_to_global`. -/
def nodeCpuToGlobal (n : Node) (cpu : Nat) : Nat := n.localcpus.first + cpu

/-- `node_allocate_cpu`: the global number of the CPU taken, or nothing where the
source returns -1. -/
def nodeAllocateCpu (n : Node) (map : Nodemap) (cpu : Nat) : Option (Nat × Node × Nodemap) :=
  if n.usedcpus.isbitset cpu then none
  else
    let gcpu := nodeCpuToGlobal n cpu
    if map.usedcpus.isbitset gcpu then none
    else some (gcpu,
      { n with usedcpus := n.usedcpus.setbit cpu, navail := n.navail - 1 },
      { map with usedcpus := map.usedcpus.setbit gcpu, navail := map.navail - 1 })

/-- `allocation_add_cpu`. -/
def allocationAddCpu (a : Allocation) (cpu : Nat) : Allocation :=
  { a with allocatedCpus := a.allocatedCpus.setbit cpu, nleft := a.nleft - 1 }

/-- `try_alloc`. -/
def tryAlloc (n : Node) (a : Allocation) (cpu : Nat) : Option (Node × Allocation) :=
  match nodeAllocateCpu n a.map cpu with
  | none => none
  | some (globalcpu, n, map) => some (n, allocationAddCpu { a with map := map } globalcpu)

/-! ## Taking CPUs from one node -/

/-- The loop of `node_allocate_n` over the local CPUs in the order given. -/
def nodeAllocateLoop (count : Int) :
    List Nat → Node → Allocation → Int → Node × Allocation × Int
  | [], n, a, nalloc => (n, a, nalloc)
  | i :: rest, n, a, nalloc =>
      if a.nleft ≠ 0 ∧ nalloc < count then
        match tryAlloc n a i with
        | none => nodeAllocateLoop count rest n a nalloc
        | some (n, a) => nodeAllocateLoop count rest n a (nalloc + 1)
      else (n, a, nalloc)

/-- The order in which `node_allocate_n` visits the local CPUs. -/
def scanOrder (reverse : Bool) (ncpus : Nat) : List Nat :=
  if !reverse then List.range ncpus else (List.range ncpus).reverse

/-- `node_allocate_n`. -/
def nodeAllocateN (n : Node) (a : Allocation) (count : Int) : Node × Allocation × Int :=
  if a.nleft = 0 then (n, a, 0)
  else
    -- all CPUs left in the node when the count is negative
    let count := if count < 0 then n.navail else count
    nodeAllocateLoop count (scanOrder a.map.policy.reverse n.ncpus) n a 0

/-- `node_allocate_all`. -/
def nodeAllocateAll (n : Node) (a : Allocation) : Node × Allocation × Int :=
  nodeAllocateN n a (-1)

/-! ## Idle nodes -/

/-- `find_multiple_of_node_size`. -/
def findMultipleOfNodeSize (np : Int) (n : Node) : Bool :=
  np.tmod n.ncpus = 0 ∧ n.navail = n.ncpus

/-- `find_node_lt_size`. -/
def findNodeLtSize (np : Int) (n : Node) : Bool :=
  np ≥ n.ncpus ∧ n.navail = n.ncpus

/-- `should_allocate_idle_nodes`. -/
def shouldAllocateIdleNodes (m : Nodemap) (count : Int) : Bool :=
  if !m.policy.allocIdleFirst then false
  else
    let fn := if m.policy.allocIdleMultiplesOnly then findMultipleOfNodeSize else findNodeLtSize
    (listFindFirst (fn count) m.nodelist).isSome

/-- The loop of `alloc_idle_nodes`. -/
def allocIdleLoop : List Node → Allocation → Int → List Node × Allocation × Int
  | [], a, nalloc => ([], a, nalloc)
  | n :: rest, a, nalloc =>
      if a.nleft > 0 then
        if n.navail ≠ 0 ∧
            ¬ (a.map.policy.allocIdleMultiplesOnly ∧ a.nleft.tmod n.navail ≠ 0) ∧
            n.navail = n.ncpus ∧ a.nleft ≥ n.navail then
          let (n, a, k) := nodeAllocateN n a n.ncpus
          let (rest, a, nalloc) := allocIdleLoop rest a (nalloc + k)
          (n :: rest, a, nalloc)
        else
          let (rest, a, nalloc) := allocIdleLoop rest a nalloc
          (n :: rest, a, nalloc)
      else (n :: rest, a, nalloc)

/-- Store the nodes a traversal changed back into the map. -/
def Allocation.setNodes (a : Allocation) (nodes : List Node) : Allocation :=
  { a with map := { a.map with nodelist := nodes } }

/-- `alloc_idle_nodes`. -/
def allocIdleNodes (a : Allocation) : Allocation × Int :=
  let (nodes, a, nalloc) := allocIdleLoop a.map.nodelist a 0
  (a.setNodes nodes, nalloc)

/-! ## Policies -/

/-- `node_cmp_free`. -/
def nodeCmpFree (n1 n2 : Node) : Int :=
  if n1.navail = n2.navail then 0 else if n1.navail < n2.navail then -1 else 1

/-- `node_cmp_avail`. -/
def nodeCmpAvail (n1 n2 : Node) : Int := -nodeCmpFree n1 n2

/-- `node_cmp_nodeid`. -/
def nodeCmpNodeid (n1 n2 : Node) : Int :=
  if n1.nodeid < n2.nodeid then -1 else if n1.nodeid > n2.nodeid then 1 else 0

/-- `node_cmp_reverse`. -/
def nodeCmpReverse (n1 n2 : Node) : Int := -nodeCmpNodeid n1 n2

/-- Sort the node list of the map an allocation works on. -/
def Allocation.sortNodes (a : Allocation) (cmp : Node → Node → Int) : Allocation :=
  a.setNodes (listSort cmp a.map.nodelist)

/-- `do_allocation`. -/
def doAllocation (a : Allocation) (sort : Option (Node → Node → Int)) : Allocation :=
  let a := match sort with
    | some cmp => a.sortNodes cmp
    | none => a
  let (nodes, a, _) := listForEach nodeAllocateAll a.map.nodelist a 0
  a.setNodes nodes

/-- `allocation_best_fit`. -/
def allocationBestFit (a : Allocation) : Allocation := doAllocation a (some nodeCmpFree)

/-- `allocation_first_fit`. -/
def allocationFirstFit (a : Allocation) : Allocation := doAllocation a none

/-- One turn of the loop of `allocation_worst_fit`. With no node in the list the source
dereferences the null pointer of `list_peek`, and there is no result. -/
def worstFitTurn (a : Allocation) : Option (Allocation × Int) :=
  let a := a.sortNodes nodeCmpAvail
  match listPeek a.map.nodelist with
  | none => none
  | some n =>
      let (n, a, rc) := nodeAllocateN n a 1
      some (a.setNodes (n :: a.map.nodelist.tail), rc)

/-- `allocation_worst_fit`, run for at most `fuel` turns of its loop; without a result
when the loop is still going. -/
def allocationWorstFit : Nat → Allocation → Option Allocation
  | 0, a => if a.nleft ≠ 0 then none else some a
  | fuel + 1, a =>
      if a.nleft ≠ 0 then
        match worstFitTurn a with
        | none => none
        | some (a, rc) => if rc < 0 then some a else allocationWorstFit fuel a
      else some a

/-- The policy step of `nodemap_allocate`. -/
def allocateByPolicy (fuel : Nat) (a : Allocation) : Option Allocation :=
  if a.nleft > 0 then
    if a.map.policy.bestFit then some (allocationBestFit a)
    else if a.map.policy.firstFit then some (allocationFirstFit a)
    else if a.map.policy.worstFit then allocationWorstFit fuel a
    else some a
  else some a

/-- `nodemap_allocate`, with `fuel` turns for the worst-fit loop. The outer `none` is a
call that has not returned, the inner one the null pointer. -/
def nodemapAllocate (fuel : Nat) (map : Nodemap) (ncpus : Int) :
    Option (Option Bitmask × Nodemap) :=
  if ncpus > map.navail then some (none, map)
  else
    let cmp := if !map.policy.reverse then nodeCmpNodeid else nodeCmpReverse
    let map := { map with nodelist := listSort cmp map.nodelist }
    let a := allocationCreate map ncpus
    let a := if shouldAllocateIdleNodes a.map ncpus then (allocIdleNodes a).1 else a
    (allocateByPolicy fuel a).map fun a => (some a.allocatedCpus, a.map)

end SlurmSpank.Cpuset
