import SlurmSpank.Overcommit.Table

/-! # The slots of the table

The table has 64 slots, but `register_job` and `unregister_job` look for an entry in three times
as many. As long as they find one among the slots they do what they are for, and otherwise they
go on behind the table.
-/

namespace SlurmSpank.Overcommit

/-- A call on the table, for a job and its step. -/
inductive Call where
  | register (jobid stepid : Int)
  | unregister (jobid stepid : Int)
  deriving DecidableEq

namespace SharedInfo

/-- The entries of the table itself. -/
def slots (info : SharedInfo) : List JobInfo := info.users.take tableSize

/-- A slot is in use for a job. -/
def Registered (jobid stepid : Int) (info : SharedInfo) : Prop :=
  ∃ j ∈ info.slots, j.used = true ∧ j.isOf jobid stepid = true

instance (jobid stepid : Int) (info : SharedInfo) : Decidable (info.Registered jobid stepid) :=
  inferInstanceAs (Decidable (∃ j ∈ info.slots, _))

end SharedInfo

/-- The indices that a loop comes to up to the first entry that it takes. -/
def scan (taken : JobInfo → Bool) : List JobInfo → Nat → List Nat
  | [], _ => []
  | j :: rest, i => if taken j then [i] else i :: scan taken rest (i + 1)

namespace Call

/-- The job id of a call. -/
def jobid : Call → Int
  | register jobid _ => jobid
  | unregister jobid _ => jobid

/-- The result of a call and what it leaves. -/
def run : Call → SharedInfo → Int × SharedInfo
  | register jobid stepid => SharedInfo.registerJob jobid stepid
  | unregister jobid stepid => SharedInfo.unregisterJob jobid stepid

/-- Whether a call takes an entry. -/
def taken : Call → JobInfo → Bool
  | register _ _ => fun j => !j.used
  | unregister jobid stepid => JobInfo.isOf jobid stepid

/-- The indices of the entries that a call looks at. -/
def accesses (call : Call) (info : SharedInfo) : List Nat := scan call.taken info.users 0

/-- What is expected of a call. It stays in the table and keeps the number of the slots in use.
A registration fails if all slots are in use, and only then. For a job that is registered, one of
its slots is freed, and no other changes. -/
structure Sound (call : Call) (info : SharedInfo) : Prop where
  inTable : ∀ i ∈ call.accesses info, i < tableSize
  counted : (call.run info).2.nusers = ((call.run info).2.slots.countP (·.used) : Nat)
  failed_iff : ∀ jobid stepid, call = register jobid stepid →
    ((call.run info).1 ≠ 0 ↔ ∀ j ∈ info.slots, j.used = true)
  freed : ∀ jobid stepid, call = unregister jobid stepid → info.Registered jobid stepid →
    ∃ i < tableSize, ∃ j, info.users[i]? = some j ∧ j.used = true ∧
      j.isOf jobid stepid = true ∧ (call.run info).2.users = info.users.set i .zero

/-- There is a slot for a call: a free one to register, and one of the job to unregister. -/
def HasSlot : Call → SharedInfo → Prop
  | register _ _, info => ∃ j ∈ info.slots, j.used = false
  | unregister jobid stepid, info => info.Registered jobid stepid

instance (call : Call) (info : SharedInfo) : Decidable (call.HasSlot info) :=
  match call with
  | register _ _ => inferInstanceAs (Decidable (∃ j ∈ info.slots, j.used = false))
  | unregister _ _ => inferInstanceAs (Decidable (info.Registered _ _))

end Call

/-- A condition on a call and the table holds for each of several calls in turn. -/
def Throughout (holds : Call → SharedInfo → Prop) : List Call → SharedInfo → Prop
  | [], _ => True
  | call :: rest, info => holds call info ∧ Throughout holds rest (call.run info).2

instance instDecidableThroughout (holds : Call → SharedInfo → Prop)
    [∀ call info, Decidable (holds call info)] :
    (calls : List Call) → (info : SharedInfo) → Decidable (Throughout holds calls info)
  | [], _ => .isTrue trivial
  | call :: rest, info =>
      have := instDecidableThroughout holds rest (call.run info).2
      inferInstanceAs (Decidable (holds call info ∧ Throughout holds rest (call.run info).2))

/-- The table as it is kept while there is a slot for each call: nothing behind it is in use, and
an entry that is not in use has no job. -/
structure SharedInfo.Kept (info : SharedInfo) : Prop extends info.Tabled where
  behind : ∀ j ∈ info.users.drop tableSize, j.used = false
  unused : ∀ j ∈ info.users, j.used = false → j.jobid = 0

/-! ## Where a call finds its entry -/

/-- A loop stays in front of a place exactly if there is an entry for it. -/
theorem scan_lt_iff {taken : JobInfo → Bool} {l : List JobInfo} {n : Nat} (hlength : n < l.length)
    (first : Nat) : (∀ i ∈ scan taken l first, i < first + n) ↔
      ∃ j ∈ l.take n, taken j = true := by
  induction l generalizing n first with
  | nil => exact absurd hlength (Nat.not_lt_zero n)
  | cons j rest ih =>
      rw [scan]
      cases n with
      | zero =>
          refine iff_of_false ?_ ?_
          · intro hall
            split at hall
            · exact absurd (hall first List.mem_cons_self) (Nat.lt_irrefl first)
            · exact absurd (hall first List.mem_cons_self) (Nat.lt_irrefl first)
          · rintro ⟨other, hmem, -⟩
            exact absurd hmem List.not_mem_nil
      | succ n =>
          rw [List.take_succ_cons, List.exists_mem_cons_iff]
          split
          next htaken =>
            refine iff_of_true (fun i hi => ?_) (Or.inl htaken)
            rw [List.mem_singleton.mp hi]
            omega
          next hnot =>
            have hrest := @ih n (Nat.lt_of_succ_lt_succ hlength) (first + 1)
            rw [List.forall_mem_cons, or_iff_right hnot, ← hrest, Nat.add_assoc first 1,
              Nat.add_comm 1]
            exact and_iff_right (Nat.lt_add_of_pos_right (Nat.succ_pos n))

/-- The first entry for a loop is in front of a place if there is one there. -/
theorem findIdx?_of_mem_take {taken : JobInfo → Bool} {l : List JobInfo} {n : Nat}
    (hslot : ∃ j ∈ l.take n, taken j = true) :
    ∃ i, ∃ hlt : i < l.length, l.findIdx? taken = some i ∧ i < n ∧ taken l[i] = true := by
  obtain ⟨j, hmem, htaken⟩ := hslot
  obtain ⟨k, hk, rfl⟩ := List.mem_iff_getElem.mp hmem
  rw [List.length_take] at hk
  rw [List.getElem_take] at htaken
  cases hfind : l.findIdx? taken with
  | none =>
      have hnot := List.findIdx?_eq_none_iff.mp hfind _ (List.getElem_mem (by omega : k < l.length))
      exact Bool.noConfusion (hnot.symm.trans htaken)
  | some i =>
      obtain ⟨hlt, hfound, hbefore⟩ := List.findIdx?_eq_some_iff_getElem.mp hfind
      refine ⟨i, hlt, rfl, ?_, hfound⟩
      by_contra hge
      exact hbefore k (by omega) htaken

variable {info : SharedInfo} {call : Call} {jobid stepid : Int}

/-- An entry for a job with an id above zero is in use. -/
theorem SharedInfo.Kept.used_of_isOf (hkept : info.Kept) (hjobid : 0 < jobid) {j : JobInfo}
    (hj : j ∈ info.users) (hisOf : j.isOf jobid stepid = true) : j.used = true := by
  by_contra hunused
  have hzero := hkept.unused j hj (Bool.eq_false_iff.mpr hunused)
  have hsame : j.jobid = jobid := by
    unfold JobInfo.isOf at hisOf
    simpa using (Bool.and_eq_true_iff.mp hisOf).1
  omega

/-- There is a slot for a call if one of the slots is an entry that it takes. -/
theorem SharedInfo.Kept.hasSlot_iff (hkept : info.Kept) (hjobid : 0 < call.jobid) :
    call.HasSlot info ↔ ∃ j ∈ info.slots, call.taken j = true := by
  cases call with
  | register jobid stepid =>
      refine exists_congr fun j => and_congr_right fun _ => ?_
      exact (iff_of_eq (Bool.not_eq_true' j.used)).symm
  | unregister jobid stepid =>
      refine exists_congr fun j => and_congr_right fun hj => ?_
      exact and_iff_right_of_imp (hkept.used_of_isOf hjobid (List.mem_of_mem_take hj))

/-- The entry that a call comes to if there is a slot for it. -/
theorem SharedInfo.Kept.entry_of_hasSlot (hkept : info.Kept) (hjobid : 0 < call.jobid)
    (hslot : call.HasSlot info) :
    ∃ i, ∃ hlt : i < info.users.length, info.users.findIdx? call.taken = some i ∧
      i < tableSize ∧ call.taken info.users[i] = true :=
  findIdx?_of_mem_take ((hkept.hasSlot_iff hjobid).mp hslot)

/-! ## What a call keeps -/

theorem Call.run_register {i : Nat}
    (hfind : info.users.findIdx? (Call.register jobid stepid).taken = some i) :
    (Call.register jobid stepid).run info =
      (0, { info with
        users := info.users.set i ⟨jobid, stepid, true⟩, nusers := info.nusers + 1 }) := by
  unfold Call.taken at hfind
  rw [Call.run, SharedInfo.registerJob, hfind]

theorem Call.run_unregister {i : Nat}
    (hfind : info.users.findIdx? (Call.unregister jobid stepid).taken = some i) :
    (Call.unregister jobid stepid).run info =
      (0, { info with users := info.users.set i .zero, nusers := info.nusers - 1 }) := by
  unfold Call.taken at hfind
  rw [Call.run, SharedInfo.unregisterJob, hfind]

theorem SharedInfo.zero_kept : zero.Kept where
  toTabled := zero_tabled
  behind j hj := by rw [List.eq_of_mem_replicate (List.mem_of_mem_drop hj)]; rfl
  unused j hj _ := by rw [List.eq_of_mem_replicate hj]; rfl

/-- An entry of the table is replaced by a good one. -/
theorem SharedInfo.Kept.set (hkept : info.Kept) {i : Nat} {j : JobInfo} {nusers : Int}
    (hi : i < tableSize) (hj : j.used = false → j.jobid = 0)
    (htabled : SharedInfo.Tabled { info with users := info.users.set i j, nusers }) :
    SharedInfo.Kept { info with users := info.users.set i j, nusers } where
  toTabled := htabled
  behind other hmem := by
    apply hkept.behind
    rwa [List.drop_set_of_lt hi] at hmem
  unused other hmem hunused := by
    rcases List.mem_or_eq_of_mem_set hmem with hmem | rfl
    · exact hkept.unused other hmem hunused
    · exact hj hunused

/-- A call for which there is a slot keeps the table. -/
theorem SharedInfo.Kept.run (hkept : info.Kept) (hjobid : 0 < call.jobid)
    (hslot : call.HasSlot info) : (call.run info).2.Kept := by
  obtain ⟨i, hlt, hfind, hi, htaken⟩ := hkept.entry_of_hasSlot hjobid hslot
  cases call with
  | register jobid stepid =>
      have htabled : ((Call.register jobid stepid).run info).2.Tabled :=
        registerJob_tabled hkept.toTabled
      rw [Call.run_register hfind] at htabled ⊢
      exact hkept.set hi (fun hunused => nomatch hunused) htabled
  | unregister jobid stepid =>
      have htabled : ((Call.unregister jobid stepid).run info).2.Tabled :=
        unregisterJob_tabled hkept.toTabled fun j hj =>
          hkept.used_of_isOf hjobid (List.mem_of_find?_eq_some hj) (@List.find?_some _ _ _ _ hj)
      rw [Call.run_unregister hfind] at htabled ⊢
      exact hkept.set hi (fun _ => rfl) htabled

/-- While nothing behind the table is in use, it is the slots in use that are counted. -/
theorem SharedInfo.Kept.nusers_eq (hkept : info.Kept) :
    info.nusers = (info.slots.countP (·.used) : Nat) := by
  have hbehind : (info.users.drop tableSize).countP (·.used) = 0 :=
    List.countP_eq_zero.mpr fun j hj => Bool.eq_false_iff.mp (hkept.behind j hj)
  have hsplit : info.users.countP (·.used) =
      info.slots.countP (·.used) + (info.users.drop tableSize).countP (·.used) := by
    rw [slots, ← List.countP_append, List.take_append_drop]
  rw [hkept.counted, hsplit, hbehind, Nat.add_zero]

/-! ## What is expected of a call -/

/-- A call stays in the table exactly if there is a slot for it. -/
theorem SharedInfo.Kept.inTable_iff (hkept : info.Kept) (hjobid : 0 < call.jobid) :
    (∀ i ∈ call.accesses info, i < tableSize) ↔ call.HasSlot info := by
  have hlength : tableSize < info.users.length := by
    rw [hkept.length]
    decide
  rw [hkept.hasSlot_iff hjobid, SharedInfo.slots, ← scan_lt_iff hlength 0, Nat.zero_add]
  rfl

/-- A registration that has a slot succeeds. -/
theorem SharedInfo.Kept.register_of_hasSlot (hkept : info.Kept)
    (hjobid : 0 < (Call.register jobid stepid).jobid)
    (hslot : (Call.register jobid stepid).HasSlot info) :
    ((Call.register jobid stepid).run info).1 = 0 := by
  obtain ⟨i, -, hfind, -, -⟩ := hkept.entry_of_hasSlot hjobid hslot
  rw [Call.run_register hfind]

/-- A job that has a slot loses it, and nothing else changes. -/
theorem SharedInfo.Kept.unregister_of_hasSlot (hkept : info.Kept)
    (hjobid : 0 < (Call.unregister jobid stepid).jobid)
    (hslot : (Call.unregister jobid stepid).HasSlot info) :
    ∃ i < tableSize, ∃ j, info.users[i]? = some j ∧ j.used = true ∧
      j.isOf jobid stepid = true ∧
      ((Call.unregister jobid stepid).run info).2.users = info.users.set i .zero := by
  obtain ⟨i, hlt, hfind, hi, htaken⟩ := hkept.entry_of_hasSlot hjobid hslot
  refine ⟨i, hi, _, List.getElem?_eq_getElem hlt,
    hkept.used_of_isOf hjobid (List.getElem_mem hlt) htaken, htaken, ?_⟩
  rw [Call.run_unregister hfind]

/-- A call does what is expected of it exactly if there is a slot for it. -/
theorem SharedInfo.Kept.sound_iff (hkept : info.Kept) (hjobid : 0 < call.jobid) :
    call.Sound info ↔ call.HasSlot info := by
  constructor
  · intro hsound
    exact (hkept.inTable_iff hjobid).mp hsound.inTable
  · intro hslot
    refine ⟨(hkept.inTable_iff hjobid).mpr hslot, (hkept.run hjobid hslot).nusers_eq, ?_, ?_⟩
    · rintro jobid stepid rfl
      refine iff_of_false (not_not_intro (hkept.register_of_hasSlot hjobid hslot)) ?_
      -- The slot that is free is one that is not in use.
      intro hfull
      obtain ⟨j, hj, hfree⟩ := hslot
      exact Bool.noConfusion ((hfull j hj).symm.trans hfree)
    · rintro jobid stepid rfl -
      exact hkept.unregister_of_hasSlot hjobid hslot

theorem throughout_sound_iff {calls : List Call} (hkept : info.Kept)
    (hjobid : ∀ call ∈ calls, 0 < call.jobid) :
    Throughout Call.Sound calls info ↔ Throughout Call.HasSlot calls info := by
  induction calls generalizing info with
  | nil => exact Iff.rfl
  | cons call rest ih =>
      have hfirst := hjobid call List.mem_cons_self
      rw [Throughout, Throughout, hkept.sound_iff hfirst]
      refine and_congr_right fun hslot => ?_
      exact ih (hkept.run hfirst hslot) fun other hmem => hjobid other (List.mem_cons_of_mem _ hmem)

/-- Over calls for jobs with ids above zero, each call stays in the table, keeps the number of the
slots in use, fails to register only if all of them are, and frees one slot of a job that is
registered, exactly if a slot is free whenever a job is registered and only jobs that are
registered are unregistered. -/
theorem table_kept_iff (calls : List Call) (hjobid : ∀ call ∈ calls, 0 < call.jobid) :
    Throughout Call.Sound calls .zero ↔ Throughout Call.HasSlot calls .zero :=
  throughout_sound_iff SharedInfo.zero_kept hjobid

/-- A job is registered and unregistered. -/
theorem table_kept_iff_one :
    Throughout Call.Sound [.register 1 0, .unregister 1 0] .zero :=
  (table_kept_iff [.register 1 0, .unregister 1 0] (by decide)).mpr
    ⟨by decide, by decide, trivial⟩

/-- With a job in each of the 64 slots, one more is registered behind the table, and counted. -/
theorem registered_behind_table :
    ¬ Throughout Call.Sound ((List.range 65).map fun i => .register (i + 1) 0) .zero := by
  rw [throughout_sound_iff SharedInfo.zero_kept (by decide)]
  decide +kernel

end SlurmSpank.Overcommit
