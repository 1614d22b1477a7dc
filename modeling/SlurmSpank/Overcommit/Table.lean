import SlurmSpank.Overcommit.Shared

/-! # The table of the users

`register_job` and `unregister_job` keep the number of the users, as long as an entry that is
taken from the table is in use.
-/

namespace SlurmSpank.Overcommit

namespace SharedInfo

/-- The entry that `unregister_job` takes for that of a job. -/
def entryOf (jobid stepid : Int) (info : SharedInfo) : Option JobInfo :=
  info.users.find? (·.isOf jobid stepid)

/-- The entries that are in use are counted. -/
structure Tabled (info : SharedInfo) : Prop where
  length : info.users.length = maxn
  counted : info.nusers = (info.users.countP (·.used) : Nat)

variable {info : SharedInfo} {jobid stepid : Int} {e : JobInfo} {i : Nat}

theorem Tabled.nusers_nonneg (htabled : info.Tabled) : 0 ≤ info.nusers := by
  rw [htabled.counted]
  exact Int.natCast_nonneg _

/-- Without users, no entry is in use. -/
theorem Tabled.unused (htabled : info.Tabled) (hnone : info.nusers = 0) :
    ∀ j ∈ info.users, j.used = false := by
  intro j hj
  have hcount : info.users.countP (·.used) = 0 := by
    have hcounted := htabled.counted
    omega
  exact Bool.eq_false_iff.mpr (List.countP_eq_zero.mp hcount j hj)

theorem Tabled.nusers_pos (htabled : info.Tabled) {j : JobInfo} (hj : j ∈ info.users)
    (hused : j.used = true) : 0 < info.nusers := by
  have hpos : 0 < info.users.countP (·.used) := List.countP_pos_iff.mpr ⟨j, hj, hused⟩
  rw [htabled.counted]
  omega

theorem zero_tabled : zero.Tabled where
  length := List.length_replicate
  counted := by
    have hcount : zero.users.countP (·.used) = 0 := by
      refine List.countP_eq_zero.mpr fun j hj => ?_
      rw [List.eq_of_mem_replicate hj]
      exact Bool.false_ne_true
    rw [hcount]
    rfl

/-- An entry is replaced by one with the other use. -/
theorem countP_used_set {l : List JobInfo} {j : JobInfo} (hi : i < l.length)
    (hne : l[i].used ≠ j.used) :
    ((l.set i j).countP (·.used) : Int) =
      (l.countP (·.used) : Nat) + if j.used then 1 else -1 := by
  have hpos : l[i].used = true → 0 < l.countP (·.used) := fun hused =>
    List.countP_pos_iff.mpr ⟨l[i], List.getElem_mem hi, hused⟩
  rw [List.countP_set hi]
  cases hbefore : l[i].used with
  | true =>
      have hafter : j.used = false := by
        cases hj : j.used with
        | true => exact absurd (hbefore.trans hj.symm) hne
        | false => rfl
      have hpos := hpos hbefore
      simp only [hafter, Bool.false_eq_true, if_true, if_false]
      omega
  | false =>
      have hafter : j.used = true := by
        cases hj : j.used with
        | true => rfl
        | false => exact absurd (hbefore.trans hj.symm) hne
      simp only [hafter, Bool.false_eq_true, if_true, if_false]
      omega

theorem registerJob_tabled (htabled : info.Tabled) :
    (info.registerJob jobid stepid).2.Tabled := by
  unfold registerJob
  split
  next i hi =>
    obtain ⟨hlt, hunused, -⟩ := List.findIdx?_eq_some_iff_getElem.mp hi
    refine ⟨?_, ?_⟩
    · rw [List.length_set]
      exact htabled.length
    · have hne : info.users[i].used ≠ (JobInfo.mk jobid stepid true).used := by
        simpa using hunused
      rw [countP_used_set hlt hne, htabled.counted]
      rfl
  next => exact htabled

/-- Behind `register_job` there is a user: the job itself, or those that fill the table. -/
theorem registerJob_nusers_pos (htabled : info.Tabled) :
    0 < (info.registerJob jobid stepid).2.nusers := by
  have hnonneg := htabled.nusers_nonneg
  unfold registerJob
  split
  next =>
    show 0 < info.nusers + 1
    omega
  next hfull =>
    have hlt : 0 < info.users.length := by
      rw [htabled.length]
      exact Nat.zero_lt_succ _
    have hused := List.findIdx?_eq_none_iff.mp hfull _ (List.getElem_mem hlt)
    exact htabled.nusers_pos (List.getElem_mem hlt) (by simpa using hused)

theorem registerJob_count (hused : e.used = true) :
    (info.registerJob jobid stepid).2.users.count e ≤
      info.users.count e + (decide (e = ⟨jobid, stepid, true⟩)).toNat := by
  unfold registerJob
  split
  next i hi =>
    obtain ⟨hlt, hunused, -⟩ := List.findIdx?_eq_some_iff_getElem.mp hi
    have hne : ¬info.users[i] = e := by
      intro heq
      rw [heq, hused] at hunused
      exact absurd hunused Bool.false_ne_true
    rw [List.count_set hlt]
    by_cases hnew : e = ⟨jobid, stepid, true⟩
    · simp [hnew]
    · simp [hnew, Ne.symm hnew, hne]
  next => exact Nat.le_add_right _ _

/-- The entry that is found is the one that is cleared. -/
theorem entryOf_of_findIdx? (hi : info.users.findIdx? (·.isOf jobid stepid) = some i) :
    ∃ hlt : i < info.users.length, info.entryOf jobid stepid = some info.users[i] := by
  obtain ⟨hlt, hfound, hbefore⟩ := List.findIdx?_eq_some_iff_getElem.mp hi
  refine ⟨hlt, List.find?_eq_some_iff_getElem.mpr ⟨hfound, i, hlt, rfl, fun j hj => ?_⟩⟩
  simpa using hbefore j hj

theorem unregisterJob_tabled (htabled : info.Tabled)
    (hused : ∀ j, info.entryOf jobid stepid = some j → j.used = true) :
    (info.unregisterJob jobid stepid).2.Tabled := by
  unfold unregisterJob
  split
  next i hi =>
    obtain ⟨hlt, hentry⟩ := entryOf_of_findIdx? hi
    refine ⟨?_, ?_⟩
    · rw [List.length_set]
      exact htabled.length
    · have hne : info.users[i].used ≠ JobInfo.zero.used := by
        rw [hused _ hentry]
        exact Bool.noConfusion
      rw [countP_used_set hlt hne, htabled.counted]
      rfl
  next => exact htabled

theorem unregisterJob_count_le (hused : e.used = true) :
    (info.unregisterJob jobid stepid).2.users.count e ≤ info.users.count e := by
  unfold unregisterJob
  split
  next i hi =>
    obtain ⟨hlt, _⟩ := entryOf_of_findIdx? hi
    have hne : ¬JobInfo.zero = e := by
      rintro rfl
      cases hused
    rw [List.count_set hlt]
    simp [hne]
  next => exact Nat.le_refl _

/-- The entry of the job itself is removed, if it is the one that is found. -/
theorem unregisterJob_count_self (hused : e.used = true)
    (hentry : info.entryOf jobid stepid = some e) :
    (info.unregisterJob jobid stepid).2.users.count e + 1 = info.users.count e := by
  have hpos : 0 < info.users.count e := List.count_pos_iff.mpr (List.mem_of_find?_eq_some hentry)
  unfold unregisterJob
  split
  next i hi =>
    obtain ⟨hlt, hentry'⟩ := entryOf_of_findIdx? hi
    have heq : info.users[i] = e := Option.some_inj.mp (hentry'.symm.trans hentry)
    have hne : ¬JobInfo.zero = e := by
      rintro rfl
      cases hused
    rw [List.count_set hlt]
    simp only [heq, beq_self_eq_true, if_true, beq_iff_eq, hne, if_false]
    omega
  next hnone =>
    have hnot := List.findIdx?_eq_none_iff.mp hnone e (List.mem_of_find?_eq_some hentry)
    rw [List.find?_some hentry] at hnot
    cases hnot

theorem registerJob_previousOvercommitRatio :
    (info.registerJob jobid stepid).2.previousOvercommitRatio = info.previousOvercommitRatio := by
  unfold registerJob
  split
  next => rfl
  next => rfl

theorem unregisterJob_previousOvercommitRatio :
    (info.unregisterJob jobid stepid).2.previousOvercommitRatio =
      info.previousOvercommitRatio := by
  unfold unregisterJob
  split
  next => rfl
  next => rfl

end SharedInfo

end SlurmSpank.Overcommit
