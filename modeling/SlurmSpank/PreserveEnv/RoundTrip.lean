import SlurmSpank.PreserveEnv.Preserve

/-! # What the task gets back

A variable is saved with what comes behind the last `=` of its entry, under a name that fits
the buffer, and gets its old name back in the task. So the task has the `SLURM_*` variables of
the shell exactly when none of the saved values has a `=` and no name is too long.
-/

namespace SlurmSpank.PreserveEnv

open Foundation Lib

universe u

/-! ## Names and values -/

/-- What comes behind the last `=`. -/
def lastPart : List Char → List Char
  | [] => []
  | c :: rest => if '=' ∈ rest then lastPart rest else if c = '=' then rest else c :: rest

theorem eq_notMem_cons {c : Char} {rest : List Char} :
    '=' ∉ c :: rest ↔ c ≠ '=' ∧ '=' ∉ rest := by
  rw [List.mem_cons, not_or, ne_comm]

theorem lastPart_of_notMem {value : List Char} (hvalue : '=' ∉ value) : lastPart value = value := by
  cases value with
  | nil => rfl
  | cons c rest =>
      obtain ⟨hc, hrest⟩ := eq_notMem_cons.mp hvalue
      rw [lastPart, if_neg hrest, if_neg hc]

theorem eq_notMem_lastPart (value : List Char) : '=' ∉ lastPart value := by
  induction value with
  | nil => exact List.not_mem_nil
  | cons c rest ih =>
      unfold lastPart
      split
      next => exact ih
      next hrest =>
        split
        next => exact hrest
        next hc => exact eq_notMem_cons.mpr ⟨hc, hrest⟩

theorem lastPart_eq_self_iff (value : List Char) : lastPart value = value ↔ '=' ∉ value := by
  constructor
  · intro heq
    rw [← heq]
    exact eq_notMem_lastPart value
  · exact lastPart_of_notMem

/-- The part is the end of the value. -/
theorem exists_eq_append_lastPart (value : List Char) :
    ∃ front, value = front ++ lastPart value := by
  induction value with
  | nil => exact ⟨[], rfl⟩
  | cons c rest ih =>
      unfold lastPart
      split
      next =>
        obtain ⟨front, hfront⟩ := ih
        exact ⟨c :: front, by rw [List.cons_append, ← hfront]⟩
      next =>
        split
        next => exact ⟨[c], rfl⟩
        next => exact ⟨[], rfl⟩

theorem lastPart_append (name value : List Char) :
    lastPart (name ++ '=' :: value) = lastPart value := by
  induction name with
  | nil =>
      rw [List.nil_append, lastPart]
      split
      next => rfl
      next hvalue => rw [if_pos rfl, lastPart_of_notMem hvalue]
  | cons c name ih =>
      rw [List.cons_append, lastPart, if_pos (by simp), ih]

/-- A character of an entry in the buffer. -/
def cell (c : Char) : Option Char := if c = '=' then none else some c

theorem getEnvVarLoop_eq (rest : List Char) (buf : List (Option Char)) (val : Option Nat) :
    getEnvVarLoop rest buf val = (buf ++ rest.map cell,
      if '=' ∈ rest then some (buf.length + (rest.length - (lastPart rest).length)) else val) := by
  induction rest generalizing buf val with
  | nil => simp [getEnvVarLoop]
  | cons c rest ih =>
      have hle : (lastPart rest).length ≤ rest.length := by
        obtain ⟨front, hfront⟩ := exists_eq_append_lastPart rest
        have hlength := congrArg List.length hfront
        rw [List.length_append] at hlength
        omega
      rw [getEnvVarLoop, lastPart]
      split
      next heq =>
        have hmem : '=' ∈ c :: rest := heq ▸ List.mem_cons_self
        rw [ih, List.map_cons, cell, if_pos heq, List.append_assoc, List.singleton_append,
          List.length_append, List.length_singleton, if_pos hmem, List.length_cons]
        by_cases hrest : '=' ∈ rest
        · rw [if_pos hrest, if_pos hrest]
          congr 2
          omega
        · rw [if_neg hrest, if_neg hrest]
          congr 2
          omega
      next hne =>
        rw [ih, List.map_cons, cell, if_neg hne, List.append_assoc, List.singleton_append,
          List.length_append, List.length_singleton]
        by_cases hrest : '=' ∈ rest
        · rw [if_pos hrest, if_pos (List.mem_cons_of_mem _ hrest), if_pos hrest, List.length_cons]
          congr 2
          omega
        · rw [if_neg hrest, if_neg (eq_notMem_cons.mpr ⟨hne, hrest⟩)]

/-- A part of the buffer without NULs is read as it was copied. -/
theorem takeWhile_cell {name : List Char} (hname : '=' ∉ name) (rest : List (Option Char))
    (hrest : rest.takeWhile Option.isSome = []) :
    ((name.map cell ++ rest).takeWhile Option.isSome).filterMap id = name := by
  induction name with
  | nil => rw [List.map_nil, List.nil_append, hrest, List.filterMap_nil]
  | cons c name ih =>
      obtain ⟨hc, hname⟩ := eq_notMem_cons.mp hname
      rw [List.map_cons, List.cons_append, cell, if_neg hc,
        List.takeWhile_cons_of_pos rfl]
      exact congrArg (c :: ·) (ih hname)

theorem varOf_text (entry : Entry) : varOf entry.text = entry.name := by
  rw [varOf, getEnvVar, getEnvVarLoop_eq, stringAt, List.nil_append, List.drop_zero, Entry.text,
    List.map_append, List.map_cons]
  exact takeWhile_cell entry.valid _ rfl

theorem valOf_text (entry : Entry) : valOf entry.text = some (lastPart entry.value) := by
  have hmem : '=' ∈ entry.text := by simp [Entry.text]
  obtain ⟨front, hfront⟩ := exists_eq_append_lastPart entry.text
  have hlength : entry.text.length - (lastPart entry.text).length = front.length := by
    have hsum := congrArg List.length hfront
    rw [List.length_append] at hsum
    omega
  rw [valOf, getEnvVar, getEnvVarLoop_eq, if_pos hmem, Option.map_some, hlength,
    List.length_nil, Nat.zero_add, List.nil_append, stringAt]
  have hdrop : (entry.text.map cell).drop front.length = (lastPart entry.text).map cell := by
    rw [← List.map_drop]
    conv => lhs; rw [hfront]
    rw [List.drop_left]
  have hread := takeWhile_cell (eq_notMem_lastPart entry.text) [] rfl
  rw [List.append_nil] at hread
  rw [hdrop, hread, Entry.text, lastPart_append]

/-- The text of an entry begins with what its name begins with. -/
theorem startsWith_text {name : String} (hname : '=' ∉ name.toList) (entry : Entry) :
    startsWith name entry.text = startsWith name entry.name := by
  rw [Bool.eq_iff_iff, startsWith, startsWith, List.isPrefixOf_iff_prefix,
    List.isPrefixOf_iff_prefix]
  constructor
  · intro hbegins
    rcases List.prefix_or_prefix_of_prefix hbegins (List.prefix_append entry.name _) with
      hshort | ⟨more, hmore⟩
    · exact hshort
    · cases more with
      | nil => exact ⟨[], by rw [List.append_nil, ← hmore, List.append_nil]⟩
      | cons c more =>
          -- the character behind the name is the `=`
          rw [← hmore, Entry.text, List.prefix_append_right_inj, List.cons_prefix_cons] at hbegins
          rw [← hmore, hbegins.1] at hname
          exact absurd (List.mem_append_right _ List.mem_cons_self) hname
  · exact fun hbegins => hbegins.trans (List.prefix_append _ _)

/-! ## Saving -/

theorem collect_eq (test : List Char → Bool) (env : List Entry) :
    collect test env = ((env.filter fun entry => test entry.text).map Entry.text).reverse := by
  have hloop : ∀ l : List (List Char),
      env.foldl (fun l entry => if test entry.text then listPush l entry.text else l) l =
        ((env.filter fun entry => test entry.text).map Entry.text).reverse ++ l := by
    induction env with
    | nil => exact fun l => rfl
    | cons entry env ih =>
        intro l
        rw [List.foldl_cons, ih, List.filter_cons]
        split
        next => simp [listPush]
        next => rfl
  rw [collect, hloop, List.append_nil]

/-- Saving one variable: under the new name, with the last part of its value. -/
def save (entry : Entry) (env : List Entry) : List Entry :=
  Environ.setenv env (saved entry.name) (lastPart entry.value)

/-- The new name fits the buffer as the code tests it. -/
def NameFits (name : List Char) : Prop := (saved name).length < 1023

theorem preserveSlurmVar_of_fits {entry : Entry} (hfits : NameFits entry.name)
    (env : List Entry) : preserveSlurmVar entry.text env = some (0, save entry env) := by
  rw [preserveSlurmVar, varOf_text, valOf_text, if_neg (Nat.not_le_of_lt hfits)]
  rfl

theorem preserveLoop_append (l more : List (List Char)) (env : List Entry) :
    preserveLoop (l ++ more) env = (preserveLoop l env).bind fun (rc, env) =>
      if rc < 0 then some (-1, env) else preserveLoop more env := by
  induction l generalizing env with
  | nil => rfl
  | cons entry l ih =>
      rw [List.cons_append, preserveLoop, preserveLoop]
      cases preserveSlurmVar entry env with
      | none => rfl
      | some result =>
          obtain ⟨rc, env'⟩ := result
          simp only [Option.bind_some]
          split
          next => rfl
          next => exact ih env'

/-- With names that fit, the variables are saved from the last to the first. -/
theorem preserveLoop_of_fits {entries : List Entry}
    (hfits : ∀ entry ∈ entries, NameFits entry.name) (env : List Entry) :
    preserveLoop (entries.map Entry.text).reverse env = some (0, entries.foldr save env) := by
  induction entries with
  | nil => rfl
  | cons entry entries ih =>
      obtain ⟨hfirst, hrest⟩ := List.forall_mem_cons.mp hfits
      rw [List.map_cons, List.reverse_cons, preserveLoop_append, ih hrest, Option.bind_some]
      simp only [Int.lt_irrefl, if_false, preserveLoop, preserveSlurmVar_of_fits hfirst,
        Option.bind_some, List.foldr_cons]

theorem saved_injective {name other : List Char} (heq : saved name = saved other) :
    name = other := List.append_cancel_left heq

theorem eq_notMem_saved {name : List Char} (hname : '=' ∉ name) : '=' ∉ saved name := by
  rw [saved, List.mem_append, not_or]
  exact ⟨by decide, hname⟩

/-- The first variable of a name is the one whose value is saved. -/
theorem getenv_foldr_save (entries env : List Entry) (name : List Char) :
    Environ.getenv (entries.foldr save env) (saved name) =
      ((Environ.getenv entries name).map lastPart).or (Environ.getenv env (saved name)) := by
  induction entries with
  | nil => rfl
  | cons entry entries ih =>
      rw [List.foldr_cons, save, Environ.getenv_setenv _ (eq_notMem_saved entry.valid), ih,
        Environ.getenv_cons]
      by_cases heq : entry.name = name
      · rw [if_pos (by rw [heq]), if_pos heq]
        rfl
      · rw [if_neg (fun hsaved => heq (saved_injective hsaved).symm), if_neg heq]

/-- Saving leaves the variables whose names are not new names of fitting ones. -/
theorem preserveLoop_spec (entries : List Entry) (env : List Entry) :
    ∃ rc env', preserveLoop (entries.map Entry.text) env = some (rc, env') ∧
      ∀ name, (∀ entry ∈ entries, NameFits entry.name → saved entry.name ≠ name) →
        Environ.getenv env' name = Environ.getenv env name := by
  induction entries generalizing env with
  | nil => exact ⟨0, env, rfl, fun name _ => rfl⟩
  | cons entry entries ih =>
      rw [List.map_cons, preserveLoop]
      by_cases hfits : NameFits entry.name
      · obtain ⟨rc, env', hloop, hsame⟩ := ih (save entry env)
        refine ⟨rc, env', ?_, fun name hname => ?_⟩
        · rw [preserveSlurmVar_of_fits hfits]
          exact hloop
        · obtain ⟨hfirst, hrest⟩ := List.forall_mem_cons.mp hname
          rw [hsame name hrest, save, Environ.getenv_setenv _ (eq_notMem_saved entry.valid),
            if_neg (Ne.symm (hfirst hfits))]
      · refine ⟨-1, env, ?_, fun name _ => rfl⟩
        rw [preserveSlurmVar, varOf_text, if_pos (Nat.le_of_not_lt hfits)]
        rfl

/-- The variables that are saved, by their names. -/
theorem preserves_text (entry : Entry) : preserves entry.text = preserves entry.name := by
  rw [preserves, preserves, startsWith_text (by decide), startsWith_text (by decide),
    startsWith_text (by decide), startsWith_text (by decide)]

/-- The saving of an environment, and what is read of the new names behind it. -/
theorem preserveSlurmEnv_spec (env : List Entry) :
    ∃ rc env', preserveSlurmEnv env = some (rc, env') ∧
      ((∀ entry ∈ env, preserves entry.name = true → NameFits entry.name) → ∀ name,
        Environ.getenv env' (saved name) =
          (if preserves name then (Environ.getenv env name).map lastPart else none).or
            (Environ.getenv env (saved name))) ∧
      ∀ name, ¬ NameFits name →
        Environ.getenv env' (saved name) = Environ.getenv env (saved name) := by
  have hselect : env.filter (fun entry => preserves entry.text) =
      env.filter (fun entry => preserves entry.name) := by
    simp only [preserves_text]
  rw [preserveSlurmEnv, collect_eq, hselect, ← List.map_reverse]
  obtain ⟨rc, env', hloop, hsame⟩ :=
    preserveLoop_spec (env.filter fun entry => preserves entry.name).reverse env
  refine ⟨rc, env', hloop, fun hfits name => ?_, fun name hlong => ?_⟩
  · have hall : ∀ entry ∈ env.filter (fun entry => preserves entry.name), NameFits entry.name := by
      intro entry hmem
      obtain ⟨hmem, hpreserves⟩ := List.mem_filter.mp hmem
      exact hfits entry hmem hpreserves
    rw [List.map_reverse, preserveLoop_of_fits hall, Option.some_inj, Prod.mk.injEq] at hloop
    rw [← hloop.2, getenv_foldr_save]
    by_cases hname : preserves name = true
    · rw [Environ.getenv_filter env preserves hname, if_pos hname]
    · have hnone : Environ.getenv (env.filter fun entry => preserves entry.name) name = none :=
        Environ.getenv_eq_none fun entry hmem heq => hname (heq ▸ (List.mem_filter.mp hmem).2)
      rw [hnone, if_neg hname]
      rfl
  · refine hsame (saved name) fun entry _ hfits heq => hlong ?_
    exact saved_injective heq ▸ hfits

/-! ## Restoring -/

section Restoring

variable {E : Type u} {ops : EnvOps E}

theorem getenv_unsetLoop (hops : ops.Lawful) (entries : List Entry) (sp : E) (name : List Char) :
    ops.getenv (unsetLoop ops (entries.map Entry.text) sp) name =
      if ∃ entry ∈ entries, entry.name = name then none else ops.getenv sp name := by
  induction entries generalizing sp with
  | nil => simp [unsetLoop]
  | cons entry entries ih =>
      rw [List.map_cons, unsetLoop, varOf_text, ih, hops.getenv_unsetenv]
      by_cases hrest : ∃ other ∈ entries, other.name = name
      · obtain ⟨other, hmem, hother⟩ := hrest
        rw [if_pos ⟨other, hmem, hother⟩, if_pos ⟨other, List.mem_cons_of_mem _ hmem, hother⟩]
      · rw [if_neg hrest]
        by_cases heq : name = entry.name
        · rw [if_pos heq, if_pos ⟨entry, List.mem_cons_self, heq.symm⟩]
        · rw [if_neg heq, if_neg]
          rintro ⟨other, hmem, hother⟩
          rcases List.mem_cons.mp hmem with rfl | hmem
          · exact heq hother.symm
          · exact hrest ⟨other, hmem, hother⟩

/-- Restoring one variable: under its old name, with the last part of its value. -/
def restore (ops : EnvOps E) (entry : Entry) (sp : E) : E :=
  ops.unsetenv (ops.setenv sp (entry.name.drop 5) (lastPart entry.value)) entry.name

theorem restoreLoop_append (l more : List (List Char)) (sp : E) :
    restoreLoop ops (l ++ more) sp = (restoreLoop ops l sp).bind (restoreLoop ops more) := by
  induction l generalizing sp with
  | nil => rfl
  | cons entry l ih =>
      rw [List.cons_append, restoreLoop, restoreLoop]
      cases valOf entry with
      | none => rfl
      | some val => exact ih _

/-- The saved variables are restored from the last to the first. -/
theorem restoreLoop_eq (entries : List Entry) (sp : E) :
    restoreLoop ops (entries.map Entry.text).reverse sp =
      some (entries.foldr (restore ops) sp) := by
  induction entries with
  | nil => rfl
  | cons entry entries ih =>
      rw [List.map_cons, List.reverse_cons, restoreLoop_append, ih, Option.bind_some,
        restoreLoop, valOf_text, varOf_text, Option.bind_some, restoreLoop, List.foldr_cons,
        restore]

/-- An entry that holds a saved variable has the saved name of a `SLURM_*` variable. -/
theorem name_of_saved {entry : Entry} (hentry : startsWith "save_SLURM_" entry.name = true) :
    ∃ name, entry.name = saved name ∧ startsWith "SLURM_" name = true := by
  rw [startsWith, List.isPrefixOf_iff_prefix] at hentry
  obtain ⟨rest, hrest⟩ := hentry
  refine ⟨"SLURM_".toList ++ rest, ?_, ?_⟩
  · rw [← hrest, saved, ← List.append_assoc]
    rfl
  · rw [startsWith, List.isPrefixOf_iff_prefix]
    exact List.prefix_append _ _

theorem startsWith_saved (name : List Char) :
    startsWith "save_SLURM_" (saved name) = startsWith "SLURM_" name := rfl

theorem not_startsWith_saved (name : List Char) :
    startsWith "SLURM_" (saved name) = false ∧ startsWith "MPIRUN_" (saved name) = false :=
  ⟨rfl, rfl⟩

/-- Behind the restoring, a `SLURM_*` variable has the value of the first saved one, and the
saved variables are gone. -/
theorem getenv_foldr_restore (hops : ops.Lawful) {entries : List Entry}
    (hentries : ∀ entry ∈ entries, startsWith "save_SLURM_" entry.name = true) (sp : E) :
    (∀ name, startsWith "SLURM_" name = true →
      ops.getenv (entries.foldr (restore ops) sp) name =
        ((Environ.getenv entries (saved name)).map lastPart).or (ops.getenv sp name)) ∧
    (∀ name, startsWith "save_SLURM_" name = true →
      ops.getenv (entries.foldr (restore ops) sp) name =
        if ∃ entry ∈ entries, entry.name = name then none else ops.getenv sp name) ∧
    ∀ name, startsWith "SLURM_" name = false → startsWith "save_SLURM_" name = false →
      ops.getenv (entries.foldr (restore ops) sp) name = ops.getenv sp name := by
  induction entries with
  | nil => exact ⟨fun name _ => rfl, fun name _ => by simp, fun name _ _ => rfl⟩
  | cons entry entries ih =>
      obtain ⟨hfirst, hrest⟩ := List.forall_mem_cons.mp hentries
      obtain ⟨hslurm, hsaved, hother⟩ := ih hrest
      obtain ⟨old, hold, hstarts⟩ := name_of_saved hfirst
      have hdrop : entry.name.drop 5 = old := by rw [hold]; rfl
      have hvalid : '=' ∉ old := by
        intro hmem
        exact entry.valid (hold ▸ List.mem_append_right _ hmem)
      -- The variable of the entry replaces one that was restored before, as the first entry counts.
      have hstep : ∀ name, ops.getenv ((entry :: entries).foldr (restore ops) sp) name =
          if name = saved old then none
          else if name = old then some (lastPart entry.value)
          else ops.getenv (entries.foldr (restore ops) sp) name := by
        intro name
        rw [List.foldr_cons, restore, hops.getenv_unsetenv, hdrop,
          hops.getenv_setenv _ _ _ _ hvalid, hold]
      refine ⟨fun name hname => ?_, fun name hname => ?_, fun name hnot hnotSaved => ?_⟩
      · have hne : name ≠ saved old := by
          rintro rfl
          rw [(not_startsWith_saved old).1] at hname
          cases hname
        rw [hstep, if_neg hne, hslurm name hname, Environ.getenv_cons, hold]
        by_cases heq : name = old
        · rw [if_pos heq, if_pos (by rw [heq])]
          rfl
        · rw [if_neg heq, if_neg fun hsame => heq (saved_injective hsame).symm]
      · have hne : name ≠ old := by
          rintro rfl
          rw [startsWith, List.isPrefixOf_iff_prefix] at hstarts hname
          obtain ⟨_, rfl⟩ := hstarts
          cases List.prefix_cons_iff.mp hname with
          | inl hnil => cases hnil
          | inr hcons =>
              obtain ⟨_, heq, _⟩ := hcons
              cases heq
        rw [hstep, if_neg hne, hsaved name hname]
        by_cases heq : name = saved old
        · rw [if_pos heq, if_pos ⟨entry, List.mem_cons_self, hold.trans heq.symm⟩]
        · rw [if_neg heq]
          have hiff : (∃ other ∈ entry :: entries, other.name = name) ↔
              ∃ other ∈ entries, other.name = name := by
            rw [List.exists_mem_cons_iff, hold]
            exact or_iff_right fun hsame => heq hsame.symm
          simp only [hiff]
      · have hne : name ≠ old := by
          rintro rfl
          rw [hstarts] at hnot
          cases hnot
        have hneSaved : name ≠ saved old := by
          rintro rfl
          rw [startsWith_saved, hstarts] at hnotSaved
          cases hnotSaved
        rw [hstep, if_neg hneSaved, if_neg hne, hother name hnot hnotSaved]

/-- What `slurm_spank_task_init` unsets. -/
def unwanted (name : List Char) : Bool := startsWith "SLURM_" name || startsWith "MPIRUN_" name

theorem not_unwanted_saved (name : List Char) : unwanted (saved name) = false := rfl

/-- The first half of `slurm_spank_task_init`: the unwanted variables are gone. -/
theorem getenv_unset (hops : ops.Lawful) {sp : E} {job : List Entry}
    (hitems : ops.items sp = some job) (name : List Char) :
    ops.getenv (unsetLoop ops (collect
      (fun entry => startsWith "SLURM_" entry || startsWith "MPIRUN_" entry) job) sp) name =
        if unwanted name then none else Environ.getenv job name := by
  have hselect : job.filter (fun entry =>
      startsWith "SLURM_" entry.text || startsWith "MPIRUN_" entry.text) =
        job.filter fun entry => unwanted entry.name := by
    simp only [unwanted, startsWith_text (by decide : '=' ∉ "SLURM_".toList),
      startsWith_text (by decide : '=' ∉ "MPIRUN_".toList)]
  have hread : ops.getenv sp name = Environ.getenv job name := by
    rw [EnvOps.getenv, hitems, Option.getD_some]
  rw [collect_eq, hselect, ← List.map_reverse, getenv_unsetLoop hops, hread]
  split
  next hfound =>
    obtain ⟨entry, hmem, rfl⟩ := hfound
    rw [if_pos (List.mem_filter.mp (List.mem_reverse.mp hmem)).2]
  next hmissing =>
    split
    next hname =>
      refine Environ.getenv_eq_none fun entry hmem heq => ?_
      exact hmissing ⟨entry, List.mem_reverse.mpr (List.mem_filter.mpr ⟨hmem, heq ▸ hname⟩), heq⟩
    next => rfl

/-- `slurm_spank_task_init` gives the saved variables their old names, and leaves no saved and
no `MPIRUN_*` variable. -/
theorem slurmSpankTaskInit_spec (hops : ops.Lawful) {sp : E} {job : List Entry}
    (hitems : ops.items sp = some job) :
    ∃ sp', slurmSpankTaskInit ops true sp = some (0, sp') ∧
      (∀ name, startsWith "SLURM_" name = true →
        ops.getenv sp' name = (Environ.getenv job (saved name)).map lastPart) ∧
      ∀ name, startsWith "save_SLURM_" name = true ∨ startsWith "MPIRUN_" name = true →
        ops.getenv sp' name = none := by
  have hunset := getenv_unset hops hitems
  generalize hsp : unsetLoop ops (collect
    (fun entry => startsWith "SLURM_" entry || startsWith "MPIRUN_" entry) job) sp = cleaned
    at hunset
  -- The saved variables are collected from what the first loop has left.
  obtain ⟨env, henv⟩ := Option.isSome_iff_exists.mp (hops.items_isSome cleaned)
  have hread : ∀ name, ops.getenv cleaned name = Environ.getenv env name := by
    intro name
    rw [EnvOps.getenv, henv, Option.getD_some]
  have hselect : env.filter (fun entry => startsWith "save_SLURM_" entry.text) =
      env.filter fun entry => startsWith "save_SLURM_" entry.name := by
    simp only [startsWith_text (by decide : '=' ∉ "save_SLURM_".toList)]
  have hentries : ∀ entry ∈ env.filter (fun entry => startsWith "save_SLURM_" entry.name),
      startsWith "save_SLURM_" entry.name = true := fun entry hmem => (List.mem_filter.mp hmem).2
  obtain ⟨hslurm, hsaved, hother⟩ := getenv_foldr_restore hops hentries cleaned
  refine ⟨(env.filter fun entry => startsWith "save_SLURM_" entry.name).foldr (restore ops) cleaned,
    ?_, fun name hname => ?_, fun name hname => ?_⟩
  · have hloop : restoreLoop ops (collect (startsWith "save_SLURM_") env) cleaned =
        some ((env.filter fun entry => startsWith "save_SLURM_" entry.name).foldr (restore ops)
          cleaned) := by
      rw [collect_eq, hselect, restoreLoop_eq]
    unfold slurmSpankTaskInit
    rw [hitems]
    simp only [Bool.not_true, Bool.false_eq_true, if_false, hsp, henv, hloop, Option.map_some]
  · have hgone : ops.getenv cleaned name = none := by
      rw [hunset, if_pos (by rw [unwanted, hname, Bool.true_or])]
    rw [hslurm name hname, hgone, Option.or_none,
      Environ.getenv_filter env (startsWith "save_SLURM_") (startsWith_saved name ▸ hname),
      ← hread, hunset, not_unwanted_saved]
    rfl
  · cases hcase : startsWith "save_SLURM_" name with
    | true =>
        rw [hsaved name hcase]
        split
        next => rfl
        next hmissing =>
          rw [hread]
          refine Environ.getenv_eq_none fun entry hmem heq => ?_
          exact hmissing ⟨entry, List.mem_filter.mpr ⟨hmem, heq ▸ hcase⟩, heq⟩
    | false =>
        have hmpirun : startsWith "MPIRUN_" name = true := by
          rcases hname with hname | hname
          · rw [hcase] at hname
            cases hname
          · exact hname
        have hslurmNot : startsWith "SLURM_" name = false := by
          rw [startsWith, List.isPrefixOf_iff_prefix] at hmpirun
          obtain ⟨_, rfl⟩ := hmpirun
          rfl
        rw [hother name hslurmNot hcase, hunset, if_pos (by rw [unwanted, hmpirun, Bool.or_true])]

end Restoring

/-! ## The round trip -/

/-- The environment that reaches the task, where SLURM may have added, changed or removed
`SLURM_*` variables. -/
def SlurmChanges (env job : List Entry) : Prop :=
  (job.filter fun entry => !startsWith "SLURM_" entry.name) =
    env.filter fun entry => !startsWith "SLURM_" entry.name

/-- The task has the `SLURM_*` variables of the shell, less those that are not preserved, and
neither saved nor `MPIRUN_*` variables. -/
structure RoundTrip (env task : List Entry) : Prop where
  values : ∀ name, startsWith "SLURM_" name = true →
    Environ.getenv task name = if preserves name then Environ.getenv env name else none
  clean : ∀ entry ∈ task, startsWith "save_SLURM_" entry.name = false ∧
    startsWith "MPIRUN_" entry.name = false

/-- No preserved value has a `=`, and no preserved name is too long. -/
def Keeps (env : List Entry) : Prop :=
  ∀ name value, preserves name = true → Environ.getenv env name = some value →
    '=' ∉ value ∧ NameFits name

theorem startsWith_of_preserves {name : List Char} (hname : preserves name = true) :
    startsWith "SLURM_" name = true := by
  simp only [preserves, Bool.and_eq_true] at hname
  exact hname.1.1.1

/-- Nothing is read of a name that no entry has. -/
theorem getenv_saved_of_fresh {env : List Entry}
    (hfresh : ∀ entry ∈ env, startsWith "save_SLURM_" entry.name = false) {name : List Char}
    (hname : startsWith "SLURM_" name = true) : Environ.getenv env (saved name) = none := by
  refine Environ.getenv_eq_none fun entry hmem heq => ?_
  have hnot := hfresh entry hmem
  rw [heq, startsWith_saved, hname] at hnot
  cases hnot

theorem getenv_of_slurmChanges {env job : List Entry} (hchanges : SlurmChanges env job)
    (name : List Char) : Environ.getenv job (saved name) = Environ.getenv env (saved name) := by
  have hkeeps : (fun name => !startsWith "SLURM_" name) (saved name) = true := rfl
  rw [← Environ.getenv_filter job (fun name => !startsWith "SLURM_" name) hkeeps,
    ← Environ.getenv_filter env (fun name => !startsWith "SLURM_" name) hkeeps]
  exact congrArg (Environ.getenv · (saved name)) hchanges

/-- When the task has the last parts of the preserved values, it has the values exactly if none of
them has a `=`. -/
theorem values_iff {env task : List Entry}
    (htaken : ∀ name, startsWith "SLURM_" name = true → Environ.getenv task name =
      if preserves name then (Environ.getenv env name).map lastPart else none) :
    (∀ name, startsWith "SLURM_" name = true →
      Environ.getenv task name = if preserves name then Environ.getenv env name else none) ↔
      ∀ name value, preserves name = true → Environ.getenv env name = some value →
        '=' ∉ value := by
  constructor
  · intro hvalues name value hname hget
    have hsame := hvalues name (startsWith_of_preserves hname)
    rw [htaken name (startsWith_of_preserves hname), if_pos hname, if_pos hname, hget,
      Option.map_some, Option.some_inj, lastPart_eq_self_iff] at hsame
    exact hsame
  · intro hkeeps name hname
    rw [htaken name hname]
    split
    next hpreserved =>
      cases hget : Environ.getenv env name with
      | none => rfl
      | some value =>
          rw [Option.map_some, lastPart_of_notMem (hkeeps name value hpreserved hget)]
    next => rfl

/-- A task in which no saved and no `MPIRUN_*` variable is read has none. -/
theorem clean_of_getenv {task : List Entry}
    (hclean : ∀ name, startsWith "save_SLURM_" name = true ∨ startsWith "MPIRUN_" name = true →
      Environ.getenv task name = none) {entry : Entry} (hmem : entry ∈ task) :
    startsWith "save_SLURM_" entry.name = false ∧ startsWith "MPIRUN_" entry.name = false := by
  have hsome := Environ.getenv_isSome hmem
  refine ⟨Bool.eq_false_iff.mpr fun hname => ?_, Bool.eq_false_iff.mpr fun hname => ?_⟩
  · rw [hclean entry.name (Or.inl hname)] at hsome
    cases hsome
  · rw [hclean entry.name (Or.inr hname)] at hsome
    cases hsome

/-- From a shell without saved variables, the task gets the environment that it is meant to get
exactly when the preserved values have no `=` and the names fit. -/
theorem round_trip {E : Type u} (ops : EnvOps E) (hops : ops.Lawful) (env : List Entry)
    (hfresh : ∀ entry ∈ env, startsWith "save_SLURM_" entry.name = false) :
    ∃ rc preserved, preserveSlurmEnv env = some (rc, preserved) ∧
      ∀ sp job, ops.items sp = some job → SlurmChanges preserved job →
        ∃ sp' task, slurmSpankTaskInit ops true sp = some (0, sp') ∧
          ops.items sp' = some task ∧ (RoundTrip env task ↔ Keeps env) := by
  obtain ⟨rc, preserved, hpreserve, hfit, hlong⟩ := preserveSlurmEnv_spec env
  refine ⟨rc, preserved, hpreserve, fun sp job hitems hchanges => ?_⟩
  obtain ⟨sp', hinit, hslurm, hclean⟩ := slurmSpankTaskInit_spec hops hitems
  obtain ⟨task, htask⟩ := Option.isSome_iff_exists.mp (hops.items_isSome sp')
  have hread : ∀ name, ops.getenv sp' name = Environ.getenv task name := by
    intro name
    rw [EnvOps.getenv, htask, Option.getD_some]
  have hvalue : ∀ name, startsWith "SLURM_" name = true →
      Environ.getenv task name = (Environ.getenv preserved (saved name)).map lastPart := by
    intro name hname
    rw [← hread, hslurm name hname, getenv_of_slurmChanges hchanges]
  refine ⟨sp', task, hinit, htask, ?_⟩
  by_cases hfits : ∀ entry ∈ env, preserves entry.name = true → NameFits entry.name
  · -- every preserved variable is saved, with the last part of its value
    have htaken : ∀ name, startsWith "SLURM_" name = true → Environ.getenv task name =
        if preserves name then (Environ.getenv env name).map lastPart else none := by
      intro name hname
      rw [hvalue name hname, hfit hfits, getenv_saved_of_fresh hfresh hname, Option.or_none]
      split
      next =>
        rw [Option.map_map]
        congr 1
        funext value
        exact lastPart_of_notMem (eq_notMem_lastPart value)
      next => rfl
    constructor
    · intro htrip name value hname hget
      refine ⟨(values_iff htaken).mp htrip.values name value hname hget, ?_⟩
      obtain ⟨entry, hmem, rfl⟩ := Environ.exists_of_getenv hget
      exact hfits entry hmem hname
    · intro hkeeps
      refine ⟨(values_iff htaken).mpr fun name value hname hget => (hkeeps name value hname hget).1,
        fun entry hmem => clean_of_getenv (fun name hname => ?_) hmem⟩
      rw [← hread]
      exact hclean name hname
  · -- the variable whose name is too long is lost
    obtain ⟨entry, hentry⟩ := Classical.not_forall.mp hfits
    obtain ⟨hmem, hentry⟩ := Classical.not_imp.mp hentry
    obtain ⟨hpreserved, hname⟩ := Classical.not_imp.mp hentry
    obtain ⟨value, hget⟩ := Option.isSome_iff_exists.mp (Environ.getenv_isSome hmem)
    have hslurmName := startsWith_of_preserves hpreserved
    have hlost : Environ.getenv task entry.name = none := by
      rw [hvalue entry.name hslurmName, hlong entry.name hname,
        getenv_saved_of_fresh hfresh hslurmName]
      rfl
    constructor
    · intro htrip
      have hsame := htrip.values entry.name hslurmName
      rw [hlost, if_pos hpreserved, hget] at hsame
      cases hsame
    · intro hkeeps
      exact absurd (hkeeps entry.name value hpreserved hget).2 hname

/-- The theorem for an environment as a list, and a shell with two variables that are preserved
and one that is not. -/
theorem round_trip_list : ∃ rc preserved,
    preserveSlurmEnv [⟨"SLURM_NNODES".toList, "4".toList, by decide⟩,
      ⟨"SLURM_UMASK".toList, "0022".toList, by decide⟩,
      ⟨"SLURM_JOB".toList, [], by decide⟩] = some (rc, preserved) ∧
    ∀ sp job, listEnvOps.items sp = some job → SlurmChanges preserved job →
      ∃ sp' task, slurmSpankTaskInit listEnvOps true sp = some (0, sp') ∧
        listEnvOps.items sp' = some task ∧
        (RoundTrip [⟨"SLURM_NNODES".toList, "4".toList, by decide⟩,
          ⟨"SLURM_UMASK".toList, "0022".toList, by decide⟩,
          ⟨"SLURM_JOB".toList, [], by decide⟩] task ↔
        Keeps [⟨"SLURM_NNODES".toList, "4".toList, by decide⟩,
          ⟨"SLURM_UMASK".toList, "0022".toList, by decide⟩,
          ⟨"SLURM_JOB".toList, [], by decide⟩]) :=
  round_trip listEnvOps listEnvOps_lawful _ (by decide)

/-- A value with a `=` comes back without what is in front of the last one. -/
theorem value_cut : ¬ ∀ env : List Entry,
    (∀ entry ∈ env, startsWith "save_SLURM_" entry.name = false) →
    (∀ entry ∈ env, startsWith "SLURM_" entry.name = true →
      (saved entry.name).length + 1 ≤ 1024) →
    ∀ rc preserved job rc' task, preserveSlurmEnv env = some (rc, preserved) →
      SlurmChanges preserved job →
      slurmSpankTaskInit listEnvOps true job = some (rc', task) → RoundTrip env task := by
  intro hall
  have hpreserve : preserveSlurmEnv [⟨"SLURM_X".toList, "a=b".toList, by decide⟩] =
      some (0, [⟨"SLURM_X".toList, "a=b".toList, by decide⟩,
        ⟨"save_SLURM_X".toList, "b".toList, by decide⟩]) := by
    decide +kernel
  have hinit : slurmSpankTaskInit listEnvOps true [⟨"SLURM_X".toList, "a=b".toList, by decide⟩,
        ⟨"save_SLURM_X".toList, "b".toList, by decide⟩] =
      some (0, [⟨"SLURM_X".toList, "b".toList, by decide⟩]) := by
    decide +kernel
  have htrip := hall _ (by decide) (by decide) _ _ _ _ _ hpreserve rfl hinit
  have hsame := htrip.values "SLURM_X".toList (by decide)
  exact absurd hsame (by decide +kernel)

end SlurmSpank.PreserveEnv
