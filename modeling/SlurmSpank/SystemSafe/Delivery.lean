import SlurmSpank.SystemSafe.Fidelity

/-! # Which requests arrive as they were

A request is faithful when the server reads it as what was asked for, whatever comes behind it
in the stream. The conditions say which strings survive: an empty string is taken for the end
of the stream or leaves memory without a string in it, a length must fit an `int`, and the
comparison with the name of `LD_PRELOAD` leaves out its last character.
-/

namespace SlurmSpank.SystemSafe

open SlurmSpank.Foundation

/-- The call sends the request, and the server reads it as it is meant to arrive. Then it is at
the start of the next request. -/
def Request.Faithful (request : Request) : Prop :=
  ∃ messages, system (some request.cmd) request.path request.env = .sends messages ∧
    ∀ rest, handleSystemRequest.run (messages.flatMap Sending.bytes ++ rest) =
      some (.serves request.expected, rest)

/-- The entries that keep their strings. -/
def EntryFits (entry : CString) : Prop :=
  if ldPreload <+: entry.1 then
    11 ≤ asInt entry.1.length ∧ asInt entry.1.length + 1 < 0x80000000
  else 0 < entry.1.length ∧ entry.1.length + 1 < 0x80000000 ∧
    (ldPreload.take 10 <+: entry.1 → entry.1.length = 11)

/-- The requests that keep their strings. -/
structure Request.Fits (request : Request) : Prop where
  cmd : 0 < request.cmd.1.length ∧ request.cmd.1.length + 1 < 0x80000000
  path : 0 < request.path.1.length ∧ request.path.1.length + 1 ≤ 4096
  count : request.env.length + 1 < 0x80000000
  entries : ∀ entry ∈ request.env, EntryFits entry

/-- A string arrives as it was exactly when it is not empty and its length fits. -/
theorem arrives_eq_self (str : CString) :
    arrives str = some str ↔ 0 < str.1.length ∧ str.1.length + 1 < 0x80000000 := by
  unfold arrives
  constructor
  · intro harrives
    split at harrives
    next hlen =>
      have htake : str.1.take (asInt str.1.length).toNat = str.1 :=
        congrArg Subtype.val (Option.some_inj.mp harrives)
      have hlength := congrArg List.length htake
      rw [List.length_take] at hlength
      have hle : asInt str.1.length ≤ str.1.length := asInt_le (Int.natCast_nonneg _)
      omega
    next => cases harrives
  · intro hlen
    have hint : asInt str.1.length = str.1.length := asInt_of_lt (by omega) (by omega)
    rw [if_pos (by omega)]
    apply congrArg some
    apply Subtype.ext
    change str.1.take _ = str.1
    rw [hint, Int.toNat_natCast, List.take_length]

/-- What arrives of a string is its beginning. -/
theorem arrives_length {str arrived : CString} (harrives : arrives str = some arrived) :
    arrived.1 <+: str.1 ∧ (arrived.1.length : Int) = asInt str.1.length ∧
      asInt str.1.length + 1 < 0x80000000 := by
  unfold arrives at harrives
  split at harrives
  next hlen =>
    cases harrives
    have hle : asInt str.1.length ≤ str.1.length := asInt_le (Int.natCast_nonneg _)
    refine ⟨List.take_prefix _ _, ?_, hlen.2⟩
    rw [List.length_take]
    omega
  next => cases harrives

theorem ldPreload_length : ldPreload.length = 11 := by decide

/-- An entry of `LD_PRELOAD` arrives empty when its name arrives. -/
theorem entryArrives_preload {entry : CString} (hbegins : ldPreload <+: entry.1) :
    entryArrives entry = some (emptied entry) ↔
      11 ≤ asInt entry.1.length ∧ asInt entry.1.length + 1 < 0x80000000 := by
  have hemptied : emptied entry = ⟨ldPreload, by decide⟩ := if_pos hbegins
  rw [hemptied, entryArrives]
  constructor
  · intro hentry
    obtain ⟨arrived, harrives, hedited⟩ := Option.bind_eq_some_iff.mp hentry
    obtain ⟨_, hlength, hlt⟩ := arrives_length harrives
    have hlong : 11 ≤ arrived.1.length := by
      unfold edited at hedited
      split at hedited
      next =>
        split at hedited
        next hlong => exact hlong
        next => cases hedited
      next =>
        have heq : arrived.1 = ldPreload := congrArg Subtype.val (Option.some_inj.mp hedited)
        exact Nat.le_of_eq (heq ▸ ldPreload_length.symm)
    exact ⟨by omega, hlt⟩
  · rintro ⟨hlong, hlt⟩
    cases harrives : arrives entry with
    | none =>
        rw [arrives, if_pos ⟨by omega, hlt⟩] at harrives
        cases harrives
    | some arrived =>
        obtain ⟨hfront, hlength, _⟩ := arrives_length harrives
        have hname : ldPreload <+: arrived.1 :=
          List.prefix_of_prefix_length_le hbegins hfront (by rw [ldPreload_length]; omega)
        have htake : arrived.1.take 11 = ldPreload := (List.prefix_iff_eq_take.mp hname).symm
        rw [Option.bind_some, edited, if_pos ((List.take_prefix 10 _).trans hname),
          if_pos (by omega)]
        exact congrArg some (Subtype.ext htake)

/-- Another entry arrives as it was when it arrives whole and is not cut. -/
theorem entryArrives_other {entry : CString} (hbegins : ¬ ldPreload <+: entry.1) :
    entryArrives entry = some (emptied entry) ↔
      0 < entry.1.length ∧ entry.1.length + 1 < 0x80000000 ∧
        (ldPreload.take 10 <+: entry.1 → entry.1.length = 11) := by
  have hemptied : emptied entry = entry := if_neg hbegins
  rw [hemptied, entryArrives]
  constructor
  · intro hentry
    obtain ⟨arrived, harrives, hedited⟩ := Option.bind_eq_some_iff.mp hentry
    unfold edited at hedited
    split at hedited
    next =>
      split at hedited
      next hlong =>
        have hlength : entry.1.length = 11 := by
          rw [← Option.some_inj.mp hedited, List.length_take]
          omega
        exact ⟨by omega, by omega, fun _ => hlength⟩
      next => cases hedited
    next hname =>
      have heq : arrived = entry := Option.some_inj.mp hedited
      rw [heq] at harrives hname
      obtain ⟨hpos, hlt⟩ := (arrives_eq_self entry).mp harrives
      exact ⟨hpos, hlt, fun hten => absurd hten hname⟩
  · rintro ⟨hpos, hlt, hname⟩
    rw [(arrives_eq_self entry).mpr ⟨hpos, hlt⟩, Option.bind_some, edited]
    split
    next hten =>
      have hlength := hname hten
      rw [if_pos (by omega)]
      exact congrArg some (Subtype.ext (List.take_of_length_le (by omega)))
    next => rfl

theorem entryArrives_iff (entry : CString) :
    entryArrives entry = some (emptied entry) ↔ EntryFits entry := by
  unfold EntryFits
  split
  next hbegins => exact entryArrives_preload hbegins
  next hbegins => exact entryArrives_other hbegins

/-- The entries arrive as they are meant to exactly when each does. -/
theorem mapM_entryArrives_iff (env : List CString) :
    env.mapM entryArrives = some (env.map emptied) ↔ ∀ entry ∈ env, EntryFits entry := by
  induction env with
  | nil => simp
  | cons entry env ih =>
      rw [List.forall_mem_cons, ← ih, ← entryArrives_iff, List.mapM_cons, List.map_cons]
      cases hentry : entryArrives entry with
      | none => simp
      | some arrived =>
          cases henv : env.mapM entryArrives with
          | none => simp
          | some arrivedEnv => simp

/-- The request arrives as it is meant to exactly when it fits, if its directory does. -/
theorem arrived_eq_expected {request : Request} (hpath : request.path.1.length + 1 ≤ 4096) :
    request.arrived = some request.expected ↔ request.Fits := by
  unfold Request.arrived
  constructor
  · intro harrived
    split at harrived
    next hcount =>
      obtain ⟨cmd, hcmd, hrest⟩ := Option.bind_eq_some_iff.mp harrived
      obtain ⟨path, hpath', hrest⟩ := Option.bind_eq_some_iff.mp hrest
      obtain ⟨env, henv, heq⟩ := Option.map_eq_some_iff.mp hrest
      rw [show cmd = request.cmd from congrArg Request.cmd heq] at hcmd
      rw [show path = request.path from congrArg Request.path heq] at hpath'
      rw [show env = request.env.map emptied from congrArg Request.env heq] at henv
      exact ⟨(arrives_eq_self _).mp hcmd, ⟨((arrives_eq_self _).mp hpath').1, hpath⟩, hcount,
        (mapM_entryArrives_iff _).mp henv⟩
    next => cases harrived
  · intro hfits
    rw [if_pos hfits.count, (arrives_eq_self _).mpr hfits.cmd,
      (arrives_eq_self _).mpr ⟨hfits.path.1, by have := hfits.path.2; omega⟩,
      (mapM_entryArrives_iff _).mpr hfits.entries]
    rfl

/-- The server reads a request that fits, and leaves what comes behind it. -/
theorem Request.Fits.run {request : Request} (hfits : request.Fits) (rest : List UInt8) :
    handleSystemRequest.run (request.bytes ++ rest) = some (.serves request.expected, rest) := by
  have hcount : request.env.length < 0x80000000 := Nat.lt_of_succ_lt hfits.count
  have harrived := (arrived_eq_expected hfits.path.2).mpr hfits
  rcases run_handleSystemRequest hcount rest with ⟨arrived, harrived', hrun⟩ | ⟨hnone, _⟩
  · rw [harrived, Option.some_inj] at harrived'
    rw [hrun, harrived']
  · rw [harrived] at hnone
    cases hnone

/-- The call of a request that fits sends its bytes. -/
theorem Request.Fits.sends {request : Request} (hfits : request.Fits) :
    ∃ messages, system (some request.cmd) request.path request.env = .sends messages ∧
      messages.flatMap Sending.bytes = request.bytes := by
  exact ⟨_, if_pos ⟨hfits.path.2, Nat.lt_of_succ_lt hfits.count⟩, rfl⟩

/-- Requests are faithful exactly when they fit. -/
theorem request_faithful (request : Request) : request.Faithful ↔ request.Fits := by
  constructor
  · rintro ⟨messages, hsystem, hread⟩
    unfold system at hsystem
    simp only at hsystem
    split at hsystem
    next hsize =>
      cases hsystem
      have hread : handleSystemRequest.run (request.bytes ++ []) =
          some (.serves request.expected, []) := hread []
      rcases run_handleSystemRequest hsize.2 [] with
        ⟨arrived, harrived, hrun⟩ | ⟨_, fate, rest', hfate, hrun⟩
      · rw [hread, Option.some.injEq, Prod.mk.injEq, Fate.serves.injEq] at hrun
        exact (arrived_eq_expected hsize.1).mp (harrived.trans (congrArg some hrun.1.symm))
      · rw [hread, Option.some.injEq, Prod.mk.injEq] at hrun
        exact absurd hrun.1.symm (hfate _)
    next => cases hsystem
  · intro hfits
    obtain ⟨messages, hsystem, hbytes⟩ := hfits.sends
    refine ⟨messages, hsystem, fun rest => ?_⟩
    rw [hbytes]
    exact hfits.run rest

/-- The server takes the length of an empty command for the end of the stream, and exits. -/
theorem empty_command : ¬ ∀ request : Request, request.Faithful := by
  intro hall
  obtain ⟨messages, hsystem, hread⟩ := hall ⟨⟨[], by decide⟩, ⟨[47], by decide⟩, []⟩
  cases hsystem
  have hexits : handleSystemRequest.run (Request.bytes ⟨⟨[], by decide⟩, ⟨[47], by decide⟩, []⟩ ++
      []) = some (.exits, intBytes 1 ++ [47] ++ intBytes 0) := by decide +kernel
  have hread := hexits.symm.trans (hread [])
  simp at hread

end SlurmSpank.SystemSafe
