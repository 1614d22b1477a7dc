import SlurmSpank.SpankLua.Process

/-! # Options of scripts that are gone

An option refers to its script. Every state of a process is sound as long as no script is dropped
after one of its options was put in the list, which happens when SLURM does not take an option
of a table and the plugin may go on without the script.
-/

namespace SlurmSpank.SpankLua

open Foundation Lib

variable {Num : Type} {num : NumberOps Num}

/-- Every option refers to a script that is in the list and was not destroyed. -/
def Process.Sound (s : Process Num) : Prop :=
  ∀ o ∈ s.options, (∃ script ∈ s.scripts, script.ref = o.script) ∧ o.script ∉ s.destroyed

/-- SLURM does not take an option of a table, and the script is to be dropped. -/
def Process.Drops (num : NumberOps Num) (s : Process Num) (event : Event Num) : Prop :=
  ∃ script entry entries rest globals msg result,
    s.place = .inTable script (entry :: entries) rest ∧ event = .row globals (some msg) ∧
    s.failOnError = false ∧ optionsTableTurn num globals script (some msg) (entry.1.value num)
      entry.2 ((s.stackOf script).getD []) s.options = .ok result

/-- The addresses of the scripts in the list. -/
def Process.refs (s : Process Num) : List Nat := s.scripts.map Script.ref

theorem mem_refs {scripts : List (Script Num)} {ref : Nat} :
    ref ∈ scripts.map Script.ref ↔ ∃ script ∈ scripts, script.ref = ref := List.mem_map

/-- What holds at a place. Scripts are dropped before there are options. -/
def Place.Holds (s : Process Num) : Place Num → Prop
  | .creating _ => s.options = []
  | .loading rest => s.options = [] ∧ ∀ ref ∈ rest, ref < s.created
  | .registering rest => ∀ ref ∈ rest, ref ∈ s.refs
  | .inTable script _ rest => ∀ ref ∈ script :: rest, ref ∈ s.refs
  | .ready => True
  | .stopped => True

/-- What holds as long as no script is dropped with an option of it in the list. -/
structure Process.Inv (s : Process Num) : Prop where
  options : ∀ o ∈ s.options, o.script ∈ s.refs
  kept : ∀ ref ∈ s.refs, ref ∉ s.destroyed
  refs_lt : ∀ ref ∈ s.refs, ref < s.created
  destroyed_lt : ∀ ref ∈ s.destroyed, ref < s.created
  place : s.place.Holds s

theorem Process.Inv.sound {s : Process Num} (hinv : s.Inv) : s.Sound := by
  intro o ho
  have hmem := hinv.options o ho
  exact ⟨mem_refs.mp hmem, hinv.kept o.script hmem⟩

theorem start_inv (failOnError tables : Bool) (paths : List Text) :
    (Process.start failOnError tables paths : Process Num).Inv where
  options _ ho := absurd ho List.not_mem_nil
  kept _ href := absurd href List.not_mem_nil
  refs_lt _ href := absurd href List.not_mem_nil
  destroyed_lt _ href := absurd href List.not_mem_nil
  place := rfl

/-! ## One step -/

/-- What an event does in a place where it fits. -/
inductive Process.Step (num : NumberOps Num) (s : Process Num) : Event Num → Process Num → Prop
  | create {paths : List Text} (hplace : s.place = .creating paths) :
      Process.Step num s .create (s.create paths)
  | load {loaded : Loaded} {rest : List Nat} (hplace : s.place = .loading rest) :
      Process.Step num s (.load loaded) (s.load loaded rest)
  | table {spankOptions : Value Num} {rest : List Nat} (hplace : s.place = .registering rest) :
      Process.Step num s (.table spankOptions) (s.openTable spankOptions rest)
  | row {globals : Text → Value Num} {err : Option Text} {script : Nat}
      {entries : List (Key × Value Num)} {rest : List Nat}
      (hplace : s.place = .inTable script entries rest) :
      Process.Step num s (.row globals err) (s.row num globals err script rest entries)
  | rejected {script : Nat} {globals : Text → Value Num} {row : Value Num} {err : Option Text}
      {msg : Text} (hready : s.place = .ready)
      (hany : (s.scripts.any fun other : Script Num => other.ref = script) = true)
      (hregister : luaScriptOptionRegister num globals script 2 err [.table spankFunctions, row]
        s.options = .error (.luaError msg)) :
      Process.Step num s (.register script globals row err) s
  | crashed {script : Nat} {globals : Text → Value Num} {row : Value Num} {err : Option Text}
      (hready : s.place = .ready)
      (hany : (s.scripts.any fun other : Script Num => other.ref = script) = true)
      (hregister : luaScriptOptionRegister num globals script 2 err [.table spankFunctions, row]
        s.options = .error .crash) :
      Process.Step num s (.register script globals row err) { s with place := .stopped }
  | registered {script n : Nat} {globals : Text → Value Num} {row : Value Num} {err : Option Text}
      {stack : List (Value Num)} {options : List ScriptOption} (hready : s.place = .ready)
      (hany : (s.scripts.any fun other : Script Num => other.ref = script) = true)
      (hregister : luaScriptOptionRegister num globals script 2 err [.table spankFunctions, row]
        s.options = .ok (n, stack, options)) :
      Process.Step num s (.register script globals row err) { s with options := options }
  | call {fn : Text} {args : SpankArgs} {behaviours : Nat → Behaviour Num}
      (hready : s.place = .ready) :
      Process.Step num s (.call fn args behaviours)
        { s with scripts := (callForeach num fn args behaviours s.scripts).2 }
  | option {val rc : Int} {optarg : Option Text} {remote : Bool} {behaviour : Behaviour Num}
      {scripts : List (Script Num)} (hready : s.place = .ready)
      (hcall : luaSpankOptionCallback num val optarg remote behaviour s.options s.scripts =
        some (rc, scripts)) :
      Process.Step num s (.option val optarg remote behaviour) { s with scripts := scripts }
  | exit (hready : s.place = .ready) :
      Process.Step num s .exit
        { s with
          place := .stopped
          scripts := []
          options := []
          destroyed := s.scripts.map Script.ref ++ s.destroyed }

theorem step_of_next {s s' : Process Num} {event : Event Num}
    (hnext : s.next num event = some s') : s.Step num event s' := by
  -- An event that does not fit its place has no next state.
  cases event with
  | create =>
      simp only [Process.next] at hnext
      split at hnext
      next hplace =>
        cases hnext
        exact .create hplace
      next => cases hnext
  | load loaded =>
      simp only [Process.next] at hnext
      split at hnext
      next hplace =>
        cases hnext
        exact .load hplace
      next => cases hnext
  | table spankOptions =>
      simp only [Process.next] at hnext
      split at hnext
      next hplace =>
        cases hnext
        exact .table hplace
      next => cases hnext
  | row globals err =>
      simp only [Process.next] at hnext
      split at hnext
      next hplace =>
        cases hnext
        exact .row hplace
      next => cases hnext
  | register script globals row err =>
      simp only [Process.next] at hnext
      split at hnext
      next hready =>
        split at hnext
        next hany =>
          split at hnext
          next hregister =>
            cases hnext
            exact .rejected hready hany hregister
          next hregister =>
            cases hnext
            exact .crashed hready hany hregister
          next hregister =>
            cases hnext
            exact .registered hready hany hregister
        next => cases hnext
      next => cases hnext
  | call fn args behaviours =>
      simp only [Process.next] at hnext
      split at hnext
      next hready =>
        cases hnext
        exact .call hready
      next => cases hnext
  | option val optarg remote behaviour =>
      simp only [Process.next] at hnext
      split at hnext
      next hready =>
        obtain ⟨⟨rc, scripts⟩, hcall, rfl⟩ := Option.map_eq_some_iff.mp hnext
        exact .option hready hcall
      next => cases hnext
  | exit =>
      simp only [Process.next] at hnext
      split at hnext
      next hready =>
        cases hnext
        exact .exit hready
      next => cases hnext

theorem mem_refs_of_any {s : Process Num} {script : Nat}
    (hany : (s.scripts.any fun other : Script Num => other.ref = script) = true) :
    script ∈ s.refs := by
  obtain ⟨other, hmem, href⟩ := List.any_eq_true.mp hany
  exact mem_refs.mpr ⟨other, hmem, of_decide_eq_true href⟩

theorem map_ref_update (scripts : List (Script Num)) (p : Script Num → Prop) [DecidablePred p]
    (f : Script Num → Script Num) (hf : ∀ script, (f script).ref = script.ref) :
    (scripts.map fun script => if p script then f script else script).map Script.ref =
      scripts.map Script.ref := by
  rw [List.map_map]
  apply List.map_congr_left
  intro script _
  rw [Function.comp_apply]
  split
  next => exact hf script
  next => rfl

@[simp] theorem setStack_refs (s : Process Num) (script : Nat) (stack : List (Value Num)) :
    (s.setStack script stack).refs = s.refs :=
  map_ref_update s.scripts (·.ref = script) (fun other => { other with stack }) fun _ => rfl

theorem drop_refs (s : Process Num) (script : Nat) :
    (s.drop script).refs = s.refs.filter (· ≠ script) := by
  rw [Process.refs, Process.drop, Process.refs, List.filter_map]
  rfl

theorem callForeach_refs (fn : Text) (args : SpankArgs) (behaviours : Nat → Behaviour Num)
    (scripts : List (Script Num)) :
    (callForeach num fn args behaviours scripts).2.map Script.ref = scripts.map Script.ref := by
  rw [callForeach, List.map_map]
  rfl

theorem luaSpankOptionCallback_refs {val : Int} {optarg : Option Text} {remote : Bool}
    {behaviour : Behaviour Num} {options : List ScriptOption} {scripts scripts' : List (Script Num)}
    {rc : Int} (hcall : luaSpankOptionCallback num val optarg remote behaviour options scripts =
      some (rc, scripts')) : scripts'.map Script.ref = scripts.map Script.ref := by
  unfold luaSpankOptionCallback at hcall
  split at hcall
  next =>
    cases hcall
    rfl
  next o _ =>
    split at hcall
    next =>
      cases hcall
      rfl
    next fn _ =>
      obtain ⟨script, _, hscript⟩ := Option.map_eq_some_iff.mp hcall
      cases hscript
      exact map_ref_update scripts (·.ref = o.script) _ fun _ => rfl

/-- The invariant speaks of the addresses, the options and the place only. -/
theorem Process.Inv.of_refs {s s' : Process Num} (hinv : s.Inv) (hrefs : s'.refs = s.refs)
    (hoptions : ∀ o ∈ s'.options, o ∈ s.options ∨ o.script ∈ s.refs)
    (hdestroyed : s'.destroyed = s.destroyed) (hcreated : s'.created = s.created)
    (hplace : s'.place.Holds s') : s'.Inv where
  options o ho := by
    rw [hrefs]
    exact (hoptions o ho).elim (hinv.options o) id
  kept := by
    rw [hrefs, hdestroyed]
    exact hinv.kept
  refs_lt := by
    rw [hrefs, hcreated]
    exact hinv.refs_lt
  destroyed_lt := by
    rw [hdestroyed, hcreated]
    exact hinv.destroyed_lt
  place := hplace

/-- Before there are options, a script can be dropped. -/
theorem drop_inv {s s' : Process Num} (hinv : s.Inv) {script : Nat} (hlt : script < s.created)
    (hoptions : s.options = []) (hrefs : s'.refs = s.refs.filter (· ≠ script))
    (hoptions' : s'.options = s.options) (hdestroyed : s'.destroyed = script :: s.destroyed)
    (hcreated : s'.created = s.created) (hplace : s'.place.Holds s') : s'.Inv where
  options o ho := by
    rw [hoptions', hoptions] at ho
    exact absurd ho List.not_mem_nil
  kept ref href := by
    rw [hrefs] at href
    obtain ⟨hmem, hne⟩ := List.mem_filter.mp href
    rw [hdestroyed, List.mem_cons, not_or]
    exact ⟨of_decide_eq_true hne, hinv.kept ref hmem⟩
  refs_lt ref href := by
    rw [hrefs] at href
    rw [hcreated]
    exact hinv.refs_lt ref (List.mem_filter.mp href).1
  destroyed_lt ref href := by
    rw [hdestroyed] at href
    rw [hcreated]
    rcases List.mem_cons.mp href with rfl | hold
    · exact hlt
    · exact hinv.destroyed_lt ref hold
  place := hplace

theorem create_inv {s : Process Num} (hinv : s.Inv) {paths : List Text}
    (hplace : s.place = .creating paths) : (s.create paths).Inv := by
  have hoptions : s.options = [] := by
    have hholds := hinv.place
    rwa [hplace] at hholds
  cases paths with
  | nil => exact hinv.of_refs rfl (fun o ho => Or.inl ho) rfl rfl ⟨hoptions, hinv.refs_lt⟩
  | cons path paths =>
      have hrefs : (s.create (path :: paths)).refs = s.created :: s.refs := rfl
      exact {
        options := fun o ho => by
          have ho : o ∈ s.options := ho
          rw [hoptions] at ho
          exact absurd ho List.not_mem_nil
        kept := fun ref href hdestroyed => by
          rw [hrefs] at href
          rcases List.mem_cons.mp href with rfl | hold
          · exact Nat.lt_irrefl _ (hinv.destroyed_lt _ hdestroyed)
          · exact hinv.kept ref hold hdestroyed
        refs_lt := fun ref href => by
          rw [hrefs] at href
          rcases List.mem_cons.mp href with rfl | hold
          · exact Nat.lt_succ_self _
          · exact Nat.lt_succ_of_lt (hinv.refs_lt ref hold)
        destroyed_lt := fun ref href => Nat.lt_succ_of_lt (hinv.destroyed_lt ref href)
        place := hoptions }

theorem load_inv {s : Process Num} (hinv : s.Inv) {rest : List Nat} (loaded : Loaded)
    (hplace : s.place = .loading rest) : (s.load loaded rest).Inv := by
  obtain ⟨hoptions, hlt⟩ : s.options = [] ∧ ∀ ref ∈ rest, ref < s.created := by
    have hholds := hinv.place
    rwa [hplace] at hholds
  cases rest with
  | nil =>
      rw [Process.load]
      split
      next => exact hinv.of_refs rfl (fun o ho => Or.inl ho) rfl rfl fun ref href => href
      next => exact hinv.of_refs rfl (fun o ho => Or.inl ho) rfl rfl trivial
  | cons script rest =>
      obtain ⟨hscript, hrest⟩ := List.forall_mem_cons.mp hlt
      have hrefs : (s.scripts.map fun other : Script Num =>
          if other.ref = script then { other with failOnError := s.failOnError } else other).map
            Script.ref = s.refs :=
        map_ref_update s.scripts (·.ref = script)
          (fun other => { other with failOnError := s.failOnError }) fun _ => rfl
      cases loaded with
      | kept => exact hinv.of_refs hrefs (fun o ho => Or.inl ho) rfl rfl ⟨hoptions, hrest⟩
      | failed =>
          rw [Process.load]
          simp only
          split
          next => exact hinv.of_refs hrefs (fun o ho => Or.inl ho) rfl rfl trivial
          next =>
            refine drop_inv hinv hscript hoptions ?_ rfl rfl rfl ⟨hoptions, hrest⟩
            rw [← hrefs]
            exact drop_refs _ script
      | noCallbacks =>
          refine drop_inv hinv hscript hoptions ?_ rfl rfl rfl ⟨hoptions, hrest⟩
          rw [← hrefs]
          exact drop_refs _ script

theorem openTable_inv {s : Process Num} (hinv : s.Inv) {rest : List Nat} (spankOptions : Value Num)
    (hplace : s.place = .registering rest) : (s.openTable spankOptions rest).Inv := by
  have hpresent : ∀ ref ∈ rest, ref ∈ s.refs := by
    have hholds := hinv.place
    rwa [hplace] at hholds
  cases rest with
  | nil => exact hinv.of_refs rfl (fun o ho => Or.inl ho) rfl rfl trivial
  | cons script rest =>
      cases spankOptions with
      | nil =>
          refine hinv.of_refs rfl (fun o ho => Or.inl ho) rfl rfl ?_
          exact fun ref href => hpresent ref (List.mem_cons_of_mem script href)
      | table entries =>
          refine hinv.of_refs (setStack_refs s script _) (fun o ho => Or.inl ho) rfl rfl ?_
          exact fun ref href => (setStack_refs s script _).symm ▸ hpresent ref href
      | _ => exact hinv.of_refs rfl (fun o ho => Or.inl ho) rfl rfl trivial

theorem row_inv {s : Process Num} (hinv : s.Inv) {globals : Text → Value Num} {err : Option Text}
    {script : Nat} {entries : List (Key × Value Num)} {rest : List Nat}
    (hplace : s.place = .inTable script entries rest)
    (hdrops : ¬ s.Drops num (.row globals err)) :
    (s.row num globals err script rest entries).Inv := by
  obtain ⟨hscript, hrest⟩ : script ∈ s.refs ∧ ∀ ref ∈ rest, ref ∈ s.refs := by
    have hholds := hinv.place
    rw [hplace] at hholds
    exact List.forall_mem_cons.mp hholds
  cases entries with
  | nil =>
      refine hinv.of_refs (setStack_refs s script _) (fun o ho => Or.inl ho) rfl rfl ?_
      exact fun ref href => (setStack_refs s script _).symm ▸ hrest ref href
  | cons entry entries =>
      rw [Process.row]
      split
      next => exact hinv.of_refs rfl (fun o ho => Or.inl ho) rfl rfl trivial
      next failed stack options hturn =>
        obtain ⟨hfailed, opt, hopt, _, hoptions⟩ := optionsTableTurn_ok hturn
        -- the new option is of the script whose table is read
        have hmem : ∀ o ∈ options, o ∈ s.options ∨ o.script ∈ s.refs := by
          intro o ho
          rw [hoptions] at ho
          rcases List.mem_cons.mp ho with rfl | hold
          · exact Or.inr (hopt ▸ hscript)
          · exact Or.inl hold
        have hrefs := setStack_refs s script stack
        cases failed with
        | false =>
            refine hinv.of_refs hrefs hmem rfl rfl ?_
            exact List.forall_mem_cons.mpr ⟨hrefs.symm ▸ hscript,
              fun ref href => hrefs.symm ▸ hrest ref href⟩
        | true =>
            obtain ⟨msg, rfl⟩ := Option.isSome_iff_exists.mp hfailed.symm
            cases hfail : s.failOnError with
            | true =>
                simp only [Process.registered, Bool.not_true, Bool.false_eq_true, if_false, if_true,
                  Process.setStack, hfail]
                exact hinv.of_refs hrefs hmem rfl rfl trivial
            | false =>
                refine absurd ?_ hdrops
                exact ⟨script, entry, entries, rest, globals, msg, _, hplace, rfl, hfail, hturn⟩

theorem registered_inv {s : Process Num} (hinv : s.Inv) {script n : Nat}
    {globals : Text → Value Num} {row : Value Num} {err : Option Text}
    {stack : List (Value Num)} {options : List ScriptOption} (hscript : script ∈ s.refs)
    (hready : s.place = .ready)
    (hregister : luaScriptOptionRegister num globals script 2 err [.table spankFunctions, row]
      s.options = .ok (n, stack, options)) : Process.Inv { s with options := options } := by
  obtain ⟨_, opt, hopt, _, rfl⟩ := luaScriptOptionRegister_ok hregister
  refine hinv.of_refs rfl (fun o ho => ?_) rfl rfl (by rw [hready]; trivial)
  rcases List.mem_cons.mp ho with rfl | hold
  · exact Or.inr (hopt ▸ hscript)
  · exact Or.inl hold

/-- A step that does not drop a script with options keeps the invariant. -/
theorem next_inv {s s' : Process Num} {event : Event Num} (hinv : s.Inv)
    (hnext : s.next num event = some s') (hdrops : ¬ s.Drops num event) : s'.Inv := by
  cases step_of_next hnext with
  | create hplace => exact create_inv hinv hplace
  | load hplace => exact load_inv hinv _ hplace
  | table hplace => exact openTable_inv hinv _ hplace
  | row hplace => exact row_inv hinv hplace hdrops
  | rejected _ _ _ => exact hinv
  | crashed _ _ _ => exact hinv.of_refs rfl (fun o ho => Or.inl ho) rfl rfl trivial
  | registered hready hany hregister =>
      exact registered_inv hinv (mem_refs_of_any hany) hready hregister
  | call hready =>
      exact hinv.of_refs (callForeach_refs _ _ _ s.scripts) (fun o ho => Or.inl ho) rfl rfl
        (by rw [hready]; trivial)
  | option hready hcall =>
      exact hinv.of_refs (luaSpankOptionCallback_refs hcall) (fun o ho => Or.inl ho) rfl rfl
        (by rw [hready]; trivial)
  | exit _ =>
      exact {
        options := fun o ho => absurd ho List.not_mem_nil
        kept := fun ref href => absurd href List.not_mem_nil
        refs_lt := fun ref href => absurd href List.not_mem_nil
        destroyed_lt := fun ref href =>
          (List.mem_append.mp href).elim (hinv.refs_lt ref) (hinv.destroyed_lt ref)
        place := trivial }

/-- Behind a step that drops a script with options, the option that was not taken refers to the
script. -/
theorem not_sound_of_drops {s : Process Num} {event : Event Num} (hdrops : s.Drops num event) :
    ∃ s', s.next num event = some s' ∧ ¬ s'.Sound := by
  obtain ⟨script, entry, entries, rest, globals, msg, ⟨failed, stack, options⟩, hplace, rfl, hfail,
    hturn⟩ := hdrops
  obtain ⟨hfailed, opt, hopt, _, hoptions⟩ := optionsTableTurn_ok hturn
  refine ⟨s.row num globals (some msg) script rest (entry :: entries), ?_, fun hsound => ?_⟩
  · unfold Process.next
    rw [hplace]
  · have hrow : (s.row num globals (some msg) script rest (entry :: entries)).options = options ∧
        (s.row num globals (some msg) script rest (entry :: entries)).destroyed =
          script :: s.destroyed := by
      rw [Process.row, hturn, hfailed]
      simp only [Process.registered, Option.isSome_some, Bool.not_true, Bool.false_eq_true,
        if_false, Process.setStack, hfail]
      exact ⟨rfl, rfl⟩
    have hmem : opt ∈ (s.row num globals (some msg) script rest (entry :: entries)).options := by
      rw [hrow.1, hoptions]
      exact List.mem_cons_self
    refine (hsound opt hmem).2 ?_
    rw [hrow.2, hopt]
    exact List.mem_cons_self

/-! ## Runs -/

theorem run_append (s : Process Num) (front rest : List (Event Num)) :
    s.run num (front ++ rest) = (s.run num front).bind fun s => s.run num rest := by
  induction front generalizing s with
  | nil => rfl
  | cons event front ih =>
      rw [List.cons_append, Process.run, Process.run]
      cases s.next num event with
      | none => rfl
      | some s => exact ih s

/-- No step of a run drops a script with options. -/
def DropsNone (num : NumberOps Num) (s : Process Num) (events : List (Event Num)) : Prop :=
  ∀ front event rest s', events = front ++ event :: rest → s.run num front = some s' →
    ¬ s'.Drops num event

theorem run_inv {s s' : Process Num} {events : List (Event Num)} (hinv : s.Inv)
    (hrun : s.run num events = some s') (hdrops : DropsNone num s events) : s'.Inv := by
  induction events generalizing s with
  | nil =>
      cases hrun
      exact hinv
  | cons event events ih =>
      obtain ⟨next, hnext, hrest⟩ := Option.bind_eq_some_iff.mp hrun
      refine ih (next_inv hinv hnext (hdrops [] event events s rfl rfl)) hrest ?_
      intro front other rest t hsplit hfront
      refine hdrops (event :: front) other rest t (by rw [hsplit, List.cons_append]) ?_
      rw [Process.run, hnext]
      exact hfront

/-- In a run from the start, every state is sound exactly when no step drops a script with
options. -/
theorem registry_sound (num : NumberOps Num) (failOnError tables : Bool) (paths : List Text)
    (events : List (Event Num)) :
    (∀ front rest s, events = front ++ rest →
        (Process.start failOnError tables paths).run num front = some s → s.Sound) ↔
      DropsNone num (.start failOnError tables paths) events := by
  constructor
  · intro hsound front event rest s hsplit hrun hdrops
    obtain ⟨s', hnext, hunsound⟩ := not_sound_of_drops hdrops
    refine hunsound (hsound (front ++ [event]) rest s' ?_ ?_)
    · rw [hsplit, List.append_assoc, List.singleton_append]
    · rw [run_append, hrun, Option.bind_some, Process.run, hnext]
      rfl
  · intro hdrops front rest s hsplit hrun
    refine (run_inv (start_inv failOnError tables paths) hrun ?_).sound
    intro front' event rest' s' hsplit' hrun'
    refine hdrops front' event (rest' ++ rest) s' ?_ hrun'
    rw [hsplit, hsplit', List.append_assoc, List.cons_append]

/-- An options table with two options. -/
def twoOptions : Value Int :=
  .table [(.index 1, .table [(.name "name".toList, .string "first".toList),
      (.name "usage".toList, .string "".toList)]),
    (.index 2, .table [(.name "name".toList, .string "second".toList),
      (.name "usage".toList, .string "".toList)])]

/-- SLURM takes the first option of a script and not the second. The script is dropped, and both
options refer to it. -/
theorem dangling_options : ¬ ∀ (failOnError tables : Bool) (paths : List Text)
    (events : List (Event Int)) (s : Process Int),
    (Process.start failOnError tables paths).run intNumbers events = some s → s.Sound := by
  intro hall
  have hrun : ((Process.start false true ["a.lua".toList]).run intNumbers
      [.create, .create, .load .kept, .load .kept, .table twoOptions, .row (fun _ => .nil) none,
        .row (fun _ => .nil) (some "option in use".toList)]).map
          (fun s => (s.options.map ScriptOption.script, s.destroyed)) = some ([0, 0], [0]) := by
    decide +kernel
  obtain ⟨s, hsome, hstate⟩ := Option.map_eq_some_iff.mp hrun
  obtain ⟨hoptions, hdestroyed⟩ := Prod.mk.inj hstate
  have hmem : 0 ∈ s.options.map ScriptOption.script := by
    rw [hoptions]
    exact List.mem_cons_self
  obtain ⟨o, ho, hscript⟩ := List.mem_map.mp hmem
  refine (hall false true _ _ s hsome o ho).2 ?_
  rw [hscript, hdestroyed]
  exact List.mem_cons_self

end SlurmSpank.SpankLua
