import SlurmSpank.SpankLua.Balance
import SlurmSpank.SpankLua.OptionTable

/-! # The registrations of a run

Each registration puts an option in front of the list, with the number of the options as its value.
The options stay there until the process ends, and the script stays in the list of scripts unless
SLURM refuses an option of its table.
-/

namespace SlurmSpank.SpankLua

open Foundation Lib

variable {Num : Type}

/-- A registration: whether it is one of an options table, the script that makes it, the table that
it gives for the option, the value of the option for SLURM, and what SLURM says. -/
structure Registration (Num : Type) where
  inTable : Bool
  script : Nat
  row : Value Num
  val : Nat
  err : Option Text

/-- The registration that has put an option in the list. -/
def registrationOf {α β : Type} (inTable : Bool) (script : Nat) (row : Value Num)
    (err : Option Text) : Except Fault (α × β × List ScriptOption) → Option (Registration Num)
  | .ok (_, _, opt :: _) => some ⟨inTable, script, row, opt.sOpt.val, err⟩
  | _ => none

/-- The registration that an event makes, in an options table or by a call. -/
def Process.registration (num : NumberOps Num) (s : Process Num) :
    Event Num → Option (Registration Num)
  | .row globals err =>
      match s.place with
      | .inTable script (entry :: _) _ =>
          registrationOf true script entry.2 err
            (optionsTableTurn num globals script err (entry.1.value num) entry.2
              ((s.stackOf script).getD []) s.options)
      | _ => none
  | .register script globals row err =>
      match s.place with
      | .ready =>
          if s.scripts.any fun other : Script Num => other.ref = script then
            registrationOf false script row err
              (luaScriptOptionRegister num globals script 2 err [.table spankFunctions, row]
                s.options)
          else none
      | _ => none
  | _ => none

/-- The registrations of a run, the first one first. -/
def Process.registrations (num : NumberOps Num) (s : Process Num) :
    List (Event Num) → List (Registration Num)
  | [] => []
  | event :: events =>
      match s.next num event with
      | none => []
      | some s' => (s.registration num event).toList ++ s'.registrations num events

namespace Registration

/-- The fields of the table. -/
def entries (r : Registration Num) : List (Key × Value Num) :=
  match r.row with
  | .table entries => entries
  | _ => []

/-- The option in the list. -/
def option (num : NumberOps Num) (r : Registration Num) : ScriptOption :=
  optionOf num r.script r.entries r.val

end Registration

section Steps

variable {num : NumberOps Num} {s s' : Process Num} {event : Event Num} {events : List (Event Num)}
  {r : Registration Num}

/-! ## What a registration adds -/

/-- A registration that has put the option of its table in front of the list. -/
theorem registrationOf_ok {α β : Type} {a : α} {b : β} {entries : List (Key × Value Num)}
    {row : Value Num} (num : NumberOps Num) (inTable : Bool) (script : Nat) (err : Option Text)
    (options : List ScriptOption) (hrow : row = .table entries) :
    ∃ r : Registration Num, registrationOf inTable script row err
        (.ok (a, b, optionOf num script entries options.length :: options)) = some r ∧
      r.val = options.length ∧ r.option num = optionOf num script entries options.length := by
  subst hrow
  exact ⟨_, rfl, rfl, rfl⟩

theorem optionsTableTurn_option {globals : Text → Value Num} {script : Nat} {err : Option Text}
    {key row : Value Num} {stack stack' : List (Value Num)} {options options' : List ScriptOption}
    {failed : Bool} (hturn : optionsTableTurn num globals script err key row stack options =
      .ok (failed, stack', options')) :
    ∃ entries, row = .table entries ∧ Describes num globals entries ∧
      options' = optionOf num script entries options.length :: options := by
  unfold optionsTableTurn at hturn
  dsimp only at hturn
  split at hturn
  next => cases hturn
  next n _ _ hregister =>
    obtain ⟨entries, hpeek, hdescribes, -, -, rfl⟩ := luaScriptOptionRegister_ok_iff.mp hregister
    rw [List.append_cons, ValueStack.peek_top] at hpeek
    refine ⟨entries, Option.some_inj.mp hpeek, hdescribes, ?_⟩
    split at hturn
    next =>
      cases hturn
      rfl
    next =>
      cases hturn
      rfl

theorem load_options (s : Process Num) (loaded : Loaded) (rest : List Nat) :
    (s.load loaded rest).options = s.options := by
  cases rest with
  | nil =>
      rw [Process.load]
      split
      next => rfl
      next => rfl
  | cons script rest =>
      cases loaded with
      | failed =>
          rw [Process.load]
          dsimp only
          split
          next => rfl
          next => rfl
      | _ => rfl

theorem openTable_options (s : Process Num) (spankOptions : Value Num) (rest : List Nat) :
    (s.openTable spankOptions rest).options = s.options := by
  cases rest with
  | nil => rfl
  | cons script rest =>
      cases spankOptions with
      | _ => rfl

theorem registered_options (s : Process Num) (failed : Bool) (script : Nat)
    (entries : List (Key × Value Num)) (rest : List Nat) :
    (s.registered failed script entries rest).options = s.options := by
  rw [Process.registered]
  split
  next => rfl
  next =>
    split
    next => rfl
    next => rfl

/-- A turn of the loop over an options table puts its option in front, or ends the process. -/
theorem row_options {globals : Text → Value Num} {err : Option Text} {script : Nat}
    {entries : List (Key × Value Num)} {rest : List Nat}
    (hplace : s.place = .inTable script entries rest) :
    (s.row num globals err script rest entries).place = .stopped ∨
      (s.row num globals err script rest entries).options =
        ((s.registration num (.row globals err)).toList.map (·.option num)) ++ s.options := by
  simp only [Process.registration, hplace]
  cases entries with
  | nil => exact Or.inr rfl
  | cons entry entries =>
      rw [Process.row]
      dsimp only
      cases hturn : optionsTableTurn num globals script err (entry.1.value num) entry.2
          ((s.stackOf script).getD []) s.options with
      | error fault => exact Or.inl rfl
      | ok result =>
          obtain ⟨failed, stack, options⟩ := result
          obtain ⟨fields, hrow, -, rfl⟩ := optionsTableTurn_option hturn
          obtain ⟨r, hr, -, hoption⟩ := registrationOf_ok (a := failed) (b := stack) num true script
            err s.options hrow
          rw [hr, Option.toList_some, List.map_singleton, hoption]
          exact Or.inr (registered_options _ failed script entries rest)

/-- What an event does to the list of options: a registration is put in front, and nothing else
changes it until the process stops. -/
theorem next_options (hnext : s.next num event = some s') :
    s'.place = .stopped ∨
      s'.options = ((s.registration num event).toList.map (·.option num)) ++ s.options := by
  cases step_of_next hnext with
  | @create paths _ =>
      cases paths with
      | _ => exact Or.inr rfl
  | load _ => exact Or.inr (load_options s _ _)
  | table _ => exact Or.inr (openTable_options s _ _)
  | row hplace => exact row_options hplace
  | rejected hready hany hregister =>
      simp only [Process.registration, hready, hany, if_true, hregister]
      exact Or.inr rfl
  | crashed _ _ _ => exact Or.inl rfl
  | @registered script n globals row err stack options hready hany hregister =>
      obtain ⟨fields, hrow, -, -, -, rfl⟩ := luaScriptOptionRegister_ok_iff.mp hregister
      obtain ⟨r, hr, -, hoption⟩ := registrationOf_ok (a := n) (b := stack) num false script
        err s.options (Option.some_inj.mp hrow)
      simp only [Process.registration, hready, hany, if_true, hregister, hr, Option.toList_some,
        List.map_singleton, hoption]
      exact Or.inr rfl
  | call _ => exact Or.inr rfl
  | option _ _ => exact Or.inr rfl
  | exit _ => exact Or.inl rfl

theorem registrationOf_val {α β : Type} (num : NumberOps Num) {inTable : Bool} {script : Nat}
    {row : Value Num} {err : Option Text}
    {options : List ScriptOption} {result : Except Fault (α × β × List ScriptOption)}
    (hresult : ∀ a b options', result = .ok (a, b, options') →
      ∃ entries, options' = optionOf num script entries options.length :: options)
    (hregistration : registrationOf inTable script row err result = some r) :
    r.val = options.length := by
  unfold registrationOf at hregistration
  split at hregistration
  next opt rest =>
    cases hregistration
    obtain ⟨entries, hoptions⟩ := hresult _ _ _ rfl
    rw [(List.cons.inj hoptions).1]
    rfl
  next => cases hregistration

/-- The value of an option is the number of options in front of which it is put. -/
theorem registration_val (hregistration : s.registration num event = some r) :
    r.val = s.options.length := by
  unfold Process.registration at hregistration
  split at hregistration
  next globals err =>
    split at hregistration
    next script entry entries rest hplace =>
      refine registrationOf_val num ?_ hregistration
      intro failed stack options' hturn
      obtain ⟨fields, -, -, hoptions⟩ := optionsTableTurn_option hturn
      exact ⟨fields, hoptions⟩
    next => cases hregistration
  next script globals row err =>
    split at hregistration
    next =>
      split at hregistration
      next =>
        refine registrationOf_val num ?_ hregistration
        intro n stack options' hregister
        obtain ⟨fields, -, -, -, -, hoptions⟩ := luaScriptOptionRegister_ok_iff.mp hregister
        exact ⟨fields, hoptions⟩
      next => cases hregistration
    next => cases hregistration
  next => cases hregistration

/-! ## Runs -/

/-- Behind the end of the process nothing happens. -/
theorem next_of_stopped (hstopped : s.place = .stopped) : s.next num event = none := by
  cases event with
  | _ => simp only [Process.next, hstopped]

theorem registrations_of_stopped (hstopped : s.place = .stopped) (events : List (Event Num)) :
    s.registrations num events = [] := by
  cases events with
  | nil => rfl
  | cons event events => rw [Process.registrations, next_of_stopped hstopped]

theorem registrations_cons (hnext : s.next num event = some s') (events : List (Event Num)) :
    s.registrations num (event :: events) =
      (s.registration num event).toList ++ s'.registrations num events := by
  rw [Process.registrations, hnext]

/-- The values of the options are the numbers from that of the options on. -/
theorem registrations_val (num : NumberOps Num) (s : Process Num) (events : List (Event Num)) :
    (s.registrations num events).map Registration.val =
      List.range' s.options.length (s.registrations num events).length := by
  induction events generalizing s with
  | nil => rfl
  | cons event events ih =>
      cases hnext : s.next num event with
      | none =>
          rw [Process.registrations, hnext]
          rfl
      | some s' =>
          rw [registrations_cons hnext, List.map_append]
          rcases next_options hnext with hstopped | hoptions
          · rw [registrations_of_stopped hstopped]
            cases hregistration : s.registration num event with
            | none => rfl
            | some r =>
                simp only [Option.toList_some, List.map_cons, List.map_nil, List.append_nil,
                  registration_val hregistration, List.length_singleton, List.range'_one]
          · rw [ih s', hoptions]
            cases hregistration : s.registration num event with
            | none => rfl
            | some r =>
                simp only [Option.toList_some, List.map_cons, List.map_nil, List.singleton_append,
                  List.length_cons, registration_val hregistration, List.range'_succ]

/-- In front of a state in which the process has not stopped, each registration has put its option
in the list. -/
theorem run_options (hrun : s.run num events = some s') (hplace : s'.place ≠ .stopped) :
    s'.options =
      ((s.registrations num events).map (·.option num)).reverse ++ s.options := by
  induction events generalizing s with
  | nil =>
      cases hrun
      rfl
  | cons event events ih =>
      obtain ⟨next, hnext, hrest⟩ := Option.bind_eq_some_iff.mp hrun
      rw [registrations_cons hnext, List.map_append, List.reverse_append]
      rcases next_options hnext with hstopped | hoptions
      · cases events with
        | nil =>
            cases hrest
            exact absurd hstopped hplace
        | cons other events =>
            rw [Process.run, next_of_stopped hstopped] at hrest
            cases hrest
      · rw [ih hrest, hoptions, List.append_assoc]
        cases s.registration num event with
        | none => rfl
        | some r => rfl

/-! ## The scripts that are dropped -/

/-- The scripts have been loaded. -/
def Place.Loaded : Place Num → Prop
  | .creating _ => False
  | .loading _ => False
  | _ => True

/-- The scripts whose options tables are to come are in the list, and come once. -/
def Place.Queued (refs : List Nat) : Place Num → Prop
  | .registering rest => rest.Nodup ∧ ∀ ref ∈ rest, ref ∈ refs
  | .inTable script _ rest => (script :: rest).Nodup ∧ ∀ ref ∈ script :: rest, ref ∈ refs
  | _ => True

/-- SLURM refuses an option of a table. -/
def Registration.Refused (r : Registration Num) : Prop := r.inTable = true ∧ r.err ≠ none

theorem registrationOf_fields {α β : Type} {inTable : Bool} {script : Nat} {row : Value Num}
    {err : Option Text} {result : Except Fault (α × β × List ScriptOption)}
    (hregistration : registrationOf inTable script row err result = some r) :
    r.inTable = inTable ∧ r.script = script ∧ r.err = err := by
  unfold registrationOf at hregistration
  split at hregistration
  next =>
    cases hregistration
    exact ⟨rfl, rfl, rfl⟩
  next => cases hregistration

/-- What an event does to the list of scripts: the script of a refused option leaves it. -/
structure KeepsScripts (num : NumberOps Num) (s s' : Process Num) (event : Event Num) : Prop where
  loaded : s'.place.Loaded
  queued : s'.place.Queued s'.refs
  present : ∀ r, s.registration num event = some r → r.script ∈ s.refs
  refs : ∀ ref, ref ∈ s'.refs ↔ ref ∈ s.refs ∧
    ∀ r, s.registration num event = some r → r.Refused → r.script ≠ ref

/-- An event that is no refusal in an options table. -/
theorem keepsScripts_of_call (hrefs : s'.refs = s.refs) (hloaded : s'.place.Loaded)
    (hqueued : s'.place.Queued s'.refs)
    (hcall : ∀ r, s.registration num event = some r → r.inTable = false ∧ r.script ∈ s.refs) :
    KeepsScripts num s s' event where
  loaded := hloaded
  queued := hqueued
  present r hr := (hcall r hr).2
  refs ref := by
    rw [hrefs, iff_self_and]
    intro _ r hr hrefused
    exact absurd hrefused.1 (Bool.eq_false_iff.mp (hcall r hr).1)

theorem keepsScripts_of_none (hrefs : s'.refs = s.refs) (hloaded : s'.place.Loaded)
    (hqueued : s'.place.Queued s'.refs) (hnone : s.registration num event = none) :
    KeepsScripts num s s' event :=
  keepsScripts_of_call hrefs hloaded hqueued fun _ hr => nomatch hnone.symm.trans hr

theorem openTable_keepsScripts {rest : List Nat} (spankOptions : Value Num)
    (hplace : s.place = .registering rest) (hqueued : s.place.Queued s.refs)
    (hrunning : (s.openTable spankOptions rest).place ≠ .stopped) :
    KeepsScripts num s (s.openTable spankOptions rest) (.table spankOptions) := by
  rw [hplace] at hqueued
  cases rest with
  | nil => exact keepsScripts_of_none rfl trivial trivial rfl
  | cons script rest =>
      cases spankOptions with
      | nil =>
          refine keepsScripts_of_none rfl trivial ⟨(List.nodup_cons.mp hqueued.1).2, ?_⟩ rfl
          exact fun ref href => hqueued.2 ref (List.mem_cons_of_mem script href)
      | table entries =>
          have hrefs := setStack_refs s script
            ((s.stackOf script).getD [] ++ [.table entries, .nil])
          exact keepsScripts_of_none hrefs trivial ⟨hqueued.1, hrefs ▸ hqueued.2⟩ rfl
      | _ => exact absurd rfl hrunning

/-- What comes behind a registration of an options table. -/
theorem registered_keepsScripts {t : Process Num} {failed : Bool} {script : Nat}
    {entries : List (Key × Value Num)} {rest : List Nat} (hrefs : t.refs = s.refs)
    (hnodup : (script :: rest).Nodup) (hpresent : ∀ ref ∈ script :: rest, ref ∈ s.refs)
    (hr : s.registration num event = some r) (hscript : r.script = script)
    (hrefused : r.Refused ↔ failed = true)
    (hrunning : (t.registered failed script entries rest).place ≠ .stopped) :
    KeepsScripts num s (t.registered failed script entries rest) event := by
  have honly : ∀ ref, (∀ r, s.registration num event = some r → r.Refused → r.script ≠ ref) ↔
      (failed = true → script ≠ ref) := by
    intro ref
    rw [hr, ← hrefused, ← hscript]
    exact ⟨fun hall => hall r rfl, fun hone r' hr' => Option.some.inj hr' ▸ hone⟩
  have hfirst : ∀ r, s.registration num event = some r → r.script ∈ s.refs := by
    intro r' hr'
    rw [← Option.some.inj (hr.symm.trans hr'), hscript]
    exact hpresent script List.mem_cons_self
  cases failed with
  | false =>
      refine ⟨trivial, ⟨hnodup, fun ref href => ?_⟩, hfirst, fun ref => ?_⟩
      · exact hrefs.symm ▸ hpresent ref href
      · rw [honly]
        exact hrefs.symm ▸ (and_iff_left fun h => nomatch h).symm
  | true =>
      cases hfail : t.failOnError with
      | true =>
          refine absurd ?_ hrunning
          simp [Process.registered, hfail]
      | false =>
          have hdropped : t.registered true script entries rest =
              { t.drop script with place := .registering rest } := by
            simp [Process.registered, hfail]
          have hfilter : (t.registered true script entries rest).refs =
              s.refs.filter (· ≠ script) := by
            rw [hdropped, ← hrefs]
            exact drop_refs t script
          obtain ⟨hnot, hrest⟩ := List.nodup_cons.mp hnodup
          rw [hdropped] at hfilter ⊢
          refine ⟨trivial, ⟨hrest, fun ref href => ?_⟩, hfirst, fun ref => ?_⟩
          · rw [hfilter, List.mem_filter]
            refine ⟨hpresent ref (List.mem_cons_of_mem script href), decide_eq_true ?_⟩
            rintro rfl
            exact hnot href
          · rw [honly, hfilter, List.mem_filter, decide_eq_true_iff]
            exact and_congr_right fun _ => ⟨fun hne _ => hne.symm, fun hne => (hne rfl).symm⟩

theorem row_keepsScripts {globals : Text → Value Num} {err : Option Text} {script : Nat}
    {entries : List (Key × Value Num)} {rest : List Nat}
    (hplace : s.place = .inTable script entries rest) (hqueued : s.place.Queued s.refs)
    (hrunning : (s.row num globals err script rest entries).place ≠ .stopped) :
    KeepsScripts num s (s.row num globals err script rest entries) (.row globals err) := by
  rw [hplace] at hqueued
  cases entries with
  | nil =>
      have hrefs := setStack_refs s script
        (ValueStack.pop .nil ((s.stackOf script).getD []) 2)
      obtain ⟨-, hrest⟩ := List.forall_mem_cons.mp hqueued.2
      refine keepsScripts_of_none hrefs trivial ⟨(List.nodup_cons.mp hqueued.1).2, hrefs ▸ hrest⟩ ?_
      simp only [Process.registration, hplace]
  | cons entry entries =>
      rw [Process.row] at hrunning ⊢
      cases hturn : optionsTableTurn num globals script err (entry.1.value num) entry.2
          ((s.stackOf script).getD []) s.options with
      | error fault =>
          rw [hturn] at hrunning
          exact absurd rfl hrunning
      | ok result =>
          obtain ⟨failed, stack, options⟩ := result
          rw [hturn] at hrunning
          obtain ⟨hfailed, -⟩ := optionsTableTurn_ok hturn
          obtain ⟨r, hr⟩ : ∃ r, s.registration num (.row globals err) = some r := by
            obtain ⟨fields, hrow, -, rfl⟩ := optionsTableTurn_option hturn
            simp only [Process.registration, hplace, hturn]
            obtain ⟨r, hr, -⟩ := registrationOf_ok (a := failed) (b := stack) num true script err
              s.options hrow
            exact ⟨r, hr⟩
          have hfields := hr
          simp only [Process.registration, hplace] at hfields
          obtain ⟨hinTable, hscript, herr⟩ := registrationOf_fields hfields
          have hrefused : r.Refused ↔ failed = true := by
            rw [Registration.Refused, herr, hfailed, and_iff_right hinTable,
              Option.isSome_iff_ne_none]
          exact registered_keepsScripts (setStack_refs s script stack) hqueued.1 hqueued.2 hr
            hscript hrefused hrunning

/-- A call of `SPANK.register_option` is for a script in the list. -/
theorem registration_register {script : Nat} {globals : Text → Value Num} {row : Value Num}
    {err : Option Text}
    (hany : (s.scripts.any fun other : Script Num => other.ref = script) = true)
    (hr : s.registration num (.register script globals row err) = some r) :
    r.inTable = false ∧ r.script ∈ s.refs := by
  simp only [Process.registration, hany, if_true] at hr
  split at hr
  next =>
    obtain ⟨hinTable, hscript, -⟩ := registrationOf_fields hr
    exact ⟨hinTable, hscript ▸ mem_refs_of_any hany⟩
  next => cases hr

theorem next_keepsScripts (hnext : s.next num event = some s') (hloaded : s.place.Loaded)
    (hqueued : s.place.Queued s.refs) (hrunning : s'.place ≠ .stopped) :
    KeepsScripts num s s' event := by
  cases step_of_next hnext with
  | create hplace | load hplace =>
      rw [hplace] at hloaded
      exact hloaded.elim
  | table hplace => exact openTable_keepsScripts _ hplace hqueued hrunning
  | row hplace => exact row_keepsScripts hplace hqueued hrunning
  | rejected hready hany _ | registered hready hany _ =>
      exact keepsScripts_of_call rfl (hready ▸ trivial) (hready ▸ trivial)
        fun r hr => registration_register hany hr
  | crashed _ _ _ => exact absurd rfl hrunning
  | call hready =>
      exact keepsScripts_of_none (callForeach_refs _ _ _ s.scripts) (hready ▸ trivial)
        (hready ▸ trivial) rfl
  | option hready hcall =>
      exact keepsScripts_of_none (luaSpankOptionCallback_refs hcall) (hready ▸ trivial)
        (hready ▸ trivial) rfl
  | exit _ => exact absurd rfl hrunning

/-- While the scripts are loaded nothing is registered. -/
theorem registration_of_not_loaded (hloaded : ¬ s.place.Loaded) :
    s.registration num event = none := by
  cases event with
  | row globals err =>
      rw [Process.registration]
      split
      next hplace =>
        rw [hplace] at hloaded
        exact absurd trivial hloaded
      next => rfl
  | register script globals row err =>
      rw [Process.registration]
      split
      next hplace =>
        rw [hplace] at hloaded
        exact absurd trivial hloaded
      next => rfl
  | _ => rfl

/-- When the scripts have been loaded, those that are left come in turn. -/
theorem next_queued_of_not_loaded (hnext : s.next num event = some s') (hloaded : ¬ s.place.Loaded)
    (hdistinct : s.Distinct) : s'.place.Queued s'.refs := by
  cases step_of_next hnext with
  | @create paths _ =>
      cases paths with
      | _ => trivial
  | @load loaded rest _ =>
      cases rest with
      | nil =>
          rw [Process.load]
          split
          next => exact ⟨hdistinct.1, fun ref href => href⟩
          next => trivial
      | cons script rest =>
          cases loaded with
          | failed =>
              rw [Process.load]
              dsimp only
              split
              next => trivial
              next => trivial
          | _ => trivial
  | table hplace | row hplace | rejected hplace _ _ | crashed hplace _ _
  | registered hplace _ _ | call hplace | option hplace _ | exit hplace =>
      rw [hplace] at hloaded
      exact absurd trivial hloaded

/-- The scripts of the list are there to the end, except for those of refused options. -/
theorem run_refs (hrun : s.run num events = some s') (hloaded : s.place.Loaded)
    (hqueued : s.place.Queued s.refs) (hrunning : s'.place ≠ .stopped) (ref : Nat) :
    (ref ∈ s'.refs ↔ ref ∈ s.refs ∧
      ∀ r ∈ s.registrations num events, r.Refused → r.script ≠ ref) ∧
    ∀ r ∈ s.registrations num events, r.script ∈ s.refs := by
  induction events generalizing s with
  | nil =>
      cases hrun
      exact ⟨(and_iff_left fun r hr => nomatch hr).symm, fun r hr => nomatch hr⟩
  | cons event events ih =>
      obtain ⟨next, hnext, hrest⟩ := Option.bind_eq_some_iff.mp hrun
      have hgoing : next.place ≠ .stopped := by
        intro hstopped
        cases events with
        | nil =>
            cases hrest
            exact hrunning hstopped
        | cons other events =>
            rw [Process.run, next_of_stopped hstopped] at hrest
            cases hrest
      have hkeeps := next_keepsScripts hnext hloaded hqueued hgoing
      obtain ⟨hrefs, hpresent⟩ := ih hrest hkeeps.loaded hkeeps.queued
      rw [registrations_cons hnext]
      constructor
      · rw [hrefs, hkeeps.refs, and_assoc]
        refine and_congr_right fun _ => ?_
        simp only [List.mem_append, Option.mem_toList]
        constructor
        · rintro ⟨hfirst, hlater⟩ r (hr | hr)
          · exact hfirst r hr
          · exact hlater r hr
        · intro hall
          exact ⟨fun r hr => hall r (Or.inl hr), fun r hr => hall r (Or.inr hr)⟩
      · intro r hr
        rcases List.mem_append.mp hr with hr | hr
        · exact hkeeps.present r (Option.mem_toList.mp hr)
        · exact ((hkeeps.refs _).mp (hpresent r hr)).1

/-- The script of a registration is in the list to the end exactly if no option of its options
table is refused. -/
theorem script_mem_iff (hrun : s.run num events = some s') (hdistinct : s.Distinct)
    (hqueued : s.place.Queued s.refs) (hrunning : s'.place ≠ .stopped) :
    ∀ r ∈ s.registrations num events, r.script ∈ s'.refs ↔
      ∀ other ∈ s.registrations num events, other.Refused → other.script ≠ r.script := by
  induction events generalizing s with
  | nil => exact fun r hr => nomatch hr
  | cons event events ih =>
      by_cases hloaded : s.place.Loaded
      · intro r hr
        obtain ⟨hrefs, hpresent⟩ := run_refs hrun hloaded hqueued hrunning r.script
        rw [hrefs, and_iff_right (hpresent r hr)]
      · obtain ⟨next, hnext, hrest⟩ := Option.bind_eq_some_iff.mp hrun
        rw [registrations_cons hnext, registration_of_not_loaded hloaded]
        exact ih hrest ((next_keepsRefs hnext).distinct hdistinct)
          (next_queued_of_not_loaded hnext hloaded hdistinct)

end Steps

end SlurmSpank.SpankLua
