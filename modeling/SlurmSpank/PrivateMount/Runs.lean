import SlurmSpank.Foundation.Run
import SlurmSpank.PrivateMount.Mount

/-! # Who gets a private mount

The static variables of the plugin say what the callbacks before have allowed and asked for. In
any order of callbacks, a namespace is made and entries are mounted only on their strength.
-/

namespace SlurmSpank.PrivateMount

open AutoAffinity Foundation

variable {ω : Type} (k : Kernel ω) (depth : Nat)

/-! ## What was done -/

/-- The mounts of some names one after another, up to the first that does not work. -/
inductive MountTrace : List Text → List Event → Bool → Prop
  | done : MountTrace [] [] true
  | missing {name : Text} {rest : List Text} : MountTrace (name :: rest) [] false
  | noDirectory {name : Text} {rest : List Text} : MountTrace (name :: rest) [.found name] false
  | refused {name : Text} {rest : List Text} :
      MountTrace (name :: rest) [.found name, .mount name false] false
  | unreachable {name : Text} {rest : List Text} :
      MountTrace (name :: rest) [.found name, .mount name true] false
  | next {name : Text} {rest : List Text} {events : List Event} {ok : Bool}
      (later : MountTrace rest events ok) :
      MountTrace (name :: rest) (.found name :: .mount name true :: events) ok

/-- What is done in a new namespace: nothing, or the mounts of some names behind the bind
mount. -/
inductive NamespaceTrace (listed : List Text → Prop) : List Event → Bool → Prop
  | refused : NamespaceTrace listed [.unshare] false
  | plain : NamespaceTrace listed [.unshare] true
  | unbound {names : List Text} (hlisted : listed names) :
      NamespaceTrace listed [.unshare, .bind] false
  | mounts {names : List Text} {events : List Event} {ok : Bool} (hlisted : listed names)
      (trace : MountTrace names events ok) :
      NamespaceTrace listed (.unshare :: .bind :: events) ok

theorem NamespaceTrace.imp {listed listed' : List Text → Prop}
    (himp : ∀ names, listed names → listed' names) {events : List Event} {ok : Bool}
    (trace : NamespaceTrace listed events ok) : NamespaceTrace listed' events ok := by
  cases trace with
  | refused => exact .refused
  | plain => exact .plain
  | unbound hlisted => exact .unbound (himp _ hlisted)
  | mounts hlisted hmounts => exact .mounts (himp _ hlisted) hmounts

/-! ## What was said before -/

/-- A call of `slurm_spank_init` that finds the user among those that are allowed. -/
def Call.Grants (call : Call ω) : Prop :=
  ∃ c av users uid user, call.callback = .init c av ∧ parseArgs av none = some (some users) ∧
    c.user = some uid ∧ user ∈ users ∧ c.passwd user = some uid

/-- An option of the plugin was given. -/
def Call.Asks (call : Call ω) : Prop :=
  ∃ optarg, call.callback = .fsNamespace optarg ∨ call.callback = .privateMount optarg

/-- The option asked for these mounts, and the fstab had an entry for each. -/
def Call.Lists (names : List Text) (call : Call ω) : Prop :=
  ∃ arg, call.callback = .privateMount (some arg) ∧ call.succeeds = true ∧
    listSplit [','] arg = names ∧ ∀ name ∈ names, lookup (k.fstab call.before.world) name = true

/-- A call of one kind, and after it one of another kind. -/
def Then (first second : Call ω → Prop) (calls : List (Call ω)) : Prop :=
  ∃ front call back, calls = front ++ call :: back ∧ second call ∧
    ∃ earlier ∈ front, first earlier

theorem Then.append {first second : Call ω → Prop} {calls : List (Call ω)}
    (hthen : Then first second calls) (later : List (Call ω)) :
    Then first second (calls ++ later) := by
  obtain ⟨front, call, back, rfl, hsecond, hfirst⟩ := hthen
  exact ⟨front, call, back ++ later, by simp, hsecond, hfirst⟩

theorem Then.last {first second : Call ω → Prop} {calls : List (Call ω)} {call : Call ω}
    (hfirst : ∃ earlier ∈ calls, first earlier) (hsecond : second call) :
    Then first second (calls ++ [call]) :=
  ⟨calls, call, [], rfl, hsecond, hfirst⟩

/-- The static variables follow from the calls so far. -/
structure Justified (calls : List (Call ω)) (p : Plugin) : Prop where
  allowed : p.allowed = true → ∃ call ∈ calls, call.Grants
  mode : p.nsMode ≠ .system → Then Call.Grants Call.Asks calls
  mounts : ∀ names, p.mounts = some names → Then Call.Grants (Call.Lists k names) calls

/-- One callback. -/
def Step (s : Process ω) (call : Call ω) (s' : Process ω) : Prop :=
  call.before = s ∧ call.callback.run k depth s = some (call.succeeds, call.events, s')

variable {k depth} {calls : List (Call ω)} {call : Call ω} {s s' : Process ω}

/-- A call that leaves the static variables alone. -/
theorem Justified.keep (hinv : Justified k calls s.plugin) (hplugin : s'.plugin = s.plugin) :
    Justified k (calls ++ [call]) s'.plugin where
  allowed hallowed := by
    obtain ⟨earlier, hearlier, hgrants⟩ := hinv.allowed (hplugin ▸ hallowed)
    exact ⟨earlier, List.mem_append_left _ hearlier, hgrants⟩
  mode hmode := (hinv.mode (hplugin ▸ hmode)).append [call]
  mounts names hmounts := (hinv.mounts names (hplugin ▸ hmounts)).append [call]

/-- The call that allows the user. -/
theorem Justified.init (hinv : Justified k calls s.plugin) {c : Context} {av : List Text}
    (hcall : call.callback = .init c av) :
    Justified k (calls ++ [call]) (slurmSpankInit c av s.plugin).2 := by
  have hkeep : Justified k (calls ++ [call]) s.plugin := @Justified.keep ω k calls call s s hinv rfl
  unfold slurmSpankInit
  split
  next => exact hkeep
  next => exact hkeep
  next users hargs =>
    split
    next => exact hkeep
    next uid huser =>
      split
      next hfound =>
        obtain ⟨user, hmem, hpasswd⟩ := List.any_eq_true.mp hfound
        refine ⟨fun _ => ⟨call, List.mem_append_right _ List.mem_cons_self, ?_⟩, hkeep.mode,
          hkeep.mounts⟩
        exact ⟨c, av, users, uid, user, hcall, hargs, huser, hmem, of_decide_eq_true hpasswd⟩
      next => exact hkeep

/-- An option sets the mode when the user is allowed. -/
theorem Justified.fsNamespace (hinv : Justified k calls s.plugin) {optarg : Option Text}
    (hcall : call.callback = .fsNamespace optarg) :
    Justified k (calls ++ [call]) (optFsNamespace optarg s.plugin).2 := by
  have hkeep : Justified k (calls ++ [call]) s.plugin := @Justified.keep ω k calls call s s hinv rfl
  have hasks : call.Asks := ⟨optarg, Or.inl hcall⟩
  unfold optFsNamespace
  split
  next => exact hkeep
  next hallowed =>
    have hgranted := hinv.allowed (by simpa using hallowed)
    split
    next => exact hkeep
    next arg =>
      split
      next => exact ⟨hkeep.allowed, fun _ => Then.last hgranted hasks, hkeep.mounts⟩
      next =>
        split
        next => exact ⟨hkeep.allowed, fun _ => Then.last hgranted hasks, hkeep.mounts⟩
        next => exact hkeep

/-- What the option may do: nothing, store the mounts when the fstab has them all, or set the mode
only. -/
theorem optPrivateMount_cases (fstab : Option (List Text)) (optarg : Option Text) (p : Plugin) :
    optPrivateMount fstab optarg p = (-1, p) ∨
      p.allowed = true ∧ ∃ nsMode,
        (∃ arg, optarg = some arg ∧ (∀ name ∈ listSplit [','] arg, lookup fstab name = true) ∧
          optPrivateMount fstab optarg p = (0, ⟨nsMode, some (listSplit [','] arg), p.allowed⟩)) ∨
        optPrivateMount fstab optarg p = (-1, ⟨nsMode, none, p.allowed⟩) := by
  unfold optPrivateMount
  split
  next => exact Or.inl rfl
  next hallowed =>
    cases optarg with
    | none => exact Or.inl rfl
    | some arg =>
        simp only
        split
        next => exact Or.inl rfl
        next =>
          refine Or.inr ⟨by simpa using hallowed,
            if p.nsMode = .system then .job else p.nsMode, ?_⟩
          split
          next hall => exact Or.inl ⟨arg, rfl, List.all_eq_true.mp hall, rfl⟩
          next => exact Or.inr rfl

/-- An option stores the mounts when the fstab has them all. -/
theorem Justified.privateMount (hinv : Justified k calls s.plugin) {optarg : Option Text}
    (hcall : call.callback = .privateMount optarg) (hbefore : call.before = s)
    (hsucceeds : ((optPrivateMount (k.fstab s.world) optarg s.plugin).1 == 0) = call.succeeds) :
    Justified k (calls ++ [call]) (optPrivateMount (k.fstab s.world) optarg s.plugin).2 := by
  have hkeep : Justified k (calls ++ [call]) s.plugin := @Justified.keep ω k calls call s s hinv rfl
  have hasks : call.Asks := ⟨optarg, Or.inr hcall⟩
  rcases optPrivateMount_cases (k.fstab s.world) optarg s.plugin with
    hsame | ⟨hallowed, nsMode, ⟨arg, rfl, hall, hstored⟩ | hmode⟩
  · rw [hsame]
    exact hkeep
  · have hgranted := hinv.allowed hallowed
    rw [hstored] at hsucceeds ⊢
    refine ⟨hkeep.allowed, fun _ => Then.last hgranted hasks, fun names hnames => ?_⟩
    cases hnames
    refine Then.last hgranted ⟨arg, hcall, hsucceeds.symm, rfl, ?_⟩
    rw [hbefore]
    exact hall
  · rw [hmode]
    exact ⟨hkeep.allowed, fun _ => Then.last (hinv.allowed hallowed) hasks,
      fun names hnames => nomatch hnames⟩

/-- Callbacks one after another. -/
def perform (k : Kernel ω) (depth : Nat) :
    List (Callback ω) → Process ω → Option (List (Call ω) × Process ω)
  | [], s => some ([], s)
  | callback :: rest, s =>
      (callback.run k depth s).bind fun (ok, events, s') =>
        (perform k depth rest s').map fun (calls, s'') => (⟨callback, ok, events, s⟩ :: calls, s'')

end SlurmSpank.PrivateMount
