import SlurmSpank.AutoAffinity.Options

/-! # Private mounts

The plugin gives a job or a task a file system namespace of its own and mounts entries of the
alternative fstab in it. What the kernel, the fstab and the mount command do is a parameter.
-/

namespace SlurmSpank.PrivateMount

open AutoAffinity

/-- How `mkdir` answers, by the error that the plugin looks at. -/
inductive MkdirAnswer where
  | made
  | noEntry
  | present
  | failed
  deriving DecidableEq

/-- The system that the plugin runs on, with its state `ω`. -/
structure Kernel (ω : Type) where
  /-- `unshare` of the file system namespace. -/
  unshare : ω → Bool × ω
  /-- The bind mount of the alternative fstab over the regular one. -/
  bind : ω → Bool × ω
  /-- The directories of the alternative fstab, if it can be read. -/
  fstab : ω → Option (List Text)
  mkdir : Text → ω → MkdirAnswer × ω
  /-- `stat` finds a directory. -/
  isDir : Text → ω → Bool
  /-- The command `mount -n` was run and exited with 0. -/
  mount : Text → ω → Bool × ω
  statfs : Text → ω → Bool

/-- `ns_mode_t`. -/
inductive NsMode where
  | system
  | task
  | job
  deriving DecidableEq

/-- The static variables of the plugin. -/
structure Plugin where
  nsMode : NsMode := .system
  mounts : Option (List Text) := none
  allowed : Bool := false
  deriving DecidableEq

/-- What is done to the namespace of the process. -/
inductive Event where
  | unshare
  | bind
  | found (name : Text)
  | mount (name : Text) (mounted : Bool)
  deriving DecidableEq

/-! ## Directories -/

/-- The path without its last slashes. -/
def trimSlashes (path : Text) : Text := (path.reverse.dropWhile (· = '/')).reverse

/-- `dirname`. The root may be written with two slashes. -/
def dirname (path : Text) : Text :=
  let above := ((trimSlashes path).reverse.dropWhile (· ≠ '/')).reverse
  if trimSlashes path = [] then
    if path = [] then ['.'] else if path = ['/', '/'] then ['/', '/'] else ['/']
  else if above = [] then ['.']
  else if above = ['/', '/'] then ['/', '/']
  else if trimSlashes above = [] then ['/']
  else trimSlashes above

section Kernel

variable {ω : Type} (k : Kernel ω)

/-- `_mkdir_p`, which calls itself up to a depth. -/
def mkdirP : Nat → Text → ω → Option (Bool × ω)
  | 0, _, _ => none
  | depth + 1, path, w =>
      match k.mkdir path w with
      | (.made, w) => some (true, w)
      | (.noEntry, w) =>
          (mkdirP depth (dirname path) w).map fun (ok, w) =>
            if ok then ((k.mkdir path w).1 = .made, (k.mkdir path w).2) else (false, w)
      | (.present, w) => some (k.isDir path w, w)
      | (.failed, w) => some (false, w)

/-! ## Mounts -/

/-- `_lookup`. -/
def lookup (fstab : Option (List Text)) (name : Text) : Bool :=
  fstab.any fun dirs => dirs.any fun dir => decide (dir = name)

/-- The loop of `_private_mount` over the names. -/
def mountLoop (depth : Nat) : List Text → ω → Option (Bool × List Event × ω)
  | [], w => some (true, [], w)
  | name :: rest, w =>
      if lookup (k.fstab w) name then
        match mkdirP k depth name w with
        | none => none
        | some (false, w) => some (false, [.found name], w)
        | some (true, w) =>
            match k.mount name w with
            | (false, w) => some (false, [.found name, .mount name false], w)
            | (true, w) =>
                if k.statfs name w then
                  (mountLoop depth rest w).map fun (ok, events, w) =>
                    (ok, .found name :: .mount name true :: events, w)
                else some (false, [.found name, .mount name true], w)
      else some (false, [], w)

/-- `_private_mount`. -/
def privateMount (depth : Nat) (mounts : Option (List Text)) (w : ω) :
    Option (Bool × List Event × ω) :=
  match k.unshare w with
  | (false, w) => some (false, [.unshare], w)
  | (true, w) =>
      match mounts with
      | none => some (true, [.unshare], w)
      | some names =>
          match k.bind w with
          | (false, w) => some (false, [.unshare, .bind], w)
          | (true, w) =>
              (mountLoop k depth names w).map fun (ok, events, w) =>
                (ok, .unshare :: .bind :: events, w)

end Kernel

/-! ## Callbacks -/

/-- What `slurm_spank_init` asks for: whether the context is remote, the user of the job, the user
of the process and the users by name. -/
structure Context where
  remote : Bool
  jobUid : Option Nat
  uid : Nat
  passwd : Text → Option Nat

/-- The text in front of the users. -/
def allowuser : Text := "allowuser=".toList

/-- The loop of `slurm_spank_init` over its arguments, with the users so far. -/
def parseArgs : List Text → Option (List Text) → Option (Option (List Text))
  | [], u => some u
  | arg :: rest, u =>
      if arg.take 10 = allowuser then
        if u.isSome then none else parseArgs rest (some (listSplit [','] (arg.drop 10)))
      else none

/-- The user whose job it is. -/
def Context.user (c : Context) : Option Nat := if c.remote then c.jobUid else some c.uid

/-- `slurm_spank_init`. A user that is not known is passed over. -/
def slurmSpankInit (c : Context) (av : List Text) (p : Plugin) : Int × Plugin :=
  match parseArgs av none with
  | none => (-1, p)
  | some none => (0, p)
  | some (some users) =>
      match c.user with
      | none => (-1, p)
      | some uid =>
          (0, if users.any (c.passwd · = some uid) then { p with allowed := true } else p)

/-- `_opt_fs_namespace`. -/
def optFsNamespace (optarg : Option Text) (p : Plugin) : Int × Plugin :=
  if !p.allowed then (-1, p)
  else
    match optarg with
    | none => (-1, p)
    | some arg =>
        if arg = "task".toList then (0, { p with nsMode := .task })
        else if arg = "job".toList then (0, { p with nsMode := .job })
        else (-1, p)

/-- `_opt_private_mount`. The mode stays when an entry is missing. -/
def optPrivateMount (fstab : Option (List Text)) (optarg : Option Text) (p : Plugin) :
    Int × Plugin :=
  if !p.allowed then (-1, p)
  else
    match optarg with
    | none => (-1, p)
    | some arg =>
        if p.mounts.isSome then (-1, p)
        else
          let nsMode := if p.nsMode = .system then .job else p.nsMode
          let names := listSplit [','] arg
          if names.all (lookup fstab) then (0, { p with nsMode := nsMode, mounts := some names })
          else (-1, { p with nsMode := nsMode, mounts := none })

section Callbacks

variable {ω : Type} (k : Kernel ω) (depth : Nat)

/-- `slurm_spank_task_init_privileged`. -/
def slurmSpankTaskInitPrivileged (p : Plugin) (w : ω) : Option (Bool × List Event × ω) :=
  if p.nsMode ≠ .task then some (true, [], w)
  else if !p.allowed then some (false, [], w)
  else privateMount k depth p.mounts w

/-- `slurm_spank_init_post_opt`. -/
def slurmSpankInitPostOpt (remote : Bool) (p : Plugin) (w : ω) : Option (Bool × List Event × ω) :=
  if !remote ∨ p.nsMode ≠ .job then some (true, [], w)
  else if !p.allowed then some (false, [], w)
  else privateMount k depth p.mounts w

/-- `slurm_spank_exit`. -/
def slurmSpankExit (p : Plugin) : Plugin := { p with mounts := none }

/-- The callbacks that slurm makes, and the changes that others make to the system between
them. -/
inductive Callback (ω : Type) where
  | init (c : Context) (av : List Text)
  | fsNamespace (optarg : Option Text)
  | privateMount (optarg : Option Text)
  | initPostOpt (remote : Bool)
  | taskInitPrivileged
  | exit
  | others (w : ω)

/-- The plugin and the system. -/
structure Process (ω : Type) where
  plugin : Plugin
  world : ω

/-- A callback with whether it returned 0, what it did, and the process before it. -/
structure Call (ω : Type) where
  callback : Callback ω
  succeeds : Bool
  events : List Event
  before : Process ω

/-- What a callback makes of a process. -/
def Callback.run (s : Process ω) : Callback ω → Option (Bool × List Event × Process ω)
  | .init c av =>
      some ((slurmSpankInit c av s.plugin).1 == 0, [],
        { s with plugin := (slurmSpankInit c av s.plugin).2 })
  | .fsNamespace optarg =>
      some ((optFsNamespace optarg s.plugin).1 == 0, [],
        { s with plugin := (optFsNamespace optarg s.plugin).2 })
  | .privateMount optarg =>
      let result := optPrivateMount (k.fstab s.world) optarg s.plugin
      some (result.1 == 0, [], { s with plugin := result.2 })
  | .initPostOpt remote =>
      (slurmSpankInitPostOpt k depth remote s.plugin s.world).map fun (ok, events, w) =>
        (ok, events, { s with world := w })
  | .taskInitPrivileged =>
      (slurmSpankTaskInitPrivileged k depth s.plugin s.world).map fun (ok, events, w) =>
        (ok, events, { s with world := w })
  | .exit => some (true, [], { s with plugin := slurmSpankExit s.plugin })
  | .others w => some (true, [], { s with world := w })

end Callbacks

end SlurmSpank.PrivateMount
