import SlurmSpank.Cpuset.ConfLexer

/-! # The parser of the cpuset configuration

The grammar of `conf-parser.y` as a machine that takes one token at a time. Its stack is
reduced to the statement that is being read and to what stands in front of it. Behind `file`
a statement shifts the end that `stmt end` asks for. Behind `file stmts` it is reduced at
once, for there the shift of `stmts stmt` wins over the reduction to `file`. An end in that
place reduces to `file` first.
-/

namespace SlurmSpank.Cpuset

open Foundation

/-! ## Actions -/

namespace CpusetConf

/-- `cf_policy`. -/
def cfPolicy (conf : CpusetConf) (name : Text) : Int × CpusetConf :=
  let (rc, conf) := conf.setPolicyString name
  if rc < 0 then (-1, conf) else (0, conf)

/-- `cf_use_idle`. -/
def cfUseIdle (conf : CpusetConf) (s : Text) : Int × CpusetConf :=
  let (rc, conf) := conf.setAllocIdleString s
  if rc < 0 then (-1, conf) else (0, conf)

/-- `cf_order`. -/
def cfOrder (conf : CpusetConf) (s : Text) : Int × CpusetConf :=
  if strcaseEq s "reverse".toList then conf.setOrder true
  else if strcaseEq s "normal".toList then conf.setOrder false
  else (-1, conf)

/-- `cf_const_mem`. -/
def cfConstMem (conf : CpusetConf) (val : Bool) : Int × CpusetConf := conf.setConstrainMem val

/-- `cf_kill_orphs`. -/
def cfKillOrphs (conf : CpusetConf) (val : Bool) : Int × CpusetConf := conf.setKillOrphans val

/-- The action of the statement with this keyword and value, if there is one. -/
def stmt (conf : CpusetConf) : Keyword → ConfToken → Option (Int × CpusetConf)
  | .policy, .string s => some (conf.cfPolicy s)
  | .useIdle, .string s => some (conf.cfUseIdle s)
  | .useIdle, .false => some (conf.cfUseIdle "no".toList)
  | .useIdle, .true => some (conf.cfUseIdle "yes".toList)
  | .constMem, .true => some (conf.cfConstMem true)
  | .constMem, .false => some (conf.cfConstMem false)
  | .killOrphs, .true => some (conf.cfKillOrphs true)
  | .killOrphs, .false => some (conf.cfKillOrphs false)
  | .order, .string s => some (conf.cfOrder s)
  | _, _ => none

end CpusetConf

/-! ## The machine -/

/-- What stands on the stack in front of a statement. -/
inductive Front where
  | file
  | stmts
  deriving DecidableEq

/-- Where the parser is. -/
inductive Place where
  | front (front : Front)
  | keyword (front : Front) (k : Keyword)
  | equals (front : Front) (k : Keyword)
  | stmt
  deriving DecidableEq

/-- Where the parser is once a statement has been reduced. -/
def Front.behindStmt : Front → Place
  | .file => .stmt
  | .stmts => .front .stmts

/-- `end`. -/
def ConfToken.isEnd : ConfToken → Bool
  | .newline | .semi => Bool.true
  | _ => Bool.false

/-- What the parser does with a token. No place is a syntax error or `YYABORT`. -/
def Place.next (place : Place) (t : ConfToken) (conf : CpusetConf) : Option Place × CpusetConf :=
  match place with
  | .front base =>
      match t with
      | .keyword k => (some (.keyword base k), conf)
      | t => if t.isEnd then (some (.front .stmts), conf) else (none, conf)
  | .keyword base k => if t = .equals then (some (.equals base k), conf) else (none, conf)
  | .equals base k =>
      match conf.stmt k t with
      | none => (none, conf)
      | some (rc, conf) => if rc < 0 then (none, conf) else (some base.behindStmt, conf)
  | .stmt => if t.isEnd then (some (.front .stmts), conf) else (none, conf)

/-- The end of the input is accepted. -/
def Place.accepts : Place → Bool
  | .front _ => true
  | _ => false

/-- `yyparse` from a place on. -/
def yyparse : Place → List ConfToken → CpusetConf → Int × CpusetConf
  | place, [], conf => (if place.accepts then 0 else 1, conf)
  | place, t :: ts, conf =>
      match place.next t conf with
      | (none, conf) => (1, conf)
      | (some place, conf) => yyparse place ts conf

/-! ## Configuration files -/

/-- What can be read: the files that exist, those that can be opened, and the standard
input. -/
structure Inputs where
  present : Text → Bool
  read : Text → Option Text
  stdin : Text

/-- What can be read from a path. -/
def Inputs.opened (inputs : Inputs) (path : Text) : Option Text :=
  if path = "-".toList then some inputs.stdin else inputs.read path

namespace CpusetConf

/-- The text of a configuration file is parsed. -/
def parseText (conf : CpusetConf) (text : Text) : Int × CpusetConf :=
  let (rc, conf) := yyparse (.front .file) (ConfRule.tokens text) conf
  if rc ≠ 0 then (-1, conf) else (0, conf)

/-- `cpuset_conf_parse`. The path that it keeps for `cpuset_conf_file` is left out. -/
def parse (inputs : Inputs) (conf : CpusetConf) (path : Text) : Int × CpusetConf :=
  match inputs.opened path with
  | none => (-1, conf)
  | some text => conf.parseText text

/-- `parse_if_exists`. -/
def parseIfExists (inputs : Inputs) (conf : CpusetConf) (file : Text) : Int × CpusetConf :=
  if !inputs.present file then (0, conf)
  else if (inputs.read file).isNone then (-1, conf)
  else
    let (rc, conf) := conf.parse inputs file
    if rc < 0 then (-1, conf) else (0, conf)

/-- `default_config`. -/
def defaultConfig : Text := "/etc/slurm/slurm-cpuset.conf".toList

/-- `cpuset_conf_parse_system`. -/
def parseSystem (inputs : Inputs) (conf : CpusetConf) : Int × CpusetConf :=
  conf.parseIfExists inputs defaultConfig

end CpusetConf

end SlurmSpank.Cpuset
