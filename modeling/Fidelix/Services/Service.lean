import Fidelix.Services.Script

namespace Fidelix.Services

open Text Files Pkgtools

inductive Action
  | enable
  | disable
  | default
  deriving DecidableEq

/-- `none` is the exit through `die`. -/
def svc_enable (vars : Vars) (t : Tree) (cwd : Loc) (svc : Str) : Option Tree :=
  let name := get vars t cwd svc .name
  let priority := get vars t cwd svc .start_priority
  match expand t cwd (path fromEnabled svc) with
  | [w] => t.lnSf cwd w (path enabledir (priority ++ name))
  | _ => none

def svc_disable (vars : Vars) (t : Tree) (cwd : Loc) (svc : Str) : Tree :=
  let name := get vars t cwd svc .name
  (expand t cwd (path enabledir ('*' :: name))).foldl (fun t w => t.rm cwd w) t

def yes : Str := ['y', 'e', 's']

/-- Whether the action enables the service: `default` does what the script asks for. -/
def enables (vars : Vars) (t : Tree) (cwd : Loc) (svc : Str) : Action → Bool
  | .enable => true
  | .disable => false
  | .default => get vars t cwd svc .default_start == yes

def svc_action (vars : Vars) (t : Tree) (cwd : Loc) (svc : Str) (a : Action) : Tree :=
  if enables vars t cwd svc a then (svc_enable vars t cwd svc).getD t
    else svc_disable vars t cwd svc

def helps : List Str := [['h', 'e', 'l', 'p'], ['-', '-', 'h', 'e', 'l', 'p'], ['-', 'h']]

def allName : Str := ['a', 'l', 'l']

/-- `service svc a`, for one service. -/
def serviceOne (vars : Vars) (cwd : Loc) (svc : Str) (a : Action) (t : Tree) : Tree :=
  if svc ∈ helps then t
  else if t.isExecutable cwd (path svcdir svc) then svc_action vars t cwd svc a else t

/-- `service svc a`. An init script called `all` makes the loop call itself
without end. -/
def service (vars : Vars) (cwd : Loc) (svc : Str) (a : Action) (t : Tree) : Option Tree :=
  if svc = allName then
    let svcs := ((t.ls cwd svcdir).flatMap (expand t cwd)).filter fun s =>
      t.isExecutable cwd (path svcdir s)
    if allName ∈ svcs then none else some (svcs.foldl (fun t s => serviceOne vars cwd s a t) t)
  else some (serviceOne vars cwd svc a t)

/-- `stat $ENABLEDIR/*$name`: every word has to exist. -/
def onBoot (vars : Vars) (t : Tree) (cwd : Loc) (svc : Str) : Bool :=
  (expand t cwd (path enabledir ('*' :: get vars t cwd svc .name))).all fun w =>
    ((t.place cwd w).bind t.node).isSome

/-- What `service` prints of a service besides the state of its processes. -/
structure Report where
  name : Str
  description : Str
  enabled : Bool

def report (vars : Vars) (t : Tree) (cwd : Loc) (svc : Str) : Report where
  name := get vars t cwd svc .name
  description := get vars t cwd svc .description
  enabled := onBoot vars t cwd svc

def svc_status (vars : Vars) (t : Tree) (cwd : Loc) (svc : Str) : Report := report vars t cwd svc

def svc_terse (vars : Vars) (t : Tree) (cwd : Loc) (svc : Str) : Report := report vars t cwd svc

/-- `/etc/rc.d/enabled`. -/
def rcEnabled : Str := path (path (path [] etcName) rcdName) enabledName

/-- The script that a word of the listing starts, called as
`/etc/rc.d/enabled/$service`. -/
def launched (t : Tree) (service : Str) : Option Loc :=
  match expand t [] (path rcEnabled service) with
  | [w] => if t.isExec [] w then t.stat [] w else none
  | _ => none

/-- The loop of `rc`: the scripts it runs with `start`, in order. -/
def rc (t : Tree) : List Loc :=
  if t.isDir [] rcEnabled then
    ((t.ls [] rcEnabled).flatMap (expand t [])).filterMap (launched t)
  else []

/-- The loop of `rc.shutdown`: the scripts it runs with `stop`, in order. -/
def rcShutdown (t : Tree) : List Loc :=
  if t.isDir [] rcEnabled then
    ((t.lsReverse [] rcEnabled).flatMap (expand t [])).filterMap (launched t)
  else []

end Fidelix.Services
