import Fidelix.Pkgtools.System

namespace Fidelix.Services

open Text Files Pkgtools

/-- What an init script sets before it sources `common-core`; empty where it
sets nothing. -/
structure Script where
  name : Str
  pidFile : Str
  startCmd : Str
  stopCmd : Str
  restartCmd : Str
  reloadCmd : Str
  statusCmd : Str
  defaultStart : Str
  startPriority : Str
  description : Str

/-- `${v:-word}`. -/
def orElse (v word : Str) : Str := if v = [] then word else v

def Script.hasDefaults (s : Script) : Script := { s with
  defaultStart := orElse s.defaultStart ['n', 'o']
  startPriority := orElse s.startPriority ['5', '0']
  description := orElse s.description (s.name ++ [' ', 'S', 'e', 'r', 'v', 'i', 'c', 'e']) }

def Script.accepted (s : Script) : Bool := s.name != [] && s.startCmd != []

/-- `$(echo s)`: a word that reads as options of `echo` is not printed. -/
def echoed (s : Str) : Str :=
  match s with
  | '-' :: c :: cs => if (c :: cs).all fun c => c == 'n' || c == 'e' || c == 'E' then [] else s
  | _ => s

inductive Field
  | pid
  | description
  | name
  | default_start
  | start_priority

def cc_get (t : Tree) (cwd : Loc) (s : Script) : Field → Str
  | .pid => if s.pidFile = [] then [] else ((t.text cwd s.pidFile).bind List.head?).getD []
  | .description => echoed s.description
  | .name => echoed s.name
  | .default_start => echoed s.defaultStart
  | .start_priority => echoed s.startPriority

/-- `get field`, as an init script that sets the variables of `s` answers it. -/
def answer (t : Tree) (cwd : Loc) (s : Script) (field : Field) : Str :=
  if s.accepted then cc_get t cwd s.hasDefaults field else []

def etcName : Str := ['e', 't', 'c']
def initdName : Str := ['i', 'n', 'i', 't', '.', 'd']
def rcdName : Str := ['r', 'c', '.', 'd']
def enabledName : Str := ['e', 'n', 'a', 'b', 'l', 'e', 'd']

/-- `/etc/init.d`. -/
def svcdir : Str := path (path [] etcName) initdName

/-- `$SVCDIR/../rc.d/enabled/`. -/
def enabledir : Str := path (path (path (path svcdir dotdot) rcdName) enabledName) []

/-- `../../init.d`, which a link in the directory of enabled services leads to. -/
def fromEnabled : Str := path (path dotdot dotdot) initdName

def initdLoc : Loc := [initdName, etcName]

def enabledLoc : Loc := [enabledName, rcdName, etcName]

abbrev Vars := List Str → Script

/-- Characters that `eval` takes for syntax. -/
def syntaxChars : Str := ['|', '&', ';', '<', '>', '(', ')', '$', '\\', '\x60', '\x22', '\x27']

def evalSafe (s : Str) : Bool := s.all fun c => !syntaxChars.contains c

/-- `$(/etc/init.d/$svc get field)`. A name of several words asks no init script
for the field. -/
def ask (vars : Vars) (t : Tree) (cwd : Loc) (svc : Str) (field : Field) : Str :=
  match expand t cwd (path svcdir svc) with
  | [w] => if t.isExec cwd w then answer t cwd (vars ((t.text cwd w).getD [])) field else []
  | _ => []

/-- `$(eval "$SVCDIR/$1 get field 2> /dev/null")`. The shell reads the name once
more; what it makes of syntax in a name is not followed. -/
def get (vars : Vars) (t : Tree) (cwd : Loc) (svc : Str) (field : Field) : Str :=
  if evalSafe svc then ask vars t cwd svc field else []

end Fidelix.Services
