import Fidelix.Services.Menu
import Fidelix.Text.Literal

namespace Fidelix.Boot

open Text Files Services

def onWord : Str := ['o', 'n']

def typeWord : Str := ['t', 'y', 'p', 'e']

def ro : Str := ['r', 'o']

def defaults : Str := ['d', 'e', 'f', 'a', 'u', 'l', 't', 's']

def nodev : Str := [',', 'n', 'o', 'd', 'e', 'v']

def nosuid : Str := [',', 'n', 'o', 's', 'u', 'i', 'd']

def noexec : Str := [',', 'n', 'o', 'e', 'x', 'e', 'c']

def usrLocal : Str := ['/', 'u', 's', 'r', '/', 'l', 'o', 'c', 'a', 'l']

def optDir : Str := ['/', 'o', 'p', 't']

def usrDir : Str := ['/', 'u', 's', 'r']

def srvDir : Str := ['/', 's', 'r', 'v']

def devDir : Str := ['/', 'd', 'e', 'v']

def devRoot : Str := ['/', 'd', 'e', 'v', '/', 'r', 'o', 'o', 't']

def procType : Str := ['p', 'r', 'o', 'c']

def sysfsType : Str := ['s', 'y', 's', 'f', 's']

def devptsType : Str := ['d', 'e', 'v', 'p', 't', 's']

def uuidIs : Str := ['U', 'U', 'I', 'D', '=']

def wasOn : Str := [' ', 'w', 'a', 's', ' ', 'o', 'n', ' ']

def during : Str :=
  [' ', 'd', 'u', 'r', 'i', 'n', 'g', ' ', 'f', 's', 't', 'a', 'b', ' ', 'g', 'e', 'n', 'e', 'r',
    'a', 't', 'i', 'o', 'n']

def headings : List Str :=
  [['#', ' ', 'D', 'E', 'V', 'I', 'C', 'E'], ['M', 'O', 'U', 'N', 'T', 'P', 'O', 'I', 'N', 'T'],
    ['T', 'Y', 'P', 'E'],
    ['O', 'P', 'T', 'I', 'O', 'N', 'S'], ['D', 'U', 'M', 'P'], ['P', 'A', 'S', 'S']]

structure Mount where
  dev : Str
  dir : Str
  type : Str
  opts : Str

/-- The line of a mount in the output of `mount`. -/
def Mount.line (m : Mount) : Str :=
  unwords [m.dev, onWord, m.dir, typeWord, m.type, '(' :: m.opts ++ [')']]

/-- A device in the output of `blkid`, with its tags. -/
structure BlockDevice where
  dev : Str
  tags : List (Str × Str)

def BlockDevice.line (b : BlockDevice) : Str :=
  b.dev ++ ':' :: b.tags.flatMap fun g => ' ' :: g.1 ++ ['=', '\x22'] ++ g.2 ++ ['\x22']

structure System where
  tree : Tree
  cwd : Loc
  table : List Mount
  blkid : List BlockDevice

structure Mode where
  secure : Bool
  useuuid : Bool

inductive Flag
  | d
  | p
  | s
  | u

def Flag.set (m : Mode) : Flag → Mode
  | .d => { m with useuuid := false }
  | .p => { m with secure := false }
  | .s => { m with secure := true }
  | .u => { m with useuuid := true }

def modeOf (flags : List Flag) : Mode := flags.foldl Flag.set ⟨true, true⟩

/-- What `$( )` takes from these lines. -/
def captured (ls : List Str) : Str :=
  ((['\n'].intercalate ls).reverse.dropWhile (· == '\n')).reverse

/-- The words that `echo` prints of its arguments. -/
def echoWords (ws : List Str) : List Str := ws.dropWhile fun w => echoed w = []

/-- `$(echo s)`, with `s` not quoted. -/
def System.echo (sys : System) (s : Str) : Str := unwords (echoWords (expand sys.tree sys.cwd s))

def System.args (sys : System) (s : Str) : List Str := expand sys.tree sys.cwd s

def param (args : List Str) (n : Nat) : Str := (args[n]?).getD []

/-- The tokens that hold a UUID in the lines of `blkid` that `grep` selects. -/
def uuidTokens (pat : Str) (blkid : List Str) : List Str :=
  ((blkid.filter (search pat)).flatMap (·.splitOn ' ')).filter (search ('^' :: uuidIs))

/-- `get_disk_uuid dev`. Where the shell makes several words of the pattern, `grep`
reads files in place of the listing; that is not followed. -/
def get_disk_uuid (sys : System) (args : List Str) : Str :=
  match sys.args ('^' :: param args 0 ++ [':']) with
  | [pat] => captured ((uuidTokens pat (sys.blkid.map BlockDevice.line)).map (cutField '\x22' 2))
  | _ => []

def lopts (sys : System) (opts : Str) : Str :=
  (sys.args ((echoed opts).map fun c => if c = ',' ∨ c = '(' ∨ c = ')' then ' '
    else c)).flatMap fun opt =>
    if opt = ro then ',' :: ro else []

def hardened (dir : Str) : Str :=
  if usrLocal.isPrefixOf dir then []
  else if optDir.isPrefixOf dir then []
  else if dir = ['/'] then nodev
  else if usrDir.isPrefixOf dir then nodev
  else if srvDir.isPrefixOf dir then nosuid ++ noexec ++ nodev
  else nosuid ++ nodev

def get_options (sys : System) (mode : Mode) (args : List Str) : Str :=
  let kept := lopts sys (param args 1) ++ if mode.secure then hardened (param args 0) else []
  let all := orElse kept defaults
  if all.head? = some ',' then all.tail else all

def linkText (g : Target) : Str :=
  match g.levels with
  | none => '/' :: ['/'].intercalate g.names
  | some up => ['/'].intercalate (List.replicate up dotdot ++ g.names)

/-- `$(readlink s)`. -/
def readlink (t : Tree) (cwd : Loc) (s : Str) : Str :=
  match (t.place cwd s).bind t.node with
  | some (.link g) => linkText g
  | _ => []

/-- `$SYSROOT` without a trailing slash. -/
def sysroot (sys : System) (root : Str) : Str :=
  let s := sys.echo root
  if s.getLast? = some '/' then s.dropLast else s

/-- `sed "s@^$SYSROOT@@g"`. A pattern that is refused, or that an `@` ends early, is an
error, and nothing is printed. -/
def withoutRoot (root dir : Str) : Str :=
  if '@' ∈ root then []
  else match compile ('^' :: root) with
    | none => []
    | some _ => (longest ('^' :: root) dir).getD dir

/-- A line of the new table; `source` is the device before its UUID is asked for. -/
structure Entry where
  dev : Str
  dir : Str
  type : Str
  options : Str
  source : Str

def skipped : List Str := [procType, sysfsType, devptsType]

def deviceOf (sys : System) (dev : Str) : Str :=
  if dev = devRoot then devDir ++ '/' :: readlink sys.tree sys.cwd devRoot else dev

/-- One round of the loop over the lines of `mount`. -/
def loopBody (sys : System) (mode : Mode) (root mount : Str) : Option Entry :=
  let row := sys.echo mount
  let dev := deviceOf sys (awkField 1 row)
  let dir := orElse (withoutRoot root (awkField 3 row)) ['/']
  let type := awkField 5 row
  let options := get_options sys mode (sys.args dir ++ sys.args (awkField 6 row))
  if type ∈ skipped ∨ dir = devDir then none
  else some ⟨if mode.useuuid then uuidIs ++ get_disk_uuid sys (sys.args dev)
    else dev, dir, type, options, dev⟩

/-- The lines of `mount` that `grep " on $SYSROOT"` selects. -/
def selects (root : Str) (mount : Str) : Bool := search (' ' :: onWord ++ ' ' :: root) mount

def entries (sys : System) (mode : Mode) (root : Str) : List Entry :=
  let root := sysroot sys root
  (readLines ((sys.table.map Mount.line).filter (selects root))).filterMap (loopBody sys mode root)

def Entry.text (mode : Mode) (e : Entry) : Str :=
  (if mode.useuuid then ['#', ' '] ++ e.dir ++ wasOn ++ e.source ++ during ++ ['\n'] else []) ++
    echoE (['\t'].intercalate [e.dev, e.dir, e.type, e.options, ['0'], ['0']])

def header : Str := ['\t'].intercalate headings ++ ['\n']

/-- `genfstab flags arg`; the root is the argument, the variable `SYSROOT`, or `/`. -/
def genfstab (sys : System) (flags : List Flag) (arg env : Str) : Str :=
  header ++ (entries sys (modeOf flags) (orElse arg (orElse env ['/']))).flatMap
    (Entry.text (modeOf flags))

end Fidelix.Boot
