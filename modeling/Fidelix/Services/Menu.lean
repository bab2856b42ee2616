import Fidelix.Services.Service

namespace Fidelix.Services

open Text Files Pkgtools

def digitsIn (base : Nat) (s : Str) : Option Nat :=
  s.foldlM (fun n c =>
    let d := if c.isDigit then c.toNat - '0'.toNat else if 'a' ≤ c && c ≤ 'f'
      then c.toNat - 'a'.toNat + 10
      else if 'A' ≤ c && c ≤ 'F' then c.toNat - 'A'.toNat + 10 else base
    if d < base then some (base * n + d) else none) 0

/-- The longest number of at most `k` digits a text starts with. -/
def leadingNumber (base : Nat) : Nat → Str → Option (Nat × Str)
  | 0, _ => none
  | k + 1, s =>
      if s.length ≤ k then leadingNumber base k s
      else match digitsIn base (s.take (k + 1)) with
        | some n => some (n, s.drop (k + 1))
        | none => leadingNumber base k s

def echoEscape (s : Str) : Option (Char × Str) :=
  match s with
  | 'n' :: s => some ('\n', s)
  | 't' :: s => some ('\t', s)
  | '\\' :: s => some ('\\', s)
  | 'a' :: s => some ('\x07', s)
  | 'b' :: s => some ('\x08', s)
  | 'e' :: s => some ('\x1b', s)
  | 'f' :: s => some ('\x0c', s)
  | 'r' :: s => some ('\x0d', s)
  | 'v' :: s => some ('\x0b', s)
  | 'c' :: _ => none
  | '0' :: s => match leadingNumber 8 3 s with
    | some (n, s) => some (Char.ofNat n, s)
    | none => some ('\x00', s)
  | 'x' :: s => match leadingNumber 16 2 s with
    | some (n, s) => some (Char.ofNat n, s)
    | none => some ('\\', 'x' :: s)
  | s => some ('\\', s)

/-- A text with its escapes replaced; the flag tells that `\c` ended the output. -/
def escapes : Nat → Str → Str × Bool
  | 0, s => (s, false)
  | _, [] => ([], false)
  | k + 1, c :: s =>
      if c = '\\' then match echoEscape s with
        | none => ([], true)
        | some (d, rest) => (d :: (escapes k rest).1, (escapes k rest).2)
      else (c :: (escapes k s).1, (escapes k s).2)

/-- What `echo -e s` prints. -/
def echoE (s : Str) : Str :=
  let r := escapes s.length s
  if r.2 then r.1 else r.1 ++ ['\n']

/-- The loop variable of `svc_list`, in turn. -/
def menuServices (t : Tree) (cwd : Loc) : List Str :=
  ((t.ls cwd svcdir).flatMap (expand t cwd)).filter fun svc => t.isExecutable cwd (path svcdir svc)

/-- `ls /etc/rc.d/enabled/ | grep ^..$svc$` prints something. -/
def marked (t : Tree) (cwd : Loc) (svc : Str) : Bool :=
  match expand t cwd ('^' :: '.' :: '.' :: (svc ++ ['$'])) with
  | [p] => (t.ls cwd (path rcEnabled [])).any (search p)
  | _ => false

def markOn : Str := ['[', 'X', ']']

def markOff : Str := ['[', '_', ']']

def menuEntry (vars : Vars) (t : Tree) (cwd : Loc) (i : Nat) (svc : Str) : Str :=
  let prompt := if marked t cwd svc then markOn else markOff
  echoE ([' ', ' ', ' ', ' ', ' '] ++ Nat.toDigits 10 i ++ ['\\', 't'] ++ prompt ++ [' '] ++ svc ++
    ['\\', 't'] ++
    ask vars t cwd svc .description)

def menuText (vars : Vars) (t : Tree) (cwd : Loc) : Nat → List Str → Str
  | _, [] => []
  | i, svc :: svcs => menuEntry vars t cwd i svc ++ menuText vars t cwd (i + 1) svcs

/-- The file that `svc_list` writes, in lines. -/
def svc_list (vars : Vars) (t : Tree) (cwd : Loc) : List Str :=
  textLines (menuText vars t cwd 1 (menuServices t cwd))

def choose (vars : Vars) (cwd : Loc) (choice : Nat) (t : Tree) (action : Option Action) :
    Option (Tree × Option Action) :=
  if 0 < choice ∧ choice ≤ (menuServices t cwd).length then
    let svc := ((svc_list vars t cwd).take choice).getLastD []
    let name := awkField 3 svc
    let status := awkField 2 svc
    let action := if status = markOn then some .disable else if status = markOff
      then some .enable else action
    match action with
    | some a => if name = [] then some (t, action)
          else (service vars cwd name a t).map fun t => (t, action)
    | none => some (t, action)
  else some (t, action)

end Fidelix.Services
