import Fidelix.Pkgtools.System

namespace Fidelix.Pkgtools

open Text Files

def newSuffix : Str := ['.', 'n', 'e', 'w']
def oldSuffix : Str := ['.', 'o', 'l', 'd']

def actionOVERWRITE : Str := ['O', 'V', 'E', 'R', 'W', 'R', 'I', 'T', 'E']
def actionREPLACE : Str := ['R', 'E', 'P', 'L', 'A', 'C', 'E']

/-- The status of a last `mv`. -/
def statusOf (t : Tree) : Option Tree → Tree × Nat
  | none => (t, 1)
  | some t => (t, 0)

def preserve_file (env : Env) (args : List Str) (t : Tree) : Tree × Nat :=
  match args with
  | [f] => statusOf t (t.mv env.cwd f (f ++ newSuffix))
  | _ => (t, 1)

/-- `diff -s a b`: both can be read and hold the same lines. -/
def sameText (t : Tree) (cwd : Loc) (a b : Str) : Bool :=
  match t.text cwd a, t.text cwd b with
  | some ls, some ms => ls == ms
  | _, _ => false

/-- With `OVERWRITE` and `REPLACE` the last command prints a message and succeeds. -/
def install_new_file (env : Env) (args : List Str) (t : Tree) : Tree × Nat :=
  match args with
  | [f] =>
      let new := f ++ newSuffix
      if t.present env.cwd new = false then (t, 1)
      else if t.present env.cwd f = false then statusOf t (t.mv env.cwd new f)
      else if sameText t env.cwd f new then (t.rm env.cwd new, 0)
      else if env.new_file_action = actionOVERWRITE then ((t.mv env.cwd new f).getD t, 0)
      else if env.new_file_action = actionREPLACE then
        let t := (t.mv env.cwd f (f ++ oldSuffix)).getD t
        ((t.mv env.cwd new f).getD t, 0)
      else (t, 0)
  | _ => (t, 1)

inductive Subcommand
  | help
  | version
  | preserveFile
  | installNewFile
  | unknown

/-- `pkgtool`; the subcommands get their arguments from an unquoted `$@`. -/
def pkgtool (env : Env) (sub : Option Subcommand) (args : List Str) (t : Tree) : Tree × Nat :=
  let args := args.flatMap (expand t env.cwd)
  match sub with
  | none => (t, 1)
  | some .help | some .version => (t, 0)
  | some .preserveFile => preserve_file env args t
  | some .installNewFile => install_new_file env args t
  | some .unknown => (t, 1)

end Fidelix.Pkgtools
