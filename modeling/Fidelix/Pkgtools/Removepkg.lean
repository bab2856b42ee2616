import Fidelix.Pkgtools.System

namespace Fidelix.Pkgtools

open Text Files

/-- `dirname(3)`. -/
def dirname (s : Str) : Str :=
  let a := s.reverse.dropWhile (· == '/')
  let b := a.dropWhile (· != '/')
  let c := b.dropWhile (· == '/')
  if s = [] then dot else if a = [] then ['/'] else if b = [] then dot
  else if c = [] then ['/'] else c.reverse

/-- `$(dirname $1)`: the argument is not quoted, and with more or less than one
word `dirname` prints no name. -/
def dirnameOf (t : Tree) (cwd : Loc) (s : Str) : Str :=
  match expand t cwd s with
  | [w] => dirname w
  | _ => []

/-- `./$1`. -/
def here (s : Str) : Str := dot ++ '/' :: s

/-- `grep -r "^$1\$" $contents_files | wc -l`. -/
def count (t : Tree) (cwd : Loc) (contents_files : List Str) (file : Str) : Nat :=
  t.grepCount cwd ('^' :: (file ++ ['$'])) contents_files

def removepkg_rmfile (cwd : Loc) (contents_files : List Str) (t : Tree) (file : Str) : Tree :=
  if count t cwd contents_files file = 1 then t.rm cwd (here file) else t

def removepkg_rmdir (cwd : Loc) (contents_files : List Str) : Nat → Tree → Str → Option Tree
  | 0, _, _ => none
  | n + 1, t, dir =>
      if dir = ['/'] then some t
      else if count t cwd contents_files dir = 1 then
        let t := t.rmdirParents cwd (here dir)
        removepkg_rmdir cwd contents_files n t (dirnameOf t cwd dir)
      else some t

def rmfileStep (cwd : Loc) (contents_files : List Str) (t : Tree) (file : Str) : Tree :=
  if t.isDir cwd (here file) then t else removepkg_rmfile cwd contents_files t file

def uninstallFiles (cwd : Loc) (contents_files : List Str) (t : Tree) (files : List Str) : Tree :=
  files.foldl (rmfileStep cwd contents_files) t

def rmdirStep (cwd : Loc) (contents_files : List Str) (t : Tree) (file : Str) : Option Tree :=
  if t.isDir cwd (here file)
    then removepkg_rmdir cwd contents_files (file.length + 3) t file else some t

def uninstallDirs (cwd : Loc) (contents_files : List Str) : Tree → List Str → Option Tree
  | t, [] => some t
  | t, file :: files => (rmdirStep cwd contents_files t file).bind fun t =>
      uninstallDirs cwd contents_files t files

/-- The list of a package, as `while read file` reads it. -/
def readContents (t : Tree) (cwd : Loc) (pkgname : Str) : List Str :=
  readLines ((t.text cwd (path (path pkgdb pkgname) contentsName)).getD [])

/-- `$(find var/pkgdb -name contents)`, split into words. -/
def contentsFiles (t : Tree) (cwd : Loc) : List Str :=
  (t.find cwd pkgdb contentsName).flatMap (expand t cwd)

def uninstall (cwd : Loc) (contents_files : List Str) (pkgname : Str) (t : Tree) : Option Tree :=
  let t := uninstallFiles cwd contents_files t (readContents t cwd pkgname)
  (uninstallDirs cwd contents_files t (readContents t cwd pkgname)).map fun t =>
    t.rmTree cwd (path pkgdb pkgname)

/-- The call of `douninst.sh`, which an upgrade leaves out. The test is quoted, the call is not. -/
def runDouninst (hook : Hook) (env : Env) (cwd : Loc) (pkgname : Str) (s : Sys) : Sys :=
  let douninst := path (path pkgdb pkgname) douninstName
  if s.tree.isExec cwd douninst && !env.do_upgradepkg then
    match expand s.tree cwd (here douninst) with
    | [] => s
    | cmd :: _ =>
        if s.tree.isExec cwd cmd then
          (s.emit (.douninst cmd)).onTree fun t => hook env cwd ((t.text cwd cmd).getD []) t
        else s
  else s

/-- `removepkg -d root_dir pkgname`; without `-d` the root directory is empty. -/
def removepkg (hook : Hook) (env : Env) (root_dir pkgname : Str) (s : Sys) : Run :=
  if pkgname = [] then some (s, 1)
  else if s.tree.isDir env.cwd (entryIn (rootOr root_dir) pkgname) = false then some (s, 2)
  else
    let cwd := (s.tree.stat env.cwd (rootOr root_dir)).getD env.cwd
    let contents_files := contentsFiles s.tree cwd
    let s := runDouninst hook env cwd pkgname s
    (uninstall cwd contents_files pkgname s.tree).map fun t =>
      ({ s.emit (.uninstall s.tree cwd pkgname) with tree := t },
        Tree.rmStatus (path pkgdb pkgname))

theorem removepkg_cases {hook : Hook} {env : Env} {root_dir pkgname : Str} {s : Sys} {q : Sys × Nat}
    {cwd : Loc} (hcwd : (s.tree.stat env.cwd (rootOr root_dir)).getD env.cwd = cwd)
    (h : removepkg hook env root_dir pkgname s = some q) :
    (q.1 = s ∧ q.2 ≠ 0 ∧
      (pkgname = [] ∨ s.tree.isDir env.cwd (entryIn (rootOr root_dir) pkgname) = false)) ∨
    (pkgname ≠ [] ∧ s.tree.isDir env.cwd (entryIn (rootOr root_dir) pkgname) = true ∧
      uninstall cwd (contentsFiles s.tree cwd) pkgname (runDouninst hook env cwd pkgname s).tree =
        some q.1.tree ∧
      q.1.log = (runDouninst hook env cwd pkgname s).log ++
        [.uninstall (runDouninst hook env cwd pkgname s).tree cwd pkgname] ∧
      q.2 = Tree.rmStatus (path pkgdb pkgname)) := by
  subst hcwd
  rw [removepkg] at h
  split at h
  · rw [← Option.some.inj h]
    exact .inl ⟨rfl, by simp, .inl ‹_›⟩
  · split at h
    · rw [← Option.some.inj h]
      exact .inl ⟨rfl, by simp, .inr ‹_›⟩
    · obtain ⟨t, ht, rfl⟩ := Option.map_eq_some_iff.mp h
      exact .inr ⟨‹_›, by simpa using ‹¬ s.tree.isDir _ _ = false›, ht, rfl, rfl⟩

theorem runDouninst_cases (hook : Hook) (env : Env) (cwd : Loc) (pkgname : Str) (s : Sys) :
    runDouninst hook env cwd pkgname s = s ∨ ∃ cmd,
      s.tree.isExec cwd (path (path pkgdb pkgname) douninstName) = true ∧
      env.do_upgradepkg = false ∧
      runDouninst hook env cwd pkgname s =
        (s.emit (.douninst cmd)).onTree fun t => hook env cwd ((t.text cwd cmd).getD []) t := by
  rw [runDouninst]
  split
  · rename_i hx
    rw [Bool.and_eq_true, Bool.not_eq_true'] at hx
    split
    · exact .inl rfl
    · split
      · exact .inr ⟨_, hx.1, hx.2, rfl⟩
      · exact .inl rfl
  · exact .inl rfl

end Fidelix.Pkgtools
