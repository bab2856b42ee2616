import Fidelix.Files.Utilities

namespace Fidelix.Pkgtools

open Text Files

inductive Copy
  | base
  | bootstrap
  deriving DecidableEq

structure Env where
  cwd : Loc
  do_upgradepkg : Bool
  new_file_action : Str

abbrev Hook := Env → Loc → List Str → Tree → Tree

def noHook : Hook := fun _ _ _ t => t

/-- What the scripts do, in order. The tree is the one the action starts from, and
`cmd` is the hook script that is run. -/
inductive Event
  | extract (before : Tree) (root : Loc) (pkgname : Str) (members : List (Str × Node))
      (listed : List Str)
  | doinst (cmd : Str)
  | douninst (cmd : Str)
  | setAside (before : Tree) (root : Loc) (pkgname : Str)
  | uninstall (before : Tree) (root : Loc) (pkgname : Str)

structure Sys where
  tree : Tree
  log : List Event

def Sys.emit (s : Sys) (e : Event) : Sys := { s with log := s.log ++ [e] }

def Sys.onTree (s : Sys) (f : Tree → Tree) : Sys := { s with tree := f s.tree }

/-- A run that ends, with its exit status; `none` is a run that never ends. -/
abbrev Run := Option (Sys × Nat)

def varName : Str := ['v', 'a', 'r']
def pkgdbName : Str := ['p', 'k', 'g', 'd', 'b']
def contentsName : Str := ['c', 'o', 'n', 't', 'e', 'n', 't', 's']
def doinstName : Str := ['d', 'o', 'i', 'n', 's', 't', '.', 's', 'h']
def douninstName : Str := ['d', 'o', 'u', 'n', 'i', 'n', 's', 't', '.', 's', 'h']
def oldpkgSuffix : Str := ['@', 'o', 'l', 'd', 'p', 'k', 'g']

/-- `dir/name`. -/
def path (dir name : Str) : Str := dir ++ '/' :: name

/-- `var/pkgdb`, as `removepkg` names it once it is in the root directory. -/
def pkgdb : Str := path varName pkgdbName

def pkgdbIn (root_dir : Str) : Str := path root_dir pkgdb

def entryIn (root_dir pkgname : Str) : Str := path (pkgdbIn root_dir) pkgname

def pkgdbLoc (r : Loc) : Loc := pkgdbName :: varName :: r

def entryLoc (r : Loc) (pkgname : Str) : Loc := pkgname :: pkgdbLoc r

def contentsLoc (r : Loc) (pkgname : Str) : Loc := contentsName :: entryLoc r pkgname

/-- The root directory is `/` where none is given. -/
def rootOr (root_dir : Str) : Str := if root_dir = [] then ['/'] else root_dir

theorem rootOr_rootOr (root_dir : Str) : rootOr (rootOr root_dir) = rootOr root_dir := by
  by_cases h : root_dir = []
  · simp [rootOr, h]
  · simp [rootOr, h]

def echo (t : Tree) (cwd : Loc) (s : Str) : Str := unwords (expand t cwd s)

/-- `echo $pkgfile | rev | cut -d . -f 2- | cut -d / -f 1 | rev`. -/
def pkgnameOf (echoed : Str) : Str := rev (cutField '/' 1 (cutFrom '.' 2 (rev echoed)))

theorem slash_not_mem_pkgnameOf (echoed : Str) : '/' ∉ pkgnameOf echoed := by
  rw [pkgnameOf, rev, List.mem_reverse]
  exact not_mem_cutField_one '/' _

/-- `echo $pkgfile | rev | cut -d . -f 1 | rev`. -/
def extensionOf (echoed : Str) : Str := rev (cutField '.' 1 (rev echoed))

/-- `echo $pkgfile | rev | cut -d - -f 5- | cut -d / -f 1 | rev`. -/
def nameOfFile (echoed : Str) : Str := rev (cutField '/' 1 (cutFrom '-' 5 (rev echoed)))

/-- `echo $pkg | rev | cut -d - -f 5- | rev`. -/
def nameOfEntry (echoed : Str) : Str := rev (cutFrom '-' 5 (rev echoed))

end Fidelix.Pkgtools
