import Fidelix.Pkgtools.Removepkg

namespace Fidelix.Pkgtools

open Text Files

structure Options where
  root_dir : Str
  do_reinstall : Bool
  do_install : Bool

def packageExtensions : List Str := [['t', 'b', 'z'], ['t', 'x', 'z'], ['t', 'g', 'z']]

/-- `sed -e 's@^\./@/@g'`. -/
def stripDot : Str → Str
  | '.' :: '/' :: s => '/' :: s
  | s => s

/-- A replacement text of `sed`, with the text it replaces for each `&`. -/
def replacement (found : Str) : Str → Str
  | [] => []
  | '\\' :: c :: s => c :: replacement found s
  | '&' :: s => found ++ replacement found s
  | c :: s => c :: replacement found s

/-- `s#^/var/pkgdb/$pkgname#^/var/pkgdb/$pkgname@oldpkg#g` on one line. -/
def renameLine (pkgname line : Str) : Str :=
  match longest ('^' :: '/' :: path pkgdb pkgname) line with
  | none => line
  | some rest =>
      let found := line.take (line.length - rest.length)
      replacement found ('^' :: '/' :: path pkgdb (pkgname ++ oldpkgSuffix)) ++ rest

/-- `sed -i` with that command, which puts a new file in the place of the old one;
a `#` in the name makes it a command that `sed` refuses. -/
def renameLines (t : Tree) (cwd : Loc) (file pkgname : Str) : Tree :=
  match t.text cwd file with
  | none => t
  | some ls =>
      if '#' ∈ pkgname then t
      else ((t.place cwd file).bind fun p =>
        t.put p (.file (t.isExec cwd file) (ls.map (renameLine pkgname)))).getD t

/-- What `tar tf` lists once the archive has been extracted. -/
def listed (cwd : Loc) (pkgfile root_dir : Str) (t : Tree) : List Str :=
  (t.tarExtract cwd pkgfile root_dir).1.tarList cwd pkgfile

/-- `tar xf`, then the list of the members as the contents of the entry. -/
def unpack (cwd : Loc) (pkgfile root_dir pkgname : Str) (t : Tree) : Tree :=
  let u := (t.tarExtract cwd pkgfile root_dir).1
  (u.write cwd (path (entryIn root_dir pkgname) contentsName)
    ((listed cwd pkgfile root_dir t).map stripDot)).getD u

/-- The call of `doinst.sh`; the bootstrap copy leaves it out in an upgrade. -/
def runDoinst (copy : Copy) (hook : Hook) (env : Env) (root_dir pkgname : Str) (s : Sys) : Sys :=
  let r := (s.tree.stat env.cwd root_dir).getD env.cwd
  if s.tree.isExec env.cwd (path (entryIn root_dir pkgname) doinstName)
      && !(copy == .bootstrap && env.do_upgradepkg) then
    match expand s.tree r (here (path (path pkgdb pkgname) doinstName)) with
    | [] => s
    | cmd :: _ =>
        if s.tree.isExec r cmd then
          (s.emit (.doinst cmd)).onTree fun t => hook env r ((t.text r cmd).getD []) t
        else s
  else s

def renamed (env : Env) (root_dir pkgname : Str) (s : Sys) : Sys :=
  s.onTree fun t =>
    renameLines t env.cwd (path (entryIn root_dir (pkgname ++ oldpkgSuffix)) contentsName) pkgname

/-- The removal of the entry that was set aside; `removepkg` gets no `-d` here. -/
def cleanOldpkg (hook : Hook) (env : Env) (root_dir pkgname : Str) (s : Sys) : Run :=
  let old := pkgname ++ oldpkgSuffix
  if s.tree.isDir env.cwd (entryIn root_dir old) then
    removepkg hook env [] old (renamed env root_dir pkgname s)
  else some (s, 0)

def extracted (env : Env) (root_dir pkgfile pkgname : Str) (s : Sys) : Sys :=
  let r := (s.tree.stat env.cwd root_dir).getD env.cwd
  (s.emit (.extract s.tree r pkgname (s.tree.readArchive env.cwd pkgfile).1
    (listed env.cwd pkgfile root_dir s.tree))).onTree (unpack env.cwd pkgfile root_dir pkgname)

def install (copy : Copy) (hook : Hook) (env : Env) (root_dir pkgfile pkgname : Str) (s : Sys) :
    Run :=
  cleanOldpkg hook env root_dir pkgname
    (runDoinst copy hook env root_dir pkgname (extracted env root_dir pkgfile pkgname s))

/-- `mv` of the entry to its name with `@oldpkg`. -/
def setAside (env : Env) (root_dir pkgname : Str) (s : Sys) : Sys :=
  let r := (s.tree.stat env.cwd root_dir).getD env.cwd
  (s.emit (.setAside s.tree r pkgname)).onTree fun t =>
    (t.mv env.cwd (entryIn root_dir pkgname) (entryIn root_dir (pkgname ++ oldpkgSuffix))).getD t

/-- `installpkg`. What it prints, the `README.install` among it, is left out. -/
def installpkg (copy : Copy) (hook : Hook) (env : Env) (o : Options) (pkgfile : Str) (s : Sys) :
    Run :=
  if pkgfile = [] then some (s, 1)
  else if s.tree.isFile env.cwd pkgfile = false then some (s, 1)
  else
    let pkgname := pkgnameOf (echo s.tree env.cwd pkgfile)
    let root_dir := rootOr o.root_dir
    if extensionOf (echo s.tree env.cwd pkgfile) ∉ packageExtensions then some (s, 1)
    else if s.tree.isDir env.cwd (entryIn root_dir pkgname) then
      if o.do_reinstall then
        install copy hook env root_dir pkgfile pkgname (setAside env root_dir pkgname s)
      else some (s, 2)
    else install copy hook env root_dir pkgfile pkgname s

/-- Where `installpkg` starts to unpack, or the status it is refused with. -/
def accepted (env : Env) (o : Options) (pkgfile : Str) (s : Sys) : Except Nat Sys :=
  let pkgname := pkgnameOf (echo s.tree env.cwd pkgfile)
  if pkgfile = [] ∨ s.tree.isFile env.cwd pkgfile = false
      ∨ extensionOf (echo s.tree env.cwd pkgfile) ∉ packageExtensions then .error 1
  else if s.tree.isDir env.cwd (entryIn (rootOr o.root_dir) pkgname) then
    if o.do_reinstall then .ok (setAside env (rootOr o.root_dir) pkgname s) else .error 2
  else .ok s

theorem installpkg_accepted (copy : Copy) (hook : Hook) (env : Env) (o : Options) (pkgfile : Str)
    (s : Sys) :
    installpkg copy hook env o pkgfile s = match accepted env o pkgfile s with
      | .error k => some (s, k)
      | .ok u =>
        install copy hook env (rootOr o.root_dir) pkgfile
        (pkgnameOf (echo s.tree env.cwd pkgfile)) u := by
  rw [installpkg, accepted]
  by_cases h1 : pkgfile = []
  · simp [h1]
  by_cases h2 : s.tree.isFile env.cwd pkgfile = false
  · simp [h1, h2]
  by_cases h3 : extensionOf (echo s.tree env.cwd pkgfile) ∉ packageExtensions
  · simp [h1, h2, h3]
  by_cases hd :
    s.tree.isDir env.cwd (entryIn (rootOr o.root_dir) (pkgnameOf (echo s.tree env.cwd pkgfile))) =
    true
  · by_cases hr : o.do_reinstall = true
    · simp [h1, h2, h3, hd, hr]
    · simp [h1, h2, h3, hd, hr]
  · simp [h1, h2, h3, hd]

theorem accepted_error {env : Env} {o : Options} {pkgfile : Str} {s : Sys} {k : Nat}
    (h : accepted env o pkgfile s = .error k) : k ≠ 0 := by
  rw [accepted] at h
  split at h
  · rw [← Except.error.inj h]
    simp
  · split at h
    · split at h
      · simp at h
      · rw [← Except.error.inj h]
        simp
    · simp at h

theorem accepted_ok {env : Env} {o : Options} {pkgfile : Str} {s u : Sys}
    (h : accepted env o pkgfile s = .ok u) :
    u = s ∨ o.do_reinstall = true ∧
      s.tree.isDir env.cwd (entryIn (rootOr o.root_dir) (pkgnameOf (echo s.tree env.cwd pkgfile))) =
        true ∧
      u = setAside env (rootOr o.root_dir) (pkgnameOf (echo s.tree env.cwd pkgfile)) s := by
  rw [accepted] at h
  split at h
  · simp at h
  · split at h
    · rename_i hd
      split at h
      · rename_i hr
        exact .inr ⟨hr, hd, (Except.ok.inj h).symm⟩
      · simp at h
    · exact .inl (Except.ok.inj h).symm

theorem renamed_log (env : Env) (root_dir pkgname : Str) (s : Sys) :
    (renamed env root_dir pkgname s).log = s.log := rfl

end Fidelix.Pkgtools
