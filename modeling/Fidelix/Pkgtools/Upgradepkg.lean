import Fidelix.Pkgtools.Installpkg

namespace Fidelix.Pkgtools

open Text Files

/-- `for pkg in $(ls "$root_dir/var/pkgdb")`. -/
def listedEntries (t : Tree) (cwd : Loc) (root_dir : Str) : List Str :=
  (t.ls cwd (pkgdbIn root_dir)).flatMap (expand t cwd)

def isInstalled (t : Tree) (cwd : Loc) (root_dir name : Str) : Bool :=
  (listedEntries t cwd root_dir).any fun pkg => nameOfEntry (echo t cwd pkg) == name

def oldVersions (t : Tree) (cwd : Loc) (root_dir name pkgname : Str) : List Str :=
  (listedEntries t cwd root_dir).filter fun pkg =>
    nameOfEntry (echo t cwd pkg) == name && pkg != pkgname

/-- `for pkg in $old_versions`. -/
def removeOldVersions (hook : Hook) (env : Env) (root_dir : Str) : List Str → Sys → Run
  | [], s => some (s, 0)
  | pkg :: pkgs, s => (removepkg hook env root_dir pkg s).bind fun r =>
      if r.2 = 0 then removeOldVersions hook env root_dir pkgs r.1 else some (r.1, 1)

def upgradepkg (copy : Copy) (hook : Hook) (env : Env) (o : Options) (pkgfile : Str) (s : Sys) :
    Run :=
  if pkgfile = [] then some (s, 1)
  else if s.tree.isFile env.cwd pkgfile = false then some (s, 1)
  else
    let name := nameOfFile (echo s.tree env.cwd pkgfile)
    let pkgname := pkgnameOf (echo s.tree env.cwd pkgfile)
    let root_dir := rootOr o.root_dir
    let old := oldVersions s.tree env.cwd root_dir name pkgname
    if isInstalled s.tree env.cwd root_dir name = false then
      if o.do_install then
        installpkg copy hook env { o with root_dir := root_dir, do_reinstall := false } pkgfile s
      else some (s, 1)
    else
      let env := { env with do_upgradepkg := true }
      (installpkg copy hook env { o with root_dir := root_dir } pkgfile s).bind fun r =>
        if r.2 = 0 then
          removeOldVersions hook env root_dir (old.flatMap (expand r.1.tree env.cwd)) r.1
        else some (r.1, 1)

/-- The entries that `upgradepkg` would remove after the install. -/
def replaced (env : Env) (o : Options) (pkgfile : Str) (s : Sys) : List Str :=
  oldVersions s.tree env.cwd (rootOr o.root_dir) (nameOfFile (echo s.tree env.cwd pkgfile))
    (pkgnameOf (echo s.tree env.cwd pkgfile))

/-- Whether `upgradepkg` finds the package file, and then a version of the package. -/
def foundInstalled (env : Env) (o : Options) (pkgfile : Str) (s : Sys) : Option Bool :=
  if pkgfile = [] ∨ s.tree.isFile env.cwd pkgfile = false then none
  else some (isInstalled s.tree env.cwd (rootOr o.root_dir)
    (nameOfFile (echo s.tree env.cwd pkgfile)))

theorem upgradepkg_found (copy : Copy) (hook : Hook) (env : Env) (o : Options) (pkgfile : Str)
    (s : Sys) :
    upgradepkg copy hook env o pkgfile s = match foundInstalled env o pkgfile s with
      | none => some (s, 1)
      | some false =>
          if o.do_install then
            installpkg copy hook env
              { o with root_dir := rootOr o.root_dir, do_reinstall := false } pkgfile s
          else some (s, 1)
      | some true =>
          (installpkg copy hook { env with do_upgradepkg := true }
            { o with root_dir := rootOr o.root_dir }
            pkgfile s).bind fun r =>
            if r.2 = 0 then
              removeOldVersions hook { env with do_upgradepkg := true } (rootOr o.root_dir)
                ((replaced env o pkgfile s).flatMap (expand r.1.tree env.cwd)) r.1
            else some (r.1, 1) := by
  rw [upgradepkg, foundInstalled]
  by_cases h1 : pkgfile = []
  · simp [h1]
  by_cases h2 : s.tree.isFile env.cwd pkgfile = false
  · simp [h1, h2]
  simp only [h1, h2, if_false]
  cases isInstalled s.tree env.cwd (rootOr o.root_dir)
    (nameOfFile (echo s.tree env.cwd pkgfile)) <;> rfl

/-- Where `upgradepkg` starts to unpack, unless it is refused. -/
def upgradeStart (env : Env) (o : Options) (pkgfile : Str) (s : Sys) : Option Sys :=
  match foundInstalled env o pkgfile s with
  | none => none
  | some false =>
      if o.do_install then
        (accepted env { o with root_dir := rootOr o.root_dir, do_reinstall := false }
          pkgfile s).toOption
      else none
  | some true =>
      (accepted { env with do_upgradepkg := true } { o with root_dir := rootOr o.root_dir }
        pkgfile s).toOption

def removedAfter (env : Env) (o : Options) (pkgfile : Str) (s : Sys) (t : Tree) : List Str :=
  if foundInstalled env o pkgfile s = some true
    then (replaced env o pkgfile s).flatMap (expand t env.cwd) else []

theorem upgradepkg_cases {copy : Copy} {hook : Hook} {env : Env} {o : Options} {pkgfile : Str}
    {s : Sys} {q : Sys × Nat} (h : upgradepkg copy hook env o pkgfile s = some q) :
    (upgradeStart env o pkgfile s = none ∧ q.1 = s ∧ q.2 ≠ 0) ∨
    ∃ u up p, upgradeStart env o pkgfile s = some u ∧
      install copy hook { env with do_upgradepkg := up } (rootOr o.root_dir) pkgfile
        (pkgnameOf (echo s.tree env.cwd pkgfile)) u = some p ∧
      (p.2 ≠ 0 ∧ q.1 = p.1 ∧ q.2 ≠ 0 ∨
        p.2 = 0 ∧ removeOldVersions hook { env with do_upgradepkg := up } (rootOr o.root_dir)
          (removedAfter env o pkgfile s p.1.tree) p.1 = some q) := by
  rw [upgradepkg_found] at h
  rw [upgradeStart]
  cases hf : foundInstalled env o pkgfile s with
  | none =>
      rw [hf] at h
      rw [← Option.some.inj h]
      exact .inl ⟨rfl, rfl, by simp⟩
  | some b =>
      rw [hf] at h
      cases b with
      | false =>
          simp only at h ⊢
          split at h
          · rename_i hi
            rw [if_pos hi]
            rw [installpkg_accepted, rootOr_rootOr] at h
            cases ha : accepted env { o with root_dir := rootOr o.root_dir, do_reinstall := false }
              pkgfile s with
            | error k =>
                rw [ha] at h
                rw [← Option.some.inj h]
                exact .inl ⟨rfl, rfl, accepted_error ha⟩
            | ok u =>
                rw [ha] at h
                refine .inr ⟨u, env.do_upgradepkg, q, rfl, h, ?_⟩
                by_cases hq : q.2 = 0
                · refine .inr ⟨hq, ?_⟩
                  rw [removedAfter, hf, if_neg (by simp), removeOldVersions, ← hq]
                · exact .inl ⟨hq, rfl, hq⟩
          · rename_i hi
            rw [if_neg hi]
            rw [← Option.some.inj h]
            exact .inl ⟨rfl, rfl, by simp⟩
      | true =>
          simp only at h ⊢
          obtain ⟨p, hp, h⟩ := Option.bind_eq_some_iff.mp h
          rw [installpkg_accepted, rootOr_rootOr] at hp
          cases ha :
            accepted { env with do_upgradepkg := true } { o with root_dir := rootOr o.root_dir }
            pkgfile s with
          | error k =>
              rw [ha] at hp
              rw [← Option.some.inj hp, if_neg (accepted_error ha)] at h
              rw [← Option.some.inj h]
              exact .inl ⟨rfl, rfl, by simp⟩
          | ok u =>
              rw [ha] at hp
              refine .inr ⟨u, true, p, rfl, hp, ?_⟩
              split at h
              · rename_i h0
                refine .inr ⟨h0, ?_⟩
                rw [removedAfter, hf, if_pos rfl]
                exact h
              · rename_i h0
                rw [← Option.some.inj h]
                exact .inl ⟨h0, rfl, by simp⟩

theorem upgradeStart_ok {env : Env} {o : Options} {pkgfile : Str} {s u : Sys}
    (h : upgradeStart env o pkgfile s = some u) : u = s ∨ o.do_reinstall = true ∧
      s.tree.isDir env.cwd (entryIn (rootOr o.root_dir) (pkgnameOf (echo s.tree env.cwd pkgfile))) =
        true ∧
      u = setAside env (rootOr o.root_dir) (pkgnameOf (echo s.tree env.cwd pkgfile)) s := by
  have hok (env' : Env) (o' : Options) (he : env'.cwd = env.cwd)
    (ho : o'.root_dir = rootOr o.root_dir)
      (hr : o'.do_reinstall = true → o.do_reinstall = true)
      (ha : (accepted env' o' pkgfile s).toOption = some u) : u = s ∨ o.do_reinstall = true ∧
        s.tree.isDir env.cwd (entryIn (rootOr o.root_dir)
          (pkgnameOf (echo s.tree env.cwd pkgfile))) = true ∧
        u = setAside env (rootOr o.root_dir) (pkgnameOf (echo s.tree env.cwd pkgfile)) s := by
    cases ha' : accepted env' o' pkgfile s with
    | error k => simp [ha', Except.toOption] at ha
    | ok v =>
        obtain rfl : v = u := by simpa [ha', Except.toOption] using ha
        rcases accepted_ok ha' with h | ⟨h1, h2, h3⟩
        · exact .inl h
        · rw [he, ho, rootOr_rootOr] at h2
          rw [setAside, he, ho, rootOr_rootOr] at h3
          exact .inr ⟨hr h1, h2, h3⟩
  rw [upgradeStart] at h
  split at h
  · simp at h
  · split at h
    · exact hok env _ rfl rfl (by simp) h
    · simp at h
  · exact hok { env with do_upgradepkg := true }
      { o with root_dir := rootOr o.root_dir } rfl rfl id h

end Fidelix.Pkgtools
