import Fidelix.Pkgtools.Commands

namespace Fidelix.Pkgtools

open Text Files

def Agree : Option (Sys × List Nat) → Option (Sys × List Nat) → Prop
  | none, none => True
  | some r, some q => r.1.tree.Same q.1.tree ∧ r.2 = q.2
  | _, _ => False

/-- Both copies store the metadata under the name that `installpkg` derives. -/
def StoredAsInstalled (env : Env) (s : Sys) : Command → Prop
  | .makepkg o _ =>
      o.output_file ≠ [] → extensionOf (echo s.tree env.cwd o.output_file) ∈ archiveExtensions →
      ∀ copy, metadataName copy (echo s.tree env.cwd o.output_file) =
        pkgnameOf (echo s.tree env.cwd o.output_file)
  | _ => True

def Alike (hook : Hook) (cs : List (Env × Command)) (s : Sys) : Prop :=
  Agree (runAll .base hook cs s) (runAll .bootstrap hook cs s) ∧
    Along .base hook StoredAsInstalled cs s

/-- Whether an install in an upgrade unpacks a `doinst.sh` that can be run. -/
def doinstInUpgrade (env : Env) (o : Options) (pkgfile : Str) (s : Sys) : Bool :=
  match accepted env o pkgfile s with
  | .error _ => false
  | .ok u =>
      let pkgname := pkgnameOf (echo s.tree env.cwd pkgfile)
      let root_dir := rootOr o.root_dir
      env.do_upgradepkg && (unpack env.cwd pkgfile root_dir pkgname u.tree).isExec env.cwd
        (path (entryIn root_dir pkgname) doinstName)

def Shared (env : Env) (s : Sys) : Command → Prop
  | .makepkg o _ => o.output_file = [] ∨ '/' ∉ echo s.tree env.cwd o.output_file ∨
      extensionOf (echo s.tree env.cwd o.output_file) ∉ archiveExtensions
  | .installpkg o pkgfile => doinstInUpgrade env o pkgfile s = false
  | .upgradepkg o pkgfile => match foundInstalled env o pkgfile s with
      | none => True
      | some false => doinstInUpgrade env
          { o with root_dir := rootOr o.root_dir, do_reinstall := false } pkgfile s = false
      | some true => doinstInUpgrade { env with do_upgradepkg := true }
          { o with root_dir := rootOr o.root_dir } pkgfile s = false
  | .removepkg _ _ => True
  | .pkgtool _ _ => True

theorem metadataName_of_no_slash {e : Str} (h : '/' ∉ e) (copy : Copy) :
    metadataName copy e = pkgnameOf e := by
  have hc : '/' ∉ cutFrom '.' 2 (rev e) := fun hm => h (by simpa [rev] using mem_cutFrom hm)
  cases copy with
  | base => rfl
  | bootstrap => rw [metadataName, pkgnameOf, cutField_of_not_mem _ _ _ hc]

theorem runDoinst_shared (hook : Hook) (env : Env) (root_dir pkgname : Str) (s : Sys)
    (h : (env.do_upgradepkg && s.tree.isExec env.cwd (path (entryIn root_dir pkgname) doinstName)) =
      false) :
    runDoinst .base hook env root_dir pkgname s =
      runDoinst .bootstrap hook env root_dir pkgname s := by
  rw [runDoinst, runDoinst]
  rw [Bool.and_eq_false_iff] at h
  rcases h with h | h <;> simp [h]

theorem installpkg_shared (hook : Hook) (env : Env) (o : Options) (pkgfile : Str) (s : Sys)
    (h : doinstInUpgrade env o pkgfile s = false) :
    installpkg .base hook env o pkgfile s = installpkg .bootstrap hook env o pkgfile s := by
  rw [installpkg_accepted, installpkg_accepted]
  rw [doinstInUpgrade] at h
  cases ha : accepted env o pkgfile s with
  | error k => rfl
  | ok u =>
      simp only [ha] at h
      have hr :=
        runDoinst_shared hook env (rootOr o.root_dir) (pkgnameOf (echo s.tree env.cwd pkgfile))
        (extracted env (rootOr o.root_dir) pkgfile (pkgnameOf (echo s.tree env.cwd pkgfile)) u) h
      simp only [install, hr]

theorem upgradepkg_shared (hook : Hook) (env : Env) (o : Options) (pkgfile : Str) (s : Sys)
    (h : Shared env s (.upgradepkg o pkgfile)) :
    upgradepkg .base hook env o pkgfile s = upgradepkg .bootstrap hook env o pkgfile s := by
  rw [upgradepkg_found, upgradepkg_found]
  rw [Shared] at h
  cases hf : foundInstalled env o pkgfile s with
  | none => rfl
  | some b =>
      rw [hf] at h
      cases b with
      | false => simp only [installpkg_shared hook env _ pkgfile s h]
      | true => simp only [installpkg_shared hook _ _ pkgfile s h]

theorem makepkg_shared (env : Env) (o : MakeOptions) (date : List Str) (s : Sys)
    (h : Shared env s (.makepkg o date)) :
    makepkg .base env o date s.tree = makepkg .bootstrap env o date s.tree := by
  rw [makepkg, makepkg]
  rcases h with h | h | h
  · rw [if_pos h, if_pos h]
  · rw [metadataName_of_no_slash h, metadataName_of_no_slash h]
  · simp [h]

theorem run_shared (hook : Hook) (env : Env) (s : Sys) (c : Command) (h : Shared env s c) :
    c.run .base hook env s = c.run .bootstrap hook env s ∧ StoredAsInstalled env s c := by
  cases c with
  | makepkg o date =>
      refine ⟨by simp only [Command.run, makepkg_shared env o date s h], fun h1 h2 copy => ?_⟩
      rcases h with h | h | h
      · exact absurd h h1
      · exact metadataName_of_no_slash h copy
      · exact absurd h2 h
  | installpkg o pkgfile => exact ⟨installpkg_shared hook env o pkgfile s h, trivial⟩
  | upgradepkg o pkgfile => exact ⟨upgradepkg_shared hook env o pkgfile s h, trivial⟩
  | removepkg root_dir pkgname => exact ⟨rfl, trivial⟩
  | pkgtool sub args => exact ⟨rfl, trivial⟩

theorem runAll_shared (hook : Hook) (cs : List (Env × Command)) (s : Sys)
    (h : Along .base hook Shared cs s) :
    runAll .base hook cs s = runAll .bootstrap hook cs s := by
  induction cs generalizing s with
  | nil => rfl
  | cons c cs ih =>
      obtain ⟨h1, h2⟩ := h
      rw [runAll, runAll, ← (run_shared hook c.1 s c.2 h1).1]
      cases hr : c.2.run .base hook c.1 s with
      | none => rfl
      | some r => rw [Option.bind_some, Option.bind_some, ih r.1 (h2 r hr)]

/-- The copies behave alike where no step makes a package into a directory named in
its output path and no upgrade unpacks a `doinst.sh` that can be run. -/
theorem copies_alike (hook : Hook) (cs : List (Env × Command)) (s : Sys)
    (h : Along .base hook Shared cs s) :
    Alike hook cs s := by
  refine ⟨?_, ?_⟩
  · rw [← runAll_shared hook cs s h]
    cases runAll .base hook cs s with
    | none => exact trivial
    | some r => exact ⟨fun _ => rfl, rfl⟩
  · exact h.mono fun c _ u hu => (run_shared hook c.1 u c.2 hu).2

theorem not_agree {x y : Option (Sys × List Nat)} (p : Loc)
    (h : (x.map fun r => (r.1.tree.node p).isSome) ≠ y.map fun r => (r.1.tree.node p).isSome) :
    ¬ Agree x y := by
  intro ha
  apply h
  cases x with
  | none => cases y with
    | none => rfl
    | some q => exact ha.elim
  | some r => cases y with
    | none => exact ha.elim
    | some q => simp [ha.1 p]

def rootEnv : Env := ⟨[], false, []⟩

def buildTree : Tree :=
  Tree.ofList [([['p']], .dir), ([['o']], .dir), ([['u'], ['p']], .file false [])]

def buildInto (output : Str) : Command := .makepkg ⟨['/', 'p'], [], output⟩ [['n', 'o', 'w']]

def touchHook : Hook := fun _ _ _ t => (t.put [['m']] (.file false [])).getD t

theorem copies_alike_build :
    Alike touchHook [(rootEnv, buildInto ['b', '.', 't', 'g', 'z']),
      (rootEnv, .installpkg ⟨['/', 'o'], false, false⟩ ['b', '.', 't', 'g', 'z'])]
        ⟨buildTree, []⟩ := by
  apply copies_alike
  refine ⟨.inr (.inl (by decide)), fun r _ => ⟨?_, fun _ _ => trivial⟩⟩
  rw [Shared, doinstInUpgrade]
  split <;> rfl

/-- An entry of version 1, and the archive of version 2 with a `doinst.sh`. -/
def upgradeTree : Tree :=
  let new := ['a', '-', '2', '-', 'x', '-', 'f', '-', '1']
  Tree.ofList [([varName], .dir), (pkgdbLoc [], .dir),
    (entryLoc [] ['a', '-', '1', '-', 'x', '-', 'f', '-', '1'], .dir),
    ([new ++ ['.', 't', 'g', 'z']],
      .archive [(here (path (path pkgdb new) doinstName), .file true [])] true)]

def upgradeTo2 : Command :=
  .upgradepkg ⟨[], false, false⟩ ['a', '-', '2', '-', 'x', '-', 'f', '-', '1', '.', 't', 'g', 'z']

theorem copies_differ :
    ¬ Alike noHook [(rootEnv, buildInto ['/', 'o', '/', 'b', '.', 't', 'g', 'z'])] ⟨buildTree, []⟩ ∧
    ¬ Alike touchHook [(rootEnv, upgradeTo2)] ⟨upgradeTree, []⟩ := by
  constructor
  · intro h
    exact not_agree [['b'], pkgdbName, varName, ['p']] (by decide) h.1
  · intro h
    exact not_agree [['m']] (by decide) h.1

end Fidelix.Pkgtools
