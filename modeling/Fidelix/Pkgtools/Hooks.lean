import Fidelix.Pkgtools.Commands
import Fidelix.Pkgtools.Steps

namespace Fidelix.Pkgtools

open Text Files

def Event.isHook : Event → Bool
  | .doinst _ | .douninst _ => true
  | _ => false

def Event.isExtract : Event → Bool
  | .extract _ _ _ _ _ => true
  | _ => false

def Calm (evs : List Event) : Prop := ∀ e ∈ evs, e.isHook = false ∧ e.isExtract = false

theorem calm_nil : Calm [] := nofun

theorem Calm.append {a b : List Event} (ha : Calm a) (hb : Calm b) : Calm (a ++ b) := by
  intro e he
  rcases List.mem_append.mp he with h | h
  · exact ha e h
  · exact hb e h

/-- Whether the package has a `doinst.sh` that can be run, once it is unpacked. -/
def ready (env : Env) (root_dir pkgfile pkgname : Str) (t : Tree) : Bool :=
  (unpack env.cwd pkgfile root_dir pkgname t).isExec env.cwd
    (path (entryIn root_dir pkgname) doinstName)

def ownScript (pkgname name : Str) : Str := here (path (path pkgdb pkgname) name)

/-- At most one extraction, with `doinst.sh` right after it, and no other hook. -/
def InstallOrder (env : Env) (root_dir pkgfile pkgname : Str) (evs : List Event) : Prop :=
  evs = [] ∨ ∃ pre b r ms ls post, Calm pre ∧ Calm post ∧ evs = pre ++ .extract b r pkgname ms ls ::
    ((if ready env root_dir pkgfile pkgname b then [.doinst (ownScript pkgname doinstName)]
      else []) ++ post)

/-- What a command may do: a removal runs `douninst.sh` once before it removes the
package, and no other command runs it. -/
def Orderly (env : Env) (t : Tree) (evs : List Event) : Command → Prop
  | .removepkg _ pkgname => evs = [] ∨ ∃ b r, evs =
      (if t.isExec [] (path (path pkgdb pkgname) douninstName)
        then [.douninst (ownScript pkgname douninstName)]
        else []) ++ [.uninstall b r pkgname]
  | .installpkg o pkgfile | .upgradepkg o pkgfile =>
      InstallOrder env (rootOr o.root_dir) pkgfile (pkgnameOf (echo t env.cwd pkgfile)) evs
  | .makepkg _ _ | .pkgtool _ _ => evs = []

/-- A command on the root `/` by a user who has not set `do_upgradepkg`. -/
def Direct (env : Env) : Command → Prop
  | .removepkg root_dir _ => env.do_upgradepkg = false ∧ rootOr root_dir = ['/']
  | .installpkg o _ | .upgradepkg o _ => env.do_upgradepkg = false ∧ rootOr o.root_dir = ['/']
  | .makepkg _ _ | .pkgtool _ _ => True

/-- The condition on an install: the name of a package with a `doinst.sh` is one
word, and outside an upgrade an entry that was set aside has no `douninst.sh` that
can be run when its removal starts. -/
def Quiet (hook : Hook) (env : Env) (o : Options) (pkgfile : Str) (s : Sys) : Prop :=
  match accepted env o pkgfile s with
  | .error _ => True
  | .ok u =>
      let pkgname := pkgnameOf (echo s.tree env.cwd pkgfile)
      let root_dir := rootOr o.root_dir
      let v := runDoinst .base hook env root_dir pkgname (extracted env root_dir pkgfile pkgname u)
      (ready env root_dir pkgfile pkgname u.tree = true → OneWord pkgname) ∧
      (env.do_upgradepkg = false →
        v.tree.isDir env.cwd (entryIn root_dir (pkgname ++ oldpkgSuffix)) = true →
        (renamed env root_dir pkgname v).tree.isExec []
          (path (path pkgdb (pkgname ++ oldpkgSuffix)) douninstName) = false)

def QuietStep (hook : Hook) (env : Env) (s : Sys) : Command → Prop
  | .installpkg o pkgfile => Quiet hook env o pkgfile s
  | .upgradepkg o pkgfile => match foundInstalled env o pkgfile s with
      | none => True
      | some false =>
        Quiet hook env { o with root_dir := rootOr o.root_dir, do_reinstall := false } pkgfile s
      | some true =>
          Quiet hook { env with do_upgradepkg := true }
          { o with root_dir := rootOr o.root_dir } pkgfile s
  | .removepkg _ pkgname => s.tree.isExec [] (path (path pkgdb pkgname) douninstName) = true →
        OneWord pkgname
  | .makepkg _ _ | .pkgtool _ _ => True

theorem ownScript_oneWord {pkgname name : Str} (h : OneWord pkgname) (hn : OneWord name) :
    OneWord (ownScript pkgname name) :=
  oneWord_path (a := dot) (by decide) (oneWord_path (oneWord_path (by decide) h) hn)

theorem runDouninst_log (hook : Hook) (env : Env) (pkgname : Str) (s : Sys)
    (hw : s.tree.isExec [] (path (path pkgdb pkgname) douninstName) = true → OneWord pkgname) :
    (runDouninst hook env [] pkgname s).log = s.log ++
      if s.tree.isExec [] (path (path pkgdb pkgname) douninstName) && !env.do_upgradepkg
      then [.douninst (ownScript pkgname douninstName)] else [] := by
  rw [runDouninst]
  by_cases hx :
    (s.tree.isExec [] (path (path pkgdb pkgname) douninstName) && !env.do_upgradepkg) = true
  · have hexec := ((Bool.and_eq_true _ _).mp hx).1
    have hword : expand s.tree [] (here (path (path pkgdb pkgname) douninstName)) =
      [ownScript pkgname douninstName] :=
      expand_oneWord _ _ (ownScript_oneWord (hw hexec) (by decide))
    have hhere : s.tree.isExec [] (ownScript pkgname douninstName) = true := by
      rw [← hexec, Tree.isExec, Tree.isExec, ownScript, stat_here _ (path_ne_nil _ _)]
    simp only [hx, if_true, hword, hhere]
    rfl
  · simp only [hx, if_false, List.append_nil, Bool.false_eq_true]

theorem removepkg_log {hook : Hook} {env : Env} {root_dir pkgname : Str} {s : Sys} {q : Sys × Nat}
    (hroot : rootOr root_dir = ['/']) (h : removepkg hook env root_dir pkgname s = some q)
    (hw : s.tree.isExec [] (path (path pkgdb pkgname) douninstName) = true → OneWord pkgname) :
    q.1.log = s.log ∨ ∃ b r, q.1.log = s.log ++
      ((if s.tree.isExec [] (path (path pkgdb pkgname) douninstName) && !env.do_upgradepkg
        then [.douninst (ownScript pkgname douninstName)]
          else []) ++ [.uninstall b r pkgname]) := by
  rcases removepkg_cases (by rw [hroot, stat_rootDir, Option.getD_some]) h
    with ⟨hs, _⟩ | ⟨_, _, _, hl, _⟩
  · exact .inl (by rw [hs])
  · rw [runDouninst_log hook env pkgname s hw, List.append_assoc] at hl
    exact .inr ⟨_, _, hl⟩

theorem removepkg_calm {hook : Hook} {env : Env} {root_dir pkgname : Str} {s : Sys} {q : Sys × Nat}
    (hroot : rootOr root_dir = ['/']) (h : removepkg hook env root_dir pkgname s = some q)
    (hno : env.do_upgradepkg = false →
      s.tree.isExec [] (path (path pkgdb pkgname) douninstName) = false) :
    ∃ evs, q.1.log = s.log ++ evs ∧ Calm evs := by
  rcases removepkg_cases (by rw [hroot, stat_rootDir, Option.getD_some]) h
    with ⟨hs, _⟩ | ⟨_, _, _, hl, _⟩
  · exact ⟨[], by simp [hs], calm_nil⟩
  · have hrun : runDouninst hook env [] pkgname s = s := by
      rcases runDouninst_cases hook env [] pkgname s with hr | ⟨_, hx, hup, _⟩
      · exact hr
      · rw [hno hup] at hx
        cases hx
    rw [hrun] at hl
    refine ⟨_, hl, fun e he => ?_⟩
    rw [List.mem_singleton.mp he]
    exact ⟨rfl, rfl⟩

theorem removeOldVersions_calm {hook : Hook} {env : Env} {root_dir : Str} {pkgs : List Str}
    {s : Sys} {q : Sys × Nat} (hroot : rootOr root_dir = ['/']) (henv : env.do_upgradepkg = true)
    (h : removeOldVersions hook env root_dir pkgs s = some q) :
    ∃ evs, q.1.log = s.log ++ evs ∧ Calm evs := by
  induction pkgs generalizing s with
  | nil =>
      rw [← Option.some.inj h]
      exact ⟨[], by simp, calm_nil⟩
  | cons pkg pkgs ih =>
      rw [removeOldVersions, Option.bind_eq_some_iff] at h
      obtain ⟨p, hp, h⟩ := h
      obtain ⟨evs, he, hc⟩ := removepkg_calm hroot hp fun hup => by simp [henv] at hup
      split at h
      · obtain ⟨evs', he', hc'⟩ := ih h
        exact ⟨evs ++ evs', by rw [he', he, List.append_assoc], hc.append hc'⟩
      · rw [← Option.some.inj h]
        exact ⟨evs, he, hc⟩

theorem runDoinst_log (hook : Hook) (env : Env) (pkgname : Str) (s : Sys)
    (hw : s.tree.isExec env.cwd (path (entryIn ['/'] pkgname) doinstName) = true →
      OneWord pkgname) :
    (runDoinst .base hook env ['/'] pkgname s).log = s.log ++
      if s.tree.isExec env.cwd (path (entryIn ['/'] pkgname) doinstName)
      then [.doinst (ownScript pkgname doinstName)] else [] := by
  rw [runDoinst]
  simp only [stat_rootDir, Option.getD_some]
  by_cases hx : s.tree.isExec env.cwd (path (entryIn ['/'] pkgname) doinstName) = true
  · have hp : OneWord (here (path (path pkgdb pkgname) doinstName)) :=
      ownScript_oneWord (hw hx) (by decide)
    have hx' := hx
    rw [isExec_doinst] at hx'
    rw [expand_oneWord _ _ hp]
    simp [hx, hx', Sys.emit, Sys.onTree, ownScript]
  · simp [hx]

theorem cleanOldpkg_calm {hook : Hook} {env : Env} {pkgname : Str} {s : Sys} {q : Sys × Nat}
    (hno : env.do_upgradepkg = false →
      s.tree.isDir env.cwd (entryIn ['/'] (pkgname ++ oldpkgSuffix)) = true →
    (renamed env ['/'] pkgname s).tree.isExec []
      (path (path pkgdb (pkgname ++ oldpkgSuffix)) douninstName) = false)
    (h : cleanOldpkg hook env ['/'] pkgname s = some q) :
    ∃ evs, q.1.log = s.log ++ evs ∧ Calm evs := by
  rw [cleanOldpkg] at h
  split at h
  · rename_i hd
    obtain ⟨evs, he, hc⟩ := removepkg_calm (show rootOr [] = ['/'] from rfl) h fun hup => hno hup hd
    exact ⟨evs, by rw [he, renamed_log], hc⟩
  · rw [← Option.some.inj h]
    exact ⟨[], by simp, calm_nil⟩

theorem accepted_calm {env : Env} {o : Options} {pkgfile : Str} {s u : Sys}
    (h : accepted env o pkgfile s = .ok u) : ∃ evs, u.log = s.log ++ evs ∧ Calm evs := by
  rcases accepted_ok h with rfl | ⟨_, _, rfl⟩
  · exact ⟨[], by simp, calm_nil⟩
  · refine ⟨_, rfl, fun e he => ?_⟩
    rw [List.mem_singleton.mp he]
    exact ⟨rfl, rfl⟩

theorem installpkg_order {hook : Hook} {env : Env} {o : Options} {pkgfile : Str} {s : Sys}
    {q : Sys × Nat} (hroot : rootOr o.root_dir = ['/']) (hquiet : Quiet hook env o pkgfile s)
    (h : installpkg .base hook env o pkgfile s = some q) : ∃ evs, q.1.log = s.log ++ evs ∧
      InstallOrder env ['/'] pkgfile (pkgnameOf (echo s.tree env.cwd pkgfile)) evs ∧
      (q.2 = 0 → evs ≠ []) := by
  rw [installpkg_accepted] at h
  rw [Quiet] at hquiet
  cases ha : accepted env o pkgfile s with
  | error k =>
      rw [ha] at h
      rw [← Option.some.inj h]
      exact ⟨[], by simp, .inl rfl, fun hk => absurd hk (accepted_error ha)⟩
  | ok u =>
      rw [ha, hroot] at h
      rw [ha, hroot] at hquiet
      obtain ⟨hw, hno⟩ := hquiet
      obtain ⟨pre, hpre, hcpre⟩ := accepted_calm ha
      obtain ⟨post, hpost, hcpost⟩ := cleanOldpkg_calm hno h
      have hlog := runDoinst_log hook env (pkgnameOf (echo s.tree env.cwd pkgfile))
        (extracted env ['/'] pkgfile (pkgnameOf (echo s.tree env.cwd pkgfile)) u)
        (by rw [extracted_tree, ← ready]; exact hw)
      refine ⟨_, ?_, .inr ⟨pre, u.tree, [], (u.tree.readArchive env.cwd pkgfile).1,
        listed env.cwd pkgfile ['/'] u.tree, post, hcpre, hcpost, rfl⟩, by simp⟩
      rw [hpost, hlog, extracted_log, hpre, extracted_tree, ready]
      simp only [List.append_assoc, List.cons_append, List.nil_append]

theorem InstallOrder.append {env : Env} {root_dir pkgfile pkgname : Str} {evs evs' : List Event}
    (h : InstallOrder env root_dir pkgfile pkgname evs) (hne : evs ≠ []) (hc : Calm evs') :
    InstallOrder env root_dir pkgfile pkgname (evs ++ evs') := by
  obtain ⟨pre, b, r, ms, ls, post, h1, h2, rfl⟩ := h.resolve_left hne
  exact .inr ⟨pre, b, r, ms, ls, post ++ evs', h1, h2.append hc, by simp⟩

theorem upgradepkg_order {hook : Hook} {env : Env} {o : Options} {pkgfile : Str} {s : Sys}
    {q : Sys × Nat} (hroot : rootOr o.root_dir = ['/'])
    (hquiet : QuietStep hook env s (.upgradepkg o pkgfile))
    (h : upgradepkg .base hook env o pkgfile s = some q) : ∃ evs, q.1.log = s.log ++ evs ∧
      InstallOrder env ['/'] pkgfile (pkgnameOf (echo s.tree env.cwd pkgfile)) evs := by
  have hroot' : rootOr (rootOr o.root_dir) = ['/'] := by rw [rootOr_rootOr, hroot]
  rw [upgradepkg_found] at h
  rw [QuietStep] at hquiet
  cases hf : foundInstalled env o pkgfile s with
  | none =>
      rw [hf] at h
      rw [← Option.some.inj h]
      exact ⟨[], by simp, .inl rfl⟩
  | some b =>
      rw [hf] at h hquiet
      cases b with
      | false =>
          simp only at h
          split at h
          · obtain ⟨evs, he, ho, _⟩ := installpkg_order hroot' hquiet h
            exact ⟨evs, he, ho⟩
          · rw [← Option.some.inj h]
            exact ⟨[], by simp, .inl rfl⟩
      | true =>
          obtain ⟨p, hp, h⟩ := Option.bind_eq_some_iff.mp h
          obtain ⟨evs, he, ho, hne⟩ := installpkg_order hroot' hquiet hp
          split at h
          · rename_i hk
            obtain ⟨evs', he', hc'⟩ := removeOldVersions_calm hroot' rfl h
            exact ⟨evs ++ evs', by rw [he', he, List.append_assoc], ho.append (hne hk) hc'⟩
          · rw [← Option.some.inj h]
            exact ⟨evs, he, ho⟩

theorem run_orderly {hook : Hook} {env : Env} {s : Sys} {c : Command} {q : Sys × Nat}
    (hd : Direct env c) (hquiet : QuietStep hook env s c) (h : c.run .base hook env s = some q) :
    ∃ evs, q.1.log = s.log ++ evs ∧ Orderly env s.tree evs c := by
  cases c with
  | makepkg o date =>
      rw [← Option.some.inj h]
      exact ⟨[], by simp, rfl⟩
  | pkgtool sub args =>
      rw [← Option.some.inj h]
      exact ⟨[], by simp, rfl⟩
  | removepkg root_dir pkgname =>
      rcases removepkg_log hd.2 h hquiet with hl | ⟨b, r, hl⟩
      · exact ⟨[], by simpa using hl, .inl rfl⟩
      · rw [hd.1] at hl
        exact ⟨_, hl, .inr ⟨b, r, by simp⟩⟩
  | installpkg o pkgfile =>
      obtain ⟨evs, he, ho, _⟩ := installpkg_order hd.2 hquiet h
      exact ⟨evs, he, by rwa [Orderly, hd.2]⟩
  | upgradepkg o pkgfile =>
      obtain ⟨evs, he, ho⟩ := upgradepkg_order hd.2 hquiet h
      exact ⟨evs, he, by rwa [Orderly, hd.2]⟩

def OrderlyStep (hook : Hook) (env : Env) (s : Sys) (c : Command) : Prop :=
  ∀ q, c.run .base hook env s = some q → ∃ evs, q.1.log = s.log ++ evs ∧ Orderly env s.tree evs c

/-- Hooks run when they should as long as no install is one that finds a
`douninst.sh` in the entry that it has set aside, or a name of several words. -/
theorem hooks_orderly (hook : Hook) (cs : List (Env × Command)) (s : Sys)
    (hd : ∀ c ∈ cs, Direct c.1 c.2) (hquiet : Along .base hook (QuietStep hook) cs s) :
    Along .base hook (OrderlyStep hook) cs s :=
  hquiet.mono fun c hc _ hu _ hq => run_orderly (hd c hc) hu hq

def hookPkg : Str := ['p']

def hookFile : Str := ['p', '.', 't', 'g', 'z']

/-- An installed package with a `douninst.sh`, and the archive of `p`, which has a `doinst.sh`. -/
def hookTree (pkgname : Str) : Tree :=
  Tree.ofList [([varName], .dir), (pkgdbLoc [], .dir), (entryLoc [] pkgname, .dir),
  (douninstName :: entryLoc [] pkgname, .file true []),
  ([hookFile], .archive [(here (path (path pkgdb hookPkg) doinstName), .file true [])] true)]

def hookEnv : Env := ⟨[], false, []⟩

theorem hooks_orderly_session : Along .base noHook (OrderlyStep noHook)
    [(hookEnv, .installpkg ⟨[], false, false⟩ hookFile),
      (hookEnv, .removepkg [] ['q'])] ⟨hookTree ['q'], []⟩ := by
  refine hooks_orderly noHook _ _ (by simp [Direct, hookEnv, rootOr]) ⟨?_, fun _ _ =>
    ⟨fun _ => by decide, fun _ _ => trivial⟩⟩
  rw [QuietStep, Quiet]
  cases ha : accepted hookEnv ⟨[], false, false⟩ hookFile ⟨hookTree ['q'], []⟩ with
  | error _ => exact trivial
  | ok u =>
      rcases accepted_ok ha with rfl | ⟨_, h, _⟩
      · exact ⟨fun _ => by decide, fun _ h => absurd h (by decide)⟩
      · exact absurd h (by decide)

def isDouninst : Event → Bool
  | .douninst _ => true
  | _ => false

theorem InstallOrder.no_douninst {env : Env} {root_dir pkgfile pkgname : Str} {evs : List Event}
    (h : InstallOrder env root_dir pkgfile pkgname evs) : evs.any isDouninst = false := by
  have hcalm {evs : List Event} (hc : Calm evs) : evs.any isDouninst = false := by
    rw [List.any_eq_false]
    intro e he hd
    cases e with
    | douninst _ => exact absurd (hc _ he).1 (by simp [Event.isHook])
    | extract _ _ _ _ _ | doinst _ | setAside _ _ _ | uninstall _ _ _ => simp [isDouninst] at hd
  rcases h with rfl | ⟨pre, b, r, ms, ls, post, h1, h2, rfl⟩
  · rfl
  · rw [List.any_append, hcalm h1, List.any_cons, List.any_append, hcalm h2]
    split <;> rfl

/-- A reinstall runs the `douninst.sh` of the entry that it replaces. -/
theorem reinstall_runs_douninst : ¬ ∀ hook cs s, (∀ c ∈ cs, Direct c.1 c.2) →
    Along .base hook (OrderlyStep hook) cs s := by
  intro h
  have h1 := (h noHook [(hookEnv, .installpkg ⟨[], true, false⟩ hookFile)] ⟨hookTree hookPkg, []⟩
    (by simp [Direct, hookEnv, rootOr])).1
  have hrun :
    ((Command.installpkg ⟨[], true, false⟩ hookFile).run .base noHook hookEnv
    ⟨hookTree hookPkg, []⟩).map
      (fun q => q.1.log.any isDouninst) = some true := by decide
  obtain ⟨q, hq, hlog⟩ := Option.map_eq_some_iff.mp hrun
  obtain ⟨evs, he, ho⟩ := h1 q hq
  rw [List.nil_append] at he
  rw [he, ho.no_douninst] at hlog
  exact Bool.false_ne_true hlog

end Fidelix.Pkgtools
