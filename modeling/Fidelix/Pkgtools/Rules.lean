import Fidelix.Pkgtools.Commands
import Fidelix.Pkgtools.Steps
import Fidelix.Pkgtools.Uninstall

namespace Fidelix.Pkgtools

open Text Files

def Between (P : Event → Prop) (s u : Sys) : Prop := ∀ e ∈ u.log.drop s.log.length, P e

instance (P : Event → Prop) [DecidablePred P] (s u : Sys) : Decidable (Between P s u) :=
  inferInstanceAs (Decidable (∀ e ∈ _, _))

variable {P : Event → Prop} {copy : Copy} {hook : Hook} {env : Env}

theorem Between.left {s v u : Sys} (h : Between P s u) (h1 : s.log <+: v.log)
    (h2 : v.log <+: u.log) :
    Between P s v := by
  obtain ⟨a, ha⟩ := h1
  obtain ⟨b, hb⟩ := h2
  intro e he
  refine h e ?_
  rw [← hb, ← ha, List.append_assoc, List.drop_left]
  rw [← ha, List.drop_left] at he
  exact List.mem_append_left _ he

theorem Between.right {s v u : Sys} (h : Between P s u) (h1 : s.log <+: v.log)
    (h2 : v.log <+: u.log) :
    Between P v u := by
  obtain ⟨a, ha⟩ := h1
  obtain ⟨b, hb⟩ := h2
  intro e he
  refine h e ?_
  rw [← hb, ← ha, List.append_assoc, List.drop_left]
  rw [← hb, List.drop_left] at he
  exact List.mem_append_right _ he

theorem Between.mem {s u : Sys} {e : Event} (h : Between P s u) (he : s.log ++ [e] <+: u.log) :
    P e := by
  obtain ⟨b, hb⟩ := he
  refine h e ?_
  rw [← hb, List.append_assoc, List.drop_left]
  simp

/-- No `douninst.sh` does anything. -/
def Undisturbed (hook : Hook) (P : Event → Prop) : Prop :=
  hook = noHook ∨ ∀ cmd, ¬ P (.douninst cmd)

theorem runDouninst_undisturbed {cwd : Loc} {pkgname : Str} {s : Sys} (hq : Undisturbed hook P)
    (h : Between P s (runDouninst hook env cwd pkgname s)) :
    (runDouninst hook env cwd pkgname s).tree = s.tree := by
  rcases hq with rfl | hq
  · exact noHook_runDouninst env cwd pkgname s
  · rcases runDouninst_cases hook env cwd pkgname s with hr | ⟨cmd, _, _, hr⟩
    · rw [hr]
    · rw [hr] at h
      exact absurd (h.mem List.prefix_rfl) (hq cmd)

theorem removepkg_event {root_dir pkgname : Str} {s : Sys} {q : Sys × Nat}
    (hroot : rootOr root_dir = ['/']) (hq : Undisturbed hook P)
    (h : removepkg hook env root_dir pkgname s = some q) (hP : Between P s q.1) :
    (q.1 = s ∧ q.2 ≠ 0 ∧ (pkgname = [] ∨ s.tree.isDir env.cwd (entryIn ['/'] pkgname) = false)) ∨
      P (.uninstall s.tree [] pkgname) ∧ q.2 = Tree.rmStatus (path pkgdb pkgname) ∧
        uninstall [] (contentsFiles s.tree []) pkgname s.tree = some q.1.tree := by
  rcases removepkg_cases (by rw [hroot, stat_rootDir, Option.getD_some]) h
    with hr | ⟨_, _, hu, hl, hk⟩
  · rw [hroot] at hr
    exact .inl hr
  · have h1 := runDouninst_adds hook env [] pkgname s
    have h2 : (runDouninst hook env [] pkgname s).log <+: q.1.log := by
      rw [hl]
      exact List.prefix_append _ _
    rw [runDouninst_undisturbed hq (hP.left h1 h2)] at hu hl
    exact .inr ⟨(hP.right h1 h2).mem (hl ▸ List.prefix_rfl), hk, hu⟩

theorem install_adds {pkgfile pkg : Str} {s : Sys} {q : Sys × Nat}
    (h : install copy hook env ['/'] pkgfile pkg s = some q) :
    s.log ++ [.extract s.tree [] pkg (s.tree.readArchive env.cwd pkgfile).1
      (listed env.cwd pkgfile ['/'] s.tree)] <+:
      (runDoinst copy hook env ['/'] pkg (extracted env ['/'] pkgfile pkg s)).log ∧
    (runDoinst copy hook env ['/'] pkg (extracted env ['/'] pkgfile pkg s)).log <+: q.1.log := by
  refine ⟨?_, cleanOldpkg_adds h⟩
  rw [← extracted_log]
  exact runDoinst_adds copy hook env ['/'] pkg _

theorem setAside_log (env : Env) (pkg : Str) (s : Sys) :
    (setAside env ['/'] pkg s).log = s.log ++ [.setAside s.tree [] pkg] := by
  rw [setAside, stat_rootDir]
  rfl

theorem setAside_tree (env : Env) (root_dir pkg : Str) (s : Sys) :
    (setAside env root_dir pkg s).tree =
    (s.tree.mv env.cwd (entryIn root_dir pkg)
      (entryIn root_dir (pkg ++ oldpkgSuffix))).getD s.tree := rfl

theorem namesFile_entry {pkg : Str} (h : ProperName pkg) : NamesFile (entryIn ['/'] pkg) := by
  refine ⟨?_, pkg, ?_, h.2.2.1, h.2.2.2⟩
  · rw [entryIn, getLast?_path _ h.1]
    exact fun hl => h.2.1 (List.mem_of_getLast? hl)
  · rw [entryIn, path, names_append_slash, names_of_not_mem pkg h.1 h.2.1, List.getLast?_concat]
    simp

theorem renamed_isDir {pkg : Str} {s : Sys} (hn : ProperName (pkg ++ oldpkgSuffix))
    (h : s.tree.isDir env.cwd (entryIn ['/'] (pkg ++ oldpkgSuffix)) = true) :
    (renamed env ['/'] pkg s).tree.isDir env.cwd (entryIn ['/'] (pkg ++ oldpkgSuffix)) = true := by
  obtain ⟨p, hp, hl⟩ := Tree.place_of_isDir (namesFile_entry hn) h
  have hkeep : s.tree.KeepsDirs (renamed env ['/'] pkg s).tree := by
    have hr :=
      renameLines_cases s.tree env.cwd (path (entryIn ['/'] (pkg ++ oldpkgSuffix)) contentsName) pkg
    rcases hr with hr | ⟨r, e, ls, _, hld, hput⟩
    · rw [show (renamed env ['/'] pkg s).tree = s.tree from hr]
      exact .refl _
    · exact (Tree.put_grows hput hld (by simp)).toKeepsDirs
  have hp' := Tree.placeAt_keeps hkeep (show s.tree.node (start env.cwd (entryIn ['/'] _)) = _
    from s.tree.root) hp
  rw [Tree.isDir_eq_leadsToDir hp']
  exact Tree.leadsToDir_keeps hkeep hl

/-- `I` holds between the commands, and `J pkg` where the package `pkg` is about to go. -/
structure Rule (hook : Hook) (P : Event → Prop) (J : Str → Tree → Prop)
    (I : Tree → Prop) : Prop where
  undisturbed : Undisturbed hook P
  toRemove : ∀ pkg t, I t → J pkg t
  remove : ∀ pkg t t', J pkg t → P (.uninstall t [] pkg) →
    uninstall [] (contentsFiles t []) pkg t = some t' → I t'
  relist : ∀ pkg t cwd name, J pkg t →
    P (.uninstall (renameLines t cwd (path (entryIn ['/'] pkg) contentsName) name) [] pkg) →
    J pkg (renameLines t cwd (path (entryIn ['/'] pkg) contentsName) name)
  notThere : ∀ pkg t cwd, ProperName pkg → J pkg t → t.isDir cwd (entryIn ['/'] pkg) = false → I t

namespace Rule

variable {J : Str → Tree → Prop} {I : Tree → Prop} (R : Rule hook P J I)

include R

theorem removepkg {root_dir pkgname : Str} {s : Sys} {q : Sys × Nat}
    (hroot : rootOr root_dir = ['/']) (h : removepkg hook env root_dir pkgname s = some q)
    (hP : Between P s q.1) (hI : I s.tree) : I q.1.tree := by
  rcases removepkg_event hroot R.undisturbed h hP with ⟨hs, _⟩ | ⟨he, _, hu⟩
  · rwa [hs]
  · exact R.remove pkgname _ _ (R.toRemove pkgname _ hI) he hu

theorem removeOldVersions {root_dir : Str} {pkgs : List Str} {s : Sys} {q : Sys × Nat}
    (hroot : rootOr root_dir = ['/']) (h : removeOldVersions hook env root_dir pkgs s = some q)
    (hP : Between P s q.1) (hI : I s.tree) :
    I q.1.tree := by
  induction pkgs generalizing s with
  | nil =>
      rw [← Option.some.inj h]
      exact hI
  | cons pkg pkgs ih =>
      rw [Pkgtools.removeOldVersions, Option.bind_eq_some_iff] at h
      obtain ⟨p, hp, h⟩ := h
      split at h
      · have h1 := removepkg_adds hp
        have h2 := removeOldVersions_adds h
        exact ih h (hP.right h1 h2) (R.removepkg hroot hp (hP.left h1 h2) hI)
      · have hq : p.1 = q.1 := by rw [← Option.some.inj h]
        rw [← hq] at hP ⊢
        exact R.removepkg hroot hp hP hI

theorem cleanOldpkg {pkg : Str} {s : Sys} {q : Sys × Nat} (hn : ProperName (pkg ++ oldpkgSuffix))
    (h : cleanOldpkg hook env ['/'] pkg s = some q) (hP : Between P s q.1)
    (hJ : J (pkg ++ oldpkgSuffix) s.tree) :
    I q.1.tree := by
  rw [Pkgtools.cleanOldpkg] at h
  split at h
  · rename_i hd
    rcases removepkg_event rfl R.undisturbed h (by rwa [Between, renamed_log])
      with ⟨_, _, hno⟩ | ⟨he, _, hu⟩
    · rw [renamed_isDir hn hd] at hno
      rcases hno with hno | hno
      · exact absurd hno hn.1
      · simp at hno
    · exact R.remove _ _ _ (R.relist _ _ _ _ hJ he) he hu
  · rename_i hd
    rw [← Option.some.inj h]
    exact R.notThere _ _ _ hn hJ (by simpa using hd)

theorem afterHook {up : Bool} {pkgfile pkg : Str} {pkgs : List Str} {u : Sys} {p q : Sys × Nat}
    (hn : '/' ∉ pkg)
    (hp : install copy hook { env with do_upgradepkg := up } ['/'] pkgfile pkg u = some p)
    (hq : q.1 = p.1 ∨
      Pkgtools.removeOldVersions hook { env with do_upgradepkg := up } ['/'] pkgs p.1 = some q)
    (hP : Between P u q.1)
    (hJ : J (pkg ++ oldpkgSuffix) (runDoinst copy hook { env with do_upgradepkg := up } ['/'] pkg
      (extracted { env with do_upgradepkg := up } ['/'] pkgfile pkg u)).tree) :
    I q.1.tree := by
  obtain ⟨h1, h2⟩ := install_adds hp
  have h0 := (List.prefix_append _ _).trans h1
  have hclean {v : Sys} (hv : p.1 = v) (hP : Between P u v) : I v.tree := by
    subst hv
    exact R.cleanOldpkg (proper_old hn) hp (hP.right h0 h2) hJ
  rcases hq with hq | hq
  · exact hclean hq.symm hP
  · have h3 := removeOldVersions_adds hq
    exact R.removeOldVersions rfl hq (hP.right (h0.trans h2) h3)
      (hclean rfl (hP.left (h0.trans h2) h3))

end Rule

theorem unpacks_events {s u : Sys} {q : Sys × Nat} {up : Bool} {pkgfile pkg : Str} {pkgs : List Str}
    {p : Sys × Nat} (hu : u = s ∨ u = setAside env ['/'] pkg s)
    (hp : install copy hook { env with do_upgradepkg := up } ['/'] pkgfile pkg u = some p)
    (hq : q.1 = p.1 ∨
      removeOldVersions hook { env with do_upgradepkg := up } ['/'] pkgs p.1 = some q)
    (hP : Between P s q.1) : Between P u q.1 ∧
      P (.extract u.tree [] pkg (u.tree.readArchive env.cwd pkgfile).1
        (listed env.cwd pkgfile ['/'] u.tree)) ∧
      (u = s ∨ u = setAside env ['/'] pkg s ∧ P (.setAside s.tree [] pkg)) := by
  obtain ⟨h1, h2⟩ := install_adds hp
  have h3 : p.1.log <+: q.1.log := by
    rcases hq with hq | hq
    · exact hq ▸ List.prefix_rfl
    · exact removeOldVersions_adds hq
  have h4 := (h1.trans h2).trans h3
  have h5 := (List.prefix_append _ _).trans h4
  rcases hu with rfl | rfl
  · exact ⟨hP, hP.mem h4, .inl rfl⟩
  · have hs : s.log <+: (setAside env ['/'] pkg s).log := by
      rw [setAside_log]
      exact List.prefix_append _ _
    have hP' := hP.right hs h5
    refine ⟨hP', hP'.mem h4, .inr ⟨rfl, hP.mem ?_⟩⟩
    rw [← setAside_log]
    exact h5

end Fidelix.Pkgtools
