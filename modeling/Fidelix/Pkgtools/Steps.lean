import Fidelix.Files.Extract
import Fidelix.Pkgtools.Database
import Fidelix.Pkgtools.Upgradepkg

namespace Fidelix.Pkgtools

open Text Files

theorem walks_down_inv {t : Tree} {k : Nat} {n : Str} {cur x : Loc} {r : List Str}
    (h : t.Walks k cur (n :: r) x) (h1 : n ≠ dot) (h2 : n ≠ dotdot)
    (hn : t.node (n :: cur) = some .dir) : t.Walks k (n :: cur) r x := by
  cases h with
  | stay _ => exact absurd rfl h1
  | up _ => exact absurd rfl h2
  | down _ _ _ h => exact h
  | follow _ _ hl _ => simp [hn] at hl
  | leaf _ _ hl hd _ =>
      rw [hn] at hl
      exact absurd (Option.some.inj hl).symm hd

theorem place_entryFile_inv {t : Tree} {pkg file : Str} {p : Loc} (hn : ProperName pkg)
    (hf : ProperName file) (hdb : t.node (pkgdbLoc []) = some .dir)
    (hl : ∀ g, t.node (entryLoc [] pkg) ≠ some (.link g))
    (h : t.place [] (path (path pkgdb pkg) file) = some p) :
    p = file :: entryLoc [] pkg ∧ t.node (entryLoc [] pkg) = some .dir := by
  obtain ⟨n, d, hlast, _, _, hw, hd, rfl⟩ := Tree.place_iff_walks.mp h
  rw [comps_entryFile hn hf, List.getLast?_concat] at hlast
  rw [comps_entryFile hn hf, List.dropLast_concat] at hw
  obtain rfl := Option.some.inj hlast
  have hvar : t.node [varName] = some .dir :=
    t.parent pkgdbName _ (Option.isSome_iff_exists.mpr ⟨_, hdb⟩)
  have hw2 := walks_down_inv hw (by decide) (by decide) hvar
  have hw3 := walks_down_inv hw2 (by decide) (by decide) hdb
  cases hw3 with
  | stay _ => exact absurd rfl hn.2.2.1
  | up _ => exact absurd rfl hn.2.2.2
  | down _ _ he h =>
      cases h
      exact ⟨rfl, he⟩
  | follow _ _ he _ => exact absurd he (hl _)
  | leaf _ _ he hdir _ =>
      rw [hd] at he
      exact absurd (Option.some.inj he).symm hdir

theorem write_contents {t : Tree} (cwd : Loc) {pkg : Str} (ls : List Str) (hn : ProperName pkg)
    (hdb : t.node (pkgdbLoc []) = some .dir) (he : ∀ g, t.node (entryLoc [] pkg) ≠ some (.link g))
    (hc : ∀ g, t.node (contentsLoc [] pkg) ≠ some (.link g)) :
    ((t.write cwd (path (entryIn ['/'] pkg) contentsName) ls).getD t = t ∧ linesOf t pkg = []) ∨
    ∃ e, t.leadsToDir (contentsLoc [] pkg) = false ∧ t.put (contentsLoc [] pkg) (.file e ls) =
      some ((t.write cwd (path (entryIn ['/'] pkg) contentsName) ls).getD t) := by
  have hplace : t.place cwd (path (entryIn ['/'] pkg) contentsName) =
      t.place [] (path (path pkgdb pkg) contentsName) := by
    rw [entryFile_slash, place_slash t cwd (path_ne_nil _ _)]
  rw [Tree.write, hplace]
  cases hp : t.place [] (path (path pkgdb pkg) contentsName) with
  | none =>
      refine .inl ⟨rfl, ?_⟩
      by_contra hl
      obtain ⟨l, hl⟩ := List.exists_mem_of_ne_nil _ hl
      rw [place_entryFile hn proper_contents (entry_dir hl).1] at hp
      simp at hp
  | some p =>
      obtain ⟨rfl, hdir⟩ := place_entryFile_inv hn proper_contents hdb he hp
      have hland : t.landing (Tree.linkLimit + 1) (contentsName :: entryLoc [] pkg) =
        some (contentsLoc [] pkg) := by
        rw [Tree.landing]
        split
        · rename_i g hg
          exact absurd hg (hc g)
        · rfl
      rw [Option.bind_some, hland, Option.bind_some]
      by_cases hd : t.node (contentsLoc [] pkg) = some .dir
      · refine .inl ⟨?_, by rw [linesOf, hd]⟩
        have hno : t.writeAt (contentsLoc [] pkg) ls = none := by
          rw [Tree.writeAt, hd]
          exact Option.eq_none_iff_forall_ne_some.mpr fun t' h => (Tree.put_pre h).1 hd
        rw [hno]
        rfl
      · have hld : t.leadsToDir (contentsLoc [] pkg) = false := by
          rw [← Bool.not_eq_true, Tree.leadsToDir_iff]
          rintro (h | ⟨g, _, hg, _⟩)
          · exact hd h
          · exact hc g hg
        have hput (e : Bool) : ∃ t', t.put (contentsLoc [] pkg) (.file e ls) = some t' :=
          Tree.put_isSome _ hdir hd
        right
        rw [Tree.writeAt]
        split
        · rename_i e _ _
          obtain ⟨t', ht'⟩ := hput e
          exact ⟨e, hld, by rw [ht']; rfl⟩
        · obtain ⟨t', ht'⟩ := hput false
          exact ⟨false, hld, by rw [ht']; rfl⟩

theorem tarExtract_root (t : Tree) (cwd : Loc) (pkgfile : Str) :
    (t.tarExtract cwd pkgfile ['/']).1 = (t.extract [] (t.readArchive cwd pkgfile).1).1 := by
  have hd : (some ([] : Loc)).filter t.dirAt = some [] := by simp [Option.filter, t.root]
  rw [Tree.tarExtract, stat_rootDir, hd]

theorem unpack_cases {t : Tree} {cwd : Loc} {pkgfile pkg : Str} (hn : ProperName pkg)
    (hdb : (t.extract [] (t.readArchive cwd pkgfile).1).1.node (pkgdbLoc []) = some .dir)
    (he : ∀ g, (t.extract [] (t.readArchive cwd pkgfile).1).1.node (entryLoc [] pkg) ≠
      some (.link g))
    (hc : ∀ g, (t.extract [] (t.readArchive cwd pkgfile).1).1.node (contentsLoc [] pkg) ≠
      some (.link g)) :
    (unpack cwd pkgfile ['/'] pkg t = (t.extract [] (t.readArchive cwd pkgfile).1).1 ∧
      linesOf (t.extract [] (t.readArchive cwd pkgfile).1).1 pkg = []) ∨
    ∃ e, (t.extract [] (t.readArchive cwd pkgfile).1).1.leadsToDir (contentsLoc [] pkg) = false ∧
      (t.extract [] (t.readArchive cwd pkgfile).1).1.put (contentsLoc [] pkg)
        (.file e ((listed cwd pkgfile ['/'] t).map stripDot)) =
          some (unpack cwd pkgfile ['/'] pkg t) := by
  rw [unpack, tarExtract_root]
  exact write_contents cwd _ hn hdb he hc

theorem not_leadsToDir_of_text {t : Tree} {cwd p : Loc} {s : Str} {ls : List Str}
    (hp : t.place cwd s = some p) (h : t.text cwd s = some ls) : t.leadsToDir p = false := by
  rw [Tree.text, Tree.stat_of_place hp] at h
  rw [Tree.leadsToDir]
  cases hd : t.deref p with
  | none => rfl
  | some d =>
      rw [hd, Option.bind_some] at h
      split at h
      · rename_i hn
        simp [Tree.dirAt, hn]
      · simp at h

theorem renameLines_cases (t : Tree) (cwd : Loc) (file pkg : Str) :
    renameLines t cwd file pkg = t ∨ ∃ p e ls, t.place cwd file = some p ∧ t.leadsToDir p = false ∧
      t.put p (.file e ls) = some (renameLines t cwd file pkg) := by
  rw [renameLines]
  split
  · exact .inl rfl
  · rename_i ls hls
    split
    · exact .inl rfl
    · cases hp : t.place cwd file with
      | none => exact .inl rfl
      | some p =>
          rw [Option.bind_some]
          cases hput : t.put p (.file (t.isExec cwd file) (ls.map (renameLine pkg))) with
          | none => exact .inl rfl
          | some u => exact .inr ⟨p, _, _, rfl, not_leadsToDir_of_text hp hls, hput⟩

theorem proper_old {pkg : Str} (h : '/' ∉ pkg) : ProperName (pkg ++ oldpkgSuffix) := by
  refine ⟨by simp [oldpkgSuffix], ?_, ?_, ?_⟩
  · rw [List.mem_append]
    rintro (hm | hm)
    · exact h hm
    · revert hm
      decide
  · intro he
    have := congrArg List.length he
    simp [oldpkgSuffix, dot] at this
  · intro he
    have := congrArg List.length he
    simp [oldpkgSuffix, dotdot] at this

theorem setAside_cases {t : Tree} {cwd : Loc} {pkg : Str} (hn : ProperName pkg)
    (hdb : t.node (pkgdbLoc []) = some .dir)
    (hfree : t.node (entryLoc [] (pkg ++ oldpkgSuffix)) = none) :
    (t.mv cwd (entryIn ['/'] pkg) (entryIn ['/'] (pkg ++ oldpkgSuffix))) =
      t.rename (entryLoc [] pkg) (entryLoc [] (pkg ++ oldpkgSuffix)) := by
  have hp : t.place cwd (entryIn ['/'] pkg) = some (entryLoc [] pkg) := by
    rw [entryIn_slash, place_slash t cwd (path_ne_nil _ _), place_entry hn hdb]
  have hq : t.place cwd (entryIn ['/'] (pkg ++ oldpkgSuffix)) =
    some (entryLoc [] (pkg ++ oldpkgSuffix)) := by
    rw [entryIn_slash, place_slash t cwd (path_ne_nil _ _), place_entry (proper_old hn.2.1) hdb]
  have hne : entryLoc [] pkg ≠ entryLoc [] (pkg ++ oldpkgSuffix) := by simp [entryLoc, oldpkgSuffix]
  rw [Tree.mv, Tree.isDir_eq_leadsToDir hq, Tree.leadsToDir_none hfree]
  simp only [Bool.false_eq_true, if_false]
  rw [hp, hq, Option.bind_some, Option.bind_some, Tree.moveTo, if_neg hne, hfree]

theorem extracted_tree (env : Env) (root_dir pkgfile pkgname : Str) (s : Sys) :
    (extracted env root_dir pkgfile pkgname s).tree =
      unpack env.cwd pkgfile root_dir pkgname s.tree := rfl

theorem extracted_log (env : Env) (pkgfile pkgname : Str) (s : Sys) :
    (extracted env ['/'] pkgfile pkgname s).log =
      s.log ++ [.extract s.tree [] pkgname (s.tree.readArchive env.cwd pkgfile).1
        (listed env.cwd pkgfile ['/'] s.tree)] := by
  rw [extracted, stat_rootDir]
  rfl

theorem runDouninst_adds (hook : Hook) (env : Env) (cwd : Loc) (pkgname : Str) (s : Sys) :
    s.log <+: (runDouninst hook env cwd pkgname s).log := by
  rcases runDouninst_cases hook env cwd pkgname s with hr | ⟨cmd, _, _, hr⟩
  · rw [hr]
  · rw [hr]
    exact List.prefix_append _ _

theorem removepkg_adds {hook : Hook} {env : Env} {root_dir pkgname : Str} {s : Sys} {q : Sys × Nat}
    (h : removepkg hook env root_dir pkgname s = some q) : s.log <+: q.1.log := by
  rcases removepkg_cases rfl h with ⟨hs, _⟩ | ⟨_, _, _, hl, _⟩
  · exact hs ▸ List.prefix_rfl
  · rw [hl]
    exact (runDouninst_adds hook env _ pkgname s).trans (List.prefix_append _ _)

theorem removeOldVersions_adds {hook : Hook} {env : Env} {root_dir : Str} {pkgs : List Str}
    {s : Sys} {q : Sys × Nat} (h : removeOldVersions hook env root_dir pkgs s = some q) :
    s.log <+: q.1.log := by
  induction pkgs generalizing s with
  | nil =>
      exact Option.some.inj h ▸ List.prefix_rfl
  | cons pkg pkgs ih =>
      rw [removeOldVersions, Option.bind_eq_some_iff] at h
      obtain ⟨p, hp, h⟩ := h
      split at h
      · exact (removepkg_adds hp).trans (ih h)
      · have hp' := removepkg_adds hp
        rw [← Option.some.inj h]
        exact hp'

theorem runDoinst_adds (copy : Copy) (hook : Hook) (env : Env) (root_dir pkgname : Str) (s : Sys) :
    s.log <+: (runDoinst copy hook env root_dir pkgname s).log := by
  rw [runDoinst]
  split
  · split
    · exact List.prefix_rfl
    · split
      · exact List.prefix_append _ _
      · exact List.prefix_rfl
  · exact List.prefix_rfl

theorem cleanOldpkg_adds {hook : Hook} {env : Env} {root_dir pkgname : Str} {s : Sys}
    {q : Sys × Nat} (h : cleanOldpkg hook env root_dir pkgname s = some q) : s.log <+: q.1.log := by
  rw [cleanOldpkg] at h
  split at h
  · have hp := removepkg_adds h
    rwa [renamed_log] at hp
  · exact Option.some.inj h ▸ List.prefix_rfl

theorem noHook_runDouninst (env : Env) (cwd : Loc) (pkgname : Str) (s : Sys) :
    (runDouninst noHook env cwd pkgname s).tree = s.tree := by
  rcases runDouninst_cases noHook env cwd pkgname s with hr | ⟨cmd, _, _, hr⟩
  · rw [hr]
  · rw [hr]
    rfl

theorem noHook_runDoinst (copy : Copy) (env : Env) (root_dir pkgname : Str) (s : Sys) :
    (runDoinst copy noHook env root_dir pkgname s).tree = s.tree := by
  rw [runDoinst]
  split
  · split
    · rfl
    · split <;> rfl
  · rfl

theorem isExec_doinst (t : Tree) (cwd : Loc) (pkgname : Str) :
    t.isExec cwd (path (entryIn ['/'] pkgname) doinstName) =
      t.isExec [] (here (path (path pkgdb pkgname) doinstName)) := by
  rw [Tree.isExec, Tree.isExec, entryFile_slash, stat_slash t cwd (path_ne_nil _ _),
    stat_here t (path_ne_nil _ _)]

theorem runDoinst_tree (copy : Copy) (hook : Hook) (env : Env) (pkgname : Str) (s : Sys) :
    (runDoinst copy hook env ['/'] pkgname s).tree = s.tree ∨
      ∃ lines, (runDoinst copy hook env ['/'] pkgname s).tree = hook env [] lines s.tree := by
  rw [runDoinst, stat_rootDir]
  split
  · split
    · exact .inl rfl
    · split
      · exact .inr ⟨_, rfl⟩
      · exact .inl rfl
  · exact .inl rfl

theorem runDoinst_base (hook : Hook) (env : Env) {pkgname : Str} {s : Sys} (hw : OneWord pkgname)
    (hx : s.tree.isExec [] (here (path (path pkgdb pkgname) doinstName)) = true) :
    (runDoinst .base hook env ['/'] pkgname s).tree =
      hook env [] ((s.tree.text [] (here (path (path pkgdb pkgname) doinstName))).getD
        []) s.tree := by
  have hp : OneWord (here (path (path pkgdb pkgname) doinstName)) :=
    oneWord_path (a := dot) (by decide) (oneWord_path (oneWord_path (by decide) hw) (by decide))
  rw [runDoinst, stat_rootDir, isExec_doinst, hx, expand_oneWord _ _ hp]
  simp only [Option.getD_some, hx, if_true]
  rfl

end Fidelix.Pkgtools
