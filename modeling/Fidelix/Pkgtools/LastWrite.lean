import Fidelix.Pkgtools.Preserve

namespace Fidelix.Pkgtools

open Text Files

structure Pair (f n : Str) (d : Loc) (x : Bool × List Str) (o : Option (Bool × List Str))
    (t : Tree) : Prop where
  file : Holds t f (n :: d) x.1 x.2
  old : t.node ((n ++ oldSuffix) :: d) = o.map fun y => .file y.1 y.2

variable {f n : Str} {d : Loc} {x : Bool × List Str} {o : Option (Bool × List Str)} {t t' : Tree}

theorem Pair.places (h : Pair f n d x o t) : Places f n d t := places_of_file h.file.place

theorem Pair.step (h : Pair f n d x o t) (hfile : Holds t' f (n :: d) x.1 x.2)
    (hold : ∀ y : Bool × List Str, Holds t (f ++ oldSuffix) ((n ++ oldSuffix) :: d) y.1 y.2 →
      Holds t' (f ++ oldSuffix) ((n ++ oldSuffix) :: d) y.1 y.2)
    (hnone : t.node ((n ++ oldSuffix) :: d) = none → t'.node ((n ++ oldSuffix) :: d) = none) :
    Pair f n d x o t' := by
  refine ⟨hfile, ?_⟩
  cases o with
  | none => exact hnone h.old
  | some y => exact (hold y ⟨h.places.old, h.old, by simp⟩).node

theorem old_ne_contents (pkg : Str) : (n ++ oldSuffix) :: d ≠ contentsLoc [] pkg := by
  intro he
  have := congrArg List.getLast? (List.cons.inj he).1
  simp [oldSuffix, contentsName] at this

theorem old_ne_oldpkg (pkg : Str) : (n ++ oldSuffix) :: d ≠ entryLoc [] (pkg ++ oldpkgSuffix) := by
  intro he
  have := congrArg List.getLast? (List.cons.inj he).1
  simp [oldSuffix, oldpkgSuffix] at this

theorem Pair.uninstalled {pkg : Str} (h : Pair f n d x o t) (hs : SparesUninstall f t pkg)
    (hs' : SparesUninstall (f ++ oldSuffix) t pkg)
    (hu : uninstall [] (contentsFiles t []) pkg t = some t') :
    Pair f n d x o t' := by
  refine h.step (uninstall_holds h.file hs hu)
    (fun _ ho => uninstall_holds ho hs' hu) fun hnone => ?_
  by_contra hsome
  obtain ⟨y, hy⟩ := Option.ne_none_iff_exists'.mp hsome
  rw [uninstall_within hu _ y hy] at hnone
  simp at hnone

theorem Pair.setAside {pkg : Str} (cwd : Loc) (h : Pair f n d x o t) (hs : SparesSetAside f t pkg)
    (hs' : SparesSetAside (f ++ oldSuffix) t pkg) :
    Pair f n d x o
      ((t.mv cwd (entryIn ['/'] pkg) (entryIn ['/'] (pkg ++ oldpkgSuffix))).getD t) := by
  refine h.step (setAside_holds cwd h.file hs)
    (fun _ ho => setAside_holds cwd ho hs') fun hnone => ?_
  by_contra hsome
  obtain ⟨y, hy⟩ := Option.ne_none_iff_exists'.mp hsome
  rw [setAside_node cwd hs (fun hin => ?_) hy] at hnone
  · simp at hnone
  · -- The directory of the file was there before, and nothing was below the free name.
    rcases List.suffix_cons_iff.mp hin with he | he
    · exact old_ne_oldpkg pkg he.symm
    · have hd := Tree.isSome_of_suffix he (by rw [t.parent n d (by rw [h.file.node]; rfl)]; rfl)
      rw [Option.isNone_iff_eq_none.mp hs.free] at hd
      simp at hd

theorem Pair.relisted {pkg : Str} (cwd : Loc) (name : Str) (h : Pair f n d x o t)
    (hs : SparesUninstall f (renameLines t cwd (path (entryIn ['/'] pkg) contentsName) name) pkg)
    (hs' : SparesUninstall (f ++ oldSuffix)
      (renameLines t cwd (path (entryIn ['/'] pkg) contentsName) name) pkg) :
    Pair f n d x o (renameLines t cwd (path (entryIn ['/'] pkg) contentsName) name) := by
  refine h.step (relist_holds cwd name h.file hs)
    (fun _ ho => relist_holds cwd name ho hs') fun hnone => ?_
  rcases renameLines_cases t cwd (path (entryIn ['/'] pkg) contentsName) name
    with hr | ⟨q, e, ls, hq, _, hput⟩
  · rwa [hr]
  · have hdir := relisted_entry (by simpa using hs.entry)
    rw [entryFile_slash, place_slash t cwd (path_ne_nil _ _),
      place_entryFile hs.proper proper_contents hdir] at hq
    obtain rfl := Option.some.inj hq
    exact (Tree.put_node hput _).trans ((if_neg (old_ne_contents pkg)).trans hnone)

theorem pairRule (f n : Str) (d : Loc) (x : Bool × List Str) (o : Option (Bool × List Str)) :
    Rule (newFileHook f) (fun e => e.Spares f ∧ e.Spares (f ++ oldSuffix))
      (fun _ t => Pair f n d x o t)
      (fun t => Pair f n d x o t) where
  undisturbed := .inr fun _ h => h.1
  toRemove _ _ h := h
  remove _ _ _ h hs hu := h.uninstalled hs.1 hs.2 hu
  relist _ _ cwd name h hs := h.relisted cwd name hs.1 hs.2
  notThere _ _ _ _ h _ := h

theorem namesFile_of_place {s : Str} {p : Loc} (h : t.place [] s = some p) : NamesFile s := by
  obtain ⟨ds, m, _, hc, h1, h2, _⟩ := Tree.placeAt_iff.mp h
  rw [comps] at hc
  split at hc
  · exact absurd (List.cons.inj (List.append_inj' hc rfl).2).1.symm h1
  · rename_i hl
    rw [List.append_nil] at hc
    exact ⟨hl, m, by simp [hc], h1, h2⟩

theorem Pair.unpacked {pkg pkgfile : Str} {cwd : Loc} (h : Pair f n d x o t)
    (ha : LeavesAlone f t pkg (t.readArchive cwd pkgfile).1)
    (ha' : LeavesAlone (f ++ oldSuffix) t pkg (t.readArchive cwd pkgfile).1) :
    Pair f n d x o (unpack cwd pkgfile ['/'] pkg t) := by
  refine h.step (unpack_holds ha h.file) (fun _ ho => unpack_holds ha' ho) fun hnone => ?_
  rw [(unpack_frame ha).2 _ (old_ne_contents pkg)]
  by_contra hsome
  obtain ⟨y, hy⟩ := Option.ne_none_iff_exists'.mp hsome
  have hplace :=
    Tree.placeAt_keeps (Tree.extract_grows ha.gentle).toKeepsDirs
    (by rw [start_nil]; exact t.root) h.places.old
  obtain ⟨_, hl, hdir⟩ := ha'.untouched _ hplace
  have hyd : y ≠ .dir := by
    rintro rfl
    have := hdir (by simp [Tree.dirAt, hy])
    simp [Tree.dirAt, hnone] at this
  rw [Tree.extract_new hy hyd hl] at hnone
  simp at hnone

theorem Pair.hooked {env : Env} {e : Bool} {ls : List Str} (h : Pair f n d x o t) (hw : OneWord f)
    (hnew : t.node ((n ++ newSuffix) :: d) = some (.file e ls))
    (ha : env.new_file_action ≠ actionOVERWRITE) (lines : List Str) :
    ∃ x' o', Pair f n d x' o' (newFileHook f env [] lines t) ∧
      (x' = x ∧ o' = o ∨ replaces { env with cwd := [] } f t = true ∧ o' = some x) := by
  by_cases hl : installLine f ∈ lines
  · have ho : FileOrNone t ((n ++ oldSuffix) :: d) := by
      rw [FileOrNone, h.old]
      cases o with
      | none => exact .inl rfl
      | some y => exact .inr ⟨y.1, y.2, rfl⟩
    rw [newFileHook_line hw hl]
    by_cases hr : replaces { env with cwd := [] } f t = true
    · have hq {q : Loc} :=
        install_new_file_replaced (q := q) (rfl : ({ env with cwd := [] } : Env).cwd = []) h.places
          h.file.node hnew ho hr
      have hkeep : t.KeepsDirs (install_new_file { env with cwd := [] } [f] t).1 := by
        refine Tree.keepsDirs_of_updates
          (S := fun q => q = (n ++ newSuffix) :: d ∨ q = n :: d ∨
            q = (n ++ oldSuffix) :: d) ?_ fun q hne => ?_
        · rintro q (rfl | rfl | rfl)
          · exact Tree.leadsToDir_file hnew
          · exact Tree.leadsToDir_file h.file.node
          · exact ho.leadsToDir
        · simp only [not_or] at hne
          rw [hq hne.1, if_neg hne.2.1, if_neg hne.2.2]
      refine ⟨(e, ls), some x, ⟨⟨?_, ?_, by simp⟩, ?_⟩, .inr ⟨hr, rfl⟩⟩
      · exact Tree.placeAt_keeps hkeep (by rw [start_nil]; exact t.root) h.file.place
      · rw [hq (new_ne n d).symm, if_pos rfl]
      · rw [hq (new_ne_old n d).symm, if_neg (old_ne n d), if_pos rfl, Option.map_some]
    · have hq {q : Loc} :=
        install_new_file_kept (q := q) (rfl : ({ env with cwd := [] } : Env).cwd = []) h.places
          h.file.node hnew ha (by simpa using hr)
      have hkeep : t.KeepsDirs (install_new_file { env with cwd := [] } [f] t).1 :=
        Tree.keepsDirs_of_update (Tree.leadsToDir_file hnew) fun q hne => hq hne
      refine ⟨x, o, ⟨(h.file.keeps hkeep ?_).1, ?_⟩, .inl ⟨rfl, rfl⟩⟩
      · rw [hq (new_ne n d).symm, h.file.node]
      · rw [hq (new_ne_old n d).symm, h.old]
  · rw [newFileHook, if_neg hl]
    exact ⟨x, o, h, .inl ⟨rfl, rfl⟩⟩

theorem Pair.new_node {pkg pkgfile : Str} {cwd : Loc} {e : Bool} {ls : List Str} (hf : NamesFile f)
    (ha : LeavesAlone f t pkg (t.readArchive cwd pkgfile).1)
    (hs : t.Ships [] (t.readArchive cwd pkgfile).1 (here (f ++ newSuffix), .file e ls))
    (h : Pair f n d x o (unpack cwd pkgfile ['/'] pkg t)) :
    (unpack cwd pkgfile ['/'] pkg t).node ((n ++ newSuffix) :: d) = some (.file e ls) := by
  obtain ⟨hkeep, hnode⟩ := unpack_frame ha
  obtain ⟨p, hp, hpn⟩ := shipped_place ha.gentle ha.done hs (by simp)
    (hf.append (by decide) (by decide) fun n => append_ne_dots n newSuffix (by decide))
  have hp' := Tree.placeAt_keeps hkeep (by rw [start_nil]; exact Tree.root _) hp
  obtain rfl := Option.some.inj (h.places.new.symm.trans hp')
  rw [hnode, hpn]
  intro he
  have hlast := congrArg List.getLast? (List.cons.inj he).1
  simp [newSuffix, contentsName] at hlast

def Event.SparesBoth (f : Str) (e : Event) : Prop := e.Spares f ∧ e.Spares (f ++ oldSuffix)

instance (f : Str) : DecidablePred (Event.SparesBoth f) :=
  fun _ => inferInstanceAs (Decidable (_ ∧ _))

/-- An install or upgrade on the root `/` that brings `f` as `f.new`, in any mode but `OVERWRITE`.
-/
def InstallStep (f : Str) (env : Env) (s : Sys) (c : Command) : Prop :=
  c.installs ∧ env.new_file_action ≠ actionOVERWRITE ∧
    ∀ pkgfile pkg u, c.unpacks env s = some (pkgfile, pkg, u) →
    ∃ ls, Delivers f u.tree pkg (u.tree.readArchive env.cwd pkgfile).1 ls

def LeavingStep (f : Str) (env : Env) (s : Sys) (c : Command) : Prop :=
  ∀ q pkgfile pkg u, c.run .base (newFileHook f) env s = some q →
    c.unpacks env s = some (pkgfile, pkg, u) →
    Between (Event.SparesBoth f) s q.1 ∧
      LeavesAlone f u.tree pkg (u.tree.readArchive env.cwd pkgfile).1 ∧
      LeavesAlone (f ++ oldSuffix) u.tree pkg (u.tree.readArchive env.cwd pkgfile).1

def replacements (f : Str) (env : Env) (s : Sys) (c : Command) : Nat :=
  match c.unpacks env s with
  | none => 0
  | some (pkgfile, pkg, u) =>
      if replaces { env with cwd := [] } f (unpack env.cwd pkgfile ['/'] pkg u.tree) then 1 else 0

def KeptStep (f : Str) (env : Env) (s : Sys) (c : Command) : Prop :=
  InstallStep f env s c ∧ LeavingStep f env s c

theorem Pair.command {env : Env} {s : Sys} {c : Command} {q : Sys × Nat} (hw : OneWord f)
    (hs : KeptStep f env s c) (h : Pair f n d x o s.tree)
    (hrun : c.run .base (newFileHook f) env s = some q) : ∃ x' o', Pair f n d x' o' q.1.tree ∧
      (x' = x ∧ o' = o ∨ replacements f env s c = 1 ∧ o' = some x) := by
  obtain ⟨⟨hroot, ha, hd⟩, hl⟩ := hs
  rcases c.install_cases hroot hrun with ⟨_, hq, _⟩ | ⟨pkgfile, pkg, u, up, p, pkgs, hu, hp, hq⟩
  · rw [hq]
    exact ⟨x, o, h, .inl ⟨rfl, rfl⟩⟩
  · obtain ⟨hP, h1, h2⟩ := hl q pkgfile pkg u hrun hu
    obtain ⟨ls, ⟨e, hship⟩, _⟩ := hd pkgfile pkg u hu
    obtain ⟨hPu, _, hset⟩ := unpacks_events (c.unpacks_ok hroot hu) hp hq hP
    have hstart : Pair f n d x o u.tree := by
      rcases hset with rfl | ⟨rfl, hset⟩
      · exact h
      · rw [setAside_tree]
        exact h.setAside env.cwd hset.1 hset.2
    have hun := hstart.unpacked h1 h2
    rw [replacements, hu]
    rcases runDoinst_tree .base (newFileHook f) { env with do_upgradepkg := up } pkg
      (extracted { env with do_upgradepkg := up } ['/'] pkgfile pkg u) with ht | ⟨lines, ht⟩
    · refine ⟨x, o, (pairRule f n d x o).afterHook h1.proper.2.1 hp hq hPu ?_, .inl ⟨rfl, rfl⟩⟩
      rw [ht]
      exact hun
    · obtain ⟨x', o', hpair, hcase⟩ := hun.hooked hw
        (hun.new_node (namesFile_of_place h.places.file) h1 hship) ha lines
      refine ⟨x', o', (pairRule f n d x' o').afterHook h1.proper.2.1 hp hq hPu ?_,
        hcase.imp_right fun hr => ?_⟩
      · rw [ht]
        exact hpair
      · exact ⟨if_pos hr.1, hr.2⟩

/-- A run of commands that meet `Q` and of writes to `f`, each in a tree that meets `W`, with
what was last written and how often the file has been replaced since. -/
inductive NewFileRun (f : Str) (W : Tree → Prop) (Q : Env → Sys → Command → Prop) :
    Option (List Str) → Nat → Sys → Sys → Prop
  | start (s) : NewFileRun f W Q none 0 s s
  | write {last k s u t ls} (h : NewFileRun f W Q last k s u) (hW : W u.tree)
    (ht : u.tree.write [] f ls = some t) :
      NewFileRun f W Q (some ls) 0 s ⟨t, u.log⟩
  | command {last k s u env c q} (h : NewFileRun f W Q last k s u) (hQ : Q env u c)
      (hq : c.run .base (newFileHook f) env u = some q) :
      NewFileRun f W Q last (k + replacements f env u c) s q.1

structure Plain (f : Str) (t : Tree) : Prop where
  file : ∃ p, t.place [] f = some p ∧ FileOrNone t p
  old : ∀ p, t.place [] (f ++ oldSuffix) = some p → FileOrNone t p

theorem plain_alone {e : Bool} {ls : List Str} {p q : Loc} (hp : t.place [] f = some p)
    (hf : t.node p = some (.file e ls)) (hq : t.place [] (f ++ oldSuffix) = some q)
    (ho : t.node q = none) :
    Plain f t := by
  refine ⟨⟨p, hp, .inr ⟨e, ls, hf⟩⟩, fun q' hq' => .inl ?_⟩
  rw [← Option.some.inj (hq.symm.trans hq'), ho]

def Held (f : Str) (c : List Str) (k : Nat) (t : Tree) : Prop :=
  ∃ n d x o, Pair f n d x o t ∧ (k = 0 → x.2 = c) ∧ (k ≤ 1 → x.2 = c ∨ ∃ y, o = some y ∧ y.2 = c)

theorem held_of_write {t t' : Tree} {c : List Str} (hp : Plain f t) (h : t.write [] f c = some t') :
    Held f c 0 t' := by
  obtain ⟨p, hplace, hfile⟩ := hp.file
  obtain ⟨_, n, d, _, _, _, _, _, rfl⟩ := Tree.placeAt_iff.mp hplace
  have hpl := places_of_file hplace
  obtain ⟨e, hq⟩ := write_file hplace hfile h
  have hkeep : t.KeepsDirs t' := Tree.keepsDirs_of_update hfile.leadsToDir fun q hne =>
    by rw [hq, if_neg hne]
  have hfile' : Holds t' f (n :: d) e c :=
    ⟨Tree.placeAt_keeps hkeep (by rw [start_nil]; exact t.root) hplace, by
      rw [hq, if_pos rfl], by simp⟩
  obtain ⟨o, ho⟩ : ∃ o : Option (Bool × List Str), t.node ((n ++ oldSuffix) :: d) = o.map fun y =>
    .file y.1 y.2 := by
    rcases hp.old _ hpl.old with hn | ⟨e', ls', hn⟩
    · exact ⟨none, hn⟩
    · exact ⟨some (e', ls'), hn⟩
  exact ⟨n, d, (e, c), o, ⟨hfile', by rw [hq, if_neg (old_ne n d), ho]⟩, fun _ =>
    rfl, fun _ => .inl rfl⟩

theorem newFileRun_held {last : Option (List Str)} {k : Nat} {s q : Sys} (hw : OneWord f)
    (h : NewFileRun f (Plain f) (KeptStep f) last k s q) :
    ∀ c, last = some c → Held f c k q.tree := by
  induction h with
  | start => simp
  | write _ hW ht _ =>
      rintro c ⟨⟩
      exact held_of_write hW ht
  | command _ hQ hq ih =>
      intro c hc
      obtain ⟨n, d, x, o, hpair, h0, h1⟩ := ih c hc
      obtain ⟨x', o', hpair', hcase⟩ := hpair.command hw hQ hq
      refine ⟨n, d, x', o', hpair', ?_⟩
      rcases hcase with ⟨rfl, rfl⟩ | ⟨hr, rfl⟩
      · exact ⟨fun hk => h0 (by omega), fun hk => h1 (by omega)⟩
      · -- The first replacement: until now the content was in the file.
        exact ⟨fun hk => by omega, fun hk => .inr ⟨x, rfl, h0 (by omega)⟩⟩

def InEither (f : Str) (c : List Str) (t : Tree) : Prop :=
  t.text [] f = some c ∨ t.text [] (f ++ oldSuffix) = some c

instance (f : Str) (c : List Str) (t : Tree) : Decidable (InEither f c t) :=
  inferInstanceAs (Decidable (_ ∨ _))

/-- What the administrator last wrote is held by the file or by its old version as long as the
file has been replaced at most once since. -/
theorem last_write_held (f : Str) (c : List Str) (k : Nat) (s q : Sys) (hf : OneWord f)
    (h : NewFileRun f (Plain f) (KeptStep f) (some c) k s q) (hk : k ≤ 1) :
    InEither f c q.tree := by
  obtain ⟨n, d, x, o, hpair, _, h1⟩ := newFileRun_held hf h c rfl
  rcases h1 hk with rfl | ⟨y, rfl, rfl⟩
  · exact .inl (Tree.text_of_place hpair.places.file hpair.file.node)
  · exact .inr (Tree.text_of_place hpair.places.old hpair.old)

/-- The package `pkg` with its script, and what else it ships. -/
def shipping (f pkg : Str) (ms : List (Str × Node)) : Node :=
  .archive (ms ++ [(here (path (path pkgdb pkg) doinstName), .file true [installLine f])]) true

def laterPkg : Str := ['q']

def laterFile : Str := ['q', '.', 't', 'g', 'z']

def textFile (f line : Str) : Str × Node := (here f, .file false [line])

def twoVersions (f : Str) (beside : List (Loc × Node)) (first second : List (Str × Node)) : Sys :=
  ⟨Tree.ofList ([([varName], .dir), (pkgdbLoc [], .dir), ([f], .file false [['a']])] ++ beside ++
    [([configFile], shipping f configPkg first), ([laterFile], shipping f laterPkg second)]), []⟩

def edited (f : Str) (s : Sys) : Sys := ⟨(s.tree.write [] f [['m']]).getD s.tree, s.log⟩

def freshInstall (pkgfile : Str) : Command := .installpkg ⟨[], false, false⟩ pkgfile

def actionEnv (action : Str) : Env := ⟨[], false, action⟩

def installed (f : Str) (env : Env) (c : Command) (s : Sys) : Sys :=
  ((c.run .base (newFileHook f) env s).map Prod.fst).getD s

theorem NewFileRun.edited {f : Str} {W : Tree → Prop} {Q : Env → Sys → Command → Prop}
    {last : Option (List Str)} {k : Nat} {s u : Sys} (h : NewFileRun f W Q last k s u)
    (hW : W u.tree) (hw : (u.tree.write [] f [['m']]).isSome = true) :
    NewFileRun f W Q (some [['m']]) 0 s (edited f u) := by
  obtain ⟨t, ht⟩ := Option.isSome_iff_exists.mp hw
  rw [Pkgtools.edited, ht]
  exact h.write hW ht

theorem NewFileRun.installed {f : Str} {W : Tree → Prop} {Q : Env → Sys → Command → Prop}
    {last : Option (List Str)} {k : Nat} {s u : Sys} (h : NewFileRun f W Q last k s u) (env : Env)
    {c : Command} (hQ : Q env u c) (hr : (c.run .base (newFileHook f) env u).isSome = true) :
    NewFileRun f W Q last (k + replacements f env u c) s (installed f env c u) := by
  obtain ⟨q, hq⟩ := Option.isSome_iff_exists.mp hr
  rw [Pkgtools.installed, hq]
  exact h.command hQ hq

instance (f : Str) (env : Env) (s : Sys) (c : Command) : Decidable (LeavingStep f env s c) :=
  decidable_of_iff (∀ q ∈ c.run .base (newFileHook f) env s, ∀ u ∈ c.unpacks env s,
      Between (Event.SparesBoth f) s q.1 ∧
        LeavesAlone f u.2.2.tree u.2.1 (u.2.2.tree.readArchive env.cwd u.1).1 ∧
        LeavesAlone (f ++ oldSuffix) u.2.2.tree u.2.1 (u.2.2.tree.readArchive env.cwd u.1).1)
    ⟨fun h q pkgfile pkg u hq hu => h q hq (pkgfile, pkg, u) hu, fun h q hq u hu =>
      h q u.1 u.2.1 u.2.2 hq hu⟩

theorem installpkg_step {f pkgfile : Str} {env : Env} {o : Options} {s : Sys} (pkg : Str)
    (ls : List Str) (hroot : rootOr o.root_dir = ['/']) (ha : env.new_file_action ≠ actionOVERWRITE)
    (hn : pkgnameOf (echo s.tree env.cwd pkgfile) = pkg)
    (hd : Delivers f s.tree pkg (s.tree.readArchive env.cwd pkgfile).1 ls)
    (hset : o.do_reinstall = true →
      Delivers f (setAside env ['/'] pkg s).tree pkg
      ((setAside env ['/'] pkg s).tree.readArchive env.cwd pkgfile).1 ls) :
    InstallStep f env s (.installpkg o pkgfile) := by
  subst hn
  refine ⟨hroot, ha, fun pkgfile' pkg u hu => ?_⟩
  rw [Command.unpacks] at hu
  cases hacc : accepted env o pkgfile s with
  | error _ => simp [hacc, Except.toOption] at hu
  | ok v =>
      obtain ⟨rfl, rfl, rfl⟩ : pkgfile = pkgfile' ∧
        pkgnameOf (echo s.tree env.cwd pkgfile) = pkg ∧ v = u := by
        simpa [hacc, Except.toOption] using hu
      rcases accepted_ok hacc with rfl | ⟨h, _, rfl⟩
      · exact ⟨ls, hd⟩
      · rw [hroot]
        exact ⟨ls, hset h⟩

theorem freshInstall_step {f pkgfile : Str} {env : Env} {s : Sys} (pkg : Str) (ls : List Str)
    (ha : env.new_file_action ≠ actionOVERWRITE)
    (hn : pkgnameOf (echo s.tree env.cwd pkgfile) = pkg)
    (hd : Delivers f s.tree pkg (s.tree.readArchive env.cwd pkgfile).1 ls) :
    InstallStep f env s (freshInstall pkgfile) :=
  installpkg_step pkg ls rfl ha hn hd nofun

def twoConfigs (beside : List (Loc × Node)) : Sys := twoVersions configName beside
  [textFile (configName ++ newSuffix) ['b']] [textFile (configName ++ newSuffix) ['c']]

def replacedOnce (beside : List (Loc × Node)) : Sys :=
  installed configName (actionEnv actionREPLACE) (freshInstall configFile)
    (edited configName (twoConfigs beside))

theorem replacedOnce_run :
    NewFileRun configName (Plain configName) (KeptStep configName) (some [['m']])
    (0 + replacements configName (actionEnv actionREPLACE) (edited configName (twoConfigs []))
      (freshInstall configFile))
    (twoConfigs []) (replacedOnce []) := by
  refine ((NewFileRun.start (twoConfigs [])).edited (plain_alone (p := [configName])
    (q := [configName ++ oldSuffix]) (by decide) rfl (by decide) rfl) (by decide)).installed _
    ⟨?_, by decide⟩ (by decide)
  exact freshInstall_step _ [['b']] (by decide) (by decide)
    ⟨⟨false, [], _, rfl, by decide⟩, ⟨_, ⟨[_], [], rfl, by decide⟩, by decide⟩⟩

theorem replacedOnce_delivers : Delivers configName (replacedOnce []).tree laterPkg
    ((replacedOnce []).tree.readArchive [] laterFile).1 [['c']] :=
  ⟨⟨false, [], _, rfl, by decide⟩, ⟨_, ⟨[_], [], rfl, by decide⟩, by decide⟩⟩

theorem last_write_held_kept : InEither configName [['m']]
    (installed configName (actionEnv []) (freshInstall laterFile) (replacedOnce [])).tree :=
  last_write_held configName [['m']] _ _ _ (by decide) (replacedOnce_run.installed _
    ⟨freshInstall_step _ _ (by decide) (by decide) replacedOnce_delivers, by
      decide⟩ (by decide)) (by decide)

/-- `*o[l]d`, a pattern that matches the name of its own old version. -/
def globName : Str := ['*', 'o', '[', 'l', ']', 'd']

def twoGlobs : Sys := twoVersions globName [] [textFile (globName ++ newSuffix) ['b']]
  [textFile (globName ++ newSuffix) ['b'], textFile (globName ++ oldSuffix ++ newSuffix) ['c']]

def globOnce : Sys :=
  installed globName (actionEnv actionREPLACE) (freshInstall configFile) (edited globName twoGlobs)

theorem globOnce_run : NewFileRun globName (Plain globName) (KeptStep globName) (some [['m']])
    (0 + replacements globName (actionEnv actionREPLACE) (edited globName twoGlobs)
      (freshInstall configFile))
    twoGlobs globOnce := by
  refine ((NewFileRun.start twoGlobs).edited (plain_alone (p := [globName])
    (q := [globName ++ oldSuffix]) (by decide) rfl (by decide) rfl) (by decide)).installed _
    ⟨?_, by decide⟩ (by decide)
  exact freshInstall_step _ [['b']] (by decide) (by decide)
    ⟨⟨false, [], _, rfl, by decide⟩, ⟨_, ⟨[_], [], rfl, by decide⟩, by decide⟩⟩

/-- Two replacements lose what was written. So does one where the old version is a directory, a
replaced package that lists the file itself, and a name that the shell expands. -/
theorem last_write_lost :
    (¬ ∀ f c k s q, OneWord f → NewFileRun f (Plain f) (KeptStep f) (some c) k s q →
      InEither f c q.tree) ∧
    (¬ ∀ f c k s q, OneWord f → k ≤ 1 → NewFileRun f (fun _ => True) (KeptStep f) (some c) k s q →
      InEither f c q.tree) ∧
    (¬ ∀ f c k s q, OneWord f → k ≤ 1 → NewFileRun f (Plain f) (InstallStep f) (some c) k s q →
      InEither f c q.tree) ∧
    ¬ ∀ f c k s q, k ≤ 1 → NewFileRun f (Plain f) (KeptStep f) (some c) k s q →
    InEither f c q.tree := by
  refine ⟨fun h => ?_, fun h => ?_, fun h => ?_, fun h => ?_⟩
  · have hlost :=
      h configName [['m']] _ _ _ (by decide) (replacedOnce_run.installed (actionEnv actionREPLACE)
      (c := freshInstall laterFile)
      ⟨freshInstall_step _ _ (by decide) (by decide) replacedOnce_delivers, by decide⟩ (by decide))
    exact absurd hlost (by decide)
  · have hlost := h configName [['m']] _ (twoConfigs [([configName ++ oldSuffix], .dir)])
      (replacedOnce [([configName ++ oldSuffix], .dir)]) (by decide) (by decide)
      (((NewFileRun.start _).edited trivial (by decide)).installed _
        ⟨freshInstall_step configPkg [['b']] (by decide) (by decide)
          ⟨⟨false, [], _, rfl, by decide⟩, ⟨_, ⟨[_], [], rfl, by decide⟩, by decide⟩⟩,
            by decide⟩ (by decide))
    exact absurd hlost (by decide)
  · have hlost := h configName [['m']] _ (configSys true)
      (installed configName configEnv configReinstall (edited configName (configSys true)))
        (by decide) (by decide)
      (((NewFileRun.start _).edited (plain_alone (p := [configName])
        (q := [configName ++ oldSuffix]) (by decide) rfl (by decide) rfl) (by decide)).installed _
        (installpkg_step configPkg [['b']] rfl (by decide) (by decide)
          ⟨⟨false, [], _, rfl, by decide⟩, ⟨_, ⟨[_], [], rfl, by decide⟩, by decide⟩⟩
          fun _ => ⟨⟨false, [], _, rfl, by decide⟩,
            ⟨_, ⟨[_], [], rfl, by decide⟩, by decide⟩⟩) (by decide))
    exact absurd hlost (by decide)
  · have hlost :=
      h globName [['m']] _ _ _ (by decide) (globOnce_run.installed (actionEnv actionREPLACE)
      (c := freshInstall laterFile)
      ⟨freshInstall_step laterPkg [['b']] (by decide) (by decide)
        ⟨⟨false, [], _, rfl, by decide⟩, ⟨_, ⟨[_, _], [], rfl, by decide⟩, by decide⟩⟩,
          by decide⟩ (by decide))
    exact absurd hlost (by decide)

end Fidelix.Pkgtools
