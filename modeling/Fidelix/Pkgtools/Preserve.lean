import Fidelix.Pkgtools.NewFile
import Fidelix.Pkgtools.Ownership

namespace Fidelix.Pkgtools

open Text Files

/-- `pkgtool install-new-file`. -/
def installNewFileCommand : Str :=
  ['p', 'k', 'g', 't', 'o', 'o', 'l', ' ', 'i', 'n', 's', 't', 'a', 'l', 'l', '-',
  'n', 'e', 'w', '-', 'f', 'i', 'l', 'e']

def installLine (f : Str) : Str := installNewFileCommand ++ ' ' :: f

/-- Scripts that do nothing, or run `pkgtool install-new-file f`. -/
def newFileHook (f : Str) : Hook := fun env cwd lines t =>
  if installLine f ∈ lines
    then (pkgtool { env with cwd := cwd } (some .installNewFile) [f] t).1 else t

/-- `NEW_FILE_ACTION` is neither `OVERWRITE` nor `REPLACE`. -/
def KeepsFiles (env : Env) : Prop :=
  env.new_file_action ≠ actionOVERWRITE ∧ env.new_file_action ≠ actionREPLACE

theorem newFileHook_line {f : Str} (hf : OneWord f) {lines : List Str} (h : installLine f ∈ lines)
    (env : Env) (cwd : Loc) (t : Tree) :
    newFileHook f env cwd lines t = (install_new_file { env with cwd := cwd } [f] t).1 := by
  rw [newFileHook, if_pos h, pkgtool, List.flatMap_cons, expand_oneWord _ _ hf]
  rfl

theorem install_new_file_held (env : Env) {t : Tree} {f n : Str} {d : Loc} {e : Bool}
    {ls : List Str} (hp : t.place env.cwd f = some (n :: d))
    (hn : t.node (n :: d) = some (.file e ls)) (hk : KeepsFiles env) :
    t.KeepsDirs (install_new_file env [f] t).1 ∧
      (install_new_file env [f] t).1.node (n :: d) = some (.file e ls) := by
  have hdots := append_ne_dots n newSuffix (by decide)
  have hnew := Tree.place_append hp (by decide : '/' ∉ newSuffix) hdots.1 hdots.2
  have hpres : t.present env.cwd f = true := Tree.present_of_place hp hn
  rw [install_new_file]
  simp only [hpres, Bool.true_eq_false, if_false, hk.1, hk.2]
  split
  · exact ⟨.refl t, hn⟩
  · split
    · rename_i hs
      rw [Tree.rm, hnew]
      simp only
      cases hu : t.unlink ((n ++ newSuffix) :: d) with
      | none => exact ⟨.refl t, hn⟩
      | some u =>
          have hld : t.leadsToDir ((n ++ newSuffix) :: d) = false := by
            rw [sameText] at hs
            split at hs
            · exact not_leadsToDir_of_text hnew ‹_›
            · simp at hs
          refine ⟨Tree.keepsDirs_of_update hld fun q hq => ?_, ?_⟩
          · rw [Option.getD_some, Tree.unlink_node hu, if_neg hq]
          · rw [Option.getD_some, Tree.unlink_node hu, if_neg (new_ne n d).symm, hn]
    · exact ⟨.refl t, hn⟩

theorem install_new_file_placed (env : Env) {t : Tree} {f n : Str} {d : Loc} {e : Bool}
    {ls : List Str} (hp : t.place env.cwd f = some (n :: d)) (hn : t.node (n :: d) = none)
    (hnew : t.node ((n ++ newSuffix) :: d) = some (.file e ls)) :
    t.KeepsDirs (install_new_file env [f] t).1 ∧
      (install_new_file env [f] t).1.node (n :: d) = some (.file e ls) := by
  have hdots := append_ne_dots n newSuffix (by decide)
  have hpnew := Tree.place_append hp (by decide : '/' ∉ newSuffix) hdots.1 hdots.2
  have hpres : t.present env.cwd (f ++ newSuffix) = true := Tree.present_of_place hpnew hnew
  have hno : t.present env.cwd f = false := Tree.present_of_none hp hn
  obtain ⟨u, hu, hq⟩ := Tree.mv_file hpnew hp (new_ne n d) hnew (Tree.leadsToDir_none hn)
  rw [install_new_file]
  simp only [hpres, hno, Bool.true_eq_false, if_false, if_true]
  rw [hu, statusOf]
  refine ⟨Tree.keepsDirs_of_updates (S := fun q => q = n :: d ∨
    q = (n ++ newSuffix) :: d) ?_ fun q h => ?_, ?_⟩
  · rintro q (rfl | rfl)
    · exact Tree.leadsToDir_none hn
    · exact Tree.leadsToDir_file hnew
  · rw [not_or] at h
    rw [hq, if_neg h.1, if_neg h.2]
  · rw [hq, if_pos rfl]

def Holds (t : Tree) (f : Str) (p : Loc) (e : Bool) (ls : List Str) : Prop :=
  t.Stands f p (.file e ls)

theorem hook_holds {env : Env} {f : Str} {t : Tree} {p : Loc} {e : Bool} {ls : List Str}
    (hf : OneWord f) (hk : KeepsFiles env) (h : Holds t f p e ls) (lines : List Str) :
    Holds (newFileHook f env [] lines t) f p e ls := by
  by_cases hl : installLine f ∈ lines
  · obtain ⟨_, n, d, _, _, _, _, _, rfl⟩ := Tree.placeAt_iff.mp h.place
    obtain ⟨hkeep, hnode⟩ := install_new_file_held { env with cwd := [] } h.place h.node hk
    rw [newFileHook_line hf hl]
    exact (h.keeps hkeep hnode).1
  · rw [newFileHook, if_neg hl]
    exact h

theorem proper_doinst : ProperName doinstName := by decide

theorem namesFile_entryFile (pkg : Str) {file : Str} (hf : ProperName file) :
    NamesFile (path (path pkgdb pkg) file) := by
  refine ⟨?_, file, ?_, hf.2.2.1, hf.2.2.2⟩
  · rw [getLast?_path _ hf.1]
    exact fun hl => hf.2.1 (List.mem_of_getLast? hl)
  · rw [path, names_append_slash, names_of_not_mem file hf.1 hf.2.1, List.getLast?_concat]
    simp

structure SparesUninstall (f : Str) (t : Tree) (pkg : Str) : Prop where
  proper : ProperName pkg
  entry : t.dirAt (entryLoc [] pkg) = true
  up : dotdot ∉ names f
  out : OutOf t pkg f
  shared : OnlyShared t pkg f

instance (f : Str) (t : Tree) (pkg : Str) : Decidable (SparesUninstall f t pkg) :=
  decidable_of_iff (ProperName pkg ∧ t.dirAt (entryLoc [] pkg) = true ∧ dotdot ∉ names f ∧
    OutOf t pkg f ∧
      OnlyShared t pkg f)
    ⟨fun ⟨h1, h2, h3, h4, h5⟩ => ⟨h1, h2, h3, h4, h5⟩, fun ⟨h1, h2, h3, h4, h5⟩ =>
      ⟨h1, h2, h3, h4, h5⟩⟩

structure SparesSetAside (f : Str) (t : Tree) (pkg : Str) : Prop where
  proper : ProperName pkg
  db : t.dirAt (pkgdbLoc []) = true
  free : (t.node (entryLoc [] (pkg ++ oldpkgSuffix))).isNone = true
  out : OutOf t pkg f

instance (f : Str) (t : Tree) (pkg : Str) : Decidable (SparesSetAside f t pkg) :=
  decidable_of_iff (ProperName pkg ∧ t.dirAt (pkgdbLoc []) = true ∧
      (t.node (entryLoc [] (pkg ++ oldpkgSuffix))).isNone = true ∧ OutOf t pkg f)
    ⟨fun ⟨h1, h2, h3, h4⟩ => ⟨h1, h2, h3, h4⟩, fun ⟨h1, h2, h3, h4⟩ => ⟨h1, h2, h3, h4⟩⟩

def Event.Spares (f : Str) : Event → Prop
  | .setAside t _ pkg => SparesSetAside f t pkg
  | .uninstall t _ pkg => SparesUninstall f t pkg
  | .extract _ _ _ _ _ | .doinst _ => True
  | .douninst _ => False

instance (f : Str) : DecidablePred (Event.Spares f)
  | .setAside t _ pkg => inferInstanceAs (Decidable (SparesSetAside f t pkg))
  | .uninstall t _ pkg => inferInstanceAs (Decidable (SparesUninstall f t pkg))
  | .extract _ _ _ _ _ | .doinst _ => instDecidableTrue
  | .douninst _ => instDecidableFalse

/-- The extraction leaves alone what is at `f`, and does not lead `f` to anything
that was somewhere else at the start of the command. -/
structure SparesExtract (f : Str) (start t : Tree) (pkg : Str) (ms : List (Str × Node)) : Prop where
  proper : ProperName pkg
  word : OneWord pkg
  done : (t.extract [] ms).2 = true
  gentle : t.gentleAll [] ms = true
  db : (t.extract [] ms).1.dirAt (pkgdbLoc []) = true
  entry : (t.extract [] ms).1.linkAt (entryLoc [] pkg) = false
  contents : (t.extract [] ms).1.linkAt (contentsLoc [] pkg) = false
  untouched : ∀ p ∈ (t.extract [] ms).1.place [] f, p ≠ contentsLoc [] pkg ∧ p ∉ t.landings [] ms
  steady : ∀ p ∈ (t.extract [] ms).1.place [] f,
    (start.place [] f = some p ∨ (start.node p).isNone = true) ∧
    (t.extract [] ms).1.dirAt p = false ∧ ¬ entryLoc [] (pkg ++ oldpkgSuffix) <:+ p

instance (f : Str) (start t : Tree) (pkg : Str) (ms : List (Str × Node)) :
    Decidable (SparesExtract f start t pkg ms) :=
  decidable_of_iff (ProperName pkg ∧ OneWord pkg ∧ (t.extract [] ms).2 = true ∧
    t.gentleAll [] ms = true ∧
      (t.extract [] ms).1.dirAt (pkgdbLoc []) = true ∧
        (t.extract [] ms).1.linkAt (entryLoc [] pkg) = false ∧
      (t.extract [] ms).1.linkAt (contentsLoc [] pkg) = false ∧
      (∀ p ∈ (t.extract [] ms).1.place [] f, p ≠ contentsLoc [] pkg ∧ p ∉ t.landings [] ms) ∧
      ∀ p ∈ (t.extract [] ms).1.place [] f,
        (start.place [] f = some p ∨ (start.node p).isNone = true) ∧
        (t.extract [] ms).1.dirAt p = false ∧ ¬ entryLoc [] (pkg ++ oldpkgSuffix) <:+ p)
    ⟨fun ⟨h1, h2, h3, h4, h5, h6, h7, h8, h9⟩ => ⟨h1, h2, h3, h4, h5, h6, h7, h8, h9⟩,
      fun ⟨h1, h2, h3, h4, h5, h6, h7, h8, h9⟩ => ⟨h1, h2, h3, h4, h5, h6, h7, h8, h9⟩⟩

/-- The extraction succeeds and leaves alone what is at `f`. -/
structure LeavesAlone (f : Str) (t : Tree) (pkg : Str) (ms : List (Str × Node)) : Prop where
  proper : ProperName pkg
  done : (t.extract [] ms).2 = true
  gentle : t.gentleAll [] ms = true
  db : (t.extract [] ms).1.dirAt (pkgdbLoc []) = true
  entry : (t.extract [] ms).1.linkAt (entryLoc [] pkg) = false
  contents : (t.extract [] ms).1.linkAt (contentsLoc [] pkg) = false
  untouched : ∀ p ∈ (t.extract [] ms).1.place [] f, p ≠ contentsLoc [] pkg ∧ p ∉ t.landings [] ms ∧
    ((t.extract [] ms).1.dirAt p = true → t.dirAt p = true)

instance (f : Str) (t : Tree) (pkg : Str) (ms : List (Str × Node)) :
    Decidable (LeavesAlone f t pkg ms) :=
  decidable_of_iff (ProperName pkg ∧ (t.extract [] ms).2 = true ∧ t.gentleAll [] ms = true ∧
      (t.extract [] ms).1.dirAt (pkgdbLoc []) = true ∧
        (t.extract [] ms).1.linkAt (entryLoc [] pkg) = false ∧
      (t.extract [] ms).1.linkAt (contentsLoc [] pkg) = false ∧
      ∀ p ∈ (t.extract [] ms).1.place [] f, p ≠ contentsLoc [] pkg ∧ p ∉ t.landings [] ms ∧
        ((t.extract [] ms).1.dirAt p = true → t.dirAt p = true))
    ⟨fun ⟨h1, h2, h3, h4, h5, h6, h7⟩ => ⟨h1, h2, h3, h4, h5, h6, h7⟩,
      fun ⟨h1, h2, h3, h4, h5, h6, h7⟩ => ⟨h1, h2, h3, h4, h5, h6, h7⟩⟩

theorem SparesExtract.leavesAlone {f : Str} {start t : Tree} {pkg : Str} {ms : List (Str × Node)}
    (h : SparesExtract f start t pkg ms) : LeavesAlone f t pkg ms :=
  ⟨h.proper, h.done, h.gentle, h.db, h.entry, h.contents, fun p hp =>
    ⟨(h.untouched p hp).1, (h.untouched p hp).2, fun hd =>
      absurd hd (by simp [(h.steady p hp).2.1])⟩⟩

/-- The archive has `f` as `f.new` with the given text, and a script that installs it. -/
structure Delivers (f : Str) (t : Tree) (pkg : Str) (ms : List (Str × Node))
    (ls : List Str) : Prop where
  new : ∃ e, t.Ships [] ms (here (f ++ newSuffix), .file e ls)
  script : ∃ lines, t.Ships [] ms (here (path (path pkgdb pkg) doinstName), .file true lines) ∧
    installLine f ∈ lines

theorem uninstall_holds {f : Str} {t t' : Tree} {pkg : Str} {p : Loc} {e : Bool} {ls : List Str}
    (h : Holds t f p e ls) (hs : SparesUninstall f t pkg)
    (hu : uninstall [] (contentsFiles t []) pkg t = some t') : Holds t' f p e ls := by
  have hdir : t.node (entryLoc [] pkg) = some .dir := by simpa using hs.entry
  have hdb : t.node (pkgdbLoc []) = some .dir := t.parent pkg _ (by rw [← entryLoc, hdir]; rfl)
  refine uninstall_stands hs.proper hdb hu rfl h hs.up (hs.out p h.place) fun hd g hg hgp => ?_
  obtain ⟨o, _, ho⟩ := hs.shared p h.place hd g hg hgp
  exact ⟨o, ho⟩

theorem setAside_holds {f : Str} {t : Tree} {pkg : Str} {p : Loc} {e : Bool} {ls : List Str}
    (cwd : Loc) (h : Holds t f p e ls) (hs : SparesSetAside f t pkg) :
    Holds ((t.mv cwd (entryIn ['/'] pkg) (entryIn ['/'] (pkg ++ oldpkgSuffix))).getD t)
      f p e ls := by
  rw [setAside_cases hs.proper (by simpa using hs.db) (by simpa using hs.free)]
  cases hr : t.rename (entryLoc [] pkg) (entryLoc [] (pkg ++ oldpkgSuffix)) with
  | none => exact h
  | some u =>
      have hout := hs.out p h.place
      exact h.rename hr (hout p (by simp)) fun q hq => hout q (by simp [hq])

theorem setAside_node {f : Str} {t : Tree} {pkg : Str} (cwd : Loc) (hs : SparesSetAside f t pkg)
    {q : Loc} {x : Node} (hq : ¬ entryLoc [] (pkg ++ oldpkgSuffix) <:+ q)
    (h : ((t.mv cwd (entryIn ['/'] pkg) (entryIn ['/'] (pkg ++ oldpkgSuffix))).getD
      t).node q = some x) :
    t.node q = some x := by
  rw [setAside_cases hs.proper (by simpa using hs.db) (by simpa using hs.free)] at h
  cases hr : t.rename (entryLoc [] pkg) (entryLoc [] (pkg ++ oldpkgSuffix)) with
  | none => rwa [hr] at h
  | some u =>
      rw [hr, Option.getD_some, Tree.rename_node hr, if_neg hq] at h
      split at h
      · simp at h
      · exact h

section

variable {f : Str} {start t : Tree} {cwd : Loc} {pkgfile pkg : Str}

section

variable (hs : LeavesAlone f t pkg (t.readArchive cwd pkgfile).1)

include hs

theorem unpack_frame :
    (t.extract [] (t.readArchive cwd pkgfile).1).1.KeepsDirs (unpack cwd pkgfile ['/'] pkg t) ∧
    ∀ q, q ≠ contentsLoc [] pkg →
      (unpack cwd pkgfile ['/'] pkg t).node q =
        (t.extract [] (t.readArchive cwd pkgfile).1).1.node q := by
  rcases unpack_cases hs.proper (by simpa using hs.db) (Tree.linkAt_false hs.entry)
    (Tree.linkAt_false hs.contents)
    with ⟨hu, _⟩ | ⟨e, hld, hput⟩
  · rw [hu]
    exact ⟨.refl _, fun _ _ => rfl⟩
  · exact ⟨(Tree.put_grows hput hld (by simp)).toKeepsDirs, fun q hq =>
      by rw [Tree.put_node hput, if_neg hq]⟩

theorem unpack_holds {p : Loc} {e : Bool} {ls : List Str} (h : Holds t f p e ls) :
    Holds (unpack cwd pkgfile ['/'] pkg t) f p e ls := by
  have hkeep := (Tree.extract_grows hs.gentle).toKeepsDirs
  have hplace := Tree.placeAt_keeps hkeep (by rw [start_nil]; exact t.root) h.place
  obtain ⟨hc, hl, _⟩ := hs.untouched p hplace
  obtain ⟨hkeep', hnode⟩ := unpack_frame hs
  have hu := (h.keeps hkeep (Tree.extract_unlanded h.node hl)).1
  exact (hu.keeps hkeep' (by rw [hnode p hc]; exact hu.node)).1

end

theorem shipped_place {ms : List (Str × Node)} {s : Str} {x : Node} (hg : t.gentleAll [] ms = true)
    (hdone : (t.extract [] ms).2 = true) (hship : t.Ships [] ms (here s, x)) (hx : x ≠ .dir)
    (hn : NamesFile s) :
    ∃ p, (t.extract [] ms).1.place [] s = some p ∧ (t.extract [] ms).1.node p = some x := by
  obtain ⟨n, hlast, h1, h2⟩ := hn.member
  obtain ⟨p, hp, hnode⟩ := Tree.extract_shipped t.root hg hship hx hlast h1 h2 (Prod.ext rfl hdone)
  exact ⟨p, (Tree.place_member _ hn).trans hp, hnode⟩

theorem unpack_delivers {ls : List Str}
    (hs : SparesExtract f start t pkg (t.readArchive cwd pkgfile).1)
    (hd : Delivers f t pkg (t.readArchive cwd pkgfile).1 ls) (hf : NamesFile f)
    (hback : ∀ q x, ¬ entryLoc [] (pkg ++ oldpkgSuffix) <:+ q → t.node q = some x →
      start.node q = some x)
    (habs : ∀ p ∈ start.place [] f, start.node p = none) :
    (∃ n d e, (unpack cwd pkgfile ['/'] pkg t).place [] f = some (n :: d) ∧
      (unpack cwd pkgfile ['/'] pkg t).node (n :: d) = none ∧
      (unpack cwd pkgfile ['/'] pkg t).node ((n ++ newSuffix) :: d) = some (.file e ls)) ∧
    ∃ lines,
      (unpack cwd pkgfile ['/'] pkg t).isExec [] (here (path (path pkgdb pkg) doinstName)) = true ∧
      (unpack cwd pkgfile ['/'] pkg t).text []
        (here (path (path pkgdb pkg) doinstName)) = some lines ∧
      installLine f ∈ lines := by
  obtain ⟨hkeep, hnode⟩ := unpack_frame hs.leavesAlone
  have hplace {s : Str} {p : Loc}
      (h : (t.extract [] (t.readArchive cwd pkgfile).1).1.place [] s = some p) :
      (unpack cwd pkgfile ['/'] pkg t).place [] s = some p :=
    Tree.placeAt_keeps hkeep (by rw [start_nil]; exact Tree.root _) h
  constructor
  · obtain ⟨e, hship⟩ := hd.new
    obtain ⟨q, hq, hqn⟩ := shipped_place hs.gentle hs.done hship (by simp)
      (hf.append (by decide) (by decide) fun n => append_ne_dots n newSuffix (by decide))
    obtain ⟨n, d, rfl, hp⟩ := Tree.place_of_append hf (by decide) hq
    obtain ⟨hc, hl⟩ := hs.untouched _ hp
    obtain ⟨hfresh, hdir, hold⟩ := hs.steady _ hp
    have hstart : start.node (n :: d) = none := by
      rcases hfresh with h | h
      · exact habs _ h
      · simpa using h
    refine ⟨n, d, e, hplace hp, ?_, ?_⟩
    · rw [hnode _ hc]
      by_contra hsome
      obtain ⟨x, hx⟩ := Option.ne_none_iff_exists'.mp hsome
      have hxd : x ≠ .dir := by
        rintro rfl
        simp [Tree.dirAt, hx] at hdir
      have := hback _ x hold (Tree.extract_new hx hxd hl)
      rw [hstart] at this
      simp at this
    · rw [hnode, hqn]
      intro he
      have hlast := congrArg List.getLast? (List.cons.inj he).1
      simp [newSuffix, contentsName] at hlast
  · obtain ⟨lines, hship, hline⟩ := hd.script
    obtain ⟨q, hq, hqn⟩ :=
      shipped_place hs.gentle hs.done hship (by simp) (namesFile_entryFile pkg proper_doinst)
    obtain ⟨rfl, _⟩ :=
      place_entryFile_inv hs.proper proper_doinst (by simpa using hs.db)
      (Tree.linkAt_false hs.entry) hq
    have hqn' : (unpack cwd pkgfile ['/'] pkg t).node (doinstName :: entryLoc [] pkg) =
      some (.file true lines) := by
      rw [hnode _ (by simp [contentsLoc, doinstName, contentsName]), hqn]
    refine ⟨lines, ?_, ?_, hline⟩
    · rw [Tree.isExec, stat_here _ (path_ne_nil _ _), Tree.stat_of_place (hplace hq),
        Tree.deref_of_node hqn' (by simp), Option.bind_some, hqn']
    · rw [Tree.text, stat_here _ (path_ne_nil _ _), Tree.stat_of_place (hplace hq),
        Tree.deref_of_node hqn' (by simp), Option.bind_some, hqn']

end

theorem relist_holds {f : Str} {t : Tree} {p : Loc} {e : Bool} {ls : List Str} (cwd : Loc)
    (name : Str) {pkg : Str} (h : Holds t f p e ls)
    (hs : SparesUninstall f (renameLines t cwd (path (entryIn ['/'] pkg) contentsName) name) pkg) :
    Holds (renameLines t cwd (path (entryIn ['/'] pkg) contentsName) name) f p e ls := by
  have hdir := relisted_entry (by simpa using hs.entry)
  rcases renameLines_cases t cwd (path (entryIn ['/'] pkg) contentsName) name
    with hr | ⟨q, e', ls', hq, hl, hput⟩
  · rwa [hr]
  · rw [entryFile_slash, place_slash t cwd (path_ne_nil _ _),
      place_entryFile hs.proper proper_contents hdir] at hq
    obtain rfl := Option.some.inj hq
    have hkeep := (Tree.put_grows hput hl (by simp)).toKeepsDirs
    have hp := Tree.placeAt_keeps hkeep (by rw [start_nil]; exact t.root) h.place
    have hne : p ≠ contentsName :: entryLoc [] pkg := by
      rintro rfl
      exact hs.out _ hp _ (by simp) ⟨[contentsName], rfl⟩
    exact (h.keeps hkeep (by rw [Tree.put_node hput, if_neg hne]; exact h.node)).1

theorem heldRule (f : Str) (p : Loc) (e : Bool) (ls : List Str) :
    Rule (newFileHook f) (Event.Spares f)
    (fun _ t => Holds t f p e ls) (fun t => Holds t f p e ls) where
  undisturbed := .inr fun _ h => h
  toRemove _ _ h := h
  remove _ _ _ h hs hu := uninstall_holds h hs hu
  relist _ _ cwd name h hs := relist_holds cwd name h hs
  notThere _ _ _ _ h _ := h

inductive Action
  | edit (g : Tree → Tree)
  | run (env : Env) (c : Command)

def AlongActions (hook : Hook) (Q : Env → Sys → Command → Prop) : List Action → Sys → Prop
  | [], _ => True
  | .edit g :: as, s => AlongActions hook Q as (s.onTree g)
  | .run env c :: as, s => Q env s c ∧ ∀ q, c.run .base hook env s = some q →
  AlongActions hook Q as q.1

/-- An install or upgrade on the root `/` that keeps modified files. -/
def KeepingStep (env : Env) (_ : Sys) (c : Command) : Prop := c.installs ∧ KeepsFiles env

/-- The steps of a command that brings `f` as `f.new` leave `f` alone. -/
def SparingStep (f : Str) (env : Env) (s : Sys) (c : Command) : Prop :=
  ∀ q pkgfile pkg u ls, c.run .base (newFileHook f) env s = some q →
    c.unpacks env s = some (pkgfile, pkg, u) →
    Delivers f u.tree pkg (u.tree.readArchive env.cwd pkgfile).1 ls →
    Between (Event.Spares f) s q.1 ∧
      SparesExtract f s.tree u.tree pkg (u.tree.readArchive env.cwd pkgfile).1

/-- A command that brings `f` as `f.new` keeps the file that it finds, or puts the new one there. -/
def PreservedStep (f : Str) (env : Env) (s : Sys) (c : Command) : Prop :=
  ∀ q pkgfile pkg u ls, c.run .base (newFileHook f) env s = some q →
    c.unpacks env s = some (pkgfile, pkg, u) →
    Delivers f u.tree pkg (u.tree.readArchive env.cwd pkgfile).1 ls →
    (∀ p e old, Holds s.tree f p e old → Holds q.1.tree f p e old) ∧
    ((∀ p ∈ s.tree.place [] f, s.tree.node p = none) → ∃ p e, Holds q.1.tree f p e ls)

theorem step_preserved {f : Str} (hw : OneWord f) (hf : NamesFile f) {env : Env} {s : Sys}
    {c : Command} (hk : KeepingStep env s c) (h : SparingStep f env s c) :
    PreservedStep f env s c := by
  intro q pkgfile pkg u ls hrun hu hd
  obtain ⟨hP, hx⟩ := h q pkgfile pkg u ls hrun hu hd
  rcases c.install_cases hk.1 hrun with ⟨hno, _⟩ | ⟨pkgfile', pkg', u', up, p, pkgs, hu', hp, hq⟩
  · rw [hno] at hu
    simp at hu
  · obtain ⟨rfl, rfl, rfl⟩ : pkgfile' = pkgfile ∧ pkg' = pkg ∧ u' = u :=
      by simpa [hu] using hu'.symm
    obtain ⟨hPu, _, hset⟩ := unpacks_events (c.unpacks_ok hk.1 hu) hp hq hP
    have hk' : KeepsFiles { env with do_upgradepkg := up } := hk.2
    constructor
    · intro r e old hold
      have hstart : Holds u'.tree f r e old := by
        rcases hset with rfl | ⟨rfl, hset⟩
        · exact hold
        · rw [setAside_tree]
          exact setAside_holds env.cwd hold hset
      refine (heldRule f r e old).afterHook hx.proper.2.1 hp hq hPu ?_
      have hun := unpack_holds hx.leavesAlone hstart
      rcases runDoinst_tree .base (newFileHook f) { env with do_upgradepkg := up } pkg'
        (extracted { env with do_upgradepkg := up } ['/'] pkgfile' pkg' u') with ht | ⟨lines, ht⟩
      · rw [ht]
        exact hun
      · rw [ht]
        exact hook_holds hw hk' hun lines
    · intro habs
      have hback (q : Loc) (x : Node) (hq : ¬ entryLoc [] (pkg' ++ oldpkgSuffix) <:+ q)
          (hn : u'.tree.node q = some x) : s.tree.node q = some x := by
        rcases hset with rfl | ⟨rfl, hset⟩
        · exact hn
        · rw [setAside_tree] at hn
          exact setAside_node env.cwd hset hq hn
      obtain ⟨⟨n, d, e, hplace, hnone, hnew⟩, lines, hexec, htext, hline⟩ :=
        unpack_delivers hx hd hf hback habs
      refine ⟨n :: d, e, (heldRule f (n :: d) e ls).afterHook hx.proper.2.1 hp hq hPu ?_⟩
      have hexec' :
        (extracted { env with do_upgradepkg := up } ['/'] pkgfile' pkg' u').tree.isExec []
          (here (path (path pkgdb pkg') doinstName)) = true := by
        rw [extracted_tree]
        exact hexec
      rw [runDoinst_base _ _ hx.word hexec', extracted_tree, htext, Option.getD_some,
        newFileHook_line hw hline]
      obtain ⟨hkeep, hnode⟩ :=
        install_new_file_placed { env with do_upgradepkg := up, cwd := [] } hplace hnone hnew
      exact ⟨Tree.placeAt_keeps hkeep (by rw [start_nil]; exact Tree.root _) hplace, hnode, by simp⟩

/-- In every run of sparing steps, with any edits between them, a preserved file is kept. -/
theorem preserved_files_kept (f : Str) (hw : OneWord f) (hf : NamesFile f) (as : List Action)
    (s : Sys) (hk : AlongActions (newFileHook f) KeepingStep as s)
    (h : AlongActions (newFileHook f) (SparingStep f) as s) :
    AlongActions (newFileHook f) (PreservedStep f) as s := by
  induction as generalizing s with
  | nil => exact trivial
  | cons a as ih =>
      cases a with
      | edit g => exact ih _ hk h
      | run env c => exact ⟨step_preserved hw hf hk.1 h.1, fun q hq =>
          ih q.1 (hk.2 q hq) (h.2 q hq)⟩

def configName : Str := ['f']

def configPkg : Str := ['p']

def configFile : Str := ['p', '.', 't', 'g', 'z']

def configNew : Str × Node := (here (configName ++ newSuffix), .file false [['b']])

def configScript : Str × Node :=
  (here (path (path pkgdb configPkg) doinstName), .file true [installLine configName])

/-- A package is installed that lists `/f.new`, or `/f`; a new build of it ships `f.new`. -/
def configSys (direct : Bool) : Sys := ⟨Tree.ofList [([varName], .dir), (pkgdbLoc [], .dir),
  (entryLoc [] configPkg, .dir),
  (contentsLoc [] configPkg, .file false [if direct then ['/', 'f']
    else ['/', 'f', '.', 'n', 'e', 'w']]),
  ([configName], .file false [['a']]), ([configFile], .archive [configNew, configScript] true)], []⟩

def configEnv : Env := ⟨[], false, []⟩

def configReinstall : Command := .installpkg ⟨[], true, false⟩ configFile

def configStart (direct : Bool) : Sys := setAside configEnv ['/'] configPkg (configSys direct)

theorem configReinstall_unpacks (direct : Bool) :
    configReinstall.unpacks configEnv (configSys direct) =
      some (configFile, configPkg, configStart direct) := by
  have hname : pkgnameOf (echo (configSys direct).tree configEnv.cwd configFile) = configPkg := by
    cases direct <;> decide
  have hacc : accepted configEnv ⟨[], true, false⟩ configFile (configSys direct) =
    .ok (configStart direct) := by
    rw [accepted, if_neg (by cases direct <;> decide), if_pos (by cases direct <;> decide),
      if_pos rfl, hname]
    rfl
  rw [configReinstall, Command.unpacks, hacc, hname]
  rfl

theorem configStart_members (direct : Bool) :
    ((configStart direct).tree.readArchive configEnv.cwd configFile).1 =
      [configNew, configScript] := rfl

theorem configStart_delivers (direct : Bool) :
    Delivers configName (configStart direct).tree configPkg [configNew, configScript] [['b']] := by
  refine ⟨⟨false, [], [configScript], rfl, ?_⟩,
    ⟨[installLine configName], ⟨[configNew], [], rfl, ?_⟩, by decide⟩⟩
  · cases direct <;> decide
  · cases direct <;> decide

theorem preserved_files_kept_reinstall :
    AlongActions (newFileHook configName) (PreservedStep configName)
    [.run configEnv configReinstall] (configSys false) := by
  have hrun :
    (configReinstall.run .base (newFileHook configName) configEnv (configSys false)).all (fun q =>
      Between (Event.Spares configName) (configSys false) q.1) = true := by decide
  refine preserved_files_kept configName (by decide) (by decide) _ _ ⟨⟨rfl, by decide, by decide⟩,
    fun _ _ => trivial⟩
    ⟨fun q pkgfile pkg u ls hq hu _ => ?_, fun _ _ => trivial⟩
  rw [configReinstall_unpacks] at hu
  obtain ⟨rfl, rfl, rfl⟩ : configFile = pkgfile ∧ configPkg = pkg ∧ configStart false = u :=
    by simpa using hu
  rw [configStart_members]
  exact ⟨by simpa [hq] using hrun, by decide⟩

/-- A file that the installed version lists itself is removed with it. -/
theorem preserved_file_removed : ¬ ∀ f as s, OneWord f → NamesFile f →
    AlongActions (newFileHook f) KeepingStep as s →
    AlongActions (newFileHook f) (PreservedStep f) as s := by
  intro h
  have hrun :
    (configReinstall.run .base (newFileHook configName) configEnv (configSys true)).any (fun q =>
      (q.1.tree.node [configName]).isNone) = true := by decide
  obtain ⟨q, hq, hgone⟩ := (Option.any_eq_true _ _).mp hrun
  have hstep :=
    (h configName [.run configEnv configReinstall] (configSys true) (by decide) (by decide)
    ⟨⟨rfl, by decide, by decide⟩, fun _ _ => trivial⟩).1
  have hheld :=
    (hstep q configFile configPkg (configStart true) [['b']] hq (configReinstall_unpacks true)
    (by rw [configStart_members]; exact configStart_delivers true)).1 [configName] false [['a']]
    ⟨by decide, rfl, by simp⟩
  rw [hheld.node] at hgone
  simp at hgone

end Fidelix.Pkgtools
