import Fidelix.Pkgtools.Ownership

namespace Fidelix.Pkgtools

open Text Files

def inEntry (pkg name : Str) : Option Loc :=
  match (names name).filter (· ≠ dot) with
  | v :: d :: p :: n :: r =>
      if v = varName ∧ d = pkgdbName ∧ p = pkg
        then some ((n :: r).reverse ++ entryLoc [] pkg) else none
  | _ => none

def entryPlaces (pkg : Str) (ms : List (Str × Node)) : List Loc :=
  ms.filterMap fun m => if fileLine m.1 then inEntry pkg m.1 else none

theorem entryPlaces_below {pkg : Str} {ms : List (Str × Node)} {p : Loc}
    (h : p ∈ entryPlaces pkg ms) :
    entryLoc [] pkg <:+ p := by
  obtain ⟨m, _, hp⟩ := List.mem_filterMap.mp h
  split at hp
  · rw [inEntry] at hp
    split at hp
    · split at hp
      · rw [← Option.some.inj hp]
        exact List.suffix_append _ _
      · simp at hp
    · simp at hp
  · simp at hp

/-- The archive is undamaged, the list of the entry is the list of its members, and
its files for the entry are there. -/
structure CompleteEntry (t : Tree) (pkg : Str) (a : List (Str × Node) × Bool) : Prop where
  intact : a.2 = true
  list : ∃ e, t.node (contentsLoc [] pkg) = some (.file e (a.1.map fun m => stripDot m.1))
  files : ∀ p ∈ entryPlaces pkg a.1, (t.node p).isSome = true ∧ t.dirAt p = false

theorem CompleteEntry.congr {t t' : Tree} {pkg : Str} {a : List (Str × Node) × Bool}
    (h : CompleteEntry t pkg a)
    (ht : ∀ q x, entryLoc [] pkg <:+ q → t.node q = some x → x ≠ .dir → t'.node q = some x) :
    CompleteEntry t' pkg a := by
  obtain ⟨e, he⟩ := h.list
  refine ⟨h.intact, ⟨e, ht _ _ ⟨[contentsName], rfl⟩ he (by simp)⟩, fun p hp => ?_⟩
  obtain ⟨hs, hd⟩ := h.files p hp
  obtain ⟨x, hx⟩ := Option.isSome_iff_exists.mp hs
  have hxd : x ≠ .dir := by
    rintro rfl
    simp [Tree.dirAt, hx] at hd
  have hx' := ht p x (entryPlaces_below hp) hx hxd
  refine ⟨by rw [hx']; rfl, ?_⟩
  rw [← Bool.not_eq_true, Tree.dirAt_iff, hx']
  exact fun he => hxd (Option.some.inj he)

/-- The removal of another package that takes nothing from the entry of `new`. -/
structure LeavesEntry (new : Str) (t : Tree) (pkg : Str) : Prop where
  other : pkg ≠ new
  proper : ProperName pkg
  entry : t.dirAt (entryLoc [] pkg) = true
  lines : ∀ f ∈ readContents t [] pkg, ∀ p ∈ t.place [] f, ¬ entryLoc [] new <:+ p

instance (new : Str) (t : Tree) (pkg : Str) : Decidable (LeavesEntry new t pkg) :=
  decidable_of_iff (pkg ≠ new ∧ ProperName pkg ∧ t.dirAt (entryLoc [] pkg) = true ∧
      ∀ f ∈ readContents t [] pkg, ∀ p ∈ t.place [] f, ¬ entryLoc [] new <:+ p)
    ⟨fun ⟨h1, h2, h3, h4⟩ => ⟨h1, h2, h3, h4⟩, fun ⟨h1, h2, h3, h4⟩ => ⟨h1, h2, h3, h4⟩⟩

def Event.Leaves (new : Str) : Event → Prop
  | .uninstall t _ pkg => LeavesEntry new t pkg
  | .extract _ _ _ _ _ | .setAside _ _ _ | .doinst _ => True
  | .douninst _ => False

instance (new : Str) : DecidablePred (Event.Leaves new)
  | .uninstall t _ pkg => inferInstanceAs (Decidable (LeavesEntry new t pkg))
  | .extract _ _ _ _ _ | .setAside _ _ _ | .doinst _ => instDecidableTrue
  | .douninst _ => instDecidableFalse

theorem not_below {a b : Str} (hne : a ≠ b) {q : Loc} (h : entryLoc [] b <:+ q) :
    ¬ entryLoc [] a <:+ q := by
  intro h'
  have he : entryLoc [] a = entryLoc [] b := by
    rcases List.suffix_or_suffix_of_suffix h' h with hs | hs
    · exact hs.eq_of_length rfl
    · exact (hs.eq_of_length rfl).symm
  exact hne (List.cons.inj he).1

theorem relist_below {new pkg name : Str} {t : Tree} {cwd q : Loc}
    (hs : LeavesEntry new (renameLines t cwd (path (entryIn ['/'] pkg) contentsName) name) pkg)
    (hq : entryLoc [] new <:+ q) :
    (renameLines t cwd (path (entryIn ['/'] pkg) contentsName) name).node q = t.node q := by
  have hdir := relisted_entry (by simpa using hs.entry)
  rcases renameLines_cases t cwd (path (entryIn ['/'] pkg) contentsName) name
    with hr | ⟨p, e, ls, hp, _, hput⟩
  · rw [hr]
  · rw [entryFile_slash, place_slash t cwd (path_ne_nil _ _),
      place_entryFile hs.proper proper_contents hdir] at hp
    obtain rfl := Option.some.inj hp
    rw [Tree.put_node hput, if_neg]
    rintro rfl
    exact not_below hs.other hq ⟨[contentsName], rfl⟩

theorem LeavesEntry.keeps {new pkg : Str} {t t' : Tree} {cf : List Str} (hs : LeavesEntry new t pkg)
    (hu : uninstall [] cf pkg t = some t') {q : Loc} {x : Node} (hq : entryLoc [] new <:+ q)
    (hn : t.node q = some x) (hx : x ≠ .dir) : t'.node q = some x := by
  have hdir : t.node (entryLoc [] pkg) = some .dir := by simpa using hs.entry
  have hdb : t.node (pkgdbLoc []) = some .dir := t.parent pkg _ (by rw [← entryLoc, hdir]; rfl)
  exact uninstall_unnamed hs.proper hdb hu hn hx (not_below hs.other hq) fun f hf hp =>
    hs.lines f hf q hp hq

section

variable (hook : Hook) (new : Str) (a : List (Str × Node) × Bool)

theorem completeRule : Rule hook (Event.Leaves new) (fun _ t => CompleteEntry t new a)
    (fun t => CompleteEntry t new a) where
  undisturbed := .inr fun _ h => h
  toRemove _ _ h := h
  remove _ _ _ h hs hu := h.congr fun _ _ hq hn hx => LeavesEntry.keeps hs hu hq hn hx
  relist _ _ _ _ h hs := h.congr fun _ _ hq hn _ => (relist_below hs hq).trans hn
  notThere _ _ _ _ h _ := h

theorem incompleteRule : Rule hook (Event.Leaves new) (fun _ t => ¬ CompleteEntry t new a)
    (fun t => ¬ CompleteEntry t new a) where
  undisturbed := .inr fun _ h => h
  toRemove _ _ h := h
  remove _ _ _ h _ hu hc := h (hc.congr fun q x _ hn _ => uninstall_within hu q x hn)
  relist _ _ _ _ h hs hc := h (hc.congr fun _ _ hq hn _ => (relist_below hs hq).symm.trans hn)
  notThere _ _ _ _ h _ := h

theorem goneRule (v : Str) :
    Rule hook (Event.Leaves new) (fun _ t => t.node (entryLoc [] v) ≠ some .dir)
    (fun t => t.node (entryLoc [] v) ≠ some .dir) where
  undisturbed := .inr fun _ h => h
  toRemove _ _ h := h
  remove _ _ _ h _ hu hn := h (uninstall_within hu _ _ hn)
  relist _ _ _ _ h _ hn := h (relisted_entry hn)
  notThere _ _ _ _ h _ := h

end

def SparesDatabase (hook : Hook) : Prop :=
  ∀ env cwd lines t q, pkgdbLoc [] <:+ q → (hook env cwd lines t).node q = t.node q

theorem cleanOldpkg_status {hook : Hook} {env : Env} {pkg : Str} {s : Sys} {q : Sys × Nat}
    (hn : '/' ∉ pkg) (h : cleanOldpkg hook env ['/'] pkg s = some q) : q.2 = 0 := by
  have hold := proper_old hn
  rw [cleanOldpkg] at h
  split at h
  · rename_i hd
    rcases removepkg_cases rfl h with ⟨_, _, hno⟩ | ⟨_, _, _, _, hst⟩
    · rw [show rootOr [] = ['/'] from rfl, renamed_isDir hold hd] at hno
      rcases hno with hno | hno
      · exact absurd hno hold.1
      · simp at hno
    · rw [hst, Tree.rmStatus, names_entry hold, comps_entry hold, List.getLast?_concat, if_neg]
      simp [hold.2.2.1, hold.2.2.2]
  · rw [← Option.some.inj h]

def versions (t : Tree) (name : Str) : List Str :=
  (entries t).filter fun v => nameOfEntry v == name && t.dirAt (entryLoc [] v)

structure Intact (t t' : Tree) (pkg : Str) : Prop where
  entry : t'.dirAt (entryLoc [] pkg) = true
  list : linesOf t' pkg = linesOf t pkg
  files : ∀ l ∈ linesOf t pkg, fileLine l = true → Found t l → Found t' l

def Survives (env : Env) (pkgfile : Str) (s : Sys) (q : Sys × Nat) : Prop :=
  CompleteEntry q.1.tree (pkgnameOf (echo s.tree env.cwd pkgfile))
    (s.tree.readArchive env.cwd pkgfile) ∨
    q.2 ≠ 0 ∧ ∀ v ∈ versions s.tree (nameOfFile (echo s.tree env.cwd pkgfile)),
      Intact s.tree q.1.tree v

def Unpacks (env : Env) (o : Options) (pkgfile : Str) (s : Sys) : Prop :=
  ∀ u, upgradeStart env o pkgfile s = some u →
    CompleteEntry (unpack env.cwd pkgfile ['/'] (pkgnameOf (echo s.tree env.cwd pkgfile)) u.tree)
      (pkgnameOf (echo s.tree env.cwd pkgfile)) (s.tree.readArchive env.cwd pkgfile)

def Regular (env : Env) (o : Options) (pkgfile : Str) (s : Sys) : Prop :=
  ∀ v ∈ replaced env o pkgfile s, ProperName v ∧ OneWord v ∧ s.tree.dirAt (entryLoc [] v) = true

theorem doinst_below {copy : Copy} {hook : Hook} {env : Env} {pkg : Str} {s : Sys}
    (hh : SparesDatabase hook) (new : Str) {q : Loc} (hq : entryLoc [] new <:+ q) :
    (runDoinst copy hook env ['/'] pkg s).tree.node q = s.tree.node q := by
  rcases runDoinst_tree copy hook env pkg s with ht | ⟨lines, ht⟩
  · rw [ht]
  · rw [ht]
    exact hh _ _ _ _ _ ((List.suffix_cons _ _).trans hq)

theorem mem_versions {env : Env} {o : Options} {pkgfile : Str} {s : Sys} {v : Str}
    (hv : v ∈ replaced env o pkgfile s) (hr : Regular env o pkgfile s) :
    v ∈ versions s.tree (nameOfFile (echo s.tree env.cwd pkgfile)) := by
  obtain ⟨_, hw, hd⟩ := hr v hv
  rw [replaced, oldVersions] at hv
  have hname := (List.mem_filter.mp hv).2
  rw [echo, expand_oneWord _ _ hw, show unwords [v] = v from List.intercalate_singleton] at hname
  rw [versions, List.mem_filter, entries, Tree.mem_children]
  refine ⟨by
    rw [show v :: pkgdbLoc [] = entryLoc [] v from rfl, (Tree.dirAt_iff _ _).mp hd]; rfl, ?_⟩
  simp only [Bool.and_eq_true] at hname ⊢
  exact ⟨hname.1, hd⟩

theorem removedAfter_eq {env : Env} {o : Options} {pkgfile : Str} {s : Sys}
    (hr : Regular env o pkgfile s) (t : Tree) :
    removedAfter env o pkgfile s t = [] ∨
    removedAfter env o pkgfile s t = replaced env o pkgfile s := by
  rw [removedAfter]
  split
  · refine .inr ?_
    have he : ∀ v ∈ replaced env o pkgfile s, expand t env.cwd v = [v] := fun v hv =>
      expand_oneWord t env.cwd (hr v hv).2.1
    rw [List.flatMap_congr he, List.flatMap_singleton']
  · exact .inl rfl

theorem removeOldVersions_gone {hook : Hook} {env : Env} {new v : Str} {vs : List Str} {s : Sys}
    {q : Sys × Nat} (hv : ProperName v) (h : removeOldVersions hook env ['/'] (v :: vs) s = some q)
    (hP : Between (Event.Leaves new) s q.1) : q.1.tree.node (entryLoc [] v) ≠ some .dir := by
  have hund : Undisturbed hook (Event.Leaves new) := .inr fun _ h => h
  have hone {p : Sys × Nat} (hp : removepkg hook env ['/'] v s = some p)
      (hP : Between (Event.Leaves new) s p.1) :
      p.1.tree.node (entryLoc [] v) ≠ some .dir := by
    intro hd
    have hdb : p.1.tree.node (pkgdbLoc []) = some .dir :=
      p.1.tree.parent v _ (by rw [← entryLoc, hd]; rfl)
    rcases removepkg_event rfl hund hp hP with ⟨hs, _, hno⟩ | ⟨hl, _, hu⟩
    · rw [hs] at hd hdb
      have hplace : s.tree.place env.cwd (entryIn ['/'] v) = some (entryLoc [] v) := by
        rw [entryIn_slash, place_slash _ _ (path_ne_nil _ _), place_entry hv hdb]
      rcases hno with hno | hno
      · exact hv.1 hno
      · rw [Tree.isDir_eq_leadsToDir hplace, Tree.leadsToDir_iff.mpr (.inl hd)] at hno
        simp at hno
    · have hgone :=
        uninstall_gone hl.proper (uninstall_within hu _ _ hdb) hu (List.suffix_refl (entryLoc [] v))
      rw [hd] at hgone
      simp at hgone
  rw [removeOldVersions, Option.bind_eq_some_iff] at h
  obtain ⟨p, hp, h⟩ := h
  split at h
  · have h1 := removepkg_adds hp
    have h2 := removeOldVersions_adds h
    exact (goneRule hook new v).removeOldVersions rfl h (hP.right h1 h2) (hone hp (hP.left h1 h2))
  · have hq : p.1 = q.1 := by rw [← Option.some.inj h]
    rw [← hq] at hP ⊢
    exact hone hp hP

/-- Whether an upgrade destroys what it cannot replace depends on whether the entry
can be unpacked; the status of `tar` plays no part. -/
theorem upgrade_survives (copy : Copy) (hook : Hook) (env : Env) (o : Options) (pkgfile : Str)
    (s : Sys) (q : Sys × Nat) (hroot : rootOr o.root_dir = ['/']) (hh : SparesDatabase hook)
    (h : upgradepkg copy hook env o pkgfile s = some q)
    (hP : Between (Event.Leaves (pkgnameOf (echo s.tree env.cwd pkgfile))) s q.1) :
    (Unpacks env o pkgfile s → Survives env pkgfile s q) ∧
      (Regular env o pkgfile s → Survives env pkgfile s q → Unpacks env o pkgfile s) := by
  have hslash := slash_not_mem_pkgnameOf (echo s.tree env.cwd pkgfile)
  generalize hnew : pkgnameOf (echo s.tree env.cwd pkgfile) = new at hP hslash
  rcases upgradepkg_cases h with ⟨hno, hs, hne⟩ | ⟨u, up, p, hu, hp, hq⟩
  · refine ⟨fun _ => .inr ⟨hne, fun v hv => ?_⟩, fun _ _ u hu => ?_⟩
    · rw [hs]
      have hd := (List.mem_filter.mp hv).2
      rw [Bool.and_eq_true] at hd
      exact ⟨hd.2, rfl, fun _ _ _ h => h⟩
    · rw [hno] at hu
      simp at hu
  · rw [hroot, hnew] at hp
    rw [hroot] at hq
    have hstart : u = s ∨ u = setAside env ['/'] new s := by
      rcases upgradeStart_ok hu with h | ⟨_, _, h⟩
      · exact .inl h
      · rw [hroot, hnew] at h
        exact .inr h
    have hq' : q.1 = p.1 ∨ removeOldVersions hook { env with do_upgradepkg := up } ['/']
        (removedAfter env o pkgfile s p.1.tree) p.1 = some q :=
      hq.imp (fun h => h.2.1) fun h => h.2
    have hPu := (unpacks_events hstart hp hq' hP).1
    have hbelow {x : Loc} (hx : entryLoc [] new <:+ x) :
      (runDoinst copy hook { env with do_upgradepkg := up } ['/'] new
        (extracted { env with do_upgradepkg := up } ['/'] pkgfile new u)).tree.node x =
          (unpack env.cwd pkgfile ['/'] new u.tree).node x := by
      rw [doinst_below hh new hx, extracted_tree]
    constructor
    · intro hun
      refine .inl ?_
      rw [hnew]
      have hc := hun u hu
      rw [hnew] at hc
      exact (completeRule hook new _).afterHook hslash hp hq' hPu
        (hc.congr fun x y hx hn _ => (hbelow hx).trans hn)
    · intro hr hsv u' hu'
      obtain rfl : u = u' := by rwa [hu, Option.some.injEq] at hu'
      by_contra hinc
      rw [hnew] at hinc
      have hlost : ¬ CompleteEntry q.1.tree new (s.tree.readArchive env.cwd pkgfile) :=
        (incompleteRule hook new _).afterHook hslash hp hq' hPu
          fun hc => hinc (hc.congr fun x y hx hn _ => (hbelow hx).symm.trans hn)
      rw [Survives, hnew] at hsv
      obtain ⟨hne, hall⟩ := hsv.resolve_left hlost
      have hp0 : p.2 = 0 := cleanOldpkg_status hslash hp
      obtain ⟨_, hrem⟩ := hq.resolve_left fun h => h.1 hp0
      have hadds := install_adds hp
      have hPp :=
        hPu.right ((List.prefix_append _ _).trans (hadds.1.trans hadds.2))
        (removeOldVersions_adds hrem)
      have hnil (hrem : removeOldVersions hook { env with do_upgradepkg := up } ['/'] [] p.1 =
        some q) : False := by
        rw [← Option.some.inj hrem] at hne
        exact hne rfl
      rcases removedAfter_eq hr p.1.tree with he | he
      · rw [he] at hrem
        exact hnil hrem
      · rw [he] at hrem
        cases hvs : replaced env o pkgfile s with
        | nil =>
            rw [hvs] at hrem
            exact hnil hrem
        | cons v vs =>
            have hv : v ∈ replaced env o pkgfile s := by simp [hvs]
            rw [hvs] at hrem
            exact removeOldVersions_gone (hr v hv).1 hrem hPp
              (by simpa using (hall v (mem_versions hv hr)).entry)

def oldVersion : Str := ['p', '-', '1', '-', '1', '-', '1', '-', '1']

def newVersion : Str := ['p', '-', '2', '-', '1', '-', '1', '-', '1']

def newVersionFile : Str := newVersion ++ ['.', 't', 'g', 'z']

def upgradeSys (intact : Bool) : Sys := ⟨Tree.ofList [([varName], .dir), (pkgdbLoc [], .dir),
  (entryLoc [] oldVersion, .dir), (contentsLoc [] oldVersion, .file false [['/', 'f']]),
    ([['f']], .file false []),
  ([newVersionFile], .archive [(here (path (path pkgdb newVersion) []), .dir)] intact)], []⟩

def upgradeEnv : Env := ⟨[], false, []⟩

def upgradeRun (intact : Bool) : Run :=
  upgradepkg .base noHook upgradeEnv ⟨[], false, false⟩ newVersionFile (upgradeSys intact)

theorem upgrade_survives_undamaged :
    ∃ q, upgradeRun true = some q ∧ Survives upgradeEnv newVersionFile (upgradeSys true) q := by
  have hname : pkgnameOf (echo (upgradeSys true).tree upgradeEnv.cwd newVersionFile) =
    newVersion := by decide
  have hrun :
    (upgradeRun true).any (fun q =>
    Between (Event.Leaves newVersion) (upgradeSys true) q.1) = true := by
    decide
  obtain ⟨q, hq, hP⟩ := (Option.any_eq_true _ _).mp hrun
  refine ⟨q, hq,
    (upgrade_survives .base noHook upgradeEnv ⟨[], false, false⟩ newVersionFile
    (upgradeSys true) q rfl
    (fun _ _ _ _ _ _ => rfl) hq (by rw [hname]; simpa using hP)).1 fun u hu => ?_⟩
  obtain rfl : u = upgradeSys true := (upgradeStart_ok hu).resolve_right fun h =>
    absurd h.1 (by decide)
  rw [hname]
  exact ⟨rfl, ⟨false, rfl⟩, by decide⟩

/-- With a damaged archive the installed version is removed, and the upgrade succeeds. -/
theorem upgrade_destroys :
    ¬ ∀ copy hook env o pkgfile s q, rootOr o.root_dir = ['/'] → SparesDatabase hook →
    upgradepkg copy hook env o pkgfile s = some q → Survives env pkgfile s q := by
  intro h
  have hrun : (upgradeRun false).any (fun q => q.2 = 0) = true := by decide
  obtain ⟨q, hq, h0⟩ := (Option.any_eq_true _ _).mp hrun
  rcases h .base noHook upgradeEnv ⟨[], false, false⟩ newVersionFile (upgradeSys false) q rfl
    (fun _ _ _ _ _ _ => rfl) hq with hc | ⟨hne, _⟩
  · exact absurd hc.intact (by decide)
  · exact hne (by simpa using h0)

end Fidelix.Pkgtools
