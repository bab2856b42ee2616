import Fidelix.Pkgtools.Books

namespace Fidelix.Pkgtools

open Text Files Store

theorem Stocked.removepkg {s : Sys} (h : Stocked s.tree) {pkg : Str} (hp : Installed s.tree pkg)
    (hook : Hook) (env : Env) {root_dir : Str} (hroot : rootOr root_dir = ['/']) :
    ∃ u, Pkgtools.removepkg hook env root_dir pkg s = some (u, 0) ∧ Removed s.tree u.tree [pkg] :=
  (Removed.refl h.toCanonical).removepkg h.toCanonical h.slashFree hp (by simp) hook env hroot
    (h.not_exec hp)

theorem Removed.removeOldVersions {t : Tree} (ht : Stocked t) {s : Sys} {pkgs : List Str}
    (h : Removed t s.tree pkgs) (hook : Hook) (env : Env) {vs : List Str}
    (hi : ∀ v ∈ vs, Installed t v) (hd : vs.Nodup) (hno : ∀ v ∈ vs, v ∉ pkgs) :
    ∃ u, Pkgtools.removeOldVersions hook env ['/'] vs s = some (u, 0) ∧
    Removed t u.tree (vs.reverse ++ pkgs) := by
  induction vs generalizing s pkgs with
  | nil => exact ⟨s, rfl, h⟩
  | cons v vs ih =>
      rw [List.nodup_cons] at hd
      have hv := hi v (by simp)
      obtain ⟨u, hu, hr⟩ := h.removepkg ht.toCanonical ht.slashFree hv (hno v (by simp)) hook env
        (show rootOr ['/'] = ['/'] from rfl) (ht.not_exec hv)
      have hrest : ∀ w ∈ vs, w ∉ v :: pkgs := by
        intro w hw
        rw [List.mem_cons, not_or]
        refine ⟨?_, hno w (by simp [hw])⟩
        rintro rfl
        exact hd.1 hw
      obtain ⟨x, hx, hr'⟩ := ih hr (fun w hw => hi w (by simp [hw])) hd.2 hrest
      refine ⟨x, ?_, by simpa using hr'⟩
      rw [Pkgtools.removeOldVersions, hu, Option.bind_some, if_pos rfl, hx]

/-- What `installpkg` and `upgradepkg` need of a package that is not there. -/
structure Acceptable (t : Tree) (env : Env) (o : Options) (pkgfile : Str)
    (ms : List (Str × Node)) : Prop where
  root : rootOr o.root_dir = ['/']
  offered : Offered t env.cwd pkgfile ms
  parcel : Parcel (pkgnameOf pkgfile) ms
  welcome : Welcome t (pkgnameOf pkgfile) ms

/-- The versions that an upgrade replaces; `ls` does not show the others. -/
def Older (pkgfile : Str) : Set Str :=
  {v | v.head? ≠ some '.' ∧ nameOfEntry v = nameOfFile pkgfile ∧ v ≠ pkgnameOf pkgfile}

section

variable {s : Sys} (hs : Stocked s.tree) {env : Env} {o : Options} {pkgfile : Str}
  {ms : List (Str × Node)}
include hs

theorem Acceptable.installpkg (h : Acceptable s.tree env o pkgfile ms) (copy : Copy) (hook : Hook) :
    ∃ u, Pkgtools.installpkg copy hook env o pkgfile s = some (u, 0) ∧
      u.tree = unpacked s.tree (pkgnameOf pkgfile) ms :=
  installpkg_parcel copy hook env o h.root h.offered h.parcel h.welcome.accepts h.welcome.fresh
    hs.dir (hs.settled _)

theorem listedEntries_stocked : listedEntries s.tree env.cwd ['/'] =
    (entries s.tree).filter fun n => n.head? != some '.' := by
  have hstat : s.tree.stat env.cwd (pkgdbIn ['/']) = some (pkgdbLoc []) := by
    rw [pkgdbIn, stat_slash _ _ (by decide : pkgdb ≠ [])]
    exact Tree.stat_real (by decide) (by decide) hs.dir
  have hls : s.tree.ls env.cwd (pkgdbIn ['/']) = (entries s.tree).filter fun n =>
    n.head? != some '.' := by
    rw [Tree.ls, hstat, Option.filter_some, if_pos ((Tree.dirAt_iff _ _).mpr hs.dir)]
    rfl
  have hword : ∀ n ∈ (entries s.tree).filter fun n =>
    n.head? != some '.', expand s.tree env.cwd n = [n] := by
    intro n hn
    obtain ⟨m, hm, _, hw, _⟩ := hs.own _ (hs.whole n (List.mem_filter.mp hn).1)
    exact expand_oneWord _ _ (contentsLoc_inj hm ▸ hw)
  rw [listedEntries, hls, List.flatMap_congr hword, List.flatMap_singleton']

theorem oneWord_installed {n : Str} (hn : Installed s.tree n) : OneWord n := by
  obtain ⟨m, hm, _, hw, _⟩ := hs.own _ hn
  exact contentsLoc_inj hm ▸ hw

theorem mem_listedEntries {n : Str} :
    n ∈ listedEntries s.tree env.cwd ['/'] ↔ Installed s.tree n ∧ n.head? ≠ some '.' := by
  rw [listedEntries_stocked hs, List.mem_filter, bne_iff_ne]
  refine and_congr_left fun _ => ⟨hs.whole n, fun hn => ?_⟩
  rw [entries, Tree.mem_children, show n :: pkgdbLoc [] = entryLoc [] n from rfl, Stocked.entry hn]
  rfl

theorem Acceptable.upgradepkg (h : Acceptable s.tree env o pkgfile ms) (copy : Copy) (hook : Hook)
    (hdo : o.do_install = true ∨ ∃ v, Installed s.tree v ∧ v.head? ≠ some '.' ∧
      nameOfEntry v = nameOfFile pkgfile) :
    ∃ u vs, Pkgtools.upgradepkg copy hook env o pkgfile s = some (u, 0) ∧
      (∀ v, v ∈ vs ↔ Installed s.tree v ∧ v ∈ Older pkgfile) ∧
      Removed (unpacked s.tree (pkgnameOf pkgfile) ms) u.tree vs := by
  have hecho := echo_oneWord s.tree env.cwd h.offered.word
  have hname {v : Str} (hv : Installed s.tree v) :
    nameOfEntry (echo s.tree env.cwd v) = nameOfEntry v := by
    rw [echo_oneWord _ _ (oneWord_installed hs hv)]
  have hany : isInstalled s.tree env.cwd ['/'] (nameOfFile pkgfile) = true ↔
      ∃ v, Installed s.tree v ∧ v.head? ≠ some '.' ∧ nameOfEntry v = nameOfFile pkgfile := by
    rw [isInstalled, List.any_eq_true]
    constructor
    · rintro ⟨v, hv, he⟩
      obtain ⟨hi, hdot⟩ := (mem_listedEntries hs).mp hv
      exact ⟨v, hi, hdot, by simpa [hname hi] using he⟩
    · rintro ⟨v, hi, hdot, he⟩
      exact ⟨v, (mem_listedEntries hs).mpr ⟨hi, hdot⟩, by simpa [hname hi] using he⟩
  have hfile : ¬ (pkgfile = [] ∨ s.tree.isFile env.cwd pkgfile = false) := by
    rw [not_or]
    refine ⟨h.offered.word.1, ?_⟩
    have hr := h.offered.read
    rw [Tree.readArchive] at hr
    rw [Tree.isFile]
    split at hr
    · rename_i ms' i hx
      simp [hx]
    · exact absurd (congrArg Prod.fst hr).symm h.offered.nonempty
  have hst := Stocked.unpacked h.parcel h.welcome hs
  have hnew {u : Sys} (ht : u.tree = unpacked s.tree (pkgnameOf pkgfile) ms) :
      Removed (unpacked s.tree (pkgnameOf pkgfile) ms) u.tree [] := by
    rw [ht]
    exact Removed.refl hst.toCanonical
  rw [upgradepkg_found, foundInstalled, if_neg hfile, hecho, h.root]
  cases hb : isInstalled s.tree env.cwd ['/'] (nameOfFile pkgfile) with
  | false =>
      have hnone : ¬ ∃ v, Installed s.tree v ∧ v.head? ≠ some '.' ∧
        nameOfEntry v = nameOfFile pkgfile := by
        rw [← hany, hb]
        simp
      have h' :
        Acceptable s.tree env { o with root_dir := ['/'], do_reinstall := false } pkgfile ms :=
        ⟨rfl, h.offered, h.parcel, h.welcome⟩
      obtain ⟨u, hu, ht⟩ := h'.installpkg hs copy hook
      refine ⟨u, [], ?_, fun v => ?_, hnew ht⟩
      · simp only [hdo.resolve_right hnone, if_true]
        exact hu
      · refine iff_of_false (by simp) ?_
        rintro ⟨hi, hdot, he, _⟩
        exact hnone ⟨v, hi, hdot, he⟩
  | true =>
      have h' : Acceptable s.tree { env with do_upgradepkg := true }
        { o with root_dir := ['/'] } pkgfile ms :=
        ⟨rfl, h.offered, h.parcel, h.welcome⟩
      obtain ⟨u, hu, ht⟩ := h'.installpkg hs copy hook
      have hold :
        ∀ v, v ∈ oldVersions s.tree env.cwd ['/'] (nameOfFile pkgfile) (pkgnameOf pkgfile) ↔
          Installed s.tree v ∧ v ∈ Older pkgfile := by
        intro v
        rw [oldVersions, List.mem_filter, mem_listedEntries hs, and_assoc]
        refine and_congr_right fun hi => and_congr_right fun _ => ?_
        rw [hname hi]
        simp
      have hexpand :
        ∀ v ∈ oldVersions s.tree env.cwd ['/'] (nameOfFile pkgfile) (pkgnameOf pkgfile),
          expand u.tree env.cwd v = [v] :=
            fun v hv => expand_oneWord _ _ (oneWord_installed hs ((hold v).mp hv).1)
      have hnodup :
        (oldVersions s.tree env.cwd ['/'] (nameOfFile pkgfile) (pkgnameOf pkgfile)).Nodup := by
        rw [oldVersions, listedEntries_stocked hs]
        exact ((s.tree.children_nodup _).filter _).filter _
      obtain ⟨x, hx, hr⟩ :=
        Removed.removeOldVersions hst (hnew ht) hook { env with do_upgradepkg := true }
        (fun v hv => (installed_unpacked h.parcel h.welcome v).mpr (.inr ((hold v).mp hv).1))
          hnodup (by simp)
      refine ⟨x, _, ?_, fun v => ?_, hr⟩
      · simp only [hu, Option.bind_some, if_true, replaced, hecho, h.root]
        rw [List.flatMap_congr hexpand, List.flatMap_singleton', hx]
      · rw [List.append_nil, List.mem_reverse, hold]

end

inductive Deed
  | install (env : Env) (o : Options) (pkgfile : Str) (ms : List (Str × Node))
  | upgrade (env : Env) (o : Options) (pkgfile : Str) (ms : List (Str × Node))
  | remove (env : Env) (root_dir pkgname : Str)

namespace Deed

def command : Deed → Env × Command
  | install env o pkgfile _ => (env, .installpkg o pkgfile)
  | upgrade env o pkgfile _ => (env, .upgradepkg o pkgfile)
  | remove env root_dir pkgname => (env, .removepkg root_dir pkgname)

def Fits (t : Tree) : Deed → Prop
  | install env o pkgfile ms => Acceptable t env o pkgfile ms
  | upgrade env o pkgfile ms => Acceptable t env o pkgfile ms ∧
      (o.do_install = true ∨ ∃ v, Installed t v ∧ v.head? ≠ some '.' ∧
        nameOfEntry v = nameOfFile pkgfile)
  | remove _ root_dir pkgname => rootOr root_dir = ['/'] ∧ Installed t pkgname

noncomputable def book (σ : Books) : Deed → Books
  | install _ _ pkgfile ms => σ.add (pkgnameOf pkgfile) (ms.map lineOf) (filesOf ms)
  | upgrade _ _ pkgfile ms =>
    (σ.add (pkgnameOf pkgfile) (ms.map lineOf) (filesOf ms)).retire placeOf (Older pkgfile)
  | remove _ _ pkgname => σ.retire placeOf {pkgname}

def AllFit (copy : Copy) (hook : Hook) : List Deed → Sys → Prop
  | [], _ => True
  | d :: ds, s => d.Fits s.tree ∧
      ∀ q, d.command.2.run copy hook d.command.1 s = some q → AllFit copy hook ds q.1

theorem step {d : Deed} {s : Sys} (hs : Stocked s.tree) (hf : d.Fits s.tree) (copy : Copy)
    (hook : Hook) :
    ∃ u, d.command.2.run copy hook d.command.1 s = some (u, 0) ∧ Stocked u.tree ∧
      booksOf u.tree = d.book (booksOf s.tree) := by
  cases d with
  | install env o pkgfile ms =>
      have h : Acceptable s.tree env o pkgfile ms := hf
      obtain ⟨u, hu, ht⟩ := h.installpkg hs copy hook
      refine ⟨u, hu, ?_, ?_⟩
      · rw [ht]
        exact Stocked.unpacked h.parcel h.welcome hs
      · rw [ht]
        exact books_unpacked h.parcel h.welcome
  | upgrade env o pkgfile ms =>
      obtain ⟨h, hdo⟩ : Acceptable s.tree env o pkgfile ms ∧ _ := hf
      have hst := Stocked.unpacked h.parcel h.welcome hs
      obtain ⟨u, vs, hu, hvs, hr⟩ := h.upgradepkg hs copy hook hdo
      refine ⟨u, hu, hst.removed hr, ?_⟩
      rw [hst.books_removed hr, books_unpacked h.parcel h.welcome, book]
      apply Stock.retire_congr
      intro v hv
      rw [Set.mem_ofPred_eq, hvs]
      refine and_iff_right_of_imp fun hold => ?_
      rw [Stock.lists_add_of_ne hold.2.2] at hv
      by_contra hno
      rw [lists_eq_none.mpr hno] at hv
      cases hv
  | remove env root_dir pkgname =>
      obtain ⟨hroot, hp⟩ : rootOr root_dir = ['/'] ∧ Installed s.tree pkgname := hf
      obtain ⟨u, hu, hr⟩ := hs.removepkg hp hook env hroot
      refine ⟨u, hu, hs.removed hr, ?_⟩
      rw [hs.books_removed hr, book]
      congr 1
      ext n
      simp

end Deed

/-- The tools do what the books say, whatever the order. -/
theorem deeds_booked (copy : Copy) (hook : Hook) (ds : List Deed) (s : Sys) (hs : Stocked s.tree)
    (hf : Deed.AllFit copy hook ds s) : ∃ u,
      runAll copy hook (ds.map Deed.command) s = some (u, ds.map fun _ => 0) ∧ Stocked u.tree ∧
      booksOf u.tree = ds.foldl Deed.book (booksOf s.tree) := by
  induction ds generalizing s with
  | nil => exact ⟨s, rfl, hs, rfl⟩
  | cons d ds ih =>
      obtain ⟨u, hu, hst, hb⟩ := d.step hs hf.1 copy hook
      obtain ⟨v, hv, hst', hb'⟩ := ih u hst (hf.2 _ hu)
      refine ⟨v, ?_, hst', ?_⟩
      · rw [List.map_cons, runAll, hu, Option.bind_some, hv]
        rfl
      · rw [List.foldl_cons, ← hb, hb']

def release (v : Char) : Str := ['p', '-', v, '-', '1', '-', '1', '-', '1']

def releaseFile (v : Char) : Str := release v ++ ['.', 't', 'g', 'z']

/-- A package with the file `/f`, and its entry. -/
def releaseMembers (v : Char) : List (Str × Node) :=
  [(here [], .dir), (here (path varName []), .dir), (here (path pkgdb []), .dir),
    (here (path (path pkgdb (release v)) []), .dir), (here ['f'], .file false [[v]])]

def releases : Tree := Tree.ofList [([varName], .dir), (pkgdbLoc [], .dir),
  ([releaseFile '1'], .archive (releaseMembers '1') true),
    ([releaseFile '2'], .archive (releaseMembers '2') true)]

theorem releaseParcel {v : Char} (hv : v = '1' ∨ v = '2') :
    Parcel (pkgnameOf (releaseFile v)) (releaseMembers v) := by
  have h1 : (carried (releaseMembers '1') (entryLoc [] (pkgnameOf (releaseFile '1')))).any
    Node.isDir = true := by decide +kernel
  have h2 : (carried (releaseMembers '2') (entryLoc [] (pkgnameOf (releaseFile '2')))).any
    Node.isDir = true := by decide +kernel
  rcases hv with rfl | rfl
  · exact ⟨⟨by decide +kernel, by decide +kernel, by decide +kernel⟩, by
      decide +kernel, by decide +kernel, rfl,
      by decide +kernel, by decide +kernel, by decide +kernel, by decide +kernel⟩
  · exact ⟨⟨by decide +kernel, by decide +kernel, by decide +kernel⟩, by
      decide +kernel, by decide +kernel, rfl,
      by decide +kernel, by decide +kernel, by decide +kernel, by decide +kernel⟩

theorem releases_stocked : Stocked releases :=
  stocked_of_empty ((Tree.dirAt_iff _ _).mp (by decide +kernel)) (by decide +kernel)
    (slashFree_spec (by decide +kernel))

def releaseEnv : Env := ⟨[], false, []⟩

theorem releases_first :
    Acceptable releases releaseEnv ⟨[], false, false⟩ (releaseFile '1') (releaseMembers '1') :=
  ⟨rfl, ⟨by
    decide +kernel, by
    decide +kernel, by decide +kernel, rfl, by simp [releaseMembers], by decide +kernel⟩,
    releaseParcel (.inl rfl), welcome_of_entries (by decide +kernel) (by decide +kernel)
      (by decide +kernel) (by decide +kernel)⟩

theorem releases_second :
    Acceptable (unpacked releases (pkgnameOf (releaseFile '1')) (releaseMembers '1')) releaseEnv
    ⟨[], false, false⟩ (releaseFile '2') (releaseMembers '2') :=
  ⟨rfl, ⟨by
    decide +kernel, by
    decide +kernel, by decide +kernel, rfl, by simp [releaseMembers], by decide +kernel⟩,
    releaseParcel (.inr rfl), welcome_of_entries (by decide +kernel) (by decide +kernel)
      (by decide +kernel) (by decide +kernel)⟩

def releaseDeeds : List Deed :=
  [.install releaseEnv ⟨[], false, false⟩ (releaseFile '1') (releaseMembers '1'),
  .upgrade releaseEnv ⟨[], false, false⟩ (releaseFile '2') (releaseMembers '2'),
    .remove releaseEnv [] (release '2')]

theorem releaseDeeds_fit : Deed.AllFit .base noHook releaseDeeds ⟨releases, []⟩ := by
  refine ⟨releases_first, fun q hq => ?_⟩
  obtain ⟨u, hu, ht⟩ :=
    Acceptable.installpkg (s := ⟨releases, []⟩) releases_stocked releases_first .base noHook
  obtain rfl := Option.some.inj (hu.symm.trans hq)
  have hs : Stocked u.tree :=
    ht ▸ Stocked.unpacked releases_first.parcel releases_first.welcome releases_stocked
  have hsecond :
    Acceptable u.tree releaseEnv ⟨[], false, false⟩ (releaseFile '2') (releaseMembers '2') :=
    ht ▸ releases_second
  have hold : ∃ v, Installed u.tree v ∧ v.head? ≠ some '.' ∧
    nameOfEntry v = nameOfFile (releaseFile '2') := by
    rw [ht]
    exact ⟨release '1', by decide +kernel⟩
  refine ⟨⟨hsecond, .inr hold⟩, fun r hr => ⟨⟨rfl, ?_⟩, fun _ _ => trivial⟩⟩
  obtain ⟨w, vs, hw, hvs, hrem⟩ := hsecond.upgradepkg hs .base noHook (.inr hold)
  obtain rfl := Option.some.inj (hw.symm.trans hr)
  have hname : pkgnameOf (releaseFile '2') = release '2' := by decide +kernel
  refine (hrem.installed _).mpr ⟨(installed_unpacked hsecond.parcel hsecond.welcome _).mpr
    (.inl hname.symm), fun hmem => ?_⟩
  exact ((hvs _).mp hmem).2.2.2 hname.symm

theorem deeds_booked_releases : ∃ u,
    runAll .base noHook (releaseDeeds.map Deed.command) ⟨releases, []⟩ =
      some (u, releaseDeeds.map fun _ => 0) ∧
      Stocked u.tree ∧ booksOf u.tree = releaseDeeds.foldl Deed.book (booksOf releases) :=
  deeds_booked .base noHook releaseDeeds ⟨releases, []⟩ releases_stocked releaseDeeds_fit

end Fidelix.Pkgtools
