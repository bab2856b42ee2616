import Fidelix.Pkgtools.Sessions

namespace Fidelix.Pkgtools

open Text Files Store

def Harmless (t : Tree) (m : Str × Node) : Prop :=
  (t.node (memberLoc m.1) = none ∧ ∀ n, ∀ f ∈ linesOf t n, placeOf f ≠ memberLoc m.1) ∨
    (t.node (memberLoc m.1) = some m.2 ∧ ∃ n, ∃ f ∈ linesOf t n, placeOf f = memberLoc m.1)

section

variable {t : Tree} {pkg : Str} {ms : List (Str × Node)} (h : Parcel pkg ms) (hw : Welcome t pkg ms)
include h hw

theorem harmless_iff : (∀ q x, filesOf ms q = some x →
      ((booksOf t).items q = none ∧ ∀ n, ¬ (booksOf t).Has placeOf n q) ∨
        ((booksOf t).items q = some x ∧ ∃ n, (booksOf t).Has placeOf n q)) ↔
    ∀ m ∈ ms, m.2.isDir = false → ¬ pkgdbLoc [] <:+ memberLoc m.1 → Harmless t m := by
  have hplace {m : Str × Node} (hm : m ∈ ms) (hdir : m.2.isDir = false)
      (hdb : ¬ pkgdbLoc [] <:+ memberLoc m.1) :
      (((booksOf t).items (memberLoc m.1) = none ∧
        ∀ n, ¬ (booksOf t).Has placeOf n (memberLoc m.1)) ∨
        ((booksOf t).items (memberLoc m.1) = some m.2 ∧
          ∃ n, (booksOf t).Has placeOf n (memberLoc m.1))) ↔ Harmless t m := by
    have ha := hw.accepts m hm
    rw [Tree.Accepts, if_neg (by simp [hdir])] at ha
    have hitems : (booksOf t).items (memberLoc m.1) = t.node (memberLoc m.1) := by
      rw [items_outside hdb]
      cases hx : t.node (memberLoc m.1) with
      | none => rfl
      | some x =>
          rw [hx] at ha
          exact noDir_some fun he => ha (congrArg some he)
    rw [hitems, Harmless]
    refine or_congr (and_congr_right fun _ => forall_congr' fun n => ?_) (and_congr_right fun _ =>
      exists_congr fun n => has_iff)
    rw [has_iff]
    simp
  have hthing {m : Str × Node} (hm : m ∈ ms) (hdir : m.2.isDir = false)
      (hdb : ¬ pkgdbLoc [] <:+ memberLoc m.1) :
      filesOf ms (memberLoc m.1) = some m.2 := by
    rw [filesOf_outside hdb, Tree.carried_mem h.distinct hm]
    apply noDir_some
    intro hd
    rw [hd] at hdir
    cases hdir
  constructor
  · intro hall m hm hdir hdb
    exact (hplace hm hdir hdb).mp (hall _ _ (hthing hm hdir hdb))
  · intro hall q x hx
    by_cases hdb : pkgdbLoc [] <:+ q
    · rw [filesOf_database hdb] at hx
      cases hx
    · cases hc : carried ms q with
      | none =>
          rw [filesOf_outside hdb, hc] at hx
          cases hx
      | some y =>
          obtain ⟨m, hm, rfl, rfl⟩ := Tree.mem_of_carried hc
          have hdir : m.2.isDir = false := by
            by_contra hd
            rw [Bool.not_eq_false, Tree.isDir_iff_eq] at hd
            rw [filesOf_outside hdb, hc, hd] at hx
            cases hx
          obtain rfl : m.2 = x := Option.some.inj ((hthing hm hdir hdb).symm.trans hx)
          exact (hplace hm hdir hdb).mpr (hall m hm hdir hdb)

theorem folder_left {q : Loc} (hq : t.node q = some .dir) (htop : ¬ q <:+ pkgdbLoc [])
    (hno : ∀ n, ∀ f ∈ linesOf t n, placeOf f ≠ q) {u : Tree}
    (hc : Cleaned (unpacked t pkg ms) u [pkg]) :
    u.node q = some .dir ↔ ∃ r ∈ t.below q, ∀ m ∈ ms, memberLoc m.1 ≠ r := by
  obtain ⟨_, _, _, hnode⟩ := unpacked_node h hw.accepts hw.fresh
  have hout : ¬ entryLoc [] pkg <:+ q := by
    intro hs
    have hsome := Tree.isSome_of_suffix hs (by rw [hq]; rfl : (t.node q).isSome)
    rw [hw.fresh] at hsome
    cases hsome
  have hlist {r : Loc} (hr : r = contentsLoc [] pkg) : ¬ q <:+ r := by
    rintro hs
    rw [hr, contentsLoc, List.suffix_cons_iff] at hs
    rcases hs with rfl | hs
    · exact hout (List.suffix_cons _ _)
    · rw [entryLoc, List.suffix_cons_iff] at hs
      rcases hs with rfl | hs
      · exact hout (List.suffix_refl _)
      · exact htop hs
  have hun : Unlisted (unpacked t pkg ms) [pkg] q := by
    intro n hn f hf
    rcases mem_linesOf_unpacked h hw hf with ⟨rfl, _⟩ | ⟨_, hf⟩
    · simp at hn
    · exact hno n f hf
  have hlisted {r : Loc} : ListedBy (unpacked t pkg ms) [pkg] r ↔ ∃ m ∈ ms, memberLoc m.1 = r := by
    constructor
    · rintro ⟨n, hn, f, hf, hfr, _⟩
      rcases mem_linesOf_unpacked h hw hf with ⟨_, m, hm, rfl⟩ | ⟨hne, _⟩
      · exact ⟨m, hm, (h.line_loc hm).symm.trans hfr⟩
      · exact absurd (List.mem_singleton.mp hn) hne
    · rintro ⟨m, hm, rfl⟩
      refine ⟨pkg, by simp, lineOf m, ?_, h.line_loc hm, ?_⟩
      · rw [linesOf_unpacked h hw, if_pos rfl]
        exact List.mem_map_of_mem hm
      · have hx : (unpacked t pkg ms).node (memberLoc m.1) = some m.2 := by
          rw [hnode, if_neg (Tree.carried_eq_none.mp h.list_uncarried m hm),
            Tree.carried_mem h.distinct hm, Option.some_or]
        cases hd : m.2.isDir with
        | true => exact .inl (hx.trans (congrArg some (Tree.isDir_iff_eq.mp hd)))
        | false =>
            right
            have hk := h.kinds m hm
            rw [hd] at hk
            rw [← h.line_loc hm] at hx ⊢
            exact place_fileLine (h.lines m hm).1 hk (by rw [hx]; rfl)
  have hdir : u.node q = some .dir ↔ (u.node q).isSome := by
    constructor
    · intro hd
      rw [hd]
      rfl
    · intro hs
      obtain ⟨x, hx⟩ := Option.isSome_iff_exists.mp hs
      have hx' := hc.within _ _ hx
      rw [hnode, if_neg fun he => hlist he (List.suffix_refl _)] at hx'
      rw [hx]
      cases hcar : carried ms q with
      | none =>
          rw [hcar, Option.none_or, hq] at hx'
          exact hx'.symm
      | some y =>
          obtain ⟨m, hm, hloc, rfl⟩ := Tree.mem_of_carried hcar
          have ha := hw.accepts m hm
          rw [Tree.Accepts, hloc, hq] at ha
          rw [hcar, Option.some_or] at hx'
          by_cases hd : m.2.isDir = true
          · rw [← hx', Tree.isDir_iff_eq.mp hd]
          · rw [if_neg hd] at ha
            exact absurd rfl ha
  rw [hdir, hc.own q htop hun]
  constructor
  · rintro ⟨_, r, hr, hnl⟩
    obtain ⟨hqr, hrs⟩ := (Tree.mem_below _ _ _).mp hr
    have hall : ∀ m ∈ ms, memberLoc m.1 ≠ r := fun m hm he => hnl (hlisted.mpr ⟨m, hm, he⟩)
    rw [hnode, if_neg fun he => hlist he hqr, Tree.carried_eq_none.mpr hall, Option.none_or] at hrs
    exact ⟨r, (Tree.mem_below _ _ _).mpr ⟨hqr, hrs⟩, hall⟩
  · rintro ⟨r, hr, hall⟩
    obtain ⟨hqr, hrs⟩ := (Tree.mem_below _ _ _).mp hr
    refine ⟨by simpa using hout, r, (Tree.mem_below _ _ _).mpr ⟨hqr, ?_⟩, fun hl => ?_⟩
    · rwa [hnode, if_neg fun he => hlist he hqr, Tree.carried_eq_none.mpr hall, Option.none_or]
    · obtain ⟨m, hm, he⟩ := hlisted.mp hl
      exact hall m hm he

end

/-- A package that is installed and removed again has changed no file and no list, if nothing was in
the place of its files, or the same and in a list of another package. -/
theorem install_undone (copy : Copy) (hook : Hook) (env env' : Env) (o : Options)
    (root_dir pkgfile : Str) (ms : List (Str × Node)) (s : Sys) (hs : Stocked s.tree)
    (h : Acceptable s.tree env o pkgfile ms) (hroot : rootOr root_dir = ['/']) :
    ∃ u v, installpkg copy hook env o pkgfile s = some (u, 0) ∧
      removepkg hook env' root_dir (pkgnameOf pkgfile) u = some (v, 0) ∧ Stocked v.tree ∧
      (booksOf v.tree = booksOf s.tree ↔
        ∀ m ∈ ms, m.2.isDir = false → ¬ pkgdbLoc [] <:+ memberLoc m.1 → Harmless s.tree m) ∧
      ∀ q, s.tree.node q = some .dir → ¬ q <:+ pkgdbLoc [] →
      (∀ n, ∀ f ∈ linesOf s.tree n, placeOf f ≠ q) →
        (v.tree.node q = some .dir ↔ ∃ r ∈ s.tree.below q, ∀ m ∈ ms, memberLoc m.1 ≠ r) := by
  obtain ⟨u, hu, ht⟩ := h.installpkg hs copy hook
  have hst := Stocked.unpacked h.parcel h.welcome hs
  rw [← ht] at hst
  have hi : Installed u.tree (pkgnameOf pkgfile) := by
    rw [ht]
    exact (installed_unpacked h.parcel h.welcome _).mpr (.inl rfl)
  obtain ⟨v, hv, hr⟩ := hst.removepkg hi hook env' hroot
  refine ⟨u, v, hu, hv, hst.removed hr, ?_, fun q hq htop hno => ?_⟩
  · have hset : ({n | n ∈ [pkgnameOf pkgfile]} : Set Str) = {pkgnameOf pkgfile} := by
      ext n
      simp
    rw [hst.books_removed hr, ht, books_unpacked h.parcel h.welcome, hset,
      Stock.add_retire (lists_fresh h.welcome) (fits_unpacked h.parcel h.welcome)]
    exact harmless_iff h.parcel h.welcome
  · have hc := hr.cleaned hst.toCanonical (by simpa using hi) (by simp)
    rw [ht] at hc
    exact folder_left h.parcel h.welcome hq htop hno hc

theorem install_undone_release : ∃ u v,
    installpkg .base noHook releaseEnv ⟨[], false, false⟩ (releaseFile '1')
      ⟨releases, []⟩ = some (u, 0) ∧
      removepkg noHook releaseEnv [] (pkgnameOf (releaseFile '1')) u = some (v, 0) ∧
      Stocked v.tree ∧
      (booksOf v.tree = booksOf releases ↔ ∀ m ∈ releaseMembers '1', m.2.isDir = false →
        ¬ pkgdbLoc [] <:+ memberLoc m.1 → Harmless releases m) ∧
      ∀ q, releases.node q = some .dir → ¬ q <:+ pkgdbLoc [] →
      (∀ n, ∀ f ∈ linesOf releases n, placeOf f ≠ q) →
        (v.tree.node q = some .dir ↔ ∃ r ∈ releases.below q, ∀ m ∈ releaseMembers '1',
          memberLoc m.1 ≠ r) :=
  install_undone .base noHook releaseEnv releaseEnv ⟨[], false, false⟩ [] (releaseFile '1')
    (releaseMembers '1')
    ⟨releases, []⟩ releases_stocked releases_first rfl

def Unbooked (t : Tree) (p : Loc) : Prop :=
  ∃ r ∈ t.below p, ¬ pkgdbLoc [] <:+ r ∧ ∀ n, ∀ f ∈ linesOf t n, placeOf f ≠ r

theorem Stocked.left_unbooked {t : Tree} (h : Stocked t) {pkgs : List Str}
    (hi : ∀ n ∈ pkgs, Installed t n) (hd : pkgs.Nodup) {p : Loc} (hp : Unbooked t p) :
    Left t pkgs p := by
  obtain ⟨r, hr, hdb, hno⟩ := hp
  obtain ⟨hpr, hrs⟩ := (Tree.mem_below _ _ _).mp hr
  apply Left.up _ hpr
  by_cases htop : r <:+ pkgdbLoc []
  · exact h.left_top hi hd htop
  · refine h.left_unlisted htop hrs (fun pkg _ hs => hdb ((List.suffix_cons _ _).trans hs)) ?_
    rintro ⟨n, _, f, hf, hfr, _⟩
    exact hno n f hf hfr

theorem Stocked.left_database {t : Tree} (h : Stocked t) {pkgs : List Str} {q : Loc}
    (hdb : pkgdbLoc [] <:+ q) {x : Node} (hx : t.node q = some x) (hd : x ≠ .dir) :
    Left t pkgs q ↔ ∀ pkg ∈ pkgs, ¬ entryLoc [] pkg <:+ q := by
  refine ⟨Left.outside, fun hout => ?_⟩
  have hs : (t.node q).isSome := by rw [hx]; rfl
  have htop : ¬ q <:+ pkgdbLoc [] := by
    intro hsuf
    have hdir := dir_below hsuf h.dir
    rw [hx] at hdir
    exact hd (Option.some.inj hdir)
  refine h.left_unlisted htop hs hout ?_
  rintro ⟨n, hn, f, hf, rfl, _⟩
  rcases h.home n f hf hdb with he | he
  · rw [he] at htop
    exact htop (List.suffix_refl _)
  · exact hout n hn he

theorem Stocked.removed_database {t u : Tree} (h : Stocked t) {pkgs : List Str}
    (hr : Removed t u pkgs) {q : Loc} (hdb : pkgdbLoc [] <:+ q) {x : Node} (hd : x ≠ .dir) :
    u.node q = some x ↔ (∀ pkg ∈ pkgs, ¬ entryLoc [] pkg <:+ q) ∧ t.node q = some x := by
  rw [hr.node]
  constructor
  · intro hx
    split at hx
    · rename_i hl
      exact ⟨hl.outside, hx⟩
    · cases hx
  · rintro ⟨hout, hx⟩
    rw [if_pos ((h.left_database hdb hx hd).mpr hout), hx]

theorem Offered.outlives {t u : Tree} {cwd : Loc} {pkgfile : Str} {ms : List (Str × Node)}
    (h : Offered t cwd pkgfile ms) (hu : ∀ p ∈ t.allLooks cwd pkgfile, u.node p = t.node p) :
    Offered u cwd pkgfile ms := by
  obtain ⟨hl, n, hn, h1, h2⟩ := h.file
  rw [Option.mem_toList] at hn
  have hc : (comps pkgfile).getLast? = some n := by rw [comps, if_neg hl, List.append_nil, hn]
  refine ⟨h.word, h.file, h.extension, readArchive_kept h.file hu h.nonempty h.read, h.nonempty, ?_⟩
  cases hst : t.stat cwd pkgfile with
  | none =>
      have hr := h.read
      rw [Tree.readArchive, hst] at hr
      exact absurd (congrArg Prod.fst hr).symm h.nonempty
  | some x =>
      rw [Tree.allLooks_kept hc h1 h2 hst hu]
      exact h.aside

theorem Welcome.outlives {t u : Tree} {pkg : Str} {ms : List (Str × Node)} (hp : Parcel pkg ms)
    (h : Welcome t pkg ms) {pkgs : List Str} (hr : Removed t u pkgs) : Welcome u pkg ms := by
  have hgone {q : Loc} (hq : t.node q = none) : u.node q = none := by
    rw [hr.node, hq, ite_self]
  have hacc : ∀ m ∈ ms, u.Accepts m := by
    intro m hm
    have ha := h.accepts m hm
    rw [Tree.Accepts] at ha ⊢
    rw [hr.node]
    split
    · rename_i hd
      rw [if_pos hd] at ha
      split
      · exact ha
      · exact .inl rfl
    · rename_i hd
      rw [if_neg hd] at ha
      split
      · exact ha
      · simp
  refine ⟨hgone h.fresh, hacc, fun m hm =>
    ⟨(h.told m hm).1, fun n f hf => (h.told m hm).2 n f ((hr.lines n f).mp hf).1⟩,
    fun f hf hl => ?_⟩
  have hwithin : (unpacked u pkg ms).Within (unpacked t pkg ms) := by
    obtain ⟨_, _, _, hnode⟩ := unpacked_node hp h.accepts h.fresh
    obtain ⟨_, _, _, hnode'⟩ := unpacked_node hp hacc (hgone h.fresh)
    intro q x hx
    rw [hnode'] at hx
    rw [hnode]
    split
    · rename_i hq
      rwa [if_pos hq] at hx
    · rename_i hq
      rw [if_neg hq] at hx
      cases hc : carried ms q with
      | some y =>
          rw [hc, Option.some_or] at hx
          rw [Option.some_or, hx]
      | none =>
          rw [hc, Option.none_or] at hx
          rw [Option.none_or, hr.within _ _ hx]
  by_contra hd
  rw [Bool.not_eq_false] at hd
  have hlisted : f ∈ ms.map lineOf ∨ ∃ n, f ∈ linesOf t n :=
    hf.imp_right fun ⟨n, hn⟩ => ⟨n, ((hr.lines n f).mp hn).1⟩
  have hno := h.links f hlisted hl
  rw [Tree.isDir_mono hwithin hd] at hno
  cases hno

theorem exchanged_database {t u v : Tree} {pkg : Str} {ms : List (Str × Node)} (h : Stocked t)
    (hp : Parcel pkg ms) (hw : Welcome t pkg ms) (hw' : Welcome v pkg ms) {pkgs pkgs' : List Str}
    (hu : Removed (unpacked t pkg ms) u pkgs) (hv : Removed t v pkgs')
    (hsame : ∀ n, n ∈ pkgs ↔ n ∈ pkgs') (hnot : pkg ∉ pkgs) {q : Loc} (hdb : pkgdbLoc [] <:+ q)
    {x : Node} (hx : x ≠ .dir) : u.node q = some x ↔ (unpacked v pkg ms).node q = some x := by
  obtain ⟨_, _, _, hnode⟩ := unpacked_node hp hw.accepts hw.fresh
  obtain ⟨_, _, _, hnode'⟩ := unpacked_node hp hw'.accepts hw'.fresh
  have hout (hs : entryLoc [] pkg <:+ q) : ∀ n ∈ pkgs, ¬ entryLoc [] n <:+ q := by
    intro n hn hsuf
    exact hnot (entryLoc_suffix hs hsuf ▸ hn)
  rw [(Stocked.unpacked hp hw h).removed_database hu hdb hx, hnode, hnode']
  by_cases hc : q = contentsLoc [] pkg
  · rw [if_pos hc, if_pos hc]
    exact and_iff_right (hout (hc ▸ List.suffix_cons _ _))
  · rw [if_neg hc, if_neg hc]
    cases hcar : carried ms q with
    | none =>
        rw [Option.none_or, Option.none_or, h.removed_database hv hdb hx]
        simp only [hsame]
    | some y =>
        obtain ⟨m, hm, rfl, rfl⟩ := Tree.mem_of_carried hcar
        rw [Option.some_or, Option.some_or]
        refine and_iff_right_of_imp fun hmx => ?_
        rcases hp.own m hm hdb with htop | ⟨hsuf, _⟩
        · have ha := hw.accepts m hm
          rw [Tree.Accepts, htop, h.dir, if_neg] at ha
          · exact absurd rfl ha
          · rw [Tree.isDir_iff_eq, Option.some.inj hmx]
            exact hx
        · exact hout hsuf

/-- An upgrade and the removal of the old versions before the install of the new one come to the
same files, links and lists. -/
theorem upgrade_exchange (copy : Copy) (hook : Hook) (env : Env) (o : Options)
    (root_dir pkgfile : Str) (ms : List (Str × Node)) (rs : List (Env × Str)) (s : Sys)
    (hs : Stocked s.tree) (h : Acceptable s.tree env o pkgfile ms)
    (hdo : o.do_install = true ∨ ∃ v, Installed s.tree v ∧ v.head? ≠ some '.' ∧
      nameOfEntry v = nameOfFile pkgfile)
    (hroot : rootOr root_dir = ['/'])
    (hrs : ∀ v, v ∈ rs.map Prod.snd ↔ Installed s.tree v ∧ v ∈ Older pkgfile)
    (hd : (rs.map Prod.snd).Nodup)
    (hfile : ∀ p ∈ s.tree.allLooks env.cwd pkgfile, Unbooked s.tree p) : ∃ u v w,
      upgradepkg copy hook env o pkgfile s = some (u, 0) ∧
      runAll copy hook (removals root_dir rs) s = some (v, rs.map fun _ => 0) ∧
      installpkg copy hook env o pkgfile v = some (w, 0) ∧ booksOf u.tree = booksOf w.tree ∧
      ∀ q x, x ≠ .dir → (u.tree.node q = some x ↔ w.tree.node q = some x) := by
  obtain ⟨u, vs, hu, hvs, hur⟩ := h.upgradepkg hs copy hook hdo
  have hi : ∀ r ∈ rs, Installed s.tree r.2 := fun r hr => ((hrs r.2).mp (List.mem_map_of_mem hr)).1
  obtain ⟨v, hv, hvr⟩ :=
    (Removed.refl hs.toCanonical).removals hs.toCanonical hs.slashFree copy hook hroot
    hi hd (by simp)
    fun r hr => hs.not_exec (hi r hr)
  rw [List.append_nil] at hvr
  have hin : ∀ n ∈ (rs.map Prod.snd).reverse, Installed s.tree n := by
    intro n hn
    exact ((hrs n).mp (List.mem_reverse.mp hn)).1
  have hkept : ∀ p ∈ s.tree.allLooks env.cwd pkgfile, v.tree.node p = s.tree.node p := by
    intro p hp
    rw [hvr.node, if_pos (hs.left_unbooked hin (List.nodup_reverse.mpr hd) (hfile p hp))]
  have h' : Acceptable v.tree env o pkgfile ms :=
    ⟨h.root, h.offered.outlives hkept, h.parcel, h.welcome.outlives h.parcel hvr⟩
  have hsv := hs.removed hvr
  obtain ⟨w, hw, hwt⟩ := h'.installpkg hsv copy hook
  have hsu := Stocked.unpacked h.parcel h.welcome hs
  have hsame (n : Str) : n ∈ vs ↔ n ∈ (rs.map Prod.snd).reverse := by
    rw [hvs, List.mem_reverse, hrs]
  have hnot : pkgnameOf pkgfile ∉ vs := fun hmem => ((hvs _).mp hmem).2.2.2 rfl
  have hbooks : booksOf u.tree = booksOf w.tree := by
    have hset : ({n | n ∈ (rs.map Prod.snd).reverse} : Set Str) = {n | n ∈ vs} := by
      ext n
      exact (hsame n).symm
    rw [hsu.books_removed hur, books_unpacked h.parcel h.welcome, hwt,
      books_unpacked h'.parcel h'.welcome,
      hs.books_removed hvr, hset]
    exact Stock.retire_add (lists_fresh h.welcome) (fits_unpacked h.parcel h.welcome) hnot
  refine ⟨u, v, w, hu, hv, hw, hbooks, fun q x hx => ?_⟩
  by_cases hdb : pkgdbLoc [] <:+ q
  · rw [hwt]
    exact exchanged_database hs h.parcel h.welcome h'.welcome hur hvr hsame hnot hdb hx
  · have hitems : noDir (u.tree.node q) = noDir (w.tree.node q) := by
      rw [← items_outside hdb, ← items_outside hdb, hbooks]
    have hnew := noDir_eq_some (x := u.tree.node q) hx
    rw [hitems] at hnew
    exact hnew.symm.trans (noDir_eq_some hx)

def firstRelease : Tree := unpacked releases (pkgnameOf (releaseFile '1')) (releaseMembers '1')

theorem firstRelease_older (v : Str) : v ∈ [(releaseEnv, release '1')].map Prod.snd ↔
    Installed firstRelease v ∧ v ∈ Older (releaseFile '2') := by
  have hold : ∀ n ∈ entries firstRelease, n = release '1' := by decide +kernel
  have hone : Installed firstRelease (release '1') ∧ (release '1').head? ≠ some '.' ∧
      nameOfEntry (release '1') = nameOfFile (releaseFile '2') ∧
        release '1' ≠ pkgnameOf (releaseFile '2') := by decide +kernel
  rw [List.map_cons, List.map_nil, List.mem_singleton]
  constructor
  · rintro rfl
    exact hone
  · rintro ⟨hi, _⟩
    apply hold
    rw [entries, Tree.mem_children, show v :: pkgdbLoc [] = entryLoc [] v from rfl,
      Stocked.entry hi]
    rfl

theorem firstRelease_unbooked :
    ∀ p ∈ firstRelease.allLooks [] (releaseFile '2'), Unbooked firstRelease p := by
  have hall : ∀ p ∈ firstRelease.allLooks [] (releaseFile '2'), ∃ r ∈ firstRelease.below p,
    ¬ pkgdbLoc [] <:+ r ∧
      ∀ n ∈ entries firstRelease, ∀ f ∈ linesOf firstRelease n, placeOf f ≠ r := by decide +kernel
  intro p hp
  obtain ⟨r, hr, hdb, hno⟩ := hall p hp
  exact ⟨r, hr, hdb, fun n f hf => hno n (mem_entries hf) f hf⟩

theorem upgrade_exchange_release : ∃ u v w,
    upgradepkg .base noHook releaseEnv ⟨[], false, false⟩ (releaseFile '2')
      ⟨firstRelease, []⟩ = some (u, 0) ∧
      runAll .base noHook (removals [] [(releaseEnv, release '1')]) ⟨firstRelease, []⟩ =
        some (v, [0]) ∧
      installpkg .base noHook releaseEnv ⟨[], false, false⟩ (releaseFile '2') v = some (w, 0) ∧
      booksOf u.tree = booksOf w.tree ∧ ∀ q x, x ≠ .dir →
      (u.tree.node q = some x ↔ w.tree.node q = some x) :=
  upgrade_exchange .base noHook releaseEnv ⟨[], false, false⟩ [] (releaseFile '2')
    (releaseMembers '2')
    [(releaseEnv, release '1')] ⟨firstRelease, []⟩
    (Stocked.unpacked releases_first.parcel releases_first.welcome releases_stocked) releases_second
    (.inr ⟨release '1', by decide +kernel⟩) rfl firstRelease_older (by decide) firstRelease_unbooked

end Fidelix.Pkgtools
