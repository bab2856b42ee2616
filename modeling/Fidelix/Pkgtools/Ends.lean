import Fidelix.Pkgtools.Lists
import Fidelix.Pkgtools.Installpkg

namespace Fidelix.Pkgtools

open Text Files

/-- The recursion of `removepkg_rmdir` comes from one directory to another. -/
inductive Reaches (cwd : Loc) (contents_files : List Str) : Tree → Str → Tree → Str → Prop
  | refl (t : Tree) (dir : Str) : Reaches cwd contents_files t dir t dir
  | step {t u : Tree} {dir e : Str} (hd : dir ≠ ['/']) (hc : count t cwd contents_files dir = 1)
      (h : Reaches cwd contents_files (t.rmdirParents cwd (here dir))
        (dirnameOf (t.rmdirParents cwd (here dir)) cwd dir) u e) :
        Reaches cwd contents_files t dir u e

/-- The recursion comes to a name that `dirname` maps to itself, with a count of one. -/
def Circles (cwd : Loc) (contents_files : List Str) (t : Tree) (dir : Str) : Prop :=
  ∃ u e, Reaches cwd contents_files t dir u e ∧ (e = dot ∨ e = []) ∧
    count u cwd contents_files e = 1

def Rounds (cwd : Loc) (contents_files : List Str) : Tree → List Str → Prop
  | _, [] => True
  | t, file :: files => (t.isDir cwd (here file) = true → ¬ Circles cwd contents_files t file) ∧
      ∀ u, rmdirStep cwd contents_files t file = some u → Rounds cwd contents_files u files

def SlashFree (t : Tree) : Prop := ∀ n d, (t.node (n :: d)).isSome → '/' ∉ n

theorem SlashFree.within {t u : Tree} (h : SlashFree t) (hu : u.Within t) : SlashFree u := by
  intro n d hs
  obtain ⟨x, hx⟩ := Option.isSome_iff_exists.mp hs
  exact h n d (by rw [hu _ _ hx]; rfl)

theorem globFrom_slashes {t : Tree} (ht : SlashFree t) (cwd : Loc) (pre : Str) (gs : List Str)
    (hne : gs ≠ []) (hgs : ∀ g ∈ gs, '/' ∉ g) :
    ∀ w ∈ globFrom t cwd pre gs, w.count '/' + 1 = pre.count '/' + gs.length := by
  have hnames (pre pat : Str) : ∀ n ∈ globNames t cwd pre pat, n.count '/' = 0 := by
    intro n hn
    rw [globNames] at hn
    split at hn
    · cases hn
    · rename_i d _
      rw [List.mem_filter, Tree.mem_children] at hn
      exact List.count_eq_zero.mpr (ht n d hn.1)
  have hzero : ∀ g ∈ gs, g.count '/' = 0 := fun g hg => List.count_eq_zero.mpr (hgs g hg)
  induction gs generalizing pre with
  | nil => exact absurd rfl hne
  | cons g gs ih =>
      cases gs with
      | nil =>
          intro w hw
          rw [globFrom] at hw
          split at hw
          · obtain ⟨n, hn, rfl⟩ := List.mem_map.mp hw
            simp [hnames _ _ n hn]
          · split at hw
            · rw [List.mem_singleton.mp hw]
              simp [hzero g (by simp)]
            · cases hw
      | cons g' gs =>
          have hrest (pre : Str) := ih pre (by simp) (fun x hx => hgs x (List.mem_cons_of_mem _ hx))
            fun x hx => hzero x (List.mem_cons_of_mem _ hx)
          intro w hw
          rw [globFrom] at hw
          · split at hw
            · obtain ⟨n, hn, hw⟩ := List.mem_flatMap.mp hw
              have hc := hrest _ w hw
              simp only [List.count_append, hnames _ _ n hn, List.length_cons] at hc ⊢
              simp at hc
              omega
            · have hc := hrest _ w hw
              simp only [List.count_append, hzero g (by simp), List.length_cons] at hc ⊢
              simp at hc
              omega
          · simp

theorem expand_slashes {t : Tree} (ht : SlashFree t) (cwd : Loc) (s : Str) :
    ∀ w ∈ expand t cwd s, w.count '/' ≤ s.count '/' := by
  intro w hw
  obtain ⟨v, hv, hw⟩ := List.mem_flatMap.mp hw
  have hvs : v.count '/' ≤ s.count '/' := by
    rw [words] at hv
    exact (sublist_of_mem_splitOnP blank s v (List.mem_filter.mp hv).1).count_le '/'
  refine le_trans ?_ hvs
  rw [globWord] at hw
  split at hw
  · simp only at hw
    split at hw
    · rw [List.mem_singleton.mp hw]
    · have hc :=
        globFrom_slashes ht cwd [] (v.splitOn '/') (by simp) (not_mem_of_mem_splitOn '/' v) w hw
      rw [length_splitOn, List.count_nil] at hc
      omega
  · rw [List.mem_singleton.mp hw]

theorem count_dropName (a : Str) (h : a.dropWhile (· != '/') ≠ []) :
    ((a.dropWhile (· != '/')).dropWhile (· == '/')).count '/' < a.count '/' := by
  induction a with
  | nil => exact absurd rfl h
  | cons c a ih =>
      by_cases hc : c = '/'
      · have hle : (a.dropWhile (· == '/')).count '/' ≤ a.count '/' :=
          (List.dropWhile_sublist _).count_le '/'
        simp [hc]
        omega
      · have hne : (c != '/') = true := by simpa using hc
        have hdrop : (c :: a).dropWhile (· != '/') = a.dropWhile (· != '/') := by
          rw [List.dropWhile_cons, if_pos hne]
        rw [hdrop] at h ⊢
        rw [List.count_cons_of_ne hc]
        exact ih h

theorem dirname_cases (s : Str) :
    dirname s = ['/'] ∨ dirname s = dot ∨ (dirname s).count '/' < s.count '/' := by
  have hle : (s.reverse.dropWhile (· == '/')).count '/' ≤ s.count '/' := by
    rw [← List.count_reverse (l := s)]
    exact (List.dropWhile_sublist _).count_le '/'
  rw [dirname]
  split
  · exact .inr (.inl rfl)
  · split
    · exact .inl rfl
    · split
      · exact .inr (.inl rfl)
      · split
        · exact .inl rfl
        · rename_i hb _
          rw [List.count_reverse]
          exact .inr (.inr (lt_of_lt_of_le (count_dropName _ hb) hle))

theorem dirnameOf_cases {t : Tree} (ht : SlashFree t) (cwd : Loc) (s : Str) :
    dirnameOf t cwd s = ['/'] ∨ dirnameOf t cwd s = dot ∨ dirnameOf t cwd s = [] ∨
      (dirnameOf t cwd s).count '/' < s.count '/' := by
  rw [dirnameOf]
  split
  · rename_i w hw
    have hle := expand_slashes ht cwd s w (by simp [hw])
    rcases dirname_cases w with h | h | h
    · exact .inl h
    · exact .inr (.inl h)
    · exact .inr (.inr (.inr (lt_of_lt_of_le h hle)))
  · exact .inr (.inr (.inl rfl))

theorem removepkg_rmdir_still {cwd : Loc} {cf : List Str} {t : Tree} {dir : Str}
    (hd : dir = dot ∨ dir = []) (hc : count t cwd cf dir = 1) (n : Nat) :
    removepkg_rmdir cwd cf n t dir = none := by
  have hne : dir ≠ ['/'] := by
    rcases hd with rfl | rfl
    · decide
    · decide
  have hrm : t.rmdirParents cwd (here dir) = t := by
    rcases hd with rfl | rfl
    · rfl
    · rfl
  have hfix : dirnameOf t cwd dir = dir := by
    rcases hd with rfl | rfl
    · rw [dirnameOf, expand_oneWord t cwd (by decide)]
      rfl
    · rfl
  induction n with
  | zero => rfl
  | succ n ih =>
      rw [removepkg_rmdir, if_neg hne, if_pos hc]
      simp only [hrm, hfix]
      exact ih

theorem removepkg_rmdir_never {cwd : Loc} {cf : List Str} {t : Tree} {dir : Str}
    (h : Circles cwd cf t dir) (n : Nat) : removepkg_rmdir cwd cf n t dir = none := by
  obtain ⟨u, e, hr, he, hc⟩ := h
  induction hr generalizing n with
  | refl t dir => exact removepkg_rmdir_still he hc n
  | step hd hc' _ ih =>
      cases n with
      | zero => rfl
      | succ n =>
          rw [removepkg_rmdir, if_neg hd, if_pos hc']
          exact ih n he hc

theorem removepkg_rmdir_stops {cwd : Loc} {cf : List Str} {n : Nat} (t : Tree) {dir : Str}
    (hn : n ≠ 0) (h : dir = ['/'] ∨ count t cwd cf dir ≠ 1) :
    (removepkg_rmdir cwd cf n t dir).isSome = true := by
  obtain ⟨m, rfl⟩ := Nat.exists_eq_succ_of_ne_zero hn
  rw [removepkg_rmdir]
  split
  · rfl
  · rename_i hd
    rw [if_neg (h.resolve_left hd)]
    rfl

theorem removepkg_rmdir_ends {cwd : Loc} {cf : List Str} {t : Tree} {dir : Str} (ht : SlashFree t)
    (h : ¬ Circles cwd cf t dir) {n : Nat} (hn : dir.count '/' + 2 ≤ n) :
    (removepkg_rmdir cwd cf n t dir).isSome = true := by
  induction n generalizing t dir with
  | zero => omega
  | succ n ih =>
      rw [removepkg_rmdir]
      split
      · rfl
      · rename_i hd
        split
        · rename_i hc
          simp only
          set u := t.rmdirParents cwd (here dir)
          have hu : SlashFree u := ht.within (rmdirUp_rmdirs t _ _).within
          have hcirc : ¬ Circles cwd cf u (dirnameOf u cwd dir) := by
            rintro ⟨v, e, hr, he⟩
            exact h ⟨v, e, .step hd hc hr, he⟩
          have hstill : dirnameOf u cwd dir = dot ∨ dirnameOf u cwd dir = [] →
              count u cwd cf (dirnameOf u cwd dir) ≠ 1 :=
                fun he hc' => hcirc ⟨u, _, .refl _ _, he, hc'⟩
          rcases dirnameOf_cases hu cwd dir with he | he | he | he
          · exact removepkg_rmdir_stops u (by omega) (.inl he)
          · exact removepkg_rmdir_stops u (by omega) (.inr (hstill (.inl he)))
          · exact removepkg_rmdir_stops u (by omega) (.inr (hstill (.inr he)))
          · exact ih hu hcirc (by omega)
        · rfl

theorem dirname_oneWord {s : Str} (h : OneWord s) : OneWord (dirname s) := by
  rw [dirname]
  split
  · decide
  · split
    · decide
    · split
      · decide
      · split
        · decide
        · rename_i hc
          refine ⟨List.reverse_ne_nil_iff.mpr hc, fun c hc => h.2 c ?_⟩
          have h1 := (List.dropWhile_sublist _).subset (List.mem_reverse.mp hc)
          have h2 := (List.dropWhile_sublist _).subset h1
          exact List.mem_reverse.mp ((List.dropWhile_sublist _).subset h2)

theorem dirnameOf_oneWord (t : Tree) (cwd : Loc) {s : Str} (h : OneWord s) :
    dirnameOf t cwd s = dirname s := by
  rw [dirnameOf, expand_oneWord t cwd h]

section

variable {t : Tree} (h : Database t)
include h

theorem Database.lists_rmdirParents {u : Tree}
    (hn : ∀ p ∈ lists t, u.node p = t.node p) (dir : Str) :
    ∀ p ∈ lists t, (u.rmdirParents [] (here dir)).node p = t.node p := by
  intro p hp
  obtain ⟨n, rfl, _, _, e, ls, hls⟩ := h.own p hp
  rw [hls]
  exact (rmdirUp_rmdirs u _ _).file ((hn _ hp).trans hls) (by simp)

theorem reaches_dot {u v : Tree} {dir e : Str} (hr : Reaches [] (contentsFiles t []) u dir v e)
    (hn : ∀ p ∈ lists t, u.node p = t.node p) (ho : OneWord dir) (he : e = dot ∨ e = [])
    (hc : count v [] (contentsFiles t []) e = 1) :
    ∃ k, dirname^[k] dir = dot ∧ ∀ j ≤ k, occurrences t (dirname^[j] dir) = 1 := by
  induction hr with
  | refl u dir =>
      refine ⟨0, he.resolve_right ho.1, fun j hj => ?_⟩
      obtain rfl : j = 0 := by omega
      rw [← h.count_eq hn]
      exact hc
  | @step u v dir e hd hc' _ ih =>
      rw [dirnameOf_oneWord _ _ ho] at ih
      obtain ⟨k, hk, hall⟩ := ih (h.lists_rmdirParents hn dir) (dirname_oneWord ho) he hc
      refine ⟨k + 1, hk, fun j hj => ?_⟩
      cases j with
      | zero => rw [← h.count_eq hn]; exact hc'
      | succ j => exact hall j (by omega)

theorem circles_iff {u : Tree} (hn : ∀ p ∈ lists t, u.node p = t.node p) {dir : Str}
    (ho : OneWord dir) :
    Circles [] (contentsFiles t []) u dir ↔
      ∃ k, dirname^[k] dir = dot ∧ ∀ j ≤ k, occurrences t (dirname^[j] dir) = 1 := by
  constructor
  · rintro ⟨v, e, hr, he, hc⟩
    exact reaches_dot h hr hn ho he hc
  · rintro ⟨k, hk, hall⟩
    induction k generalizing u dir with
    | zero =>
        refine ⟨u, dir, .refl u dir, .inl hk, ?_⟩
        rw [h.count_eq hn]
        exact hall 0 (le_refl 0)
    | succ k ih =>
        have hroot : dir ≠ ['/'] := by
          rintro rfl
          rw [Function.iterate_fixed (show dirname ['/'] = ['/'] from rfl)] at hk
          exact absurd hk (by decide)
        have hc : count u [] (contentsFiles t []) dir = 1 :=
          (h.count_eq hn dir).trans (hall 0 (by omega))
        obtain ⟨v, e, hr, he⟩ :=
          ih (h.lists_rmdirParents hn dir) (dirname_oneWord ho) hk fun j hj =>
          hall (j + 1) (by omega)
        refine ⟨v, e, .step hroot hc ?_, he⟩
        rw [dirnameOf_oneWord _ _ ho]
        exact hr

end

theorem rmdirStep_isSome {cwd : Loc} {cf : List Str} {t : Tree} {file : Str} (ht : SlashFree t) :
    (rmdirStep cwd cf t file).isSome = true ↔
    (t.isDir cwd (here file) = true → ¬ Circles cwd cf t file) := by
  have hlen : file.count '/' ≤ file.length := List.count_le_length
  rw [rmdirStep]
  split
  · rename_i hd
    constructor
    · intro hs _ hc
      rw [removepkg_rmdir_never hc] at hs
      cases hs
    · intro hc
      exact removepkg_rmdir_ends ht (hc hd) (by omega)
  · rename_i hd
    exact ⟨fun _ h => absurd h hd, fun _ => rfl⟩

theorem rmdirStep_within {cwd : Loc} {cf : List Str} {t u : Tree} {file : Str}
    (h : rmdirStep cwd cf t file = some u) : u.Within t := by
  rw [rmdirStep] at h
  split at h
  · exact (removepkg_rmdir_rmdirs h).within
  · rw [← Option.some.inj h]
    exact .refl t

theorem uninstallDirs_isSome {cwd : Loc} {cf files : List Str} {t : Tree} (ht : SlashFree t) :
    (uninstallDirs cwd cf t files).isSome = true ↔ Rounds cwd cf t files := by
  induction files generalizing t with
  | nil => exact ⟨fun _ => trivial, fun _ => rfl⟩
  | cons file files ih =>
      rw [uninstallDirs, Rounds, ← rmdirStep_isSome ht]
      cases hu : rmdirStep cwd cf t file with
      | none => simp
      | some u =>
          have hrest := ih (ht.within (rmdirStep_within hu))
          simpa using hrest

theorem rmfileStep_within (cwd : Loc) (cf : List Str) (t : Tree) (file : Str) :
    (rmfileStep cwd cf t file).Within t := by
  rw [rmfileStep]
  split
  · exact .refl t
  · rw [removepkg_rmfile]
    split
    · rw [Tree.rm]
      split
      · exact .refl t
      · rename_i p _
        cases hu : t.unlink p with
        | none => exact .refl t
        | some u => exact Tree.within_of_erase (Tree.unlink_node hu)
    · exact .refl t

theorem uninstallFiles_within (cwd : Loc) (cf : List Str) (t : Tree) (files : List Str) :
    (uninstallFiles cwd cf t files).Within t := by
  induction files generalizing t with
  | nil => exact .refl t
  | cons file files ih => exact (ih _).trans (rmfileStep_within cwd cf t file)

def RoundsOf (cwd : Loc) (contents_files : List Str) (pkgname : Str) (t : Tree) : Prop :=
  let u := uninstallFiles cwd contents_files t (readContents t cwd pkgname)
  Rounds cwd contents_files u (readContents u cwd pkgname)

theorem uninstall_isSome {cwd : Loc} {cf : List Str} {pkgname : Str} {t : Tree} (ht : SlashFree t) :
    (uninstall cwd cf pkgname t).isSome = true ↔ RoundsOf cwd cf pkgname t := by
  rw [uninstall, Option.isSome_map]
  exact uninstallDirs_isSome (ht.within (uninstallFiles_within cwd cf t _))

theorem removepkg_isSome {hook : Hook} {env : Env} {root_dir pkgname : Str} {s : Sys} {cwd : Loc}
    (hcwd : (s.tree.stat env.cwd (rootOr root_dir)).getD env.cwd = cwd)
    (hs : SlashFree (runDouninst hook env cwd pkgname s).tree) :
    (removepkg hook env root_dir pkgname s).isSome = true ↔
      (pkgname ≠ [] → s.tree.isDir env.cwd (entryIn (rootOr root_dir) pkgname) = true →
        RoundsOf cwd (contentsFiles s.tree cwd) pkgname
          (runDouninst hook env cwd pkgname s).tree) := by
  subst hcwd
  rw [removepkg]
  split
  · rename_i hn
    exact ⟨fun _ h => absurd hn h, fun _ => rfl⟩
  · split
    · rename_i hd
      exact ⟨fun _ _ h => absurd (hd.symm.trans h) Bool.false_ne_true, fun _ => rfl⟩
    · rename_i hn hd
      rw [Option.isSome_map, uninstall_isSome hs]
      exact ⟨fun h _ _ => h, fun h => h hn (by simpa using hd)⟩

/-- A removal that is not refused comes to an end exactly when no recursion circles. -/
theorem removepkg_ends_iff (hook : Hook) (env : Env) (root_dir pkgname : Str) (s : Sys) (cwd : Loc)
    (hcwd : (s.tree.stat env.cwd (rootOr root_dir)).getD env.cwd = cwd)
    (hs : SlashFree (runDouninst hook env cwd pkgname s).tree) :
    (removepkg hook env root_dir pkgname s).isSome = true ↔
      (pkgname ≠ [] → s.tree.isDir env.cwd (entryIn (rootOr root_dir) pkgname) = true →
        RoundsOf cwd (contentsFiles s.tree cwd) pkgname
          (runDouninst hook env cwd pkgname s).tree) :=
  removepkg_isSome hcwd hs

def dottedPkg : Str := ['p']

def dottedFile : Str := ['p', '.', 't', 'g', 'z']

def rootArchive (bare : Bool) : Tree :=
  Tree.ofList [([dottedFile], .archive [(if bare then dot else here [], .dir),
  (here (path pkgdb dottedPkg), .dir)] true)]

def slashFree (t : Tree) : Bool := t.support.all fun p => p.all fun n => !n.contains '/'

theorem slashFree_spec {t : Tree} (h : slashFree t = true) : SlashFree t := by
  intro n d hs
  simp only [slashFree, List.all_eq_true] at h
  simpa using h _ (t.finite _ hs) n List.mem_cons_self

theorem rootArchive_slashFree (bare : Bool) : SlashFree (rootArchive bare) := by
  cases bare <;> exact slashFree_spec (by decide +kernel)

theorem removepkg_ends_iff_slash :
    ∃ s', installpkg .base noHook ⟨[], false, []⟩ ⟨[], false, false⟩ dottedFile
    ⟨rootArchive false, []⟩ = some (s', 0) ∧ RoundsOf [] (contentsFiles s'.tree []) dottedPkg
      (runDouninst noHook ⟨[], false, []⟩ [] dottedPkg s').tree := by
  have hrun :
    (installpkg .base noHook ⟨[], false, []⟩ ⟨[], false, false⟩ dottedFile
    ⟨rootArchive false, []⟩).any
      (fun q => decide (q.2 = 0 ∧ (q.1.tree.stat [] ['/']).getD [] = [] ∧
        slashFree (runDouninst noHook ⟨[], false, []⟩ [] dottedPkg q.1).tree = true ∧
        q.1.tree.isDir [] (entryIn ['/'] dottedPkg) = true ∧
        (removepkg noHook ⟨[], false, []⟩ [] dottedPkg q.1).isSome = true)) = true :=
          by decide +kernel
  obtain ⟨⟨s', k⟩, hq, hk⟩ := (Option.any_eq_true _ _).mp hrun
  rw [decide_eq_true_eq] at hk
  obtain ⟨rfl, hcwd, hs, hd, hends⟩ := hk
  exact ⟨s', hq,
    (removepkg_ends_iff noHook ⟨[], false, []⟩ [] dottedPkg s' [] hcwd (slashFree_spec hs)).mp hends
    (by decide) hd⟩

/-- A package with the root directory in its archive as a bare dot is installed and never removed.
-/
theorem dotted_never_ends :
    ¬ ∀ (copy : Copy) (hook : Hook) (env : Env) (o : Options) (pkgfile : Str) (s s' : Sys),
    SlashFree s.tree → installpkg copy hook env o pkgfile s = some (s', 0) →
    (removepkg hook env o.root_dir (pkgnameOf pkgfile) s').isSome = true := by
  intro h
  have hrun :
    (installpkg .base noHook ⟨[], false, []⟩ ⟨[], false, false⟩ dottedFile
    ⟨rootArchive true, []⟩).any
      (fun q => decide (q.2 = 0) &&
        (removepkg noHook ⟨[], false, []⟩ [] (pkgnameOf dottedFile) q.1).isNone) = true := by
    decide +kernel
  obtain ⟨⟨s', k⟩, hq, hk⟩ := (Option.any_eq_true _ _).mp hrun
  rw [Bool.and_eq_true, decide_eq_true_eq] at hk
  obtain ⟨rfl, hnone⟩ := hk
  have hends :=
    h .base noHook ⟨[], false, []⟩ ⟨[], false, false⟩ dottedFile ⟨rootArchive true, []⟩ s'
    (rootArchive_slashFree true) hq
  rw [Option.isNone_iff_eq_none.mp hnone] at hends
  cases hends

end Fidelix.Pkgtools
