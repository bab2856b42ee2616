import Fidelix.Pkgtools.Dirs

namespace Fidelix.Pkgtools

open Text Files

def ListsAt (t : Tree) (n : Str) (p : Loc) : Prop :=
  ∃ f ∈ linesOf t n, t.placeAt [] (names f) = some p

def OfPackage (t : Tree) (pkg : Str) (p : Loc) : Prop := entryLoc [] pkg <:+ p ∨ ListsAt t pkg p

structure OnlyListsDir (t : Tree) (pkg : Str) (e : Loc) : Prop where
  listed : ListsAt t pkg e
  only : ∀ n, Installed t n → n ≠ pkg → ¬ ListsAt t n e
  dir : t.node e = some .dir

structure RemovesDirs (t t' : Tree) (pkg : Str) : Prop where
  shared : ∀ n e, Installed t n → n ≠ pkg → ListsAt t n e → t.node e = some .dir →
    t'.node e = some .dir
  emptied : ∀ e, OnlyListsDir t pkg e →
    (∀ q, e <:+ q → q ≠ e → (t.node q).isSome → OfPackage t pkg q ∧ t'.node q = none) →
      t'.node e = none

/-- The lines of the package leave something in each directory that another one lists, and climb
over each one that it alone lists and fills, which must not be above its own entry. -/
structure ClimbsRight (t : Tree) (pkg : Str) : Prop where
  shared : ∀ n e, Installed t n → n ≠ pkg → ListsAt t n e → t.node e = some .dir → Stays t pkg e
  emptied : ∀ e, OnlyListsDir t pkg e →
    (∀ q, e <:+ q → q ≠ e → (t.node q).isSome → OfPackage t pkg q ∧ ¬ Stays t pkg q) →
    entryLoc [] pkg <:+ e ∨ (Climbed t pkg e ∧ ¬ e <:+ entryLoc [] pkg)

theorem not_cleared_dir {t : Tree} {fs : List Str} {e : Loc} (h : t.node e = some .dir) :
    ¬ Cleared t fs e :=
  fun hc => hc.ne_dir h rfl

section

variable {t : Tree} {pkg : Str} (h : Removable t pkg)
include h

theorem stays_alone {e : Loc} (hd : t.node e = some .dir)
    (hbelow : ∀ q, e <:+ q → q ≠ e → (t.node q).isSome → ¬ Stays t pkg q) :
    ¬ Stays t pkg e ↔ entryLoc [] pkg <:+ e ∨ (Climbed t pkg e ∧ ¬ e <:+ entryLoc [] pkg) := by
  constructor
  · intro hst
    by_cases hE : entryLoc [] pkg <:+ e
    · exact .inl hE
    · refine .inr ⟨?_, fun hsuf => ?_⟩
      · by_contra hc
        exact hst ⟨hE, e, (Tree.mem_below _ _ _).mpr ⟨List.suffix_refl e, by rw [hd]; rfl⟩,
          not_cleared_dir hd, hc⟩
      · obtain ⟨_, hsome, _⟩ := mem_lists.mp h.own_list
        refine hst ⟨hE, contentsLoc [] pkg, (Tree.mem_below _ _ _).mpr ⟨?_, hsome⟩,
          h.list_anchors h.own_list⟩
        exact hsuf.trans (List.suffix_cons contentsName (entryLoc [] pkg))
  · rintro (hE | ⟨hc, hn⟩) hst
    · exact hst.1 hE
    · obtain ⟨hE, r, hr, hcl, hcb⟩ := hst
      obtain ⟨hsuf, hrs⟩ := (Tree.mem_below _ _ _).mp hr
      by_cases hre : r = e
      · exact hcb (hre ▸ hc)
      · refine hbelow r hsuf hre hrs ⟨fun hEr =>
          ?_, r, (Tree.mem_below _ _ _).mpr ⟨List.suffix_refl r, hrs⟩, hcl, hcb⟩
        rcases List.suffix_or_suffix_of_suffix hsuf hEr with h1 | h1
        · exact hn h1
        · exact hE h1

variable {t' : Tree} (hs : Straight t pkg) (hun : uninstall [] (contentsFiles t []) pkg t = some t')
include hs hun

theorem gone_iff {q : Loc} (hq : (t.node q).isSome) : t'.node q = none ↔ ¬ Stays t pkg q := by
  rw [uninstall_node h hs hun]
  by_cases hst : Stays t pkg q
  · rw [if_pos hst]
    obtain ⟨x, hx⟩ := Option.isSome_iff_exists.mp hq
    simp [hx, hst]
  · simp [hst]

theorem removesDirs_iff : RemovesDirs t t' pkg ↔ ClimbsRight t pkg := by
  have hemptied (e : Loc) (he : OnlyListsDir t pkg e) :
      ((∀ q, e <:+ q → q ≠ e → (t.node q).isSome → OfPackage t pkg q ∧ t'.node q = none) →
        t'.node e = none) ↔
      ((∀ q, e <:+ q → q ≠ e → (t.node q).isSome → OfPackage t pkg q ∧ ¬ Stays t pkg q) →
        entryLoc [] pkg <:+ e ∨ (Climbed t pkg e ∧ ¬ e <:+ entryLoc [] pkg)) := by
    have hsome : (t.node e).isSome := by
      rw [he.dir]
      rfl
    have hbelow : (∀ q, e <:+ q → q ≠ e → (t.node q).isSome → OfPackage t pkg q ∧
      t'.node q = none) ↔
        (∀ q, e <:+ q → q ≠ e → (t.node q).isSome → OfPackage t pkg q ∧ ¬ Stays t pkg q) := by
      constructor
      · intro hall q h1 h2 h3
        exact ⟨(hall q h1 h2 h3).1, (gone_iff h hs hun h3).mp (hall q h1 h2 h3).2⟩
      · intro hall q h1 h2 h3
        exact ⟨(hall q h1 h2 h3).1, (gone_iff h hs hun h3).mpr (hall q h1 h2 h3).2⟩
    rw [hbelow, gone_iff h hs hun hsome]
    constructor
    · intro himp hall
      exact (stays_alone h he.dir fun q h1 h2 h3 => (hall q h1 h2 h3).2).mp (himp hall)
    · intro himp hall
      exact (stays_alone h he.dir fun q h1 h2 h3 => (hall q h1 h2 h3).2).mpr (himp hall)
  constructor
  · intro hr
    refine ⟨fun n e hn hne hl hd => ?_, fun e he => (hemptied e he).mp (hr.emptied e he)⟩
    by_contra hst
    have hkept := hr.shared n e hn hne hl hd
    rw [(gone_iff h hs hun (by rw [hd]; rfl)).mpr hst] at hkept
    cases hkept
  · intro hc
    refine ⟨fun n e hn hne hl hd => ?_, fun e he => (hemptied e he).mpr (hc.emptied e he)⟩
    rw [uninstall_node h hs hun, if_pos (hc.shared n e hn hne hl hd), hd]

end

/-- A removal takes away the right directories exactly when the lines climb over the right ones. -/
theorem removes_dirs_iff (hook : Hook) (env : Env) (root_dir pkg : Str) (s s' : Sys)
    (hroot : rootOr root_dir = ['/']) (hr : Removable s.tree pkg) (hs : Straight s.tree pkg)
    (hhook : s.tree.isExec [] (path (path pkgdb pkg) douninstName) = false)
    (h : removepkg hook env root_dir pkg s = some (s', 0)) :
    RemovesDirs s.tree s'.tree pkg ↔ ClimbsRight s.tree pkg :=
  removesDirs_iff hr hs (removepkg_uninstall hroot hhook h)

def otherName : Str := ['y']

/-- Both packages list `/bin`, and the first one an empty directory in it. With `used`
there is a file of the second one in it, too. -/
def dirPackages (used : Bool) : Tree := Tree.ofList ([([varName], .dir), (pkgdbLoc [], .dir),
  (entryLoc [] firstPkg, .dir), (entryLoc [] secondPkg, .dir),
  (contentsLoc [] firstPkg, .file false [binLine [], binLine (path toolName [])]),
  (contentsLoc [] secondPkg, .file false (binLine [] :: if used then [binLine otherName] else [])),
  ([binName], .dir), ([toolName, binName], .dir)] ++ if used
    then [([otherName, binName], .file true [])] else [])

theorem dirPackages_lists (used : Bool) :
    lists (dirPackages used) = [secondPkg, firstPkg].map (contentsLoc []) := by
  cases used <;> decide +kernel

theorem dirPackages_removable (used : Bool) : Removable (dirPackages used) firstPkg := by
  have hlist : ∃ e ls, (dirPackages used).node (contentsLoc [] firstPkg) = some (.file e ls) := by
    cases used <;> exact ⟨_, _, rfl⟩
  refine ⟨database_of_lists (dirPackages_lists used) ?_ ?_, by decide, hlist, ?_⟩
  · cases used <;> decide +kernel
  · cases used <;> decide +kernel
  · cases used <;> decide +kernel

theorem dirPackages_straight (used : Bool) : Straight (dirPackages used) firstPkg := by
  have hread : readContents (dirPackages used) [] firstPkg =
    [binLine [], binLine (path toolName [])] := by
    cases used <;> decide +kernel
  have hshared : occurrences (dirPackages used) (binLine []) ≠ 1 := by
    cases used <;> decide +kernel
  have hdir : (dirPackages used).node (names (binLine (path toolName []))).reverse = some .dir := by
    cases used <;> rfl
  intro f hf ho _
  rw [hread] at hf
  rcases List.mem_cons.mp hf with rfl | hf
  · exact absurd ho hshared
  · rw [List.mem_singleton.mp hf]
    exact ⟨by decide +kernel, .inl hdir⟩

theorem listsAt_iff {t : Tree} {n : Str} {p : Loc} :
    ListsAt t n p ↔ p ∈ (linesOf t n).filterMap fun f => t.placeAt [] (names f) := by
  rw [List.mem_filterMap, ListsAt]

theorem dirPackages_first (used : Bool) {p : Loc} (h : ListsAt (dirPackages used) firstPkg p) :
    p = [binName] ∨ p = [toolName, binName] := by
  have hl : ((linesOf (dirPackages used) firstPkg).filterMap fun f =>
    (dirPackages used).placeAt [] (names f)) =
      [[binName], [toolName, binName]] := by
    cases used <;> decide +kernel
  rw [listsAt_iff, hl] at h
  simpa using h

theorem dirPackages_climbsRight : ClimbsRight (dirPackages true) firstPkg := by
  have hsecond : ((linesOf (dirPackages true) secondPkg).filterMap fun f =>
    (dirPackages true).placeAt [] (names f)) =
      [[binName], [otherName, binName]] := by decide +kernel
  refine ⟨fun n e hn hne hl hd => ?_, fun e he _ => ?_⟩
  · obtain rfl : n = secondPkg := by
      rw [installed_iff (dirPackages_lists true)] at hn
      exact (List.mem_cons.mp hn).resolve_right fun hm => hne (List.mem_singleton.mp hm)
    rw [listsAt_iff, hsecond, List.mem_cons, List.mem_singleton] at hl
    rcases hl with rfl | rfl
    · decide +kernel
    · rw [show (dirPackages true).node [otherName, binName] = some (.file true []) from rfl] at hd
      cases hd
  · rcases dirPackages_first true he.listed with rfl | rfl
    · refine absurd (listsAt_iff.mpr ?_) (he.only secondPkg ?_ (by decide))
      · rw [hsecond]
        exact List.mem_cons_self
      · rw [installed_iff (dirPackages_lists true)]
        exact List.mem_cons_self
    · decide +kernel

theorem removes_dirs_iff_used :
    ∃ s', removepkg noHook ⟨[], false, []⟩ [] firstPkg ⟨dirPackages true, []⟩ = some (s', 0) ∧
    RemovesDirs (dirPackages true) s'.tree firstPkg := by
  have hrun : (removepkg noHook ⟨[], false, []⟩ [] firstPkg ⟨dirPackages true, []⟩).any
      (fun q => decide (q.2 = 0)) = true := by decide +kernel
  obtain ⟨⟨s', k⟩, hq, hk⟩ := (Option.any_eq_true _ _).mp hrun
  obtain rfl : k = 0 := by simpa using hk
  have hhook : (dirPackages true).isExec [] (path (path pkgdb firstPkg) douninstName) = false :=
    by decide +kernel
  exact ⟨s', hq, (removes_dirs_iff noHook ⟨[], false, []⟩ [] firstPkg ⟨dirPackages true, []⟩ s' rfl
    (dirPackages_removable true) (dirPackages_straight true) hhook hq).mpr dirPackages_climbsRight⟩

/-- A directory that another package lists goes with the last directory in it. -/
theorem shared_dir_removed :
    ¬ ∀ (hook : Hook) (env : Env) (pkg : Str) (s s' : Sys), Removable s.tree pkg →
    Straight s.tree pkg → s.tree.isExec [] (path (path pkgdb pkg) douninstName) = false →
    removepkg hook env [] pkg s = some (s', 0) → RemovesDirs s.tree s'.tree pkg := by
  intro h
  have hrun : (removepkg noHook ⟨[], false, []⟩ [] firstPkg ⟨dirPackages false, []⟩).any
      (fun q => decide (q.2 = 0) && (q.1.tree.node [binName]).isNone) = true := by decide +kernel
  obtain ⟨⟨s', k⟩, hq, hk⟩ := (Option.any_eq_true _ _).mp hrun
  rw [Bool.and_eq_true, decide_eq_true_eq] at hk
  obtain ⟨rfl, hgone⟩ := hk
  have hlisted : ListsAt (dirPackages false) secondPkg [binName] :=
    ⟨binLine [], by decide +kernel, by decide +kernel⟩
  have hdir : (dirPackages false).node [binName] = some .dir := rfl
  have hinst : Installed (dirPackages false) secondPkg :=
    (installed_iff (dirPackages_lists false) _).mpr List.mem_cons_self
  have hremoves :=
    h noHook ⟨[], false, []⟩ firstPkg ⟨dirPackages false, []⟩ s' (dirPackages_removable false)
    (dirPackages_straight false) (by decide +kernel) hq
  have hstays := hremoves.shared secondPkg [binName] hinst (by decide) hlisted hdir
  rw [hstays] at hgone
  cases hgone

end Fidelix.Pkgtools
