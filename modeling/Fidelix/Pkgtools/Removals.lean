import Fidelix.Pkgtools.Dirs
import Fidelix.Pkgtools.Ends

namespace Fidelix.Pkgtools

open Text Files

/-- Lists as `installpkg` writes them when no package is in another one's way: each line has the
directories above it in the same list, is spelled alike in all lists, selects nothing but itself,
and leads through no link. -/
structure Canonical (t : Tree) : Prop extends Database t where
  read : ∀ n, Installed t n → readContents t [] n = linesOf t n
  plain : ∀ n, ∀ f ∈ linesOf t n, PlainLine f
  nodup : ∀ n, (linesOf t n).Nodup
  exact : ∀ n m, ∀ f ∈ linesOf t n, ∀ g ∈ linesOf t m, search ('^' :: (f ++ ['$'])) g = true ↔ g = f
  spelled : ∀ n m, ∀ f ∈ linesOf t n, ∀ g ∈ linesOf t m, names f = names g → f = g
  closed : ∀ n, ∀ f ∈ linesOf t n, ∀ e, e ≠ [] → e <:+ (names f).reverse →
    ∃ g ∈ linesOf t n, (names g).reverse = e
  real : ∀ n, ∀ f ∈ linesOf t n, ∀ p, t.place [] f = some p → p = (names f).reverse
  dirs : ∀ n, ∀ f ∈ linesOf t n, t.isDir [] f = true → t.node (names f).reverse = some .dir
  apart : ∀ n, ∀ f ∈ linesOf t n, ∀ p ∈ lists t, t.place [] f ≠ some p

theorem sum_map_eq_one {α : Type} [DecidableEq α] {l : List α} {a : α} {g : α → Nat} (hl : l.Nodup)
    (ha : a ∈ l) (hg : g a = 1) : (l.map g).sum = 1 ↔ ∀ b ∈ l, b ≠ a → g b = 0 := by
  have hsum : (l.map g).sum = 1 + ((l.erase a).map g).sum := by
    rw [← hg, (List.perm_cons_erase ha).map g |>.sum_eq, List.map_cons, List.sum_cons]
  rw [hsum, Nat.add_eq_left, List.sum_eq_zero_iff]
  constructor
  · intro h b hb hne
    exact h _ (List.mem_map_of_mem ((hl.mem_erase_iff).mpr ⟨hne, hb⟩))
  · intro h x hx
    obtain ⟨b, hb, rfl⟩ := List.mem_map.mp hx
    have hmem := hl.mem_erase_iff.mp hb
    exact h b hmem.2 hmem.1

theorem lists_nodup (t : Tree) : (lists t).Nodup := (t.below_nodup _).filter _

theorem installed_of_mem {t : Tree} {n f : Str} (h : f ∈ linesOf t n) : Installed t n := by
  obtain ⟨e, ls, hn, _⟩ := linesOf_eq h
  exact contentsLoc_mem_lists (by rw [hn]; rfl)

namespace Canonical

variable {t : Tree} (h : Canonical t)
include h

theorem countLines_eq {n f m : Str} (hf : f ∈ linesOf t n) :
    Tree.countLines ('^' :: (f ++ ['$'])) (t.node (contentsLoc [] m)) = (linesOf t m).count f := by
  have hcount : (linesOf t m).countP (search ('^' :: (f ++ ['$']))) = (linesOf t m).count f := by
    rw [List.count]
    apply List.countP_congr
    intro g hg
    rw [h.exact n m f hf g hg, beq_iff_eq]
  rw [← hcount, linesOf]
  cases t.node (contentsLoc [] m) with
  | none => rfl
  | some x => cases x <;> rfl

theorem once {n f : Str} (hf : f ∈ linesOf t n) : occurrences t f = 1 ↔ OnlyListed t n f := by
  have hown : Tree.countLines ('^' :: (f ++ ['$'])) (t.node (contentsLoc [] n)) = 1 := by
    rw [h.countLines_eq hf]
    exact List.count_eq_one_of_mem (h.nodup n) hf
  rw [occurrences, sum_map_eq_one (lists_nodup t) (installed_of_mem hf) hown]
  constructor
  · intro hall
    refine ⟨hf, fun m hm hne hfm => ?_⟩
    have hzero := hall _ hm fun he => hne (contentsLoc_inj he)
    rw [h.countLines_eq hf, List.count_eq_zero] at hzero
    exact hzero hfm
  · intro halone p hp hne
    obtain ⟨m, rfl, _⟩ := h.own p hp
    rw [h.countLines_eq hf, List.count_eq_zero]
    exact halone.2 m hp fun he => hne (by rw [he])

theorem removable {pkg : Str} (hp : Installed t pkg) : Removable t pkg := by
  obtain ⟨m, hm, hname, _, hlist⟩ := h.own _ hp
  refine { h.toDatabase with
    name := contentsLoc_inj hm ▸ hname, list := hlist, steady := fun f hf p hq => ?_ }
  rw [h.read pkg hp] at hf
  exact h.apart pkg f hf p hq

theorem straight {pkg : Str} (hp : Installed t pkg) : Straight t pkg := by
  intro f hf _ hd
  rw [h.read pkg hp] at hf
  exact ⟨h.plain pkg f hf, .inl (h.dirs pkg f hf hd)⟩

theorem leadsToDir_iff {n f : Str} (hf : f ∈ linesOf t n) {p : Loc} (hp : t.place [] f = some p) :
    t.leadsToDir p = false ↔ t.node p ≠ some .dir := by
  constructor
  · exact Tree.ne_dir_of_leadsToDir
  · intro hd
    by_contra hl
    rw [Bool.not_eq_false, ← Tree.isDir_eq_leadsToDir hp] at hl
    have hdir := h.dirs n f hf hl
    rw [← h.real n f hf p hp] at hdir
    exact hd hdir

theorem cleared_iff {pkg : Str} (hi : Installed t pkg) (p : Loc) :
    Cleared t (readContents t [] pkg) p ↔
    ∃ f, OnlyListed t pkg f ∧ t.place [] f = some p ∧ t.node p ≠ some .dir := by
  rw [h.read pkg hi]
  constructor
  · rintro ⟨hl, f, hf, hp, ho⟩
    exact ⟨f, (h.once hf).mp ho, hp, (h.leadsToDir_iff hf hp).mp hl⟩
  · rintro ⟨f, ho, hp, hd⟩
    exact ⟨(h.leadsToDir_iff ho.1 hp).mpr hd, f, ho.1, hp, (h.once ho.1).mpr ho⟩

theorem climbed_iff {pkg : Str} (hi : Installed t pkg) (e : Loc) : Climbed t pkg e ↔
    e ≠ [] ∧ ∃ f, OnlyListed t pkg f ∧ t.node (names f).reverse = some .dir ∧
    e <:+ (names f).reverse := by
  rw [Climbed, h.read pkg hi]
  refine and_congr_right fun _ => ?_
  constructor
  · rintro ⟨f, hf, ⟨ho, _, hd⟩, hsuf⟩
    exact ⟨f, (h.once hf).mp ho, (t.dirAt_iff _).mp hd, hsuf⟩
  · rintro ⟨f, ho, hd, hsuf⟩
    exact ⟨f, ho.1, ⟨(h.once ho.1).mpr ho, h.plain pkg f ho.1, (t.dirAt_iff _).mpr hd⟩, hsuf⟩

end Canonical

namespace Canonical

section

variable {t t' : Tree} {pkg : Str} (h : Canonical t) (hp : Installed t pkg)
  (hun : uninstall [] (contentsFiles t []) pkg t = some t')
include h hp hun

theorem node (q : Loc) : t'.node q = if Stays t pkg q then t.node q else none :=
  uninstall_node (h.removable hp) (h.straight hp) hun q

theorem isSome_iff (q : Loc) : (t'.node q).isSome ↔ (t.node q).isSome ∧ Stays t pkg q := by
  rw [h.node hp hun]
  by_cases hs : Stays t pkg q
  · simp [hs]
  · simp [hs]

theorem installed_removed (n : Str) : Installed t' n ↔ Installed t n ∧ n ≠ pkg := by
  constructor
  · intro hn
    obtain ⟨_, hs, _⟩ := mem_lists.mp hn
    refine ⟨contentsLoc_mem_lists ((h.isSome_iff hp hun _).mp hs).1, ?_⟩
    rintro rfl
    have hE : entryLoc [] n <:+ contentsLoc [] n := List.suffix_cons contentsName (entryLoc [] n)
    exact ((h.isSome_iff hp hun _).mp hs).2.1 hE
  · rintro ⟨hn, hne⟩
    apply contentsLoc_mem_lists
    rw [(h.removable hp).list_kept hun hn hne]
    exact (mem_lists.mp hn).2.1

theorem lines_removed {n f : Str} : f ∈ linesOf t' n ↔ f ∈ linesOf t n ∧ n ≠ pkg := by
  constructor
  · intro hf
    exact ⟨linesOf_within (uninstall_within hun) hf,
      ((h.installed_removed hp hun n).mp (installed_of_mem hf)).2⟩
  · rintro ⟨hf, hne⟩
    rwa [linesOf_congr ((h.removable hp).list_kept hun (installed_of_mem hf) hne)]

theorem lists_removed {p : Loc} (hl : p ∈ lists t') : p ∈ lists t := by
  obtain ⟨h1, h2, h3⟩ := mem_lists.mp hl
  exact mem_lists.mpr ⟨h1, ((h.isSome_iff hp hun _).mp h2).1, h3⟩

end

end Canonical

theorem Removable.stays_top {t : Tree} {pkg : Str} (h : Removable t pkg) {q : Loc}
    (hq : q <:+ pkgdbLoc []) :
    Stays t pkg q := by
  obtain ⟨_, hsome, _⟩ := mem_lists.mp h.own_list
  refine ⟨fun hE => ?_, contentsLoc [] pkg, (Tree.mem_below _ _ _).mpr ⟨?_, hsome⟩,
    h.list_anchors h.own_list⟩
  · have hlen := (hE.trans hq).length_le
    simp [entryLoc] at hlen
  · exact hq.trans ((List.suffix_cons _ _).trans (List.suffix_cons _ _))

theorem Canonical.removed {t t' : Tree} {pkg : Str} (h : Canonical t) (hp : Installed t pkg)
    (hun : uninstall [] (contentsFiles t []) pkg t = some t') : Canonical t' := by
  have hw := uninstall_within hun
  have hline {n f : Str} (hf : f ∈ linesOf t' n) : f ∈ linesOf t n := linesOf_within hw hf
  have hnode {n : Str} (hn : Installed t' n) :
    t'.node (contentsLoc [] n) = t.node (contentsLoc [] n) := by
    obtain ⟨hi, hne⟩ := (h.installed_removed hp hun n).mp hn
    exact (h.removable hp).list_kept hun hi hne
  have hlines {n f : Str} (hf : f ∈ linesOf t' n) : linesOf t' n = linesOf t n :=
    linesOf_congr (hnode (installed_of_mem hf))
  refine ⟨⟨?_, fun p hl => ?_⟩, fun n hn => ?_, fun n f hf => h.plain n f (hline hf), fun n => ?_,
    fun n m f hf g hg => h.exact n m f (hline hf) g (hline hg), fun n m f hf g hg =>
      h.spelled n m f (hline hf) g (hline hg),
    fun n f hf e he hs => ?_, fun n f hf p hpl =>
      h.real n f (hline hf) p (Tree.place_within hw hpl), fun n f hf hd => ?_,
    fun n f hf p hl hpl =>
      h.apart n f (hline hf) p (h.lists_removed hp hun hl) (Tree.place_within hw hpl)⟩
  · rw [h.node hp hun, if_pos ((h.removable hp).stays_top (List.suffix_refl _)), h.dir]
  · obtain ⟨n, rfl, h1, h2, e, ls, hls⟩ := h.own p (h.lists_removed hp hun hl)
    exact ⟨n, rfl, h1, h2, e, ls, (hnode hl).trans hls⟩
  · have hi := ((h.installed_removed hp hun n).mp hn).1
    rw [(h.removable hi).readContents_congr (hnode hn), h.read n hi, linesOf_congr (hnode hn)]
  · by_cases hnil : linesOf t' n = []
    · rw [hnil]
      exact List.nodup_nil
    · obtain ⟨f, hf⟩ := List.exists_mem_of_ne_nil _ hnil
      rw [hlines hf]
      exact h.nodup n
  · rw [hlines hf]
    exact h.closed n f (hline hf) e he hs
  · have hplain := h.plain n f (hline hf)
    have hne : f ≠ [] := by
      rintro rfl
      exact absurd hplain.1 (by simp)
    obtain ⟨d, hd, hdir⟩ := Tree.isDir_iff.mp hd
    have hstat := Tree.stat_mono hw hd
    have hreal := h.dirs n f (hline hf) (Tree.isDir_iff.mpr ⟨d, hstat, hw _ _ hdir⟩)
    rw [Tree.stat_real hne hplain.2.1 hreal, Option.some.injEq] at hstat
    rw [hstat, hdir]

theorem place_kept {t u : Tree} {f : Str} (hf : PlainLine f)
    (hp : t.place [] f = some (names f).reverse) (hu : (u.node (names f).reverse).isSome) :
    u.place [] f = some (names f).reverse := by
  obtain ⟨ds, n, d, hc, h1, _⟩ := Tree.placeAt_iff.mp hp
  have hcomps : comps f = names f := by
    rw [comps] at hc ⊢
    split at hc
    · obtain ⟨_, hn⟩ := List.append_inj' hc rfl
      exact absurd (List.cons.inj hn).1.symm h1
    · rw [if_neg ‹_›, List.append_nil]
  rw [hcomps] at hc
  have hrev : (names f).reverse = n :: ds.reverse := by
    rw [hc, List.reverse_append]
    rfl
  rw [hrev] at hu ⊢
  exact place_real ds (hcomps.trans hc) (fun m hm => hf.2.1 m (hc ▸ hm)) (u.parent n _ hu)

theorem dir_below {t : Tree} {p q : Loc} (h : p <:+ q) (hq : t.node q = some .dir) :
    t.node p = some .dir := by
  by_cases he : p = q
  · rw [he, hq]
  · exact t.dir_of_suffix h he (by rw [hq]; rfl)

def OnlyIn (t : Tree) (pkgs : List Str) (f : Str) : Prop :=
  ∀ n ∈ entries t, n ∉ pkgs → f ∉ linesOf t n

instance (t : Tree) (pkgs : List Str) (f : Str) : Decidable (OnlyIn t pkgs f) :=
  inferInstanceAs (Decidable (∀ n ∈ entries t, n ∉ pkgs → f ∉ linesOf t n))

/-- What is left when packages are removed in turn, the first of the list at last: what is outside
their entries, and at or above something that is left by the others and that no line of this one,
shared with none but them, takes away from where they have left it. -/
def Left (t : Tree) : List Str → Loc → Prop
  | [], q => (t.node q).isSome
  | pkg :: pkgs, q => ¬ entryLoc [] pkg <:+ q ∧ ∃ r ∈ t.below q, Left t pkgs r ∧
      (∀ f ∈ linesOf t pkg, OnlyIn t (pkg :: pkgs) f → t.place [] f = some r → t.dirAt r = true) ∧
      (r ≠ [] → ∀ f ∈ linesOf t pkg, OnlyIn t (pkg :: pkgs) f → Left t pkgs (names f).reverse →
        t.dirAt (names f).reverse = true → ¬ r <:+ (names f).reverse)

def decidableLeft (t : Tree) : (pkgs : List Str) → (q : Loc) → Decidable (Left t pkgs q)
  | [], q => inferInstanceAs (Decidable ((t.node q).isSome = true))
  | pkg :: pkgs, q =>
      have := decidableLeft t pkgs
      inferInstanceAs (Decidable (¬ entryLoc [] pkg <:+ q ∧ ∃ r ∈ t.below q, Left t pkgs r ∧
        (∀ f ∈ linesOf t pkg, OnlyIn t (pkg :: pkgs) f → t.place [] f = some r → t.dirAt r = true) ∧
        (r ≠ [] → ∀ f ∈ linesOf t pkg, OnlyIn t (pkg :: pkgs) f → Left t pkgs (names f).reverse →
          t.dirAt (names f).reverse = true → ¬ r <:+ (names f).reverse)))

instance (t : Tree) (pkgs : List Str) (q : Loc) : Decidable (Left t pkgs q) :=
  decidableLeft t pkgs q

theorem Left.up {t : Tree} {pkgs : List Str} {q r : Loc} (h : Left t pkgs r) (hq : q <:+ r) :
    Left t pkgs q := by
  cases pkgs with
  | nil => exact Tree.isSome_of_suffix hq h
  | cons pkg pkgs =>
      obtain ⟨hE, x, hx, hrest⟩ := h
      obtain ⟨hsuf, hs⟩ := (Tree.mem_below _ _ _).mp hx
      exact ⟨fun he => hE (he.trans hq), x, (Tree.mem_below _ _ _).mpr ⟨hq.trans hsuf, hs⟩, hrest⟩

theorem Left.before {t : Tree} {pkg : Str} {pkgs : List Str} {q : Loc}
    (h : Left t (pkg :: pkgs) q) :
    Left t pkgs q := by
  obtain ⟨_, r, hr, hk, _⟩ := h
  exact hk.up ((Tree.mem_below _ _ _).mp hr).1

theorem Left.isSome {t : Tree} {pkgs : List Str} {q : Loc} (h : Left t pkgs q) :
    (t.node q).isSome := by
  induction pkgs with
  | nil => exact h
  | cons pkg pkgs ih => exact ih h.before

structure Removed (t u : Tree) (pkgs : List Str) : Prop where
  canonical : Canonical u
  node : ∀ q, u.node q = if Left t pkgs q then t.node q else none
  lines : ∀ n f, f ∈ linesOf u n ↔ f ∈ linesOf t n ∧ n ∉ pkgs
  installed : ∀ n, Installed u n ↔ Installed t n ∧ n ∉ pkgs

namespace Removed

theorem refl {t : Tree} (h : Canonical t) : Removed t t [] where
  canonical := h
  node q := by
    split
    · rfl
    · rename_i hq
      exact Option.not_isSome_iff_eq_none.mp hq
  lines n f := by simp
  installed n := by simp

section

variable {t u : Tree} {pkgs : List Str} (h : Removed t u pkgs)
include h

theorem within : u.Within t := by
  intro q x hq
  rw [h.node] at hq
  split at hq
  · exact hq
  · cases hq

theorem isSome_iff (q : Loc) : (u.node q).isSome ↔ Left t pkgs q := by
  rw [h.node]
  by_cases hk : Left t pkgs q
  · simp [hk, hk.isSome]
  · simp [hk]

variable {pkg : Str} (hne : pkg ∉ pkgs)
include hne

theorem onlyListed_iff {f : Str} :
    OnlyListed u pkg f ↔ f ∈ linesOf t pkg ∧ OnlyIn t (pkg :: pkgs) f := by
  rw [OnlyListed, h.lines, and_iff_left hne]
  refine and_congr_right fun _ => ?_
  constructor
  · intro hall n _ hn hf
    rw [List.mem_cons, not_or] at hn
    have hf' := (h.lines n f).mpr ⟨hf, hn.2⟩
    exact hall n (installed_of_mem hf') hn.1 hf'
  · intro hall n _ hn hf
    obtain ⟨hf', hn'⟩ := (h.lines n f).mp hf
    refine hall n (mem_entries hf') ?_ hf'
    rw [List.mem_cons, not_or]
    exact ⟨hn, hn'⟩

theorem stays_iff (ht : Canonical t) (hp : Installed t pkg) {q : Loc} :
    Stays u pkg q ↔ Left t (pkg :: pkgs) q := by
  have hi : Installed u pkg := (h.installed pkg).mpr ⟨hp, hne⟩
  refine and_congr_right fun _ => exists_congr fun r => ?_
  simp only [Tree.dirAt_iff]
  rw [Tree.mem_below, Tree.mem_below, h.isSome_iff, h.canonical.cleared_iff hi,
    h.canonical.climbed_iff hi, and_assoc,
    and_assoc]
  have hnode {p : Loc} (hk : Left t pkgs p) : u.node p = t.node p := by rw [h.node, if_pos hk]
  refine and_congr_right fun _ => ?_
  constructor
  · rintro ⟨hk, hcl, hcb⟩
    refine ⟨hk.isSome, hk, fun f hf ho hpl => ?_, fun h0 f hf ho hk' hd hsuf => ?_⟩
    · by_contra hd
      obtain rfl := ht.real pkg f hf r hpl
      refine hcl ⟨f, (h.onlyListed_iff hne).mpr ⟨hf, ho⟩, ?_, ?_⟩
      · exact place_kept (ht.plain pkg f hf) hpl ((h.isSome_iff _).mpr hk)
      · rwa [hnode hk]
    · exact hcb ⟨h0, f, (h.onlyListed_iff hne).mpr ⟨hf, ho⟩, (hnode hk').trans hd, hsuf⟩
  · rintro ⟨_, hk, hcl, hcb⟩
    refine ⟨hk, ?_, ?_⟩
    · rintro ⟨f, ho, hpl, hd⟩
      obtain ⟨hf, ho⟩ := (h.onlyListed_iff hne).mp ho
      rw [hnode hk] at hd
      exact hd (hcl f hf ho (Tree.place_within h.within hpl))
    · rintro ⟨h0, f, ho, hd, hsuf⟩
      obtain ⟨hf, ho⟩ := (h.onlyListed_iff hne).mp ho
      have hk' := (h.isSome_iff _).mp (by rw [hd]; rfl)
      exact hcb h0 f hf ho hk' (h.within _ _ hd) hsuf

theorem step {v : Tree} (ht : Canonical t) (hp : Installed t pkg)
    (hun : uninstall [] (contentsFiles u []) pkg u = some v) : Removed t v (pkg :: pkgs) := by
  have hi : Installed u pkg := (h.installed pkg).mpr ⟨hp, hne⟩
  refine ⟨h.canonical.removed hi hun, fun q => ?_, fun n f => ?_, fun n => ?_⟩
  · rw [h.canonical.node hi hun, h.node]
    by_cases hk : Left t (pkg :: pkgs) q
    · rw [if_pos ((h.stays_iff hne ht hp).mpr hk), if_pos hk, if_pos hk.before]
    · rw [if_neg fun hs => hk ((h.stays_iff hne ht hp).mp hs), if_neg hk]
  · rw [h.canonical.lines_removed hi hun, h.lines, List.mem_cons, not_or, and_assoc,
      and_comm (a := n ∉ pkgs)]
  · rw [h.canonical.installed_removed hi hun, h.installed, List.mem_cons, not_or, and_assoc,
      and_comm (a := n ∉ pkgs)]

end

end Removed

section

variable {t : Tree} (h : Canonical t) {pkgs : List Str}
include h

theorem Canonical.left_list (hi : ∀ n ∈ pkgs, Installed t n) {n : Str} (hn : Installed t n)
    (hnot : n ∉ pkgs) :
    Left t pkgs (contentsLoc [] n) := by
  obtain ⟨_, hsome, _⟩ := mem_lists.mp hn
  induction pkgs with
  | nil => exact hsome
  | cons pkg pkgs ih =>
      rw [List.mem_cons, not_or] at hnot
      have hlist : t.node (contentsLoc [] n) ≠ some .dir := by
        obtain ⟨m, he, _, _, e, ls, hls⟩ := h.own _ hn
        rw [hls]
        simp
      refine ⟨fun hE => hnot.1 ?_, contentsLoc [] n,
        (Tree.mem_below _ _ _).mpr ⟨List.suffix_refl _, hsome⟩,
        ih (fun m hm => hi m (List.mem_cons_of_mem _ hm)) hnot.2, fun f hf _ hpl =>
          absurd hpl (h.apart pkg f hf _ hn),
        fun _ f _ _ _ hd hs => hlist (dir_below hs ((t.dirAt_iff _).mp hd))⟩
      exact entryLoc_suffix (List.suffix_cons contentsName (entryLoc [] n)) hE

theorem Canonical.left_top (hi : ∀ n ∈ pkgs, Installed t n) (hd : pkgs.Nodup) {q : Loc}
    (hq : q <:+ pkgdbLoc []) :
    Left t pkgs q := by
  cases pkgs with
  | nil => exact Tree.isSome_of_suffix hq (by rw [h.dir]; rfl)
  | cons pkg pkgs =>
      have hp := hi pkg (by simp)
      have hlist :=
        h.left_list (fun n hn => hi n (List.mem_cons_of_mem _ hn)) hp (List.nodup_cons.mp hd).1
      refine ⟨fun hE => ?_, contentsLoc [] pkg,
        (Tree.mem_below _ _ _).mpr ⟨?_, hlist.isSome⟩, hlist,
        fun f hf _ hpl => absurd hpl (h.apart pkg f hf _ hp), fun _ f _ _ _ hdir hs => ?_⟩
      · have hlen := (hE.trans hq).length_le
        simp [entryLoc] at hlen
      · exact hq.trans ((List.suffix_cons _ _).trans (List.suffix_cons _ _))
      · obtain ⟨m, _, _, _, e, ls, hls⟩ := h.own _ hp
        have hdir' := dir_below hs ((t.dirAt_iff _).mp hdir)
        rw [hls] at hdir'
        cases hdir'

theorem Canonical.left_file {q : Loc} (hs : (t.node q).isSome) (hd : t.node q ≠ some .dir)
    {n f : Str} (hn : n ∉ pkgs) (hf : f ∈ linesOf t n) (hq : (names f).reverse = q) :
    Left t pkgs q ↔ ∀ pkg ∈ pkgs, ¬ entryLoc [] pkg <:+ q := by
  have hsame {m g : Str} (hg : g ∈ linesOf t m) (hpl : t.place [] g = some q) : g = f := by
    have hreal := h.real m g hg q hpl
    exact h.spelled m n g hg f hf (List.reverse_injective (hreal.symm.trans hq.symm))
  induction pkgs with
  | nil => exact iff_of_true hs (by simp)
  | cons pkg pkgs ih =>
      have hrest := ih fun hm => hn (List.mem_cons_of_mem _ hm)
      rw [List.forall_mem_cons]
      constructor
      · exact fun hk => ⟨hk.1, hrest.mp hk.before⟩
      · rintro ⟨hE, hall⟩
        refine ⟨hE, q, (Tree.mem_below _ _ _).mpr ⟨List.suffix_refl q, hs⟩, hrest.mpr hall,
          fun g hg ho hpl => ?_,
          fun _ g _ _ _ hgd hsuf => absurd (dir_below hsuf ((t.dirAt_iff _).mp hgd)) hd⟩
        rw [hsame hg hpl] at ho
        exact absurd hf (ho n (mem_entries hf) hn)

end

theorem Rmdirs.lists {t u v : Tree} (h : Database t) (hn : ∀ p ∈ lists t, u.node p = t.node p)
    (hr : Rmdirs u v) :
    ∀ p ∈ lists t, v.node p = t.node p := by
  intro p hp
  obtain ⟨n, rfl, _, _, e, ls, hls⟩ := h.own p hp
  rw [hls]
  exact hr.file ((hn _ hp).trans hls) (by simp)

theorem Circles.once {cwd : Loc} {cf : List Str} {t : Tree} {dir : Str} (h : Circles cwd cf t dir) :
    count t cwd cf dir = 1 := by
  obtain ⟨_, _, hr, _, hc⟩ := h
  cases hr with
  | refl => exact hc
  | step _ hc' _ => exact hc'

theorem dirname_absolute {dir : Str} (h : dir.head? = some '/') (k : ℕ) :
    (dirname^[k] dir).head? = some '/' := by
  induction k generalizing dir with
  | zero => exact h
  | succ k ih => exact ih (dirname_spec dir h).2.1

section

variable {t : Tree} (h : Database t) (h0 : occurrences t [] ≠ 1)
include h h0

theorem Database.not_circles {u : Tree} (hn : ∀ p ∈ lists t, u.node p = t.node p) {dir : Str}
    (hd : dir = [] ∨ PlainLine dir) : ¬ Circles [] (contentsFiles t []) u dir := by
  have hno {u : Tree} (hn : ∀ p ∈ lists t, u.node p = t.node p) :
    ¬ Circles [] (contentsFiles t []) u [] := by
    intro hc
    exact h0 ((h.count_eq hn []).symm.trans hc.once)
  rcases hd with rfl | ⟨habs, _, ho | hw⟩
  · exact hno hn
  · intro hc
    obtain ⟨k, hk, _⟩ := (circles_iff h hn ho).mp hc
    have hslash := dirname_absolute habs k
    rw [hk] at hslash
    exact absurd hslash (by decide)
  · rintro ⟨v, e, hr, he, hc⟩
    cases hr with
    | refl =>
        rcases he with rfl | rfl
        · exact absurd habs (by decide)
        · exact absurd habs (by simp)
    | step hroot hc' hr =>
        rw [dirnameOf_words _ [] hw] at hr
        exact hno (h.lists_rmdirParents hn dir) ⟨v, e, hr, he, hc⟩

theorem Database.rounds {v : Tree} (hv : v.Within t) (hn : ∀ p ∈ lists t, v.node p = t.node p)
    {files : List Str} (hf : ∀ f ∈ files, occurrences t f = 1 → t.isDir [] f = true → PlainLine f) :
    Rounds [] (contentsFiles t []) v files := by
  induction files generalizing v with
  | nil => trivial
  | cons f files ih =>
      refine ⟨fun hd hc => ?_, fun w hw => ?_⟩
      · have ho : occurrences t f = 1 := by
          rw [← h.count_eq hn]
          exact hc.once
        refine h.not_circles h0 hn ?_ hc
        by_cases hf0 : f = []
        · exact .inl hf0
        · rw [isDir_here v f hf0] at hd
          exact .inr (hf f (by simp) ho (Tree.isDir_mono hv hd))
      · have hstep : Rmdirs v w := by
          rw [rmdirStep] at hw
          split at hw
          · exact removepkg_rmdir_rmdirs hw
          · rw [← Option.some.inj hw]
            exact .refl v
        exact ih (hstep.within.trans hv) (Rmdirs.lists h hn hstep) fun g hg => hf g (by simp [hg])

end

theorem Removable.roundsOf {t : Tree} {pkg : Str} (h : Removable t pkg) (hs : Straight t pkg)
    (h0 : occurrences t [] ≠ 1) : RoundsOf [] (contentsFiles t []) pkg t := by
  have hloop :=
    uninstallFiles_loop (contentsFiles t []) (fileLoop_refl t (readContents t [] pkg)) fun _ hf =>
    hf
  have hn : ∀ p ∈ lists t,
    (uninstallFiles [] (contentsFiles t []) t (readContents t [] pkg)).node p = t.node p :=
    fun p hl => hloop.unnamed p fun f hf => h.steady f hf p hl
  apply h.toDatabase.rounds h0 hloop.within hn
  intro f hf ho hd
  rw [h.readContents_congr (hn _ h.own_list)] at hf
  exact (hs f hf ho hd).1

theorem Removable.removepkg_succeeds {s : Sys} {pkg : Str} (h : Removable s.tree pkg)
    (hst : Straight s.tree pkg) (h0 : occurrences s.tree [] ≠ 1) (hs : SlashFree s.tree)
    (hook : Hook) (env : Env) {root_dir : Str} (hroot : rootOr root_dir = ['/'])
    (hhook : s.tree.isExec [] (path (path pkgdb pkg) douninstName) = false) :
    ∃ u, removepkg hook env root_dir pkg s = some (u, 0) := by
  have hcwd : (s.tree.stat env.cwd (rootOr root_dir)).getD env.cwd = [] := by
    rw [hroot, stat_rootDir, Option.getD_some]
  have hrun : runDouninst hook env [] pkg s = s := by
    rw [runDouninst]
    simp [hhook]
  have hends := (removepkg_isSome hcwd (hrun.symm ▸ hs)).mpr fun _ _ =>
    hrun.symm ▸ h.roundsOf hst h0
  obtain ⟨⟨u, k⟩, hu⟩ := Option.isSome_iff_exists.mp hends
  refine ⟨u, ?_⟩
  rcases removepkg_cases hcwd hu with ⟨_, _, hno⟩ | ⟨_, _, _, _, hk⟩
  · obtain ⟨e, ls, hls⟩ := h.list
    have hdir : s.tree.node (entryLoc [] pkg) = some .dir :=
      s.tree.parent contentsName _ (by rw [← contentsLoc, hls]; rfl)
    have hplace : s.tree.place env.cwd (entryIn ['/'] pkg) = some (entryLoc [] pkg) := by
      rw [entryIn_slash, place_slash _ _ (path_ne_nil _ _), place_entry h.name h.dir]
    rw [hroot, Tree.isDir_eq_leadsToDir hplace, Tree.leadsToDir_iff.mpr (.inl hdir)] at hno
    rcases hno with hno | hno
    · exact absurd hno h.name.1
    · cases hno
  · have hlast : (names (path pkgdb pkg)).getLast? = some pkg := by
      rw [names_entry h.name, comps_entry h.name, List.getLast?_concat]
    have hstatus : Tree.rmStatus (path pkgdb pkg) = 0 := by
      rw [Tree.rmStatus, hlast, if_neg]
      simpa using ⟨h.name.2.2.1, h.name.2.2.2⟩
    rw [hu, show k = 0 from hk.trans hstatus]

theorem Canonical.occurrences_nil {t : Tree} (h : Canonical t) : occurrences t [] = 0 := by
  rw [occurrences, List.sum_eq_zero_iff]
  intro k hk
  obtain ⟨p, hp, rfl⟩ := List.mem_map.mp hk
  obtain ⟨n, rfl, _, _, e, ls, hls⟩ := h.own p hp
  rw [hls, Tree.countLines, List.countP_eq_zero]
  intro f hf hs
  have hnil := (resembles_nil f).mp ((search_anchored [] f (by simp)).mp hs)
  have hplain := h.plain n f (by rwa [linesOf, hls])
  rw [hnil] at hplain
  exact absurd hplain.1 (by simp)

theorem isExec_mono {t t' : Tree} (ht : t.Within t') {cwd : Loc} {s : Str}
    (h : t.isExec cwd s = true) :
    t'.isExec cwd s = true := by
  rw [Tree.isExec] at h ⊢
  cases hd : t.stat cwd s with
  | none => simp [hd] at h
  | some d =>
      rw [hd, Option.bind_some] at h
      rw [Tree.stat_mono ht hd, Option.bind_some]
      cases hx : t.node d with
      | none => simp [hx] at h
      | some x =>
          rw [hx] at h
          rw [ht _ _ hx]
          exact h

theorem Removed.removepkg {t : Tree} {s : Sys} {pkgs : List Str} (h : Removed t s.tree pkgs)
    (ht : Canonical t) (hs : SlashFree t) {pkg : Str} (hp : Installed t pkg) (hne : pkg ∉ pkgs)
    (hook : Hook) (env : Env) {root_dir : Str} (hroot : rootOr root_dir = ['/'])
    (hhook : t.isExec [] (path (path pkgdb pkg) douninstName) = false) :
    ∃ u, Pkgtools.removepkg hook env root_dir pkg s = some (u, 0) ∧
    Removed t u.tree (pkg :: pkgs) := by
  have hno : s.tree.isExec [] (path (path pkgdb pkg) douninstName) = false := by
    by_contra hx
    have hmono := isExec_mono h.within (by simpa using hx)
    rw [hhook] at hmono
    cases hmono
  have hi := (h.installed pkg).mpr ⟨hp, hne⟩
  have h0 : occurrences s.tree [] ≠ 1 := by
    rw [h.canonical.occurrences_nil]
    exact Nat.zero_ne_one
  obtain ⟨u, hu⟩ :=
    (h.canonical.removable hi).removepkg_succeeds (h.canonical.straight hi) h0
    (hs.within h.within) hook env
    hroot hno
  exact ⟨u, hu, h.step hne ht hp (removepkg_uninstall hroot hno hu)⟩

theorem canonical_of_entries {t : Tree} (hd : Database t)
    (hread : ∀ n ∈ entries t, readContents t [] n = linesOf t n)
    (hplain : ∀ n ∈ entries t, (∀ f ∈ linesOf t n, PlainLine f) ∧ (linesOf t n).Nodup)
    (hpairs : ∀ n ∈ entries t, ∀ m ∈ entries t, ∀ f ∈ linesOf t n, ∀ g ∈ linesOf t m,
      (search ('^' :: (f ++ ['$'])) g = true ↔ g = f) ∧ (names f = names g → f = g))
    (hclosed : ∀ n ∈ entries t, ∀ f ∈ linesOf t n, ∀ e ∈ (names f).reverse.tails, e ≠ [] →
      ∃ g ∈ linesOf t n, (names g).reverse = e)
    (hplaces : ∀ n ∈ entries t, ∀ f ∈ linesOf t n, t.place [] f = none ∨
      t.place [] f = some (names f).reverse ∧ (names f).reverse ∉ lists t)
    (hdirs : ∀ n ∈ entries t, ∀ f ∈ linesOf t n, t.isDir [] f = true →
      t.dirAt (names f).reverse = true) :
    Canonical t where
  toDatabase := hd
  read n hn := hread n (by
    rw [entries, Tree.mem_children]
    exact Tree.isSome_of_suffix (List.suffix_cons contentsName _) (mem_lists.mp hn).2.1)
  plain n f hf := (hplain n (mem_entries hf)).1 f hf
  nodup n := by
    by_cases hnil : linesOf t n = []
    · rw [hnil]
      exact List.nodup_nil
    · obtain ⟨f, hf⟩ := List.exists_mem_of_ne_nil _ hnil
      exact (hplain n (mem_entries hf)).2
  exact n m f hf g hg := (hpairs n (mem_entries hf) m (mem_entries hg) f hf g hg).1
  spelled n m f hf g hg := (hpairs n (mem_entries hf) m (mem_entries hg) f hf g hg).2
  closed n f hf e he hs := hclosed n (mem_entries hf) f hf e ((List.mem_tails _ _).mpr hs) he
  real n f hf p hp := by
    rcases hplaces n (mem_entries hf) f hf with hno | ⟨hyes, _⟩
    · rw [hno] at hp
      cases hp
    · rw [hyes] at hp
      exact (Option.some.inj hp).symm
  dirs n f hf hd := (t.dirAt_iff _).mp (hdirs n (mem_entries hf) f hf hd)
  apart n f hf p hl hp := by
    rcases hplaces n (mem_entries hf) f hf with hno | ⟨hyes, hnot⟩
    · rw [hno] at hp
      cases hp
    · rw [hyes] at hp
      rw [Option.some.inj hp] at hnot
      exact hnot hl

end Fidelix.Pkgtools
