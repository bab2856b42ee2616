import Fidelix.Files.Beside
import Fidelix.Pkgtools.Emptied
import Fidelix.Pkgtools.Removals

namespace Fidelix.Pkgtools

open Text Files

/-- How many lines in the list of a package the pattern for `f` selects. -/
def selected (t : Tree) (pkg f : Str) : Nat :=
  Tree.countLines ('^' :: (f ++ ['$'])) (t.node (contentsLoc [] pkg))

/-- A line that is counted once, or that is when the other package is gone, is absolute and
without dots if it leads to a directory; and that stands where the line says, or is a link. -/
def StraightWith (t : Tree) (other pkg : Str) : Prop :=
  ∀ f ∈ readContents t [] pkg, occurrences t f = 1 ∨ occurrences t f = selected t other f + 1 →
    t.isDir [] f = true → PlainLine f ∧ (t.node (names f).reverse = some .dir ∨
      ∃ p g, t.placeAt [] (names f) = some p ∧ t.node p = some (.link g))

structure Partners (t : Tree) (pkg pkg' : Str) : Prop where
  fst : Removable t pkg
  snd : Removable t pkg'
  ne : pkg ≠ pkg'
  straight : StraightWith t pkg' pkg ∧ StraightWith t pkg pkg'
  noEmpty : occurrences t [] = 0

/-- The second package takes a file away when the first one is gone: one of its lines still leads
there and is counted once then, and it is no link to a directory any more. -/
def ClearedAfter (t : Tree) (pkg pkg' : Str) (p : Loc) : Prop :=
  (∃ f ∈ readContents t [] pkg', t.place [] f = some p ∧ occurrences t f = selected t pkg f + 1 ∧
    ∀ q ∈ t.leads [] f, Stays t pkg q) ∧
  (t.leadsToDir p = true → ∃ q ∈ t.looksFrom p, ¬ Stays t pkg q)

def Taken (t : Tree) (pkg pkg' : Str) (p : Loc) : Prop :=
  Cleared t (readContents t [] pkg) p ∨ ClearedAfter t pkg pkg' p

/-- A directory that loses what is in it without a climb over it: the first package leaves it, but
no directory in it; the files in it are taken away; and no line of the second package that is
counted once then names it. -/
structure Stranded (t : Tree) (pkg pkg' : Str) (r : Loc) : Prop where
  stays : Stays t pkg r
  emptied : ∀ n ∈ t.children r, if t.dirAt (n :: r) then ¬ Stays t pkg (n :: r)
    else Taken t pkg pkg' (n :: r)
  unnamed : ∀ f ∈ readContents t [] pkg', PlainLine f → (names f).reverse = r →
    occurrences t f ≠ selected t pkg f + 1

structure EitherOrder (t : Tree) (pkg pkg' : Str) : Prop where
  files : ∀ p x, t.node p = some x → x ≠ .dir → ¬ entryLoc [] pkg <:+ p → ¬ entryLoc [] pkg' <:+ p →
    (Taken t pkg pkg' p ↔ Taken t pkg' pkg p)
  dirs : ∀ r, t.node r = some .dir → ¬ entryLoc [] pkg <:+ r → ¬ entryLoc [] pkg' <:+ r →
    (Stranded t pkg pkg' r ↔ Stranded t pkg' pkg r)

instance (t : Tree) (pkg pkg' : Str) (p : Loc) : Decidable (ClearedAfter t pkg pkg' p) :=
  inferInstanceAs (Decidable (_ ∧ _))

instance (t : Tree) (pkg pkg' : Str) (p : Loc) : Decidable (Taken t pkg pkg' p) :=
  inferInstanceAs (Decidable (_ ∨ _))

theorem stranded_def {t : Tree} {pkg pkg' : Str} {r : Loc} : Stranded t pkg pkg' r ↔ Stays t pkg r ∧
    (∀ n ∈ t.children r, if t.dirAt (n :: r) then ¬ Stays t pkg (n :: r)
      else Taken t pkg pkg' (n :: r)) ∧
    ∀ f ∈ readContents t [] pkg', PlainLine f → (names f).reverse = r →
    occurrences t f ≠ selected t pkg f + 1 :=
  ⟨fun h => ⟨h.stays, h.emptied, h.unnamed⟩, fun h => ⟨h.1, h.2.1, h.2.2⟩⟩

instance (t : Tree) (pkg pkg' : Str) (r : Loc) : Decidable (Stranded t pkg pkg' r) :=
  decidable_of_iff _ stranded_def.symm

theorem eitherOrder_of_support {t : Tree} {pkg pkg' : Str}
    (hf : ∀ p ∈ t.support, t.dirAt p = false → ¬ entryLoc [] pkg <:+ p → ¬ entryLoc [] pkg' <:+ p →
      (Taken t pkg pkg' p ↔ Taken t pkg' pkg p))
    (hd : ∀ r ∈ t.support, t.dirAt r = true → ¬ entryLoc [] pkg <:+ r → ¬ entryLoc [] pkg' <:+ r →
      (Stranded t pkg pkg' r ↔ Stranded t pkg' pkg r)) : EitherOrder t pkg pkg' := by
  refine ⟨fun p x hx hne => hf p (t.finite p (by rw [hx]; rfl)) ?_,
    fun r hr => hd r (t.finite r (by rw [hr]; rfl)) ((t.dirAt_iff r).mpr hr)⟩
  rw [← Bool.not_eq_true, t.dirAt_iff, hx]
  simpa using hne

theorem StraightWith.straight {t : Tree} {other pkg : Str} (h : StraightWith t other pkg) :
    Straight t pkg :=
  fun f hf ho => h f hf (.inl ho)

theorem Partners.symm {t : Tree} {pkg pkg' : Str} (h : Partners t pkg pkg') : Partners t pkg' pkg :=
  ⟨h.snd, h.fst, h.ne.symm, h.straight.symm, h.noEmpty⟩

theorem EitherOrder.symm {t : Tree} {pkg pkg' : Str} (h : EitherOrder t pkg pkg') :
    EitherOrder t pkg' pkg :=
  ⟨fun p x hx hd hE hE' => (h.files p x hx hd hE' hE).symm, fun r hr hE hE' =>
    (h.dirs r hr hE' hE).symm⟩

section

variable {t u : Tree} {pkg pkg' : Str} (h : Partners t pkg pkg')
  (hun : uninstall [] (contentsFiles t []) pkg t = some u)

include h hun

theorem Partners.node (q : Loc) : u.node q = if Stays t pkg q then t.node q else none :=
  uninstall_node h.fst h.straight.1.straight hun q

theorem Partners.isSome_iff (q : Loc) : (u.node q).isSome ↔ Stays t pkg q := by
  rw [h.node hun]
  by_cases hs : Stays t pkg q
  · obtain ⟨_, r, hr, _⟩ := id hs
    obtain ⟨hqr, hrs⟩ := (Tree.mem_below _ _ _).mp hr
    simp [hs, Tree.isSome_of_suffix hqr hrs]
  · simp [hs]

theorem Partners.mem_lists_iff (p : Loc) : p ∈ lists u ↔ p ∈ lists t ∧ p ≠ contentsLoc [] pkg := by
  constructor
  · intro hp
    obtain ⟨h1, h2, h3⟩ := mem_lists.mp hp
    obtain ⟨x, hx⟩ := Option.isSome_iff_exists.mp h2
    refine ⟨mem_lists.mpr ⟨h1, by rw [uninstall_within hun _ _ hx]; rfl, h3⟩, ?_⟩
    rintro rfl
    exact ((h.isSome_iff hun _).mp h2).1 (List.suffix_cons contentsName (entryLoc [] pkg))
  · rintro ⟨hp, hne⟩
    obtain ⟨h1, h2, h3⟩ := mem_lists.mp hp
    obtain ⟨n, rfl, _⟩ := h.fst.own p hp
    refine mem_lists.mpr ⟨h1, ?_, h3⟩
    rw [h.fst.list_kept hun hp fun he => hne (by rw [he])]
    exact h2

theorem Partners.list_node {p : Loc} (hp : p ∈ lists u) : u.node p = t.node p := by
  obtain ⟨hpt, hne⟩ := (h.mem_lists_iff hun p).mp hp
  obtain ⟨n, rfl, _⟩ := h.fst.own p hpt
  exact h.fst.list_kept hun hpt fun he => hne (by rw [he])

theorem Partners.occurrences_eq (f : Str) :
    occurrences t f = occurrences u f + selected t pkg f := by
  have hperm : (lists t).Perm (contentsLoc [] pkg :: lists u) := by
    apply (List.perm_ext_iff_of_nodup (lists_nodup t) ?_).mpr
    · intro p
      rw [List.mem_cons, h.mem_lists_iff hun]
      by_cases hp : p = contentsLoc [] pkg
      · simp [hp, h.fst.own_list]
      · simp [hp]
    · rw [List.nodup_cons, h.mem_lists_iff hun]
      exact ⟨fun hm => hm.2 rfl, lists_nodup u⟩
  have hsum : ((lists u).map fun p => Tree.countLines ('^' :: (f ++ ['$'])) (t.node p)).sum =
    occurrences u f := by
    rw [occurrences]
    congr 1
    exact List.map_congr_left fun p hp => by rw [h.list_node hun hp]
  rw [occurrences, (hperm.map _).sum_eq, List.map_cons, List.sum_cons, hsum, selected, Nat.add_comm]

theorem Partners.once_iff (f : Str) :
    occurrences u f = 1 ↔ occurrences t f = selected t pkg f + 1 := by
  rw [h.occurrences_eq hun]
  omega

theorem Partners.list_other : contentsLoc [] pkg' ∈ lists u :=
  (h.mem_lists_iff hun _).mpr ⟨h.snd.own_list, fun he => h.ne (contentsLoc_inj he).symm⟩

theorem Partners.readContents_eq : readContents u [] pkg' = readContents t [] pkg' :=
  h.snd.readContents_congr (h.list_node hun (h.list_other hun))

theorem Partners.removable : Removable u pkg' := by
  have hlist := h.list_other hun
  refine ⟨⟨?_, fun p hp => ?_⟩, h.snd.name, ?_, fun f hf p hp hpl => ?_⟩
  · rw [h.node hun, if_pos (h.fst.stays_top (List.suffix_refl _)), h.fst.dir]
  · obtain ⟨n, rfl, h1, h2, e, ls, hls⟩ := h.fst.own p ((h.mem_lists_iff hun p).mp hp).1
    exact ⟨n, rfl, h1, h2, e, ls, (h.list_node hun hp).trans hls⟩
  · rw [h.list_node hun hlist]
    exact h.snd.list
  · rw [h.readContents_eq hun] at hf
    exact h.snd.steady f hf p ((h.mem_lists_iff hun p).mp hp).1
      (Tree.place_within (uninstall_within hun) hpl)

theorem Partners.straight_after : Straight u pkg' := by
  have hw := uninstall_within hun
  intro f hf ho hd
  rw [h.readContents_eq hun] at hf
  obtain ⟨hplain, hkind⟩ :=
    h.straight.2 f hf (.inr ((h.once_iff hun f).mp ho)) (Tree.isDir_mono hw hd)
  have hf0 : f ≠ [] := by
    rintro rfl
    exact absurd hplain.1 (by simp)
  refine ⟨hplain, ?_⟩
  rcases hkind with hdir | ⟨p, g, hp, hg⟩
  · obtain ⟨d, hst, hud⟩ := Tree.isDir_iff.mp hd
    have hloc := (Tree.stat_real hf0 hplain.2.1 hdir).symm.trans (Tree.stat_mono hw hst)
    rw [Option.some.inj hloc]
    exact .inl hud
  · by_cases hn : names f = []
    · rw [hn]
      exact .inl u.root
    · obtain ⟨q, hq, hqs⟩ := Tree.placeAt_of_isDir hn hplain.2.1 hd
      obtain rfl : q = p := Option.some.inj ((Tree.placeAt_mono hw hq).symm.trans hp)
      exact .inr ⟨q, g, hq, (hw.eq_of_isSome hqs).trans hg⟩

theorem Partners.cleared_iff {p : Loc} (hp : (u.node p).isSome) :
    Cleared u (readContents u [] pkg') p ↔ ClearedAfter t pkg pkg' p := by
  have hw := uninstall_within hun
  have hleads : u.leadsToDir p = false ↔
    (t.leadsToDir p = true → ∃ q ∈ t.looksFrom p, ¬ Stays t pkg q) := by
    rw [← Bool.not_eq_true, Tree.leadsToDir_left_iff hw hp, not_and]
    simp only [h.isSome_iff hun, not_forall, exists_prop]
  have hline (f : Str) : u.place [] f = some p ∧ occurrences u f = 1 ↔
      t.place [] f = some p ∧ occurrences t f = selected t pkg f + 1 ∧
        ∀ q ∈ t.leads [] f, Stays t pkg q := by
    rw [Tree.place_left_iff hw hp, h.once_iff hun]
    simp only [h.isSome_iff hun]
    tauto
  rw [Cleared, ClearedAfter, hleads, h.readContents_eq hun]
  simp only [hline]
  exact and_comm

variable {v : Tree} (hun' : uninstall [] (contentsFiles u []) pkg' u = some v)
include hun'

theorem Partners.node_twice (q : Loc) : v.node q = if Stays u pkg' q then u.node q else none :=
  uninstall_node (h.removable hun) (h.straight_after hun) hun' q

theorem Partners.file {p : Loc} {x : Node} (hp : t.node p = some x) (hx : x ≠ .dir)
    (hE : ¬ entryLoc [] pkg <:+ p) (hE' : ¬ entryLoc [] pkg' <:+ p) :
    (v.node p).isSome ↔ ¬ Taken t pkg pkg' p := by
  have hfile := h.fst.uninstall_file hun hp hx
  by_cases hc : Cleared t (readContents t [] pkg) p
  · rw [if_pos (.inr hc)] at hfile
    have hv : v.node p = none := by
      by_contra hs
      obtain ⟨y, hy⟩ := Option.ne_none_iff_exists'.mp hs
      rw [uninstall_within hun' _ _ hy] at hfile
      cases hfile
    simp [hv, Taken, hc]
  · rw [if_neg (by simp [hE, hc])] at hfile
    have hafter := h.cleared_iff hun (p := p) (by rw [hfile]; rfl)
    rw [(h.removable hun).uninstall_file hun' hfile hx]
    by_cases ha : ClearedAfter t pkg pkg' p
    · rw [if_pos (.inr (hafter.mpr ha))]
      simp [Taken, ha]
    · rw [if_neg (by simp [hE', hafter, ha])]
      simp [Taken, hc, ha]

theorem Partners.entries_gone {q : Loc} (hq : entryLoc [] pkg <:+ q ∨ entryLoc [] pkg' <:+ q) :
    v.node q = none := by
  rcases hq with hq | hq
  · by_contra hs
    obtain ⟨y, hy⟩ := Option.ne_none_iff_exists'.mp hs
    have hu := uninstall_within hun' _ _ hy
    rw [uninstall_gone h.fst.name h.fst.dir hun hq] at hu
    cases hu
  · exact uninstall_gone (h.removable hun).name (h.removable hun).dir hun' hq

omit h hun hun' in
theorem not_entry_child {r : Loc} (htop : ¬ r <:+ pkgdbLoc []) {n m : Str}
    (he : ¬ entryLoc [] n <:+ r) : ¬ entryLoc [] n <:+ m :: r := by
  intro hs
  rcases List.suffix_cons_iff.mp hs with hs | hs
  · exact htop ((List.cons.inj hs).2 ▸ List.suffix_refl _)
  · exact he hs

theorem Partners.stranded_empty {r : Loc} (htop : ¬ r <:+ pkgdbLoc [])
    (hE : ¬ entryLoc [] pkg <:+ r) (hE' : ¬ entryLoc [] pkg' <:+ r)
    (hst : Stranded t pkg pkg' r) (n : Str) :
    v.node (n :: r) = none := by
  cases hx : t.node (n :: r) with
  | none =>
      by_contra hs
      obtain ⟨y, hy⟩ := Option.ne_none_iff_exists'.mp hs
      rw [uninstall_within hun _ _ (uninstall_within hun' _ _ hy)] at hx
      cases hx
  | some x =>
      have hn := hst.emptied n (by rw [Tree.mem_children, hx]; rfl)
      by_cases hd : x = .dir
      · subst hd
        rw [if_pos ((t.dirAt_iff _).mpr hx)] at hn
        rw [h.node_twice hun hun', h.node hun, if_neg hn, ite_self]
      · have hdir : t.dirAt (n :: r) = false := by
          rw [← Bool.not_eq_true, t.dirAt_iff, hx]
          simpa using hd
        rw [hdir, if_neg Bool.false_ne_true] at hn
        exact Option.not_isSome_iff_eq_none.mp fun hs =>
          (h.file hun hun' hx hd (not_entry_child htop hE) (not_entry_child htop hE')).mp hs hn

omit hun' in
/-- It stands for itself: a line that climbs over it names it, or a directory in it. -/
theorem Partners.stranded_stays {r : Loc} (hr : t.node r = some .dir)
    (hE' : ¬ entryLoc [] pkg' <:+ r) (hst : Stranded t pkg pkg' r) : Stays u pkg' r := by
  have hw := uninstall_within hun
  have hu : u.node r = some .dir := by rw [h.node hun, if_pos hst.stays, hr]
  refine ⟨hE', r, (Tree.mem_below _ _ _).mpr ⟨List.suffix_refl r, by rw [hu]; rfl⟩,
    not_cleared_dir hu, ?_⟩
  rintro ⟨_, f, hf, ⟨ho, hplain, hd⟩, hsuf⟩
  rw [h.readContents_eq hun] at hf
  by_cases he : r = (names f).reverse
  · exact hst.unnamed f hf hplain he.symm ((h.once_iff hun f).mp ho)
  · obtain ⟨n, hn⟩ := Tree.exists_cons_suffix hsuf he
    have hnd := dir_below hn ((u.dirAt_iff _).mp hd)
    have hmem := hst.emptied n (by rw [Tree.mem_children, hw _ _ hnd]; rfl)
    rw [if_pos ((t.dirAt_iff _).mpr (hw _ _ hnd)), ← h.isSome_iff hun, hnd] at hmem
    exact hmem rfl

/-- What keeps an empty directory is not below it, so no line climbs over it. -/
theorem Partners.empty_not_climbed {r : Loc} (htop : ¬ r <:+ pkgdbLoc [])
    (hE' : ¬ entryLoc [] pkg' <:+ r) (hs : (v.node r).isSome)
    (hnone : ∀ n, v.node (n :: r) = none) :
    ¬ Climbed u pkg' r := by
  intro hc
  have hstays : Stays u pkg' r := by
    by_contra hno
    rw [h.node_twice hun hun', if_neg hno] at hs
    cases hs
  obtain ⟨_, y, hy, hcl, hcb⟩ := hstays
  obtain ⟨hry, hys⟩ := (Tree.mem_below _ _ _).mp hy
  by_cases he : r = y
  · exact hcb (he ▸ hc)
  · obtain ⟨n, hn⟩ := Tree.exists_cons_suffix hry he
    have hkeep : Stays u pkg' (n :: r) :=
      ⟨not_entry_child htop hE', y, (Tree.mem_below _ _ _).mpr ⟨hn, hys⟩, hcl, hcb⟩
    have hgone := hnone n
    rw [h.node_twice hun hun', if_pos hkeep] at hgone
    have hys' := Tree.isSome_of_suffix hn hys
    rw [hgone] at hys'
    cases hys'

theorem Partners.stranded_iff {r : Loc} (hr : t.node r = some .dir) (htop : ¬ r <:+ pkgdbLoc [])
    (hE : ¬ entryLoc [] pkg <:+ r) (hE' : ¬ entryLoc [] pkg' <:+ r) :
    Stranded t pkg pkg' r ↔ (v.node r).isSome ∧ ∀ n, v.node (n :: r) = none := by
  constructor
  · intro hst
    refine ⟨?_, h.stranded_empty hun hun' htop hE hE' hst⟩
    rw [h.node_twice hun hun', if_pos (h.stranded_stays hun hr hE' hst), h.node hun,
      if_pos hst.stays, hr]
    rfl
  · rintro ⟨hsome, hnone⟩
    have hr0 : r ≠ [] := by
      rintro rfl
      exact htop List.nil_suffix
    have hclimb := h.empty_not_climbed hun hun' htop hE' hsome hnone
    obtain ⟨x, hx⟩ := Option.isSome_iff_exists.mp hsome
    have hstays := (h.isSome_iff hun r).mp (by rw [uninstall_within hun' _ _ hx]; rfl)
    refine ⟨hstays, fun n hn => ?_, fun f hf hplain he ho => ?_⟩
    · rw [Tree.mem_children] at hn
      obtain ⟨y, hy⟩ := Option.isSome_iff_exists.mp hn
      by_cases hd : y = .dir
      · subst hd
        rw [if_pos ((t.dirAt_iff _).mpr hy)]
        intro hs
        have hu : u.node (n :: r) = some .dir := by rw [h.node hun, if_pos hs, hy]
        have hgone := hnone n
        rw [h.node_twice hun hun', hu] at hgone
        have hno : ¬ Stays u pkg' (n :: r) := fun hk => by
          rw [if_pos hk] at hgone
          cases hgone
        have hcn : Climbed u pkg' (n :: r) := by
          by_contra hc
          exact hno ⟨not_entry_child htop hE', n :: r,
            (Tree.mem_below _ _ _).mpr ⟨List.suffix_refl _, by rw [hu]; rfl⟩,
            not_cleared_dir hu, hc⟩
        obtain ⟨_, f, hf, hc, hsuf⟩ := hcn
        exact hclimb ⟨hr0, f, hf, hc, (List.suffix_cons n r).trans hsuf⟩
      · have hdir : t.dirAt (n :: r) = false := by
          rw [← Bool.not_eq_true, t.dirAt_iff, hy]
          simpa using hd
        rw [hdir, if_neg Bool.false_ne_true]
        by_contra ht
        have hs := (h.file hun hun' hy hd (not_entry_child htop hE)
          (not_entry_child htop hE')).mpr ht
        rw [hnone n] at hs
        cases hs
    · have hu : u.node r = some .dir := by rw [h.node hun, if_pos hstays, hr]
      rw [← h.readContents_eq hun] at hf
      exact hclimb ⟨hr0, f, hf, ⟨(h.once_iff hun f).mpr ho, hplain, by
        rw [he]; exact (u.dirAt_iff _).mpr hu⟩,
        by rw [he]⟩

theorem Partners.top_left {q : Loc} (hq : q <:+ pkgdbLoc []) : (v.node q).isSome := by
  rw [h.node_twice hun hun', if_pos ((h.removable hun).stays_top hq), h.isSome_iff hun]
  exact h.fst.stays_top hq

end

theorem Partners.not_stranded_top {t : Tree} {pkg pkg' : Str} (h : Partners t pkg pkg') {r : Loc}
    (hr : r <:+ pkgdbLoc []) : ¬ Stranded t pkg pkg' r := by
  intro hst
  have hchild : ∃ n, t.node (n :: r) = some .dir ∧ Stays t pkg (n :: r) := by
    by_cases he : r = pkgdbLoc []
    · subst he
      have hlist := h.snd.own_list
      have hdir := t.parent contentsName (entryLoc [] pkg') (mem_lists.mp hlist).2.1
      refine ⟨pkg', hdir, fun hs => h.ne (entryLoc_suffix hs (List.suffix_refl _)),
        contentsLoc [] pkg', ?_,
        h.fst.list_anchors hlist⟩
      exact (Tree.mem_below _ _ _).mpr ⟨List.suffix_cons contentsName (entryLoc [] pkg'),
        (mem_lists.mp hlist).2.1⟩
    · obtain ⟨n, hn⟩ := Tree.exists_cons_suffix hr he
      exact ⟨n, dir_below hn h.fst.dir, h.fst.stays_top hn⟩
  obtain ⟨n, hd, hs⟩ := hchild
  have hmem := hst.emptied n (by rw [Tree.mem_children, hd]; rfl)
  rw [if_pos ((t.dirAt_iff _).mpr hd)] at hmem
  exact hmem hs

section

variable {t u v u' v' : Tree} {pkg pkg' : Str} (h : Partners t pkg pkg')
  (hu : uninstall [] (contentsFiles t []) pkg t = some u)
  (hv : uninstall [] (contentsFiles u []) pkg' u = some v)
  (hu' : uninstall [] (contentsFiles t []) pkg' t = some u')
  (hv' : uninstall [] (contentsFiles u' []) pkg u' = some v')
include h hu hv hu' hv'

theorem Partners.left_either (ha : EitherOrder t pkg pkg') {q : Loc} (hq : (v.node q).isSome) :
    (v'.node q).isSome := by
  by_cases htop : q <:+ pkgdbLoc []
  · exact h.symm.top_left hu' hv' htop
  · obtain ⟨r, hqr, hr, hnone⟩ := Tree.exists_deepest hq
    have hE : ¬ (entryLoc [] pkg <:+ r ∨ entryLoc [] pkg' <:+ r) := by
      intro hE
      rw [h.entries_gone hu hv hE] at hr
      cases hr
    rw [not_or] at hE
    refine Tree.isSome_of_suffix hqr ?_
    obtain ⟨x, hx⟩ := Option.isSome_iff_exists.mp hr
    have ht := uninstall_within hu _ _ (uninstall_within hv _ _ hx)
    by_cases hd : x = .dir
    · subst hd
      have hrtop : ¬ r <:+ pkgdbLoc [] := fun hs => htop (hqr.trans hs)
      have hst := (h.stranded_iff hu hv ht hrtop hE.1 hE.2).mpr ⟨hr, hnone⟩
      exact ((h.symm.stranded_iff hu' hv' ht hrtop hE.2 hE.1).mp
        ((ha.dirs r ht hE.1 hE.2).mp hst)).1
    · rw [h.symm.file hu' hv' ht hd hE.2 hE.1, ← ha.files r x ht hd hE.1 hE.2]
      exact (h.file hu hv ht hd hE.1 hE.2).mp hr

theorem Partners.same_iff : v.Same v' ↔ EitherOrder t pkg pkg' := by
  constructor
  · intro hsame
    refine ⟨fun p x hx hd hE hE' => ?_, fun r hr hE hE' => ?_⟩
    · rw [← not_iff_not, ← h.file hu hv hx hd hE hE', ← h.symm.file hu' hv' hx hd hE' hE, hsame p]
    · by_cases htop : r <:+ pkgdbLoc []
      · exact iff_of_false (h.not_stranded_top htop) (h.symm.not_stranded_top htop)
      · rw [h.stranded_iff hu hv hr htop hE hE',
          h.symm.stranded_iff hu' hv' hr htop hE' hE, hsame r]
        simp only [fun n => hsame (n :: r)]
  · intro ha q
    have hw := (uninstall_within hv).trans (uninstall_within hu)
    have hw' := (uninstall_within hv').trans (uninstall_within hu')
    have hiff : (v.node q).isSome ↔ (v'.node q).isSome :=
      ⟨h.left_either hu hv hu' hv' ha, h.symm.left_either hu' hv' hu hv ha.symm⟩
    by_cases hs : (v.node q).isSome
    · rw [hw.eq_of_isSome hs, hw'.eq_of_isSome (hiff.mp hs)]
    · rw [Option.not_isSome_iff_eq_none.mp hs, Option.not_isSome_iff_eq_none.mp fun hs' =>
        hs (hiff.mpr hs')]

end

theorem Partners.removepkg_twice {s : Sys} {pkg pkg' : Str} (h : Partners s.tree pkg pkg')
    (hs : SlashFree s.tree) (hook : Hook) (env : Env) {root_dir : Str}
    (hroot : rootOr root_dir = ['/'])
    (hhook : ∀ n ∈ [pkg, pkg'], s.tree.isExec [] (path (path pkgdb n) douninstName) = false) :
    ∃ u v, removepkg hook env root_dir pkg s = some (u, 0) ∧
    removepkg hook env root_dir pkg' u = some (v, 0) ∧
      uninstall [] (contentsFiles s.tree []) pkg s.tree = some u.tree ∧
      uninstall [] (contentsFiles u.tree []) pkg' u.tree = some v.tree := by
  have h0 : occurrences s.tree [] ≠ 1 := by
    rw [h.noEmpty]
    exact Nat.zero_ne_one
  have hno := hhook pkg (by simp)
  obtain ⟨u, hu⟩ := h.fst.removepkg_succeeds h.straight.1.straight h0 hs hook env hroot hno
  have hun := removepkg_uninstall hroot hno hu
  have hw := uninstall_within hun
  have h0' : occurrences u.tree [] ≠ 1 := by
    have hsum := h.occurrences_eq hun []
    rw [h.noEmpty] at hsum
    omega
  have hno' : u.tree.isExec [] (path (path pkgdb pkg') douninstName) = false := by
    by_contra hx
    have hmono := isExec_mono hw (by simpa using hx)
    rw [hhook pkg' (by simp)] at hmono
    cases hmono
  obtain ⟨v, hv⟩ :=
    (h.removable hun).removepkg_succeeds (h.straight_after hun) h0' (hs.within hw) hook
    env hroot hno'
  exact ⟨u, v, hu, hv, hun, removepkg_uninstall hroot hno' hv⟩

/-- Two removals come to the same in both orders exactly when they take the same files away and
strand the same directories. -/
theorem removals_commute_iff (hook : Hook) (env : Env) (root_dir pkg pkg' : Str) (s : Sys)
    (hroot : rootOr root_dir = ['/']) (h : Partners s.tree pkg pkg') (hs : SlashFree s.tree)
    (hhook : ∀ n ∈ [pkg, pkg'], s.tree.isExec [] (path (path pkgdb n) douninstName) = false) :
    ∃ u v u' v', removepkg hook env root_dir pkg s = some (u, 0) ∧
    removepkg hook env root_dir pkg' u = some (v, 0) ∧
      removepkg hook env root_dir pkg' s = some (u', 0) ∧
      removepkg hook env root_dir pkg u' = some (v', 0) ∧
      (v.tree.Same v'.tree ↔ EitherOrder s.tree pkg pkg') := by
  obtain ⟨u, v, hu, hv, hun, hvn⟩ := h.removepkg_twice hs hook env hroot hhook
  obtain ⟨u', v', hu', hv', hun', hvn'⟩ := h.symm.removepkg_twice hs hook env hroot fun n hn =>
    hhook n (List.mem_pair.mpr (List.mem_pair.mp hn).symm)
  exact ⟨u, v, u', v', hu, hv, hu', hv', h.same_iff hun hvn hun' hvn'⟩

/-- Two packages that share `/bin`. The second one has a file there whose line is no pattern. -/
def testPackages : Tree := Tree.ofList [([varName], .dir), (pkgdbLoc [], .dir),
  (entryLoc [] firstPkg, .dir), (entryLoc [] secondPkg, .dir),
  (contentsLoc [] firstPkg, .file false [binLine [], binLine toolName]),
  (contentsLoc [] secondPkg, .file false [binLine [], binLine testName]),
  ([binName], .dir), ([toolName, binName], .file true []), ([testName, binName], .file true [])]

theorem testPackages_lists : lists testPackages = [secondPkg, firstPkg].map (contentsLoc []) := by
  decide +kernel

theorem testPackages_removable {n : Str} (hn : n = firstPkg ∨ n = secondPkg) :
    Removable testPackages n := by
  have hlist : ∃ e ls, testPackages.node (contentsLoc [] n) = some (.file e ls) := by
    rcases hn with rfl | rfl <;> exact ⟨_, _, rfl⟩
  refine ⟨database_of_lists testPackages_lists (by decide +kernel) (by decide +kernel),
    ?_, hlist, ?_⟩
  · rcases hn with rfl | rfl <;> decide
  · rcases hn with rfl | rfl <;> decide +kernel

theorem testPackages_straight {other n : Str} (hn : n = firstPkg ∨ n = secondPkg) :
    StraightWith testPackages other n := by
  have hdirs : ∀ f ∈ readContents testPackages [] n, testPackages.isDir [] f = true →
    f = binLine [] := by
    rcases hn with rfl | rfl <;> decide +kernel
  intro f hf _ hd
  rw [hdirs f hf hd]
  exact ⟨by decide +kernel, .inl rfl⟩

theorem testPackages_partners : Partners testPackages firstPkg secondPkg :=
  ⟨testPackages_removable (.inl rfl), testPackages_removable (.inr rfl), by decide,
    ⟨testPackages_straight (.inl rfl), testPackages_straight (.inr rfl)⟩, by decide +kernel⟩

theorem removals_commute_iff_test : ∃ u v u' v',
    removepkg noHook ⟨[], false, []⟩ [] firstPkg ⟨testPackages, []⟩ = some (u, 0) ∧
    removepkg noHook ⟨[], false, []⟩ [] secondPkg u = some (v, 0) ∧
    removepkg noHook ⟨[], false, []⟩ [] secondPkg ⟨testPackages, []⟩ = some (u', 0) ∧
    removepkg noHook ⟨[], false, []⟩ [] firstPkg u' = some (v', 0) ∧ v.tree.Same v'.tree := by
  obtain ⟨u, v, u', v', hu, hv, hu', hv', hiff⟩ :=
    removals_commute_iff noHook ⟨[], false, []⟩ [] firstPkg secondPkg
    ⟨testPackages, []⟩ rfl testPackages_partners (slashFree_spec (by decide +kernel))
      (by decide +kernel)
  exact ⟨u, v, u', v', hu, hv, hu', hv',
    hiff.mpr (eitherOrder_of_support (by decide +kernel) (by decide +kernel))⟩

def thirdPkg : Str := ['r']

/-- Three packages with `/bin`, the first one with a directory in it, the second one with a file. -/
def threePackages : Tree := Tree.ofList [([varName], .dir), (pkgdbLoc [], .dir),
  (entryLoc [] firstPkg, .dir), (entryLoc [] secondPkg, .dir), (entryLoc [] thirdPkg, .dir),
  (contentsLoc [] firstPkg, .file false [binLine [], binLine (path toolName [])]),
  (contentsLoc [] secondPkg, .file false [binLine [], binLine otherName]),
  (contentsLoc [] thirdPkg, .file false [binLine []]),
  ([binName], .dir), ([toolName, binName], .dir), ([otherName, binName], .file true [])]

theorem threePackages_canonical : Canonical threePackages := by
  have hl : lists threePackages = [thirdPkg, secondPkg, firstPkg].map (contentsLoc []) :=
    by decide +kernel
  exact canonical_of_entries (database_of_lists hl (by decide +kernel) (by decide +kernel))
    (by decide +kernel)
    (by decide +kernel) (by decide +kernel) (by decide +kernel) (by decide +kernel)
      (by decide +kernel)

theorem threePackages_slashFree : SlashFree threePackages := slashFree_spec (by decide +kernel)

theorem Canonical.partners {t : Tree} (h : Canonical t) {pkg pkg' : Str} (hp : Installed t pkg)
    (hp' : Installed t pkg') (hne : pkg ≠ pkg') : Partners t pkg pkg' := by
  have hst {n m : Str} (hn : Installed t n) : StraightWith t m n := by
    intro f hf _ hd
    rw [h.read n hn] at hf
    exact ⟨h.plain n f hf, .inl (h.dirs n f hf hd)⟩
  exact ⟨h.removable hp, h.removable hp', hne, ⟨hst hp, hst hp'⟩, h.occurrences_nil⟩

/-- A directory of a third package goes with the last directory in it, if that is removed last. -/
theorem orders_differ :
    ¬ ∀ (hook : Hook) (env : Env) (pkg pkg' : Str) (s u v u' v' : Sys), Canonical s.tree →
    SlashFree s.tree → Installed s.tree pkg → Installed s.tree pkg' → pkg' ≠ pkg →
    (∀ n ∈ [pkg, pkg'], s.tree.isExec [] (path (path pkgdb n) douninstName) = false) →
    removepkg hook env [] pkg s = some (u, 0) → removepkg hook env [] pkg' u = some (v, 0) →
    removepkg hook env [] pkg' s = some (u', 0) → removepkg hook env [] pkg u' = some (v', 0) →
    v.tree.Same v'.tree := by
  intro h
  have hfirst : Installed threePackages firstPkg := by decide +kernel
  have hsecond : Installed threePackages secondPkg := by decide +kernel
  have hne : firstPkg ≠ secondPkg := by decide
  have hpart : Partners threePackages firstPkg secondPkg :=
    threePackages_canonical.partners hfirst hsecond hne
  have hroot : rootOr [] = ['/'] := rfl
  have hhook : ∀ n ∈ [firstPkg, secondPkg],
    threePackages.isExec [] (path (path pkgdb n) douninstName) = false := by
    decide +kernel
  have hhook' : ∀ n ∈ [secondPkg, firstPkg],
    threePackages.isExec [] (path (path pkgdb n) douninstName) = false := by
    decide +kernel
  obtain ⟨u, v, hu, hv, hun, hvn⟩ :=
    Partners.removepkg_twice (s := ⟨threePackages, []⟩) hpart threePackages_slashFree
    noHook ⟨[], false, []⟩ hroot hhook
  obtain ⟨u', v', hu', hv', hun', hvn'⟩ :=
    Partners.removepkg_twice (s := ⟨threePackages, []⟩) hpart.symm
    threePackages_slashFree noHook ⟨[], false, []⟩ hroot hhook'
  have hsame :=
    h noHook ⟨[], false, []⟩ firstPkg secondPkg ⟨threePackages, []⟩ u v u' v'
    threePackages_canonical
    threePackages_slashFree hfirst hsecond hne.symm hhook hu hv hu' hv'
  have halike := (hpart.same_iff hun hvn hun' hvn').mp hsame
  have hst : Stranded threePackages firstPkg secondPkg [binName] := by decide +kernel
  have hno : ¬ Stranded threePackages secondPkg firstPkg [binName] := by decide +kernel
  exact hno ((halike.dirs [binName] rfl (by decide) (by decide)).mp hst)

end Fidelix.Pkgtools
