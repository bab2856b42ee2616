import Fidelix.Files.Climb
import Fidelix.Pkgtools.Leftovers

namespace Fidelix.Pkgtools

open Text Files

theorem names_append_slashes (a : Str) {x : Str} (hx : ∀ c ∈ x, c = '/') :
    names (a ++ x) = names a := by
  induction x generalizing a with
  | nil => rw [List.append_nil]
  | cons c x ih =>
      obtain rfl := hx c (by simp)
      have hx' : ∀ d ∈ x, d = '/' := fun d hd => hx d (List.mem_cons_of_mem _ hd)
      have hnil := ih [] hx'
      rw [List.nil_append, names_nil] at hnil
      rw [names_append_slash, hnil, List.append_nil]

theorem mem_takeWhile_slash {s : Str} {c : Char} (h : c ∈ s.takeWhile (· == '/')) : c = '/' := by
  simpa using List.mem_takeWhile_imp h

theorem dirname_spec (s : Str) (hs : s.head? = some '/') :
    names (dirname s) = (names s).dropLast ∧ (dirname s).head? = some '/' ∧
    ∀ c ∈ dirname s, c ∈ s ∨ c = '/' := by
  set a := s.reverse.dropWhile (· == '/') with ha
  set x := s.reverse.takeWhile (· == '/') with hx
  set b := a.dropWhile (· != '/') with hb
  set y := a.takeWhile (· != '/') with hy
  set c := b.dropWhile (· == '/') with hc
  set z := b.takeWhile (· == '/') with hz
  have hs0 : s ≠ [] := by
    rintro rfl
    cases hs
  have hsplit : s = a.reverse ++ x.reverse := by
    rw [← List.reverse_append, hx, ha, List.takeWhile_append_dropWhile, List.reverse_reverse]
  have hnames : names s = names a.reverse := by
    rw [hsplit]
    exact names_append_slashes _ fun d hd => mem_takeWhile_slash (List.mem_reverse.mp hd)
  have hab : a = y ++ b := (List.takeWhile_append_dropWhile).symm
  have hbc : b = z ++ c := (List.takeWhile_append_dropWhile).symm
  have hdir : dirname s = if a = [] then ['/'] else if b = [] then dot else if c = [] then ['/']
    else c.reverse := by
    rw [dirname]
    simp only [hs0, if_false]
    rfl
  by_cases ha0 : a = []
  · rw [hdir, if_pos ha0, hnames, ha0]
    exact ⟨rfl, rfl, by simp⟩
  · have hys : '/' ∉ y := fun h => by simpa using List.mem_takeWhile_imp h
    have hy0 : y ≠ [] := by
      obtain ⟨d, a', hda⟩ := List.exists_cons_of_ne_nil ha0
      have hhead := List.head?_dropWhile_not (· == '/') s.reverse
      rw [← ha, hda, List.head?_cons] at hhead
      rw [hy, hda, List.takeWhile_cons, if_pos (by simpa using hhead)]
      simp
    have hb0 : b ≠ [] := by
      intro hb0
      rw [hb0, List.append_nil] at hab
      rw [hsplit, List.head?_append_of_ne_nil _ (by simpa using ha0), List.head?_reverse] at hs
      exact hys (hab ▸ List.mem_of_getLast? hs)
    have hbh : b.head? = some '/' := by
      obtain ⟨d, b', hdb⟩ := List.exists_cons_of_ne_nil hb0
      have hhead := List.head?_dropWhile_not (· != '/') a
      rw [← hb, hdb, List.head?_cons] at hhead
      rw [hdb, List.head?_cons]
      simpa using hhead
    have hnb : names a.reverse = names b.reverse ++ [y.reverse] := by
      rw [hab, List.reverse_append]
      refine names_append_name _ _ (.inr ?_) (by simpa using hy0) (by simpa using hys)
      rw [List.getLast?_reverse, hbh]
    have hnc : names b.reverse = names c.reverse := by
      rw [hbc, List.reverse_append]
      exact names_append_slashes _ fun d hd => mem_takeWhile_slash (List.mem_reverse.mp hd)
    rw [hdir, if_neg ha0, if_neg hb0, hnames, hnb, List.dropLast_concat, hnc]
    by_cases hc0 : c = []
    · rw [if_pos hc0, hc0]
      exact ⟨rfl, rfl, by simp⟩
    · rw [if_neg hc0]
      have hsc : s = c.reverse ++ (z.reverse ++ (y.reverse ++ x.reverse)) := by
        rw [hsplit, hab, hbc]
        simp
      refine ⟨rfl, ?_, fun d hd => .inl ?_⟩
      · rw [hsc, List.head?_append_of_ne_nil _ (by simpa using hc0)] at hs
        exact hs
      · rw [hsc]
        exact List.mem_append_left _ hd

/-- A line of a list whose parents `dirname` finds: from the root, without dots,
and without wildcards unless there are blanks in it. -/
def PlainLine (f : Str) : Prop :=
  f.head? = some '/' ∧ (∀ n ∈ names f, n ≠ dot ∧ n ≠ dotdot) ∧ (OneWord f ∨ 2 ≤ (words f).length)

instance (f : Str) : Decidable (PlainLine f) := inferInstanceAs (Decidable (_ ∧ _ ∧ _))

theorem globWord_ne_nil (t : Tree) (cwd : Loc) (w : Str) : globWord t cwd w ≠ [] := by
  rw [globWord]
  split
  · simp only
    split
    · simp
    · assumption
  · simp

theorem words_le_expand (t : Tree) (cwd : Loc) (s : Str) :
    (words s).length ≤ (expand t cwd s).length := by
  rw [expand]
  induction words s with
  | nil => simp
  | cons w ws ih =>
      have hw := List.length_pos_iff.mpr (globWord_ne_nil t cwd w)
      rw [List.flatMap_cons, List.length_append, List.length_cons]
      omega

theorem dirnameOf_words (t : Tree) (cwd : Loc) {f : Str} (h : 2 ≤ (words f).length) :
    dirnameOf t cwd f = [] := by
  have hlen := words_le_expand t cwd f
  rw [dirnameOf]
  split
  · rename_i w hw
    rw [hw, List.length_singleton] at hlen
    omega
  · rfl

theorem dirnameOf_plain (t : Tree) (cwd : Loc) {f : Str} (h : PlainLine f) :
    dirnameOf t cwd f = [] ∨ (PlainLine (dirnameOf t cwd f) ∧
      names (dirnameOf t cwd f) = (names f).dropLast) := by
  obtain ⟨habs, hproper, hword | hwords⟩ := h
  · obtain ⟨hn, hh, hc⟩ := dirname_spec f habs
    have heq : dirnameOf t cwd f = dirname f := by rw [dirnameOf, expand_oneWord t cwd hword]
    rw [heq]
    refine .inr ⟨⟨hh, fun n hm => hproper n ?_, .inl ⟨?_, fun d hd => ?_⟩⟩, hn⟩
    · rw [hn] at hm
      exact List.dropLast_subset _ hm
    · intro h0
      rw [h0] at hh
      cases hh
    · rcases hc d hd with hd' | rfl
      · exact hword.2 d hd'
      · decide
  · exact .inl (dirnameOf_words t cwd hwords)

theorem removepkg_rmdir_held {cf : List Str} {n : Nat} {t u : Tree} {f : Str}
    (hf : f = [] ∨ PlainLine f) (hheld : t.Held (names f))
    (h : removepkg_rmdir [] cf n t f = some u) : u = t := by
  induction n generalizing f with
  | zero => simp [removepkg_rmdir] at h
  | succ n ih =>
      rw [removepkg_rmdir] at h
      have hstay : t.rmdirParents [] (here f) = t := by
        rw [Tree.rmdirParents, start_nil, here, names_append_slash]
        exact hheld.rmdirUp
      split at h
      · exact (Option.some.inj h).symm
      · split at h
        · rw [hstay] at h
          simp only at h
          rcases hf with rfl | hf
          · exact ih (.inl rfl) hheld h
          · rcases dirnameOf_plain t [] hf with h0 | ⟨hp, hn⟩
            · rw [h0] at h
              exact ih (.inl rfl) (Tree.held_nil t) h
            · exact ih (.inr hp) (hn ▸ hheld.dropLast) h
        · exact (Option.some.inj h).symm

theorem removepkg_rmdir_parent {cf : List Str} {n : Nat} {t u : Tree} {f : Str} (hf : PlainLine f)
    (hheld : t.Held (names f)) (h : removepkg_rmdir [] cf n t (dirnameOf t [] f) = some u) :
    u = t := by
  rcases dirnameOf_plain t [] hf with h0 | ⟨hp, hn⟩
  · rw [h0] at h
    exact removepkg_rmdir_held (.inl rfl) (Tree.held_nil t) h
  · exact removepkg_rmdir_held (.inr hp) (hn ▸ hheld.dropLast) h

theorem climb_held {t u v : Tree} (hu : u.Within t)
    (hdirs : ∀ e, t.node e = some .dir → u.node e = some .dir) (hv : u.Trims v) {q : Loc}
    (hq : ∀ n ∈ q, n ≠ dot ∧ n ≠ dotdot) (hdir : t.node q = some .dir) :
    (v.climb q).Held q.reverse := by
  have hw := hv.trans (Tree.climb_trims v q)
  refine Tree.held_real (hw.within.trans hu) hq hdir fun e he hsuf hed => ?_
  by_cases heq : e = q
  · subst heq
    exact Tree.climb_top he hed
  · obtain ⟨n, hn⟩ := Tree.exists_cons_suffix hsuf heq
    exact hw.tended e he hed ⟨n, Tree.isSome_of_suffix hn (by rw [hdirs q hdir]; rfl)⟩

def Climber (t : Tree) (f : Str) : Prop :=
  occurrences t f = 1 ∧ PlainLine f ∧ t.dirAt (names f).reverse = true

instance (t : Tree) (f : Str) : Decidable (Climber t f) := inferInstanceAs (Decidable (_ ∧ _ ∧ _))

def Straight (t : Tree) (pkg : Str) : Prop :=
  ∀ f ∈ readContents t [] pkg, occurrences t f = 1 → t.isDir [] f = true →
    PlainLine f ∧ (t.node (names f).reverse = some .dir ∨
      ∃ p g, t.placeAt [] (names f) = some p ∧ t.node p = some (.link g))

def Climbed (t : Tree) (pkg : Str) (e : Loc) : Prop :=
  e ≠ [] ∧ ∃ f ∈ readContents t [] pkg, Climber t f ∧ e <:+ (names f).reverse

instance (t : Tree) (pkg : Str) (e : Loc) : Decidable (Climbed t pkg e) :=
  inferInstanceAs (Decidable (e ≠ [] ∧ ∃ f ∈ readContents t [] pkg, Climber t f ∧
    e <:+ (names f).reverse))

/-- A state of the loop over the directories, where the lines `fs` are done. -/
structure DirLoop (t u v : Tree) (fs : List Str) : Prop where
  trims : u.Trims v
  removed : ∀ e, u.node e = some .dir → v.node e ≠ some .dir →
    e ≠ [] ∧ ∃ f ∈ fs, Climber t f ∧ e <:+ (names f).reverse
  top : ∀ f ∈ fs, Climber t f → names f ≠ [] → v.node (names f).reverse = some .dir →
    ∃ n, (v.node (n :: (names f).reverse)).isSome

theorem isDir_here (t : Tree) (f : Str) (hf : f ≠ []) : t.isDir [] (here f) = t.isDir [] f := by
  rw [Tree.isDir, Tree.isDir, stat_here t hf]

theorem rmdirParents_here (t : Tree) (f : Str) :
    t.rmdirParents [] (here f) = t.rmdirUp [] ((names f).reverse ++ [dot]) := by
  rw [Tree.rmdirParents, start_nil, here, names_append_slash, show names dot = [dot] from rfl,
    List.singleton_append,
    List.reverse_cons]

section

variable {t u v w : Tree} {pkg : Str} (h : Removable t pkg) (hs : Straight t pkg) (hu : u.Within t)
  (hdirs : ∀ e, t.node e = some .dir → u.node e = some .dir)
  (hl : ∀ p ∈ lists t, u.node p = t.node p)

include h hs hu hdirs hl

theorem rmdirStep_eq (hv : u.Trims v) {f : Str} (hf : f ∈ readContents t [] pkg)
    (hw : rmdirStep [] (contentsFiles t []) v f = some w) :
    (Climber t f → w = v.climb (names f).reverse) ∧ (¬ Climber t f → w = v) := by
  have hvt : v.Within t := hv.within.trans hu
  have hcount : count v [] (contentsFiles t []) f = occurrences t f := by
    apply h.count_eq
    intro p hp
    obtain ⟨n, rfl, _, _, e, ls, hls⟩ := h.own p hp
    rw [hls]
    exact hv.file _ _ ((hl _ hp).trans hls) (by simp)
  have hreal {g : Str} (hg : Climber t g) : ∀ n ∈ (names g).reverse, n ≠ dot ∧ n ≠ dotdot :=
    fun n hn => hg.2.1.2.1 n (List.mem_reverse.mp hn)
  rw [rmdirStep] at hw
  by_cases hf0 : f = []
  · subst hf0
    have hno : ¬ Climber t [] := fun hc => by
      have := hc.2.1.1
      cases this
    refine ⟨fun hc => absurd hc hno, fun _ => ?_⟩
    split at hw
    · exact removepkg_rmdir_held (.inl rfl) (Tree.held_nil v) hw
    · exact (Option.some.inj hw).symm
  · rw [isDir_here v f hf0] at hw
    by_cases hd : v.isDir [] f = true
    · rw [if_pos hd] at hw
      by_cases hc : occurrences t f = 1
      · obtain ⟨hplain, hkind⟩ := hs f hf hc (Tree.isDir_mono hvt hd)
        by_cases hdir : t.node (names f).reverse = some .dir
        · have hcl : Climber t f := ⟨hc, hplain, (t.dirAt_iff _).mpr hdir⟩
          refine ⟨fun _ => ?_, fun hn => absurd hcl hn⟩
          rw [removepkg_rmdir] at hw
          by_cases hroot : f = ['/']
          · rw [if_pos hroot] at hw
            rw [hroot]
            exact (Option.some.inj hw).symm
          · rw [if_neg hroot, hcount, if_pos hc, rmdirParents_here,
              Tree.rmdirUp_real hvt (hreal hcl) hdir] at hw
            simp only at hw
            have hheld := climb_held hu hdirs hv (hreal hcl) hdir
            rw [List.reverse_reverse] at hheld
            exact removepkg_rmdir_parent hplain hheld hw
        · have hncl : ¬ Climber t f := fun hcl => hdir ((t.dirAt_iff _).mp hcl.2.2)
          refine ⟨fun hcl => absurd hcl hncl, fun _ => ?_⟩
          obtain ⟨p, g, hp, hg⟩ := hkind.resolve_left hdir
          have hne : names f ≠ [] := by
            intro h0
            rw [h0] at hdir
            exact hdir t.root
          obtain ⟨q, hq, hqs⟩ := Tree.placeAt_of_isDir hne hplain.2.1 hd
          obtain rfl : q = p := Option.some.inj ((Tree.placeAt_mono hvt hq).symm.trans hp)
          have hup : dotdot ∉ names f := fun hm => (hplain.2.1 _ hm).2 rfl
          refine removepkg_rmdir_held (.inr hplain) (Tree.held_of_place hup hq hqs fun hqd => ?_) hw
          rw [hvt _ _ hqd] at hg
          cases hg
      · have hncl : ¬ Climber t f := fun hcl => hc hcl.1
        refine ⟨fun hcl => absurd hcl hncl, fun _ => ?_⟩
        rw [removepkg_rmdir, hcount, if_neg hc, ite_self] at hw
        exact (Option.some.inj hw).symm
    · rw [if_neg hd] at hw
      obtain rfl := Option.some.inj hw
      refine ⟨fun hcl => ?_, fun _ => rfl⟩
      rw [Tree.climb_of_gone fun hn => hd (Tree.isDir_real hf0 hcl.2.1.2.1 hn)]

theorem DirLoop.step {fs : List Str} (hv : DirLoop t u v fs) {f : Str}
    (hf : f ∈ readContents t [] pkg) (hw : rmdirStep [] (contentsFiles t []) v f = some w) :
    DirLoop t u w (fs ++ [f]) := by
  obtain ⟨hclimb, hstay⟩ := rmdirStep_eq h hs hu hdirs hl hv.trims hf hw
  by_cases hc : Climber t f
  · rw [hclimb hc]
    have htrims := Tree.climb_trims v (names f).reverse
    refine ⟨hv.trims.trans htrims, fun e he hg => ?_, fun g hg hgc hne hd => ?_⟩
    · by_cases hve : v.node e = some .dir
      · obtain ⟨_, he0, hsuf⟩ := Tree.climb_removed hve hg
        exact ⟨he0, f, by simp, hc, hsuf⟩
      · obtain ⟨he0, g, hgm, hgc, hsuf⟩ := hv.removed e he hve
        exact ⟨he0, g, List.mem_append_left _ hgm, hgc, hsuf⟩
    · rcases List.mem_append.mp hg with hg | hg
      · exact htrims.tended _ (by simpa using hne) hd (hv.top g hg hgc hne (htrims.within _ _ hd))
      · rw [List.mem_singleton] at hg
        subst hg
        exact Tree.climb_top (by simpa using hne) hd
  · rw [hstay hc]
    refine ⟨hv.trims, fun e he hg => ?_, fun g hg hgc hne hd => ?_⟩
    · obtain ⟨he0, g, hgm, hgc, hsuf⟩ := hv.removed e he hg
      exact ⟨he0, g, List.mem_append_left _ hgm, hgc, hsuf⟩
    · rcases List.mem_append.mp hg with hg | hg
      · exact hv.top g hg hgc hne hd
      · rw [List.mem_singleton] at hg
        exact absurd (hg ▸ hgc) hc

theorem uninstallDirs_loop {done fs : List Str} (hv : DirLoop t u v done)
    (hfs : ∀ f ∈ fs, f ∈ readContents t [] pkg)
    (hw : uninstallDirs [] (contentsFiles t []) v fs = some w) : DirLoop t u w (done ++ fs) := by
  induction fs generalizing v done with
  | nil =>
      rw [← Option.some.inj hw, List.append_nil]
      exact hv
  | cons f fs ih =>
      rw [uninstallDirs, Option.bind_eq_some_iff] at hw
      obtain ⟨v', hv', hw⟩ := hw
      have hstep := hv.step h hs hu hdirs hl (hfs f (by simp)) hv'
      have hrest := ih hstep (fun g hg => hfs g (List.mem_cons_of_mem _ hg)) hw
      rwa [List.append_assoc, List.singleton_append] at hrest

end

/-- What is left after a removal: what is outside the entry, and at or above
something that no line of the package takes away. -/
def Stays (t : Tree) (pkg : Str) (q : Loc) : Prop :=
  ¬ entryLoc [] pkg <:+ q ∧ ∃ r ∈ t.below q, ¬ Cleared t (readContents t [] pkg) r ∧
    ¬ Climbed t pkg r

instance (t : Tree) (pkg : Str) (q : Loc) : Decidable (Stays t pkg q) :=
  inferInstanceAs (Decidable (¬ entryLoc [] pkg <:+ q ∧
    ∃ r ∈ t.below q, ¬ Cleared t (readContents t [] pkg) r ∧ ¬ Climbed t pkg r))

theorem Climbed.dir {t : Tree} {pkg : Str} {e : Loc} (h : Climbed t pkg e) :
    t.node e = some .dir := by
  obtain ⟨_, f, _, hc, hsuf⟩ := h
  have hd := (t.dirAt_iff _).mp hc.2.2
  by_cases he : e = (names f).reverse
  · rwa [he]
  · exact t.dir_of_suffix hsuf he (by rw [hd]; rfl)

theorem Removable.list_anchors {t : Tree} {pkg : Str} (h : Removable t pkg) {p : Loc}
    (hl : p ∈ lists t) :
    ¬ Cleared t (readContents t [] pkg) p ∧ ¬ Climbed t pkg p := by
  constructor
  · rintro ⟨_, f, hf, hp, _⟩
    exact h.steady f hf p hl hp
  · intro hc
    obtain ⟨n, rfl, _, _, e, ls, hls⟩ := h.own p hl
    rw [hc.dir] at hls
    cases hls

theorem Climbed.nonempty {t u v : Tree} {pkg : Str} {e : Loc} (h : Climbed t pkg e)
    (hdirs : ∀ e, t.node e = some .dir → u.node e = some .dir)
    (hv : DirLoop t u v (readContents t [] pkg)) (he : v.node e = some .dir) :
    ∃ n, (v.node (n :: e)).isSome := by
  obtain ⟨he0, f, hf, hc, hsuf⟩ := h
  by_cases heq : e = (names f).reverse
  · subst heq
    exact hv.top f hf hc (by simpa using he0) he
  · obtain ⟨n, hn⟩ := Tree.exists_cons_suffix hsuf heq
    have hd := hdirs _ ((t.dirAt_iff _).mp hc.2.2)
    exact hv.trims.tended e he0 he ⟨n, Tree.isSome_of_suffix hn (by rw [hd]; rfl)⟩

theorem DirLoop.anchored {t u v : Tree} {pkg : Str} (hv : DirLoop t u v (readContents t [] pkg))
    (hu : u.Within t) (hdirs : ∀ e, t.node e = some .dir → u.node e = some .dir)
    (hclear : ∀ p, Cleared t (readContents t [] pkg) p → u.node p = none) {q : Loc}
    (hq : (v.node q).isSome) :
    ∃ r ∈ t.below q, ¬ Cleared t (readContents t [] pkg) r ∧ ¬ Climbed t pkg r := by
  obtain ⟨r, hqr, hr, hnone⟩ := Tree.exists_deepest hq
  obtain ⟨x, hx⟩ := Option.isSome_iff_exists.mp hr
  have htx := hu _ _ (hv.trims.within _ _ hx)
  refine ⟨r, (Tree.mem_below _ _ _).mpr ⟨hqr, by rw [htx]; rfl⟩, fun hc => ?_, fun hc => ?_⟩
  · have hgone := hv.trims.within _ _ hx
    rw [hclear r hc] at hgone
    cases hgone
  · have hd : v.node r = some .dir := by rw [hx, ← htx, hc.dir]
    obtain ⟨n, hn⟩ := hc.nonempty hdirs hv hd
    rw [hnone n] at hn
    cases hn

theorem uninstall_node {t t' : Tree} {pkg : Str} (h : Removable t pkg) (hs : Straight t pkg)
    (hun : uninstall [] (contentsFiles t []) pkg t = some t') (q : Loc) :
    t'.node q = if Stays t pkg q then t.node q else none := by
  obtain ⟨v, hv, rfl⟩ := Option.map_eq_some_iff.mp hun
  obtain ⟨hfl, hnode⟩ := h.uninstallFiles_node fun f hf => hf
  generalize uninstallFiles [] (contentsFiles t []) t (readContents t [] pkg) = u at hv hfl hnode
  have hl : ∀ p ∈ lists t, u.node p = t.node p :=
    fun p hp => hfl.unnamed p fun f hf => h.steady f hf p hp
  rw [h.readContents_congr (hl _ h.own_list)] at hv
  have hdirs := hfl.keeps.dir
  have hstart : DirLoop t u u [] := ⟨.refl u, fun e he hg => absurd he hg, fun f hf => by cases hf⟩
  have hloop := uninstallDirs_loop h hs hfl.within hdirs hl hstart (fun f hf => hf) hv
  rw [List.nil_append] at hloop
  have hvt := hloop.trims.within.trans hfl.within
  rw [rmTree_entry h.name h.dir hvt]
  by_cases hE : entryLoc [] pkg <:+ q
  · rw [if_pos hE, if_neg fun hst => hst.1 hE]
  · rw [if_neg hE]
    by_cases hst : Stays t pkg q
    · rw [if_pos hst]
      obtain ⟨_, r, hr, hcl, hcb⟩ := hst
      obtain ⟨hsuf, hrs⟩ := (Tree.mem_below _ _ _).mp hr
      obtain ⟨x, hx⟩ := Option.isSome_iff_exists.mp hrs
      have hux : u.node r = some x := ((hnode r).2 hcl).trans hx
      have hvx : v.node r = some x := by
        by_cases hd : x = .dir
        · subst hd
          by_contra hg
          exact hcb (hloop.removed r hux hg)
        · exact hloop.trims.file r x hux hd
      obtain ⟨y, hy⟩ := Option.isSome_iff_exists.mp (Tree.isSome_of_suffix hsuf (by rw [hvx]; rfl))
      rw [hy, hvt _ _ hy]
    · rw [if_neg hst]
      by_contra hsome
      exact hst ⟨hE, hloop.anchored hfl.within hdirs (fun p hc => (hnode p).1 hc)
        (Option.isSome_iff_ne_none.mpr hsome)⟩

end Fidelix.Pkgtools
