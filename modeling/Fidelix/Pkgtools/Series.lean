import Fidelix.Pkgtools.Commuting
import Fidelix.Pkgtools.Commands

namespace Fidelix.Pkgtools

open Text Files

/-- `removepkg` for one package after the other. -/
def removals (root_dir : Str) (rs : List (Env × Str)) : List (Env × Command) :=
  rs.map fun r => (r.1, .removepkg root_dir r.2)

def ListedBy (t : Tree) (pkgs : List Str) (r : Loc) : Prop :=
  ∃ n ∈ pkgs, ∃ f ∈ linesOf t n, (names f).reverse = r ∧
    (t.node r = some .dir ∨ t.place [] f = some r)

def Unlisted (t : Tree) (pkgs : List Str) (q : Loc) : Prop :=
  ∀ n, n ∉ pkgs → ∀ f ∈ linesOf t n, (names f).reverse ≠ q

/-- What the removals of packages leave. Only for a directory in the list of another package
does it depend on the order. -/
structure Cleaned (t u : Tree) (pkgs : List Str) : Prop where
  canonical : Canonical u
  within : u.Within t
  installed : ∀ n, Installed u n ↔ Installed t n ∧ n ∉ pkgs
  lines : ∀ n, n ∉ pkgs → linesOf u n = linesOf t n
  top : ∀ q, q <:+ pkgdbLoc [] → u.node q = t.node q
  own : ∀ q, ¬ q <:+ pkgdbLoc [] → Unlisted t pkgs q →
    ((u.node q).isSome ↔ (∀ pkg ∈ pkgs, ¬ entryLoc [] pkg <:+ q) ∧
      ∃ r ∈ t.below q, ¬ ListedBy t pkgs r)
  shared : ∀ q x, t.node q = some x → x ≠ .dir → ¬ Unlisted t pkgs q →
    (u.node q = some x ↔ ∀ pkg ∈ pkgs, ¬ entryLoc [] pkg <:+ q)

theorem Left.outside {t : Tree} {pkgs : List Str} {q : Loc} (h : Left t pkgs q) :
    ∀ pkg ∈ pkgs, ¬ entryLoc [] pkg <:+ q := by
  induction pkgs with
  | nil => simp
  | cons pkg pkgs ih =>
      intro n hn
      rcases List.mem_cons.mp hn with rfl | hn
      · exact h.1
      · exact ih h.before n hn

section

variable {t : Tree} (h : Canonical t) {pkgs : List Str} {q : Loc}
include h

theorem Canonical.unlisted_below (hq : q ≠ []) (hu : Unlisted t pkgs q) {r : Loc} (hr : q <:+ r) :
    Unlisted t pkgs r := by
  intro n hn f hf he
  obtain ⟨g, hg, hgq⟩ := h.closed n f hf q hq (he ▸ hr)
  exact hu n hn g hg hgq

theorem Canonical.left_unlisted (hd : ¬ q <:+ pkgdbLoc []) (hs : (t.node q).isSome)
    (hE : ∀ pkg ∈ pkgs, ¬ entryLoc [] pkg <:+ q) (hno : ¬ ListedBy t pkgs q) : Left t pkgs q := by
  have hq : q ≠ [] := by
    rintro rfl
    exact hd List.nil_suffix
  induction pkgs with
  | nil => exact hs
  | cons pkg pkgs ih =>
      have hrest := ih (fun n hn => hE n (List.mem_cons_of_mem _ hn)) fun ⟨n, hn, hf⟩ =>
        hno ⟨n, List.mem_cons_of_mem _ hn, hf⟩
      refine ⟨hE pkg (by simp), q, (Tree.mem_below _ _ _).mpr ⟨List.suffix_refl q, hs⟩, hrest,
        fun f hf _ hpl => ?_,
        fun _ f hf _ _ hdir hsuf => ?_⟩
      · exact (hno ⟨pkg, by simp, f, hf, (h.real pkg f hf q hpl).symm, .inr hpl⟩).elim
      · obtain ⟨g, hg, hgq⟩ := h.closed pkg f hf q hq hsuf
        exact hno ⟨pkg, by simp, g, hg, hgq, .inl (dir_below hsuf ((t.dirAt_iff _).mp hdir))⟩

omit h in
theorem below_length {p q : Loc} (h : p <:+ q) (hne : p ≠ q) (hs : (t.node p).isSome) :
    (t.below q).length < (t.below p).length := by
  have hsub : t.below q ⊆ (t.below p).erase p := by
    intro r hr
    obtain ⟨hqr, hrs⟩ := (Tree.mem_below _ _ _).mp hr
    rw [(t.below_nodup p).mem_erase_iff, Tree.mem_below]
    refine ⟨?_, h.trans hqr, hrs⟩
    rintro rfl
    exact hne (h.eq_of_length_le hqr.length_le)
  have hmem : p ∈ t.below p := (Tree.mem_below _ _ _).mpr ⟨List.suffix_refl p, hs⟩
  have hle := ((t.below_nodup q).subperm hsub).length_le
  rw [List.length_erase_of_mem hmem] at hle
  have hpos := List.length_pos_of_mem hmem
  omega

theorem Canonical.left_listed (hd : ¬ q <:+ pkgdbLoc []) (hu : Unlisted t pkgs q)
    (hall : ∀ r ∈ t.below q, ListedBy t pkgs r) : ¬ Left t pkgs q := by
  induction hlen : (t.below q).length using Nat.strong_induction_on generalizing q pkgs with
  | _ k ih =>
      intro hl
      have hq : q ≠ [] := by
        rintro rfl
        exact hd List.nil_suffix
      obtain ⟨n, hn, f, hf, rfl, hfq⟩ :=
        hall q ((Tree.mem_below _ _ _).mpr ⟨List.suffix_refl q, hl.isSome⟩)
      induction pkgs with
      | nil => simp at hn
      | cons pkg pkgs ihp =>
          by_cases hpf : ∃ g ∈ linesOf t pkg, (names g).reverse = (names f).reverse
          · obtain ⟨g, hg, hgf⟩ := hpf
            obtain rfl : g = f := h.spelled pkg n g hg f hf (List.reverse_injective hgf)
            have honly : OnlyIn t (pkg :: pkgs) g := fun m _ hm hgm => hu m hm g hgm rfl
            obtain ⟨hE, r, hr, hlr, hcl, hcb⟩ := hl
            obtain ⟨hqr, hrs⟩ := (Tree.mem_below _ _ _).mp hr
            by_cases hrq : (names g).reverse = r
            · subst hrq
              by_cases hdir : t.node (names g).reverse = some .dir
              · exact hcb hq g hg honly hlr ((t.dirAt_iff _).mpr hdir) (List.suffix_refl _)
              · exact hdir ((t.dirAt_iff _).mp (hcl g hg honly (hfq.resolve_left hdir)))
            · refine ih _ (hlen ▸ below_length hqr hrq (hlr.up hqr).isSome)
                (fun hs => hd (hqr.trans hs))
                (h.unlisted_below hq hu hqr) (fun x hx => ?_) rfl ?_
              · obtain ⟨hrx, hxs⟩ := (Tree.mem_below _ _ _).mp hx
                exact hall x ((Tree.mem_below _ _ _).mpr ⟨hqr.trans hrx, hxs⟩)
              · refine ⟨fun hs => ?_, r, (Tree.mem_below _ _ _).mpr ⟨List.suffix_refl r, hrs⟩,
                  hlr, hcl, hcb⟩
                rcases List.suffix_or_suffix_of_suffix hs hqr with h1 | h1
                · exact hE h1
                · rcases List.suffix_cons_iff.mp h1 with h1 | h1
                  · exact hE (h1 ▸ List.suffix_refl _)
                  · exact hd h1
          · have hno {g : Str} (hsuf : (names f).reverse <:+ (names g).reverse) :
              g ∉ linesOf t pkg := by
              intro hg
              obtain ⟨e, he, heq⟩ := h.closed pkg g hg _ hq hsuf
              exact hpf ⟨e, he, heq⟩
            have hnp : n ∈ pkgs := by
              rcases List.mem_cons.mp hn with rfl | hn
              · exact (hno (List.suffix_refl _) hf).elim
              · exact hn
            refine ihp hnp (fun m hm g hg he => ?_) (fun r hr => ?_) hl.before
            · by_cases hmp : m = pkg
              · exact hpf ⟨g, hmp ▸ hg, he⟩
              · exact hu m (by simpa using ⟨hmp, hm⟩) g hg he
            · obtain ⟨m, hm, g, hg, hgr, hx⟩ := hall r hr
              obtain ⟨hqr, _⟩ := (Tree.mem_below _ _ _).mp hr
              rcases List.mem_cons.mp hm with rfl | hm
              · exact (hno (hgr ▸ hqr) hg).elim
              · exact ⟨m, hm, g, hg, hgr, hx⟩

theorem Canonical.left_iff (hd : ¬ q <:+ pkgdbLoc []) (hu : Unlisted t pkgs q) :
    Left t pkgs q ↔ (∀ pkg ∈ pkgs, ¬ entryLoc [] pkg <:+ q) ∧
    ∃ r ∈ t.below q, ¬ ListedBy t pkgs r := by
  constructor
  · intro hl
    refine ⟨hl.outside, ?_⟩
    by_contra hall
    exact h.left_listed hd hu (fun r hr => by_contra fun hno => hall ⟨r, hr, hno⟩) hl
  · rintro ⟨hE, r, hr, hno⟩
    obtain ⟨hqr, hrs⟩ := (Tree.mem_below _ _ _).mp hr
    refine (h.left_unlisted (fun hs => hd (hqr.trans hs)) hrs (fun pkg hp hs => ?_) hno).up hqr
    rcases List.suffix_or_suffix_of_suffix hs hqr with h1 | h1
    · exact hE pkg hp h1
    · rcases List.suffix_cons_iff.mp h1 with h1 | h1
      · exact hE pkg hp (h1 ▸ List.suffix_refl _)
      · exact hd h1

end

theorem Removed.removals {t : Tree} {s : Sys} {pkgs : List Str} (h : Removed t s.tree pkgs)
    (ht : Canonical t) (hs : SlashFree t) (copy : Copy) (hook : Hook) {root_dir : Str}
    (hroot : rootOr root_dir = ['/']) {rs : List (Env × Str)} (hi : ∀ r ∈ rs, Installed t r.2)
    (hd : (rs.map Prod.snd).Nodup) (hno : ∀ r ∈ rs, r.2 ∉ pkgs)
    (hhook : ∀ r ∈ rs, t.isExec [] (path (path pkgdb r.2) douninstName) = false) :
    ∃ u, runAll copy hook (Pkgtools.removals root_dir rs) s = some (u, rs.map fun _ => 0) ∧
      Removed t u.tree ((rs.map Prod.snd).reverse ++ pkgs) := by
  induction rs generalizing s pkgs with
  | nil => exact ⟨s, rfl, h⟩
  | cons r rs ih =>
      rw [List.map_cons, List.nodup_cons] at hd
      obtain ⟨u, hu, hr⟩ :=
        h.removepkg ht hs (hi r (by simp)) (hno r (by simp)) hook r.1 hroot (hhook r (by simp))
      have hrest : ∀ r' ∈ rs, r'.2 ∉ r.2 :: pkgs := by
        intro r' hr'
        rw [List.mem_cons, not_or]
        refine ⟨fun he => hd.1 (he ▸ List.mem_map_of_mem hr'), hno r' (by simp [hr'])⟩
      obtain ⟨v, hv, hr'⟩ := ih hr (fun r' hr' => hi r' (by simp [hr'])) hd.2 hrest fun r' hr' =>
        hhook r' (by simp [hr'])
      refine ⟨v, ?_, ?_⟩
      · rw [Pkgtools.removals, List.map_cons, runAll, Command.run, hu, Option.bind_some]
        rw [Pkgtools.removals] at hv
        rw [hv]
        rfl
      · simpa using hr'

theorem Removed.cleaned {t u : Tree} {pkgs : List Str} (h : Removed t u pkgs) (ht : Canonical t)
    (hi : ∀ n ∈ pkgs, Installed t n) (hd : pkgs.Nodup) : Cleaned t u pkgs where
  canonical := h.canonical
  within := h.within
  installed := h.installed
  lines n hn := by
    by_cases hin : Installed t n
    · apply linesOf_congr
      rw [h.node, if_pos (ht.left_list hi hin hn)]
    · have hnone {v : Tree} (hv : ¬ Installed v n) : linesOf v n = [] :=
        List.eq_nil_iff_forall_not_mem.mpr fun f hf => hv (installed_of_mem hf)
      rw [hnone hin, hnone fun hu => hin ((h.installed n).mp hu).1]
  top q hq := by rw [h.node, if_pos (ht.left_top hi hd hq)]
  own q hq hu := by rw [h.isSome_iff, ht.left_iff hq hu]
  shared q x hx hdir hu := by
    have hlisted : ∃ n, n ∉ pkgs ∧ ∃ f ∈ linesOf t n, (names f).reverse = q := by
      by_contra hno
      exact hu fun n hn f hf he => hno ⟨n, hn, f, hf, he⟩
    obtain ⟨n, hn, f, hf, hfq⟩ := hlisted
    rw [← ht.left_file (by rw [hx]; rfl) (fun he =>
      hdir (Option.some.inj (hx.symm.trans he))) hn hf hfq, h.node]
    by_cases hl : Left t pkgs q
    · simp [hl, hx]
    · simp [hl]

/-- Any removals go through, and leave the same in any order but for the directories that other
packages list. -/
theorem removals_clean (copy : Copy) (hook : Hook) (root_dir : Str) (rs : List (Env × Str))
    (s : Sys) (hroot : rootOr root_dir = ['/']) (h : Canonical s.tree) (hs : SlashFree s.tree)
    (hi : ∀ r ∈ rs, Installed s.tree r.2) (hd : (rs.map Prod.snd).Nodup)
    (hhook : ∀ r ∈ rs, s.tree.isExec [] (path (path pkgdb r.2) douninstName) = false) :
    ∃ u, runAll copy hook (removals root_dir rs) s = some (u, rs.map fun _ => 0) ∧
      Cleaned s.tree u.tree (rs.map Prod.snd) := by
  obtain ⟨u, hu, hr⟩ := (Removed.refl h).removals h hs copy hook hroot hi hd (by simp) hhook
  rw [List.append_nil] at hr
  have hin : ∀ n ∈ (rs.map Prod.snd).reverse, Installed s.tree n := by
    intro n hn
    obtain ⟨r, hr, rfl⟩ := List.mem_map.mp (List.mem_reverse.mp hn)
    exact hi r hr
  have hc := hr.cleaned h hin (List.nodup_reverse.mpr hd)
  refine ⟨u, hu, hc.canonical, hc.within, ?_, ?_, hc.top, ?_, ?_⟩
  · simpa using hc.installed
  · simpa using hc.lines
  · simpa [Unlisted, ListedBy] using hc.own
  · simpa [Unlisted] using hc.shared

theorem removals_clean_three : ∃ u,
    runAll .base noHook (removals [] [(⟨[], false, []⟩, thirdPkg), (⟨[], false, []⟩, firstPkg)])
      ⟨threePackages, []⟩ =
      some (u, [0, 0]) ∧ Cleaned threePackages u.tree [thirdPkg, firstPkg] :=
  removals_clean .base noHook [] [(⟨[], false, []⟩, thirdPkg),
    (⟨[], false, []⟩, firstPkg)] ⟨threePackages, []⟩ rfl
    threePackages_canonical threePackages_slashFree (by decide +kernel) (by decide)
      (by decide +kernel)

end Fidelix.Pkgtools
