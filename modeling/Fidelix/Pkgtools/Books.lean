import Fidelix.Pkgtools.Stocked
import Fidelix.Store.Stock

namespace Fidelix.Pkgtools

open Text Files Store

abbrev Books := Stock Str Str Loc Node

def placeOf (f : Str) : Loc := (names f).reverse

def noDir (x : Option Node) : Option Node := x.filter fun y => !y.isDir

@[simp] theorem noDir_none : noDir none = none := rfl

@[simp] theorem noDir_dir : noDir (some .dir) = none := rfl

theorem noDir_some {x : Node} (hx : x ≠ .dir) : noDir (some x) = some x := by
  have hno : x.isDir = false := by
    rw [← Bool.not_eq_true, Tree.isDir_iff_eq]
    exact hx
  rw [noDir, Option.filter_some, hno]
  rfl

theorem noDir_eq_none {x : Option Node} : noDir x = none ↔ ∀ y, x = some y → y = .dir := by
  cases x with
  | none => simp
  | some y =>
      by_cases hy : y = .dir
      · subst hy
        simp
      · rw [noDir_some hy]
        simp [hy]

theorem noDir_eq_some {x : Option Node} {y : Node} (hy : y ≠ .dir) :
    noDir x = some y ↔ x = some y := by
  cases x with
  | none => simp
  | some z =>
      by_cases hz : z = .dir
      · subst hz
        simpa using Ne.symm hy
      · rw [noDir_some hz]

def booksOf (t : Tree) : Books where
  lists n := if Installed t n then some (linesOf t n) else none
  items q := if pkgdbLoc [] <:+ q then none else noDir (t.node q)

def filesOf (ms : List (Str × Node)) (q : Loc) : Option Node :=
  if pkgdbLoc [] <:+ q then none else noDir (carried ms q)

theorem lists_installed {t : Tree} {n : Str} (h : Installed t n) :
    (booksOf t).lists n = some (linesOf t n) := if_pos h

theorem lists_eq_none {t : Tree} {n : Str} : (booksOf t).lists n = none ↔ ¬ Installed t n := by
  constructor
  · intro hn hi
    rw [lists_installed hi] at hn
    cases hn
  · exact fun hn => if_neg hn

theorem items_database {t : Tree} {q : Loc} (h : pkgdbLoc [] <:+ q) : (booksOf t).items q = none :=
  if_pos h

theorem items_outside {t : Tree} {q : Loc} (h : ¬ pkgdbLoc [] <:+ q) :
    (booksOf t).items q = noDir (t.node q) := if_neg h

theorem filesOf_database {ms : List (Str × Node)} {q : Loc} (h : pkgdbLoc [] <:+ q) :
    filesOf ms q = none := if_pos h

theorem filesOf_outside {ms : List (Str × Node)} {q : Loc} (h : ¬ pkgdbLoc [] <:+ q) :
    filesOf ms q = noDir (carried ms q) := if_neg h

theorem has_iff {t : Tree} {n : Str} {q : Loc} :
    (booksOf t).Has placeOf n q ↔ ∃ f ∈ linesOf t n, placeOf f = q := by
  constructor
  · rintro ⟨l, hl, hk⟩
    by_cases hn : Installed t n
    · rw [lists_installed hn] at hl
      rwa [Option.some.inj hl]
    · rw [lists_eq_none.mpr hn] at hl
      cases hl
  · rintro ⟨f, hf, hq⟩
    exact ⟨linesOf t n, lists_installed (installed_of_mem hf), f, hf, hq⟩

theorem Stocked.left_theirs {t : Tree} {pkgs : List Str} (h : Stocked t) {q : Loc}
    (hdb : ¬ pkgdbLoc [] <:+ q) {x : Node} (hx : t.node q = some x) (hd : x ≠ .dir) :
    Left t pkgs q ↔ ¬ (booksOf t).Theirs placeOf {n | n ∈ pkgs} q := by
  have houtside : ∀ pkg ∈ pkgs, ¬ entryLoc [] pkg <:+ q :=
    fun pkg _ hs => hdb ((List.suffix_cons _ _).trans hs)
  have htop : ¬ q <:+ pkgdbLoc [] := by
    intro hs
    have hdir := dir_below hs h.dir
    rw [hx] at hdir
    exact hd (Option.some.inj hdir)
  by_cases hu : Unlisted t pkgs q
  · rw [h.left_iff htop hu, and_iff_right houtside, Stock.Theirs, not_and]
    constructor
    · rintro ⟨r, hr, hno⟩ ⟨n, hn, hhas⟩ _
      obtain ⟨hqr, hrs⟩ := (Tree.mem_below _ _ _).mp hr
      obtain rfl : q = r := by
        by_contra hne
        have hdir := t.dir_of_suffix hqr hne hrs
        rw [hx] at hdir
        exact hd (Option.some.inj hdir)
      obtain ⟨f, hf, rfl⟩ := has_iff.mp hhas
      exact hno ⟨n, hn, f, hf, rfl, .inr (h.place_eq hf hx hd)⟩
    · intro hno
      refine ⟨q, (Tree.mem_below _ _ _).mpr ⟨List.suffix_refl q, by rw [hx]; rfl⟩, ?_⟩
      rintro ⟨n, hn, f, hf, hfq, _⟩
      refine hno ⟨n, hn, has_iff.mpr ⟨f, hf, hfq⟩⟩ fun m hm hhas => ?_
      obtain ⟨g, hg, hgq⟩ := has_iff.mp hhas
      exact hu m hm g hg hgq
  · have hother : ∃ n, n ∉ pkgs ∧ ∃ f ∈ linesOf t n, (names f).reverse = q := by
      by_contra hno
      exact hu fun n hn f hf he => hno ⟨n, hn, f, hf, he⟩
    obtain ⟨n, hn, f, hf, hfq⟩ := hother
    rw [h.left_file (by rw [hx]; rfl) (fun he => hd (Option.some.inj (hx.symm.trans he))) hn hf hfq]
    exact iff_of_true houtside fun ht => ht.2 n hn (has_iff.mpr ⟨f, hf, hfq⟩)

theorem Stocked.books_removed {t u : Tree} {pkgs : List Str} (h : Stocked t)
    (hr : Removed t u pkgs) :
    booksOf u = (booksOf t).retire placeOf {n | n ∈ pkgs} := by
  apply Stock.ext
  · funext n
    by_cases hn : n ∈ pkgs
    · rw [Stock.lists_retired (P := {n | n ∈ pkgs}) hn, lists_eq_none, hr.installed]
      exact fun hi => hi.2 hn
    · rw [Stock.lists_kept (P := {n | n ∈ pkgs}) hn]
      have hiff : Installed u n ↔ Installed t n := (hr.installed n).trans (and_iff_left hn)
      by_cases hi : Installed t n
      · have hnode : u.node (contentsLoc [] n) = t.node (contentsLoc [] n) := by
          obtain ⟨x, hx⟩ := Option.isSome_iff_exists.mp (mem_lists.mp (hiff.mpr hi)).2.1
          rw [hx, hr.within _ _ hx]
        rw [lists_installed hi, lists_installed (hiff.mpr hi), linesOf_congr hnode]
      · rw [lists_eq_none.mpr hi, lists_eq_none.mpr fun hu => hi (hiff.mp hu)]
  · funext q
    have hkept (hnone : (booksOf t).items q = none) :
      ((booksOf t).retire placeOf {n | n ∈ pkgs}).items q = none := by
      by_cases ht : (booksOf t).Theirs placeOf {n | n ∈ pkgs} q
      · rw [Stock.items_retired ht]
      · rw [Stock.items_kept ht, hnone]
    by_cases hdb : pkgdbLoc [] <:+ q
    · rw [items_database hdb, hkept (items_database hdb)]
    · rw [items_outside hdb]
      by_cases hfile : ∃ x, t.node q = some x ∧ x ≠ .dir
      · obtain ⟨x, hx, hd⟩ := hfile
        have hleft : Left t pkgs q ↔ _ := h.left_theirs hdb hx hd
        rw [hr.node]
        by_cases hl : Left t pkgs q
        · rw [if_pos hl, Stock.items_kept (hleft.mp hl), items_outside hdb]
        · rw [if_neg hl,
            Stock.items_retired (by by_contra hno; exact hl (hleft.mpr hno)), noDir_none]
      · have hdirs : ∀ z, t.node q = some z → z = .dir := by
          intro z hz
          by_contra hd
          exact hfile ⟨z, hz, hd⟩
        rw [hkept (by rw [items_outside hdb, noDir_eq_none]; exact hdirs), noDir_eq_none]
        exact fun z hz => hdirs z (hr.within _ _ hz)

section

variable {t : Tree} {pkg : Str} {ms : List (Str × Node)} (h : Parcel pkg ms) (hw : Welcome t pkg ms)
include h hw

theorem books_unpacked :
    booksOf (unpacked t pkg ms) = (booksOf t).add pkg (ms.map lineOf) (filesOf ms) := by
  obtain ⟨_, _, _, hnode⟩ := unpacked_node h hw.accepts hw.fresh
  apply Stock.ext
  · funext n
    by_cases hn : n = pkg
    · rw [hn, Stock.lists_add, lists_installed ((installed_unpacked h hw pkg).mpr (.inl rfl)),
        linesOf_unpacked h hw, if_pos rfl]
    · rw [Stock.lists_add_of_ne hn]
      have hiff : Installed (unpacked t pkg ms) n ↔ Installed t n :=
        (installed_unpacked h hw n).trans (or_iff_right hn)
      by_cases hi : Installed t n
      · rw [lists_installed hi, lists_installed (hiff.mpr hi), linesOf_unpacked h hw, if_neg hn]
      · rw [lists_eq_none.mpr hi, lists_eq_none.mpr fun hu => hi (hiff.mp hu)]
  · funext q
    rw [Stock.items_add]
    by_cases hdb : pkgdbLoc [] <:+ q
    · rw [items_database hdb, items_database hdb, filesOf_database hdb]
      rfl
    · have hne : q ≠ contentsLoc [] pkg := by
        rintro rfl
        exact hdb ⟨[contentsName, pkg], rfl⟩
      rw [items_outside hdb, items_outside hdb, filesOf_outside hdb, hnode, if_neg hne]
      cases hc : carried ms q with
      | none => rw [noDir_none, Option.none_or, Option.none_or]
      | some x =>
          rw [Option.some_or]
          by_cases hx : x = .dir
          · obtain ⟨m, hm, rfl, hdir⟩ := Tree.mem_of_carried hc
            have ha := hw.accepts m hm
            rw [Tree.Accepts, if_pos (Tree.isDir_iff_eq.mpr (hdir.trans hx))] at ha
            rcases ha with ha | ha
            · rw [hx, ha]
              rfl
            · rw [hx, ha]
              rfl
          · rw [noDir_some hx]
            rfl

theorem fits_unpacked : (booksOf t).Fits placeOf (ms.map lineOf) (filesOf ms) where
  listed q hq := by
    by_cases hdb : pkgdbLoc [] <:+ q
    · rw [filesOf_database hdb] at hq
      cases hq
    · rw [filesOf_outside hdb] at hq
      cases hc : carried ms q with
      | none => simp [hc] at hq
      | some x =>
          obtain ⟨m, hm, rfl, _⟩ := Tree.mem_of_carried hc
          exact ⟨lineOf m, List.mem_map_of_mem hm, h.line_loc hm⟩
  clear k hk hnone := by
    obtain ⟨m, hm, rfl⟩ := List.mem_map.mp hk
    have hloc : placeOf (lineOf m) = memberLoc m.1 := h.line_loc hm
    rw [hloc] at hnone ⊢
    by_cases hdb : pkgdbLoc [] <:+ memberLoc m.1
    · exact items_database hdb
    · rw [filesOf_outside hdb, Tree.carried_mem h.distinct hm, noDir_eq_none] at hnone
      have ha := hw.accepts m hm
      rw [Tree.Accepts, if_pos (Tree.isDir_iff_eq.mpr (hnone _ rfl))] at ha
      rw [items_outside hdb]
      rcases ha with ha | ha
      · rw [ha, noDir_none]
      · rw [ha, noDir_dir]

omit h in
theorem lists_fresh : (booksOf t).lists pkg = none :=
  lists_eq_none.mpr (not_installed_of_fresh hw.fresh)

end

end Fidelix.Pkgtools
