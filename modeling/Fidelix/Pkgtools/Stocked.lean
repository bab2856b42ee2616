import Fidelix.Pkgtools.Parcel
import Fidelix.Pkgtools.Series

namespace Fidelix.Pkgtools

open Text Files

/-- Each entry is that of an installed package without a hook script, none is set aside, and no
package lists anything in the entry of another one. Whatever is listed as a file is there. -/
structure Stocked (t : Tree) : Prop extends Canonical t where
  slashFree : SlashFree t
  whole : ∀ n ∈ entries t, Installed t n
  settled : ∀ n, t.node (entryLoc [] (n ++ oldpkgSuffix)) = none
  hookless : ∀ n, t.node (douninstName :: entryLoc [] n) = none
  home : ∀ n, ∀ f ∈ linesOf t n, pkgdbLoc [] <:+ (names f).reverse →
    (names f).reverse = pkgdbLoc [] ∨ entryLoc [] n <:+ (names f).reverse
  upper : ∀ n, ∀ f ∈ linesOf t n, ∀ g ∈ linesOf t n, (names g).reverse <:+ (names f).reverse →
    g ≠ f → fileLine g = false
  files : ∀ n, ∀ f ∈ linesOf t n, fileLine f = true →
    ∃ x, t.node (names f).reverse = some x ∧ x ≠ .dir
  folders : ∀ n, ∀ f ∈ linesOf t n, fileLine f = false →
    t.node (names f).reverse = none ∨ t.node (names f).reverse = some .dir

def ToldApart (f g : Str) : Prop :=
  (search ('^' :: (f ++ ['$'])) g = true ↔ g = f) ∧
    (search ('^' :: (g ++ ['$'])) f = true ↔ f = g) ∧ (names f = names g → f = g)

instance (f g : Str) : Decidable (ToldApart f g) := inferInstanceAs (Decidable (_ ∧ _ ∧ _))

structure Welcome (t : Tree) (pkg : Str) (ms : List (Str × Node)) : Prop where
  fresh : t.node (entryLoc [] pkg) = none
  accepts : ∀ m ∈ ms, t.Accepts m
  told : ∀ m ∈ ms, (∀ k ∈ ms, ToldApart (lineOf m) (lineOf k)) ∧
    ∀ n, ∀ f ∈ linesOf t n, ToldApart (lineOf m) f
  links : ∀ f, f ∈ ms.map lineOf ∨ (∃ n, f ∈ linesOf t n) → fileLine f = true →
    (unpacked t pkg ms).isDir [] f = false

theorem place_dirLine {t : Tree} {f : Str} (h : fileLine f = false) : t.place [] f = none := by
  have hl : f.getLast? = some '/' := by simpa [fileLine] using h
  rw [Tree.place, start_nil, Tree.placeAt, comps, if_pos hl, List.getLast?_concat]
  simp

theorem place_fileLine {t : Tree} {f : Str} (hf : PlainLine f) (h : fileLine f = true)
    (hs : (t.node (names f).reverse).isSome) : t.place [] f = some (names f).reverse := by
  have hl : f.getLast? ≠ some '/' := by simpa [fileLine] using h
  have hne : f ≠ [] := by
    rintro rfl
    exact absurd hf.1 (by simp)
  obtain ⟨a, n, rfl, ha, hn, hm⟩ := exists_dir_name f hne hl
  have hc := comps_append_name a n ha hn hm
  rw [names_append_name a n ha hn hm, List.reverse_append, List.reverse_singleton,
    List.singleton_append] at hs ⊢
  refine place_real (names a) hc (fun m hm' => hf.2.1 m ?_) (t.parent n _ hs)
  rwa [names_append_name a n ha hn hm]

theorem not_exec_entryFile {t : Tree} {pkg n : Str} (hp : ProperName pkg) (hn : ProperName n)
    (hd : t.node (entryLoc [] pkg) = some .dir) (h : t.node (n :: entryLoc [] pkg) = none) :
    t.isExec [] (path (path pkgdb pkg) n) = false := by
  rw [Tree.isExec, Tree.stat_of_place (place_entryFile hp hn hd), Tree.deref_none h]
  rfl

namespace Stocked

variable {t : Tree} (h : Stocked t)
include h

omit h in
theorem entry {n : Str} (hn : Installed t n) : t.node (entryLoc [] n) = some .dir :=
  t.parent contentsName _ (mem_lists.mp hn).2.1

theorem not_exec {n : Str} (hn : Installed t n) :
    t.isExec [] (path (path pkgdb n) douninstName) = false :=
  not_exec_entryFile (h.removable hn).name (by decide) (entry hn) (h.hookless n)

theorem other_entry {n m f : Str} (hf : f ∈ linesOf t n) (hne : m ≠ n) :
    ¬ entryLoc [] m <:+ (names f).reverse := by
  intro hs
  rcases h.home n f hf ((List.suffix_cons _ _).trans hs) with h1 | h1
  · rw [h1] at hs
    exact absurd hs.length_le (by simp [entryLoc])
  · exact hne (entryLoc_suffix hs h1)

theorem place_eq {n f : Str} (hf : f ∈ linesOf t n) {x : Node}
    (hx : t.node (names f).reverse = some x) (hd : x ≠ .dir) :
    t.place [] f = some (names f).reverse := by
  apply place_fileLine (h.plain n f hf)
  · by_contra hl
    rw [Bool.not_eq_true] at hl
    rcases h.folders n f hf hl with h1 | h1
    · rw [h1] at hx
      cases hx
    · rw [h1] at hx
      exact hd (Option.some.inj hx).symm
  · rw [hx]
    rfl

end Stocked

theorem not_installed_of_fresh {t : Tree} {n : Str} (h : t.node (entryLoc [] n) = none) :
    ¬ Installed t n := by
  intro hn
  rw [Stocked.entry hn] at h
  cases h

theorem stocked_of_empty {t : Tree} (hd : t.node (pkgdbLoc []) = some .dir) (he : entries t = [])
    (hs : SlashFree t) :
    Stocked t := by
  have hbelow {q : Loc} (hq : pkgdbLoc [] <:+ q) (hne : pkgdbLoc [] ≠ q) : t.node q = none := by
    by_contra hsome
    obtain ⟨n, hn⟩ := Tree.exists_cons_suffix hq hne
    have hmem : n ∈ entries t := by
      rw [entries, Tree.mem_children]
      exact Tree.isSome_of_suffix hn (Option.isSome_iff_ne_none.mpr hsome)
    rw [he] at hmem
    cases hmem
  have hentry (n : Str) : t.node (entryLoc [] n) = none :=
    hbelow (List.suffix_cons _ _) fun h => absurd (congrArg List.length h) (by simp [entryLoc])
  have hno (n : Str) : ¬ Installed t n := not_installed_of_fresh (hentry n)
  have hlines {n f : Str} (hf : f ∈ linesOf t n) : False := hno n (installed_of_mem hf)
  have hlists {p : Loc} (hp : p ∈ lists t) : False := by
    obtain ⟨h1, h2, h3⟩ := mem_lists.mp hp
    rw [hbelow h1] at h2
    · cases h2
    · rintro rfl
      exact absurd h3 (by decide)
  have hnil (n : Str) : linesOf t n = [] := List.eq_nil_iff_forall_not_mem.mpr fun f hf => hlines hf
  exact { dir := hd, own := fun p hp => (hlists hp).elim, read := fun n hn => (hno n hn).elim,
          plain := fun _ _ hf => (hlines hf).elim, nodup := fun n => by simp [hnil n],
          exact := fun _ _ _ hf => (hlines hf).elim, spelled := fun _ _ _ hf => (hlines hf).elim,
          closed := fun _ _ hf => (hlines hf).elim, real := fun _ _ hf => (hlines hf).elim,
          dirs := fun _ _ hf => (hlines hf).elim, apart := fun _ _ hf => (hlines hf).elim,
          slashFree := hs, whole := fun n hn => by simp [he] at hn, settled := fun n => hentry _,
          hookless := fun n => by
            by_contra hsome
            have hp := t.parent douninstName _ (Option.isSome_iff_ne_none.mpr hsome)
            rw [hentry] at hp
            cases hp
          home := fun _ _ hf => (hlines hf).elim, upper := fun _ _ hf => (hlines hf).elim,
          files := fun _ _ hf => (hlines hf).elim, folders := fun _ _ hf => (hlines hf).elim }

theorem Stocked.removed {t u : Tree} {pkgs : List Str} (h : Stocked t) (hr : Removed t u pkgs) :
    Stocked u where
  toCanonical := hr.canonical
  slashFree := h.slashFree.within hr.within
  whole n hn := by
    rw [entries, Tree.mem_children, show n :: pkgdbLoc [] = entryLoc [] n from rfl,
      hr.isSome_iff] at hn
    refine (hr.installed n).mpr ⟨h.whole n ?_, fun hm => hn.outside n hm (List.suffix_refl _)⟩
    rw [entries, Tree.mem_children]
    exact hn.isSome
  settled n := by
    by_contra hs
    obtain ⟨x, hx⟩ := Option.ne_none_iff_exists'.mp hs
    have hx' := hr.within _ _ hx
    rw [h.settled] at hx'
    cases hx'
  hookless n := by
    by_contra hs
    obtain ⟨x, hx⟩ := Option.ne_none_iff_exists'.mp hs
    have hx' := hr.within _ _ hx
    rw [h.hookless] at hx'
    cases hx'
  home n f hf := h.home n f ((hr.lines n f).mp hf).1
  upper n f hf g hg := h.upper n f ((hr.lines n f).mp hf).1 g ((hr.lines n g).mp hg).1
  files n f hf hl := by
    obtain ⟨hf, hn⟩ := (hr.lines n f).mp hf
    obtain ⟨x, hx, hd⟩ := h.files n f hf hl
    refine ⟨x, ?_, hd⟩
    rw [hr.node, if_pos, hx]
    rw [h.left_file (by rw [hx]; rfl) (fun he => hd (Option.some.inj (hx.symm.trans he))) hn hf rfl]
    intro m hm
    refine h.other_entry hf ?_
    rintro rfl
    exact hn hm
  folders n f hf hl := by
    rw [hr.node]
    split
    · exact h.folders n f ((hr.lines n f).mp hf).1 hl
    · exact .inl rfl

section

variable {t : Tree} {pkg : Str} {ms : List (Str × Node)} (h : Parcel pkg ms) (hw : Welcome t pkg ms)
include h hw

theorem linesOf_unpacked (n : Str) :
    linesOf (unpacked t pkg ms) n = if n = pkg then ms.map lineOf else linesOf t n := by
  obtain ⟨_, _, _, hnode⟩ := unpacked_node h hw.accepts hw.fresh
  by_cases hn : n = pkg
  · rw [if_pos hn, hn, linesOf, hnode, if_pos rfl]
  · rw [if_neg hn]
    apply linesOf_congr
    have hship : carried ms (contentsLoc [] n) = none := by
      rw [Tree.carried_eq_none]
      intro m hm he
      rcases h.own m hm (he ▸ ⟨[contentsName, n], rfl⟩) with h1 | ⟨h1, h2⟩
      · rw [he] at h1
        exact absurd (congrArg List.length h1) (by
          rw [contentsLoc, entryLoc, List.length_cons, List.length_cons]; omega)
      · rw [he] at h2
        exact h2 rfl
    rw [hnode, if_neg fun he => hn (contentsLoc_inj he), hship, Option.none_or]

theorem mem_linesOf_unpacked {n f : Str} (hf : f ∈ linesOf (unpacked t pkg ms) n) :
    (n = pkg ∧ ∃ m ∈ ms, lineOf m = f) ∨ (n ≠ pkg ∧ f ∈ linesOf t n) := by
  rw [linesOf_unpacked h hw] at hf
  by_cases hn : n = pkg
  · rw [if_pos hn] at hf
    exact .inl ⟨hn, List.mem_map.mp hf⟩
  · rw [if_neg hn] at hf
    exact .inr ⟨hn, hf⟩

theorem mem_lists_unpacked {p : Loc} (hp : p ∈ lists (unpacked t pkg ms)) : p = contentsLoc [] pkg ∨
    p ∈ lists t ∧ (unpacked t pkg ms).node p = t.node p := by
  obtain ⟨_, _, _, hnode⟩ := unpacked_node h hw.accepts hw.fresh
  obtain ⟨h1, h2, h3⟩ := mem_lists.mp hp
  by_cases hc : p = contentsLoc [] pkg
  · exact .inl hc
  · right
    have hship : carried ms p = none := by
      rw [Tree.carried_eq_none]
      intro m hm he
      rcases h.own m hm (he ▸ h1) with h4 | ⟨_, h4⟩
      · rw [← he, h4] at h3
        exact absurd h3 (by decide)
      · rw [he] at h4
        exact h4 h3
    have heq : (unpacked t pkg ms).node p = t.node p :=
      by rw [hnode, if_neg hc, hship, Option.none_or]
    rw [heq] at h2
    exact ⟨mem_lists.mpr ⟨h1, h2, h3⟩, heq⟩

theorem installed_unpacked (n : Str) :
    Installed (unpacked t pkg ms) n ↔ n = pkg ∨ Installed t n := by
  obtain ⟨_, _, _, hnode⟩ := unpacked_node h hw.accepts hw.fresh
  constructor
  · intro hn
    rcases mem_lists_unpacked h hw hn with he | ⟨he, _⟩
    · exact .inl (contentsLoc_inj he)
    · exact .inr he
  · rintro (rfl | hn)
    · exact contentsLoc_mem_lists (by rw [hnode, if_pos rfl]; rfl)
    · apply contentsLoc_mem_lists
      rw [hnode]
      obtain ⟨_, hs, _⟩ := mem_lists.mp hn
      split
      · rfl
      · cases carried ms (contentsLoc [] n) with
        | none => exact hs
        | some x => rfl

theorem unpacked_entry {n : Str} {q : Loc} (hn : n ≠ pkg) (hq : entryLoc [] n <:+ q) :
    (unpacked t pkg ms).node q = t.node q := by
  obtain ⟨_, _, _, hnode⟩ := unpacked_node h hw.accepts hw.fresh
  have hdb : pkgdbLoc [] <:+ q := (List.suffix_cons _ _).trans hq
  have hship : carried ms q = none := by
    rw [Tree.carried_eq_none]
    intro m hm he
    rcases h.own m hm (he ▸ hdb) with h1 | ⟨h1, _⟩
    · rw [← he, h1] at hq
      exact absurd hq.length_le (by simp [entryLoc])
    · rw [he] at h1
      exact hn (entryLoc_suffix hq h1)
  rw [hnode, if_neg, hship, Option.none_or]
  rintro rfl
  exact hn (entryLoc_suffix hq (List.suffix_cons _ _))

theorem mem_pair_unpacked {n m f g : Str} (hc : Canonical t)
    (hf : f ∈ linesOf (unpacked t pkg ms) n) (hg : g ∈ linesOf (unpacked t pkg ms) m) :
    (search ('^' :: (f ++ ['$'])) g = true ↔ g = f) ∧ (names f = names g → f = g) := by
  rcases mem_linesOf_unpacked h hw hf with ⟨_, a, ha, rfl⟩ | ⟨_, hf⟩
  · rcases mem_linesOf_unpacked h hw hg with ⟨_, b, hb, rfl⟩ | ⟨_, hg⟩
    · have hab := (hw.told a ha).1 b hb
      exact ⟨hab.1, hab.2.2⟩
    · have hag := (hw.told a ha).2 m g hg
      exact ⟨hag.1, hag.2.2⟩
  · rcases mem_linesOf_unpacked h hw hg with ⟨_, b, hb, rfl⟩ | ⟨_, hg⟩
    · have hbf := (hw.told b hb).2 n f hf
      exact ⟨hbf.2.1, fun he => (hbf.2.2 he.symm).symm⟩
    · exact ⟨hc.exact n m f hf g hg, hc.spelled n m f hf g hg⟩

section

variable (hs : Stocked t)
include hs

theorem unpacked_files {n f : Str} (hf : f ∈ linesOf (unpacked t pkg ms) n)
    (hl : fileLine f = true) :
    ∃ x, (unpacked t pkg ms).node (names f).reverse = some x ∧ x ≠ .dir := by
  obtain ⟨_, _, _, hnode⟩ := unpacked_node h hw.accepts hw.fresh
  rw [hnode]
  split
  · exact ⟨_, rfl, by simp⟩
  · rcases mem_linesOf_unpacked h hw hf with ⟨_, m, hm, rfl⟩ | ⟨_, hf⟩
    · refine ⟨m.2, ?_, ?_⟩
      · rw [h.line_loc hm, Tree.carried_mem h.distinct hm, Option.some_or]
      · intro hd
        rw [h.kinds m hm, hd] at hl
        cases hl
    · obtain ⟨x, hx, hd⟩ := hs.files n f hf hl
      cases hc : carried ms (names f).reverse with
      | none => exact ⟨x, by rw [Option.none_or, hx], hd⟩
      | some y =>
          refine ⟨y, by rw [Option.some_or], ?_⟩
          rintro rfl
          obtain ⟨m, hm, hloc, hdir⟩ := Tree.mem_of_carried hc
          have ha := hw.accepts m hm
          rw [Tree.Accepts, if_pos (Tree.isDir_iff_eq.mpr hdir), hloc, hx] at ha
          rcases ha with ha | ha
          · cases ha
          · exact hd (Option.some.inj ha)

theorem unpacked_folders {n f : Str} (hf : f ∈ linesOf (unpacked t pkg ms) n)
    (hl : fileLine f = false) :
    (unpacked t pkg ms).node (names f).reverse = none ∨
    (unpacked t pkg ms).node (names f).reverse = some .dir := by
  obtain ⟨_, _, _, hnode⟩ := unpacked_node h hw.accepts hw.fresh
  have hnot : (names f).reverse ≠ contentsLoc [] pkg := by
    intro he
    rcases mem_linesOf_unpacked h hw hf with ⟨rfl, m, hm, rfl⟩ | ⟨hn, hf⟩
    · rw [h.line_loc hm] at he
      exact Tree.carried_eq_none.mp h.list_uncarried m hm he
    · exact hs.other_entry hf (Ne.symm hn) (he ▸ List.suffix_cons _ _)
  rw [hnode, if_neg hnot]
  rcases mem_linesOf_unpacked h hw hf with ⟨_, m, hm, rfl⟩ | ⟨_, hf⟩
  · rw [h.line_loc hm, Tree.carried_mem h.distinct hm, Option.some_or]
    have hk := h.kinds m hm
    rw [hl] at hk
    exact .inr (congrArg some (Tree.isDir_iff_eq.mp (by simpa using hk)))
  · cases hc : carried ms (names f).reverse with
    | none =>
        rw [Option.none_or]
        exact hs.folders n f hf hl
    | some y =>
        obtain ⟨m, hm, hloc, rfl⟩ := Tree.mem_of_carried hc
        have he : lineOf m = f := ((hw.told m hm).2 n f hf).2.2 (by
          rw [h.names_line hm, hloc, List.reverse_reverse])
        have hk := h.kinds m hm
        rw [he, hl] at hk
        rw [Option.some_or]
        exact .inr (congrArg some (Tree.isDir_iff_eq.mp (by simpa using hk)))

theorem unpacked_closed {n f : Str} (hf : f ∈ linesOf (unpacked t pkg ms) n) {e : Loc} (he : e ≠ [])
    (hsuf : e <:+ (names f).reverse) :
    ∃ g ∈ linesOf (unpacked t pkg ms) n, (names g).reverse = e := by
  rcases mem_linesOf_unpacked h hw hf with ⟨rfl, m, hm, rfl⟩ | ⟨hn, hf'⟩
  · rw [h.line_loc hm] at hsuf
    rw [linesOf_unpacked h hw, if_pos rfl]
    obtain ⟨k, hk, hke⟩ : ∃ k ∈ ms, memberLoc k.1 = e := by
      cases hloc : memberLoc m.1 with
      | nil =>
          rw [hloc] at hsuf
          exact absurd (List.suffix_nil.mp hsuf) he
      | cons a d =>
          rw [hloc] at hsuf
          rcases List.suffix_cons_iff.mp hsuf with rfl | hsuf
          · exact ⟨m, hm, hloc⟩
          · rcases h.carried_parent hm (e := e) (by rwa [hloc]) with h0 | hship
            · exact absurd h0 he
            · obtain ⟨k, hk, hke, _⟩ := Tree.mem_of_carried hship
              exact ⟨k, hk, hke⟩
    exact ⟨lineOf k, List.mem_map_of_mem hk, (h.line_loc hk).trans hke⟩
  · rw [linesOf_unpacked h hw, if_neg hn]
    exact hs.closed n f hf' e he hsuf

theorem unpacked_upper {n f g : Str} (hf : f ∈ linesOf (unpacked t pkg ms) n)
    (hg : g ∈ linesOf (unpacked t pkg ms) n) (hsuf : (names g).reverse <:+ (names f).reverse)
    (hne : g ≠ f) : fileLine g = false := by
  rcases mem_linesOf_unpacked h hw hf with ⟨rfl, m, hm, rfl⟩ | ⟨hn, hf⟩
  · rcases mem_linesOf_unpacked h hw hg with ⟨_, k, hk, rfl⟩ | ⟨hn, _⟩
    · rw [h.line_loc hm, h.line_loc hk] at hsuf
      have hdir : k.2.isDir = true := by
        by_cases h0 : memberLoc k.1 = []
        · exact (h.dotted k hk).2.2 h0
        · cases hloc : memberLoc m.1 with
          | nil =>
              rw [hloc] at hsuf
              exact absurd (List.suffix_nil.mp hsuf) h0
          | cons a d =>
              have htail : memberLoc k.1 <:+ (memberLoc m.1).tail := by
                rw [hloc] at hsuf ⊢
                refine (List.suffix_cons_iff.mp hsuf).resolve_left fun he => hne ?_
                have hsame := ((hw.told k hk).1 m hm).2.2
                exact hsame (by rw [h.names_line hk, h.names_line hm, he, hloc])
              have hc := (h.carried_parent hm htail).resolve_left h0
              rw [Tree.carried_mem h.distinct hk, Option.some.injEq] at hc
              exact Tree.isDir_iff_eq.mpr hc
      rw [h.kinds k hk, hdir]
      rfl
    · exact absurd rfl hn
  · rcases mem_linesOf_unpacked h hw hg with ⟨hn', _⟩ | ⟨_, hg⟩
    · exact absurd hn' hn
    · exact hs.upper n f hf g hg hsuf hne

theorem unpacked_dirs {n f : Str} (hf : f ∈ linesOf (unpacked t pkg ms) n) (hplain : PlainLine f)
    (hd : (unpacked t pkg ms).isDir [] f = true) :
    (unpacked t pkg ms).node (names f).reverse = some .dir := by
  by_cases hl : fileLine f = true
  · have hlisted : f ∈ ms.map lineOf ∨ ∃ n, f ∈ linesOf t n := by
      rcases mem_linesOf_unpacked h hw hf with ⟨_, m, hm, rfl⟩ | ⟨_, hf⟩
      · exact .inl (List.mem_map_of_mem hm)
      · exact .inr ⟨n, hf⟩
    rw [hw.links f hlisted hl] at hd
    cases hd
  · by_cases hn : names f = []
    · rw [hn, List.reverse_nil, Tree.root]
    · refine Tree.isDir_solid hn hplain.2.1 (fun e he hsuf => ?_) hd
      obtain ⟨g, hg, rfl⟩ := unpacked_closed h hw hs hf he hsuf
      apply unpacked_folders h hw hs hg
      by_cases hgf : g = f
      · simpa [hgf] using hl
      · exact unpacked_upper h hw hs hf hg hsuf hgf

theorem Canonical.unpacked : Canonical (Pkgtools.unpacked t pkg ms) := by
  obtain ⟨_, _, _, hnode⟩ := unpacked_node h hw.accepts hw.fresh
  have hplain {n f : Str} (hf : f ∈ linesOf (Pkgtools.unpacked t pkg ms) n) : PlainLine f := by
    rcases mem_linesOf_unpacked h hw hf with ⟨_, m, hm, rfl⟩ | ⟨_, hf⟩
    · exact (h.lines m hm).1
    · exact hs.plain n f hf
  have hreal {n f : Str} (hf : f ∈ linesOf (Pkgtools.unpacked t pkg ms) n) {p : Loc}
      (hp : (Pkgtools.unpacked t pkg ms).place [] f = some p) : p = (names f).reverse := by
    by_cases hl : fileLine f = true
    · obtain ⟨x, hx, _⟩ := unpacked_files h hw hs hf hl
      rw [place_fileLine (hplain hf) hl (by rw [hx]; rfl)] at hp
      exact (Option.some.inj hp).symm
    · rw [place_dirLine (by simpa using hl)] at hp
      cases hp
  have hown : ∀ p ∈ lists (Pkgtools.unpacked t pkg ms), ∃ n, p = contentsLoc [] n ∧
    ProperName n ∧ OneWord n ∧
      ∃ e ls, (Pkgtools.unpacked t pkg ms).node p = some (.file e ls) := by
    intro p hp
    rcases mem_lists_unpacked h hw hp with rfl | ⟨hl, heq⟩
    · exact ⟨pkg, rfl, h.name.1, h.name.2, false, ms.map lineOf, by rw [hnode, if_pos rfl]⟩
    · obtain ⟨n, rfl, h1, h2, e, ls, hls⟩ := hs.own p hl
      exact ⟨n, rfl, h1, h2, e, ls, heq.trans hls⟩
  refine ⟨⟨?_, hown⟩, ?_, fun n f hf => hplain hf, ?_, fun n m f hf g hg =>
    (mem_pair_unpacked h hw hs.toCanonical hf hg).1,
    fun n m f hf g hg => (mem_pair_unpacked h hw hs.toCanonical hf hg).2, fun n f hf e he =>
      unpacked_closed h hw hs hf he,
    fun n f hf p hp => hreal hf hp, fun n f hf => unpacked_dirs h hw hs hf (hplain hf), ?_⟩
  · refine (Pkgtools.unpacked t pkg ms).parent pkg _ ?_
    rw [← entryLoc, hnode]
    split
    · rfl
    · rw [h.entry]
      rfl
  · intro n hn
    by_cases hp : n = pkg
    · subst hp
      have hdir : (Pkgtools.unpacked t n ms).node (entryLoc [] n) = some .dir :=
        (Pkgtools.unpacked t n ms).parent contentsName _ (by
          rw [← contentsLoc, hnode, if_pos rfl]; rfl)
      have hfile : (Pkgtools.unpacked t n ms).node (contentsLoc [] n) =
        some (.file false (ms.map lineOf)) := by
        rw [hnode, if_pos rfl]
      rw [linesOf_unpacked h hw, if_pos rfl, readContents,
        Tree.text_of_place (place_entryFile h.name.1 proper_contents hdir) hfile, Option.getD_some]
      apply readLines_verbatim
      intro l hl
      obtain ⟨m, hm, rfl⟩ := List.mem_map.mp hl
      exact (h.lines m hm).2
    · have hi := ((installed_unpacked h hw n).mp hn).resolve_left hp
      have heq := unpacked_entry h hw hp (List.suffix_cons contentsName (entryLoc [] n))
      rw [(hs.removable hi).readContents_congr heq, hs.read n hi, linesOf_congr heq]
  · intro n
    rw [linesOf_unpacked h hw]
    split
    · exact h.lines_nodup
    · exact hs.nodup n
  · intro n f hf p hp hpl
    obtain rfl := hreal hf hpl
    obtain ⟨h1, _, h3⟩ := mem_lists.mp hp
    rcases mem_linesOf_unpacked h hw hf with ⟨rfl, m, hm, rfl⟩ | ⟨hn, hf'⟩
    · rw [h.line_loc hm] at h1 h3
      rcases h.own m hm h1 with h4 | ⟨_, h4⟩
      · rw [h4] at h3
        exact absurd h3 (by decide)
      · exact h4 h3
    · rcases mem_lists_unpacked h hw hp with he | ⟨hl, _⟩
      · exact hs.other_entry hf' (Ne.symm hn) (he ▸ List.suffix_cons _ _)
      · obtain ⟨k, hk, _, _, e, ls, hls⟩ := hs.own _ hl
        exact hs.apart n f hf' _ hl (place_kept (hplain hf) hpl (by rw [hls]; rfl))

theorem Stocked.unpacked : Stocked (Pkgtools.unpacked t pkg ms) := by
  obtain ⟨_, _, _, hnode⟩ := unpacked_node h hw.accepts hw.fresh
  refine ⟨Canonical.unpacked h hw hs, fun n d hsome => ?_, fun n hn => ?_, fun n => ?_, fun n =>
    ?_, fun n f hf hdb => ?_,
    fun n f hf g hg => unpacked_upper h hw hs hf hg, fun n f hf => unpacked_files h hw hs hf,
    fun n f hf => unpacked_folders h hw hs hf⟩
  · rw [hnode] at hsome
    split at hsome
    · rename_i he
      rw [(List.cons.inj he).1]
      decide
    · cases hc : carried ms (n :: d) with
      | none =>
          rw [hc, Option.none_or] at hsome
          exact hs.slashFree n d hsome
      | some x =>
          obtain ⟨m, _, hloc, _⟩ := Tree.mem_of_carried hc
          have hmem : n ∈ names m.1 :=
            List.mem_of_mem_tail (List.mem_reverse.mp (by rw [← memberLoc, hloc]; simp))
          exact not_mem_of_mem_splitOn '/' m.1 n (List.mem_filter.mp hmem).1
  · rw [installed_unpacked h hw]
    by_cases hp : n = pkg
    · exact .inl hp
    · right
      apply hs.whole
      rw [entries, Tree.mem_children] at hn ⊢
      rwa [show n :: pkgdbLoc [] = entryLoc [] n from rfl,
        unpacked_entry h hw hp (List.suffix_refl _)] at hn
  · rw [unpacked_entry h hw _ (List.suffix_refl _), hs.settled]
    rintro rfl
    exact h.settled (List.suffix_append _ _)
  · by_cases hp : n = pkg
    · have hnone : carried ms (douninstName :: entryLoc [] pkg) = none :=
        Tree.carried_eq_none.mpr fun m hm => (h.hookless m hm).2
      rw [hp, hnode, if_neg, hnone, Option.none_or, hs.hookless]
      rw [contentsLoc, List.cons.injEq, not_and]
      exact fun he => absurd he (by decide)
    · rw [unpacked_entry h hw hp (List.suffix_cons _ _), hs.hookless]
  · rcases mem_linesOf_unpacked h hw hf with ⟨rfl, m, hm, rfl⟩ | ⟨_, hf⟩
    · rw [h.line_loc hm] at hdb ⊢
      exact (h.own m hm hdb).imp_right And.left
    · exact hs.home n f hf hdb

end

end

theorem welcome_of_entries {t : Tree} {pkg : Str} {ms : List (Str × Node)}
    (hfresh : (t.node (entryLoc [] pkg)).isNone = true) (hacc : ∀ m ∈ ms, t.Accepts m)
    (htold : ∀ m ∈ ms, (∀ k ∈ ms, ToldApart (lineOf m) (lineOf k)) ∧
      ∀ n ∈ entries t, ∀ f ∈ linesOf t n, ToldApart (lineOf m) f)
    (hlinks : ∀ f ∈ ms.map lineOf ++ (entries t).flatMap (linesOf t), fileLine f = true →
      (unpacked t pkg ms).isDir [] f = false) :
    Welcome t pkg ms where
  fresh := Option.isNone_iff_eq_none.mp hfresh
  accepts := hacc
  told m hm := ⟨(htold m hm).1, fun n f hf => (htold m hm).2 n (mem_entries hf) f hf⟩
  links f hf := by
    apply hlinks
    rw [List.mem_append, List.mem_flatMap]
    exact hf.imp_right fun ⟨n, hn⟩ => ⟨n, mem_entries hn, hn⟩

end Fidelix.Pkgtools
