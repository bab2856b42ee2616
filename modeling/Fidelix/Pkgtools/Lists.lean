import Fidelix.Pkgtools.Uninstall

namespace Fidelix.Pkgtools

open Text Files

/-- The lists that `find` finds. -/
def lists (t : Tree) : List Loc :=
  (t.below (pkgdbLoc [])).filter fun p => p.head? == some contentsName

/-- How many lines the pattern for `f` selects in the lists of all packages. -/
def occurrences (t : Tree) (f : Str) : Nat :=
  ((lists t).map fun p => Tree.countLines ('^' :: (f ++ ['$'])) (t.node p)).sum

structure Database (t : Tree) : Prop where
  dir : t.node (pkgdbLoc []) = some .dir
  own : ∀ p ∈ lists t, ∃ n, p = contentsLoc [] n ∧ ProperName n ∧ OneWord n ∧
    ∃ e ls, t.node p = some (.file e ls)

theorem mem_lists {t : Tree} {p : Loc} :
    p ∈ lists t ↔ pkgdbLoc [] <:+ p ∧ (t.node p).isSome ∧ p.head? = some contentsName := by
  simp [lists, Tree.mem_below, and_assoc]

theorem contentsLoc_mem_lists {t : Tree} {pkg : Str} (h : (t.node (contentsLoc [] pkg)).isSome) :
    contentsLoc [] pkg ∈ lists t :=
  mem_lists.mpr ⟨⟨[contentsName, pkg], rfl⟩, h, rfl⟩

def listAt (t : Tree) (n : Str) : Bool :=
  match t.node (contentsLoc [] n) with
  | some (.file _ _) => true
  | _ => false

theorem database_of_lists {t : Tree} {ns : List Str} (hl : lists t = ns.map (contentsLoc []))
    (hd : t.dirAt (pkgdbLoc []) = true)
    (hn : ∀ n ∈ ns, ProperName n ∧ OneWord n ∧ listAt t n = true) : Database t where
  dir := (t.dirAt_iff _).mp hd
  own p hp := by
    rw [hl, List.mem_map] at hp
    obtain ⟨n, hm, rfl⟩ := hp
    obtain ⟨hpr, ho, hf⟩ := hn n hm
    refine ⟨n, rfl, hpr, ho, ?_⟩
    rw [listAt] at hf
    split at hf
    · rename_i e ls he
      exact ⟨e, ls, he⟩
    · cases hf

theorem pathFrom_list (n : Str) :
    Tree.pathFrom pkgdb (pkgdbLoc []) (contentsLoc [] n) = path (path pkgdb n) contentsName := by
  simp [Tree.pathFrom, contentsLoc, entryLoc, pkgdbLoc, path]

namespace Database

variable {t : Tree} (h : Database t)
include h

theorem contentsFiles_eq :
    contentsFiles t [] = ((lists t).map (Tree.pathFrom pkgdb (pkgdbLoc []))).insertionSort
      (notAfter · ·) := by
  have hfind : t.find [] pkgdb contentsName =
      ((lists t).map (Tree.pathFrom pkgdb (pkgdbLoc []))).insertionSort (notAfter · ·) := by
    rw [Tree.find, place_pkgdb h.dir]
    rfl
  have hword : ∀ w ∈ t.find [] pkgdb contentsName, expand t [] w = [w] := by
    intro w hw
    rw [hfind, List.mem_insertionSort, List.mem_map] at hw
    obtain ⟨p, hp, rfl⟩ := hw
    obtain ⟨n, rfl, _, ho, _⟩ := h.own p hp
    rw [pathFrom_list]
    exact expand_oneWord _ _ (oneWord_path (oneWord_path (by decide) ho) (by decide))
  rw [contentsFiles, ← hfind]
  generalize t.find [] pkgdb contentsName = ws at hword
  induction ws with
  | nil => rfl
  | cons w ws ih =>
      rw [List.flatMap_cons, hword w (by simp), ih fun v hv => hword v (List.mem_cons_of_mem _ hv)]
      rfl

theorem grepFile_list {t' : Tree} {p : Loc} (hp : p ∈ lists t) (hn : t'.node p = t.node p)
    (pat : Str) :
    t'.grepFile [] pat (Tree.pathFrom pkgdb (pkgdbLoc []) p) = Tree.countLines pat (t.node p) := by
  obtain ⟨n, rfl, hpr, _, e, ls, hls⟩ := h.own p hp
  rw [hls] at hn
  have hdir : t'.node (entryLoc [] n) = some .dir :=
    t'.parent contentsName _ (by rw [← contentsLoc, hn]; rfl)
  have hst : t'.stat [] (path (path pkgdb n) contentsName) = some (contentsLoc [] n) := by
    rw [Tree.stat_of_place (place_entryFile hpr proper_contents hdir)]
    exact Tree.deref_of_node hn (by simp)
  have hfile : t'.dirAt (contentsLoc [] n) = false := by simp [Tree.dirAt, hn]
  rw [pathFrom_list, Tree.grepFile, hst]
  simp only [hfile, Bool.false_eq_true, if_false, hn, hls]

theorem count_eq {t' : Tree} (hn : ∀ p ∈ lists t, t'.node p = t.node p) (f : Str) :
    count t' [] (contentsFiles t []) f = occurrences t f := by
  have hperm :=
    List.perm_insertionSort (notAfter · ·) ((lists t).map (Tree.pathFrom pkgdb (pkgdbLoc [])))
  rw [count, Tree.grepCount, h.contentsFiles_eq, (hperm.map _).sum_eq, List.map_map, occurrences]
  congr 1
  apply List.map_congr_left
  intro p hp
  exact h.grepFile_list hp (hn p hp) _

end Database

theorem leadsToDir_within {t t' : Tree} (h : t'.Within t) {p : Loc} (hp : t'.leadsToDir p = true) :
    t.leadsToDir p = true := by
  rcases Tree.leadsToDir_iff.mp hp with hd | ⟨g, d, hg, hw, hd⟩
  · exact Tree.leadsToDir_iff.mpr (.inl (h _ _ hd))
  · exact Tree.leadsToDir_iff.mpr (.inr ⟨g, d, h _ _ hg, hw.mono h le_rfl, h _ _ hd⟩)

theorem rmfileStep_node (cf : List Str) (t : Tree) (f : Str) (p : Loc) :
    (rmfileStep [] cf t f).node p =
    if t.place [] f = some p ∧ t.leadsToDir p = false ∧ count t [] cf f = 1 then none
      else t.node p := by
  rw [rmfileStep]
  cases hp : t.place [] f with
  | none =>
      have hrm : t.rm [] (here f) = t := by
        rw [Tree.rm, place_here, hp]
      simp [removepkg_rmfile, hrm]
  | some e =>
      rw [Tree.isDir_eq_leadsToDir (by rw [place_here, hp])]
      cases hd : t.leadsToDir e with
      | true =>
          have hne : ¬ (some e = some p ∧ t.leadsToDir p = false ∧ count t [] cf f = 1) := by
            rintro ⟨he, hl, _⟩
            rw [Option.some.inj he, hl] at hd
            cases hd
          rw [if_neg hne]
          rfl
      | false =>
          simp only [Bool.false_eq_true, if_false, removepkg_rmfile]
          by_cases hc : count t [] cf f = 1
          · rw [if_pos hc, Tree.rm, place_here, hp]
            simp only
            cases hu : t.unlink e with
            | some u =>
                rw [Option.getD_some, Tree.unlink_node hu]
                by_cases he : p = e
                · subst he
                  simp [hd, hc]
                · rw [if_neg he, if_neg fun h => he (Option.some.inj h.1).symm]
            | none =>
                have hnode : t.node e = none := by
                  by_contra hs
                  obtain ⟨u, hu'⟩ :=
                    Tree.unlink_isSome (Option.isSome_iff_ne_none.mpr hs)
                    (Tree.ne_dir_of_leadsToDir hd)
                  rw [hu] at hu'
                  cases hu'
                rw [Option.getD_none]
                split
                · rename_i h
                  rw [← Option.some.inj h.1, hnode]
                · rfl
          · rw [if_neg hc, if_neg fun h => hc h.2.2]

structure Removable (t : Tree) (pkg : Str) : Prop extends Database t where
  name : ProperName pkg
  list : ∃ e ls, t.node (contentsLoc [] pkg) = some (.file e ls)
  steady : ∀ f ∈ readContents t [] pkg, ∀ p ∈ lists t, t.place [] f ≠ some p

/-- A line for the path removes it: it leads to no directory, and the pattern for the
line selects one line of the database only. -/
def Cleared (t : Tree) (fs : List Str) (p : Loc) : Prop :=
  t.leadsToDir p = false ∧ ∃ f ∈ fs, t.place [] f = some p ∧ occurrences t f = 1

instance (t : Tree) (fs : List Str) (p : Loc) : Decidable (Cleared t fs p) :=
  inferInstanceAs (Decidable (t.leadsToDir p = false ∧ ∃ f ∈ fs, t.place [] f = some p ∧
    occurrences t f = 1))

namespace Removable

variable {t : Tree} {pkg : Str} (h : Removable t pkg)
include h

theorem readContents_congr {t' : Tree}
    (hn : t'.node (contentsLoc [] pkg) = t.node (contentsLoc [] pkg)) :
    readContents t' [] pkg = readContents t [] pkg := by
  obtain ⟨e, ls, hls⟩ := h.list
  have hdir : ∀ u : Tree, u.node (contentsLoc [] pkg) = some (.file e ls) →
      u.text [] (path (path pkgdb pkg) contentsName) = some ls := by
    intro u hu
    have hd : u.node (entryLoc [] pkg) = some .dir :=
      u.parent contentsName _ (by rw [← contentsLoc, hu]; rfl)
    exact Tree.text_of_place (place_entryFile h.name proper_contents hd) hu
  rw [readContents, readContents, hdir t hls, hdir t' (hn.trans hls)]

theorem own_list : contentsLoc [] pkg ∈ lists t := by
  obtain ⟨e, ls, hls⟩ := h.list
  exact contentsLoc_mem_lists (by rw [hls]; rfl)

theorem uninstallFiles_node {fs : List Str} (hfs : ∀ f ∈ fs, f ∈ readContents t [] pkg) :
    FileLoop t (readContents t [] pkg) (uninstallFiles [] (contentsFiles t []) t fs) ∧
      ∀ p, (Cleared t fs p → (uninstallFiles [] (contentsFiles t []) t fs).node p = none) ∧
        (¬ Cleared t fs p → (uninstallFiles [] (contentsFiles t []) t fs).node p = t.node p) := by
  induction fs using List.reverseRecOn with
  | nil =>
      refine ⟨fileLoop_refl t _, fun p => ⟨?_, fun _ => rfl⟩⟩
      rintro ⟨_, f, hf, _⟩
      cases hf
  | append_singleton fs f ih =>
      obtain ⟨hl, hnode⟩ := ih fun g hg => hfs g (List.mem_append_left _ hg)
      have hf := hfs f (by simp)
      have hstep : uninstallFiles [] (contentsFiles t []) t (fs ++ [f]) =
          rmfileStep [] (contentsFiles t []) (uninstallFiles [] (contentsFiles t []) t fs) f := by
        rw [uninstallFiles, List.foldl_append]
        rfl
      rw [hstep]
      refine ⟨hl.step hf, fun p => ?_⟩
      generalize uninstallFiles [] (contentsFiles t []) t fs = u at hl hnode
      have hplace : u.place [] f = t.place [] f := by
        cases hp : t.place [] f with
        | some q => exact Tree.placeAt_keeps hl.keeps (by rw [start_nil]; exact t.root) hp
        | none =>
            cases hq : u.place [] f with
            | none => rfl
            | some q =>
                rw [Tree.place_within hl.within hq] at hp
                cases hp
      have hleads : u.leadsToDir p = t.leadsToDir p := by
        cases hd : t.leadsToDir p with
        | true => exact Tree.leadsToDir_keeps hl.keeps hd
        | false =>
            by_contra hne
            rw [leadsToDir_within hl.within (by simpa using hne)] at hd
            cases hd
      have hcount : count u [] (contentsFiles t []) f = occurrences t f :=
        h.count_eq (fun q hq => hl.unnamed q fun g hg => h.steady g hg q hq) f
      rw [rmfileStep_node, hplace, hleads, hcount]
      have hiff : Cleared t (fs ++ [f]) p ↔
          Cleared t fs p ∨
            (t.place [] f = some p ∧ t.leadsToDir p = false ∧ occurrences t f = 1) := by
        simp only [Cleared, List.mem_append, List.mem_singleton]
        constructor
        · rintro ⟨hd, g, hg | rfl, hp, ho⟩
          · exact .inl ⟨hd, g, hg, hp, ho⟩
          · exact .inr ⟨hp, hd, ho⟩
        · rintro (⟨hd, g, hg, hp, ho⟩ | ⟨hp, hd, ho⟩)
          · exact ⟨hd, g, .inl hg, hp, ho⟩
          · exact ⟨hd, f, .inr rfl, hp, ho⟩
      rw [hiff]
      constructor
      · rintro (hc | hc)
        · rw [(hnode p).1 hc, ite_self]
        · rw [if_pos hc]
      · intro hn
        rw [not_or] at hn
        rw [if_neg hn.2]
        exact (hnode p).2 hn.1

theorem uninstall_file {t' : Tree} (hun : uninstall [] (contentsFiles t []) pkg t = some t')
    {p : Loc} {x : Node} (hp : t.node p = some x) (hx : x ≠ .dir) :
    t'.node p = if entryLoc [] pkg <:+ p ∨ Cleared t (readContents t [] pkg) p then none
      else some x := by
  obtain ⟨u, v, hu, _, hr, hnode⟩ := uninstall_steps h.name h.dir hun
  have hfile := (h.uninstallFiles_node fun _ hf => hf).2 p
  rw [← hu] at hfile
  rw [hnode]
  by_cases hE : entryLoc [] pkg <:+ p
  · rw [if_pos hE, if_pos (.inl hE)]
  · rw [if_neg hE]
    by_cases hc : Cleared t (readContents t [] pkg) p
    · rw [if_pos (.inr hc)]
      have hnone := hfile.1 hc
      by_contra hs
      obtain ⟨y, hy⟩ := Option.ne_none_iff_exists'.mp hs
      rw [hr.within _ _ hy] at hnone
      cases hnone
    · rw [if_neg (not_or.mpr ⟨hE, hc⟩)]
      exact hr.file ((hfile.2 hc).trans hp) hx

end Removable

end Fidelix.Pkgtools
