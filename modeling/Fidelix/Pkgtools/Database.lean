import Fidelix.Files.Climb
import Fidelix.Pkgtools.Root

namespace Fidelix.Pkgtools

open Text Files

def ProperName (n : Str) : Prop := n ≠ [] ∧ '/' ∉ n ∧ n ≠ dot ∧ n ≠ dotdot

instance (n : Str) : Decidable (ProperName n) := inferInstanceAs (Decidable (_ ∧ _))

def linesOf (t : Tree) (pkg : Str) : List Str :=
  match t.node (contentsLoc [] pkg) with
  | some (.file _ ls) => ls
  | _ => []

def entries (t : Tree) : List Str := t.children (pkgdbLoc [])

def fileLine (l : Str) : Bool := l.getLast? != some '/'

theorem linesOf_eq {t : Tree} {pkg l : Str} (h : l ∈ linesOf t pkg) :
    ∃ e ls, t.node (contentsLoc [] pkg) = some (.file e ls) ∧ linesOf t pkg = ls ∧ l ∈ ls := by
  rw [linesOf] at h
  split at h
  · rename_i e ls he
    exact ⟨e, ls, he, by rw [linesOf, he], h⟩
  · simp at h

theorem linesOf_congr {t t' : Tree} {pkg : Str}
    (h : t'.node (contentsLoc [] pkg) = t.node (contentsLoc [] pkg)) :
    linesOf t' pkg = linesOf t pkg := by
  rw [linesOf, linesOf, h]

theorem linesOf_within {t t' : Tree} {pkg l : Str} (h : t'.Within t) (hl : l ∈ linesOf t' pkg) :
    l ∈ linesOf t pkg := by
  obtain ⟨e, ls, hn, _, hm⟩ := linesOf_eq hl
  rw [linesOf, h _ _ hn]
  exact hm

theorem entry_dir {t : Tree} {pkg l : Str} (h : l ∈ linesOf t pkg) :
    t.node (entryLoc [] pkg) = some .dir ∧ t.node (pkgdbLoc []) = some .dir := by
  obtain ⟨e, ls, hn, _, _⟩ := linesOf_eq h
  have h1 : t.node (entryLoc [] pkg) = some .dir :=
    t.parent contentsName _ (by rw [← contentsLoc, hn]; rfl)
  exact ⟨h1, t.parent pkg _ (by rw [← entryLoc, h1]; rfl)⟩

theorem mem_entries {t : Tree} {pkg l : Str} (h : l ∈ linesOf t pkg) : pkg ∈ entries t := by
  rw [entries, Tree.mem_children, ← entryLoc, (entry_dir h).1]
  rfl

theorem place_real {t : Tree} {s n : Str} (cs : List Str) (hc : comps s = cs ++ [n])
    (hcs : ∀ m ∈ cs ++ [n], m ≠ dot ∧ m ≠ dotdot) (h : t.node cs.reverse = some .dir) :
    t.place [] s = some (n :: cs.reverse) := by
  have hn := hcs n (by simp)
  have hw := Tree.walks_real Tree.linkLimit (fun m hm =>
    hcs m (List.mem_append_left _ (List.mem_reverse.mp hm))) h
  rw [List.reverse_reverse] at hw
  exact Tree.place_iff_walks.mpr ⟨n, cs.reverse, by rw [hc, List.getLast?_concat], hn.1, hn.2,
    by rwa [hc, List.dropLast_concat], h, rfl⟩

theorem comps_name {n : Str} (h : n ≠ [] ∧ '/' ∉ n) : comps n = [n] :=
  comps_append_name [] n (.inl rfl) h.1 h.2

theorem comps_entry {pkg : Str} (h : ProperName pkg) :
    comps (path pkgdb pkg) = [varName, pkgdbName] ++ [pkg] := by
  rw [comps_path _ h.1, comps_name ⟨h.1, h.2.1⟩]
  rfl

theorem comps_entryFile {pkg file : Str} (h : ProperName pkg) (hf : ProperName file) :
    comps (path (path pkgdb pkg) file) = [varName, pkgdbName, pkg] ++ [file] := by
  rw [comps_path _ hf.1, comps_name ⟨hf.1, hf.2.1⟩, path, names_append_slash,
    names_of_not_mem pkg h.1 h.2.1]
  rfl

theorem place_pkgdb {t : Tree} (h : t.node (pkgdbLoc []) = some .dir) :
    t.place [] pkgdb = some (pkgdbLoc []) :=
  place_real [varName] rfl (by decide) (t.parent pkgdbName _ (Option.isSome_iff_exists.mpr ⟨_, h⟩))

theorem place_entry {t : Tree} {pkg : Str} (hn : ProperName pkg)
    (h : t.node (pkgdbLoc []) = some .dir) :
    t.place [] (path pkgdb pkg) = some (entryLoc [] pkg) := by
  refine place_real _ (comps_entry hn) (fun m hm => ?_) h
  simp only [List.cons_append, List.nil_append, List.mem_cons, List.not_mem_nil, or_false] at hm
  rcases hm with rfl | rfl | rfl
  · decide
  · decide
  · exact ⟨hn.2.2.1, hn.2.2.2⟩

theorem place_entryFile {t : Tree} {pkg file : Str} (hn : ProperName pkg) (hf : ProperName file)
    (h : t.node (entryLoc [] pkg) = some .dir) :
    t.place [] (path (path pkgdb pkg) file) = some (file :: entryLoc [] pkg) := by
  refine place_real _ (comps_entryFile hn hf) (fun m hm => ?_) h
  simp only [List.cons_append, List.nil_append, List.mem_cons, List.not_mem_nil, or_false] at hm
  rcases hm with rfl | rfl | rfl | rfl
  · decide
  · decide
  · exact ⟨hn.2.2.1, hn.2.2.2⟩
  · exact ⟨hf.2.2.1, hf.2.2.2⟩

theorem proper_contents : ProperName contentsName := by decide

theorem mem_contentsFiles {t : Tree} {pkg l : Str} (hw : OneWord pkg) (h : l ∈ linesOf t pkg) :
    path (path pkgdb pkg) contentsName ∈ contentsFiles t [] := by
  have hword : OneWord (path (path pkgdb pkg) contentsName) :=
    oneWord_path (oneWord_path (by decide) hw) (by decide)
  obtain ⟨e, ls, hn, _, _⟩ := linesOf_eq h
  refine List.mem_flatMap.mpr ⟨path (path pkgdb pkg) contentsName, ?_, by
    rw [expand_oneWord _ _ hword]; simp⟩
  rw [Tree.find, place_pkgdb (entry_dir h).2]
  simp only [List.mem_insertionSort, List.mem_map, List.mem_filter, Tree.mem_below]
  refine ⟨contentsLoc [] pkg, ⟨⟨⟨[contentsName, pkg], rfl⟩, by rw [hn]; rfl⟩, rfl⟩, ?_⟩
  simp [Tree.pathFrom, contentsLoc, entryLoc, pkgdbLoc, path]

theorem two_le_sum {α : Type} {l : List α} {a b : α} {f : α → Nat} (ha : a ∈ l) (hb : b ∈ l)
    (hne : a ≠ b) (hfa : 0 < f a) (hfb : 0 < f b) : 2 ≤ (l.map f).sum := by
  have hpos {l : List α} {a : α} (ha : a ∈ l) (hfa : 0 < f a) : 0 < (l.map f).sum :=
    List.sum_pos_iff_exists_pos_nat.mpr ⟨f a, List.mem_map_of_mem ha, hfa⟩
  induction l with
  | nil => simp at ha
  | cons c l ih =>
      rw [List.map_cons, List.sum_cons]
      rcases List.mem_cons.mp ha with rfl | ha'
      · have := hpos ((List.mem_cons.mp hb).resolve_left (Ne.symm hne)) hfb
        omega
      · rcases List.mem_cons.mp hb with rfl | hb'
        · have := hpos ha' hfa
          omega
        · have := ih ha' hb'
          omega

theorem grepFile_pos {t : Tree} {pkg f : Str} (hp : ProperName pkg)
    (hs : search ('^' :: (f ++ ['$'])) f = true) (h : f ∈ linesOf t pkg) :
    0 < t.grepFile [] ('^' :: (f ++ ['$'])) (path (path pkgdb pkg) contentsName) := by
  obtain ⟨e, ls, hn, _, hl⟩ := linesOf_eq h
  have hst : t.stat [] (path (path pkgdb pkg) contentsName) = some (contentsLoc [] pkg) := by
    rw [Tree.stat_of_place (place_entryFile hp proper_contents (entry_dir h).1)]
    exact Tree.deref_of_node hn (by simp)
  have hdir : t.dirAt (contentsLoc [] pkg) = false := by simp [Tree.dirAt, hn]
  rw [Tree.grepFile, hst]
  simp only [hdir, Bool.false_eq_true, if_false, hn, Tree.countLines]
  exact List.countP_pos_iff.mpr ⟨f, hl, hs⟩

theorem count_shared {t : Tree} {cf : List Str} {pkg other f : Str} (hp : ProperName pkg)
    (ho : ProperName other) (hne : other ≠ pkg) (hs : search ('^' :: (f ++ ['$'])) f = true)
    (h1 : f ∈ linesOf t pkg) (h2 : f ∈ linesOf t other)
    (hm1 : path (path pkgdb pkg) contentsName ∈ cf)
    (hm2 : path (path pkgdb other) contentsName ∈ cf) :
    2 ≤ count t [] cf f := by
  have hpath : path (path pkgdb pkg) contentsName ≠ path (path pkgdb other) contentsName := by
    simp [path, Ne.symm hne]
  exact two_le_sum hm1 hm2 hpath (grepFile_pos hp hs h1) (grepFile_pos ho hs h2)

end Fidelix.Pkgtools
