import Fidelix.Files.Frame
import Fidelix.Pkgtools.Removepkg

namespace Fidelix.Pkgtools

open Text Files

theorem comps_ne_nil {s : Str} (hs : s ≠ []) : comps s ≠ [] := by
  by_cases hl : s.getLast? = some '/'
  · rw [comps, if_pos hl]
    simp
  · obtain ⟨a, n, rfl, ha, hn, hm⟩ := exists_dir_name s hs hl
    rw [comps_append_name a n ha hn hm]
    simp

theorem getLast?_path (a : Str) {s : Str} (hs : s ≠ []) : (path a s).getLast? = s.getLast? := by
  rw [path, List.getLast?_append_of_ne_nil _ (List.cons_ne_nil _ _),
    List.getLast?_cons_of_ne_nil hs]

theorem comps_path (a : Str) {s : Str} (hs : s ≠ []) : comps (path a s) = names a ++ comps s := by
  rw [comps, getLast?_path a hs, path, names_append_slash, comps, List.append_assoc]

theorem stat_slash (t : Tree) (cwd : Loc) {s : Str} (hs : s ≠ []) :
    t.stat cwd (path ['/'] s) = t.stat [] s := by
  rw [Tree.stat, if_neg (by simp [path]), Tree.stat, if_neg hs, comps_path _ hs, start_nil]
  rfl

theorem place_slash (t : Tree) (cwd : Loc) {s : Str} (hs : s ≠ []) :
    t.place cwd (path ['/'] s) = t.place [] s := by
  rw [Tree.place, Tree.place, comps_path _ hs, start_nil]
  rfl

theorem stat_here (t : Tree) {s : Str} (hs : s ≠ []) : t.stat [] (here s) = t.stat [] s := by
  rw [Tree.stat, if_neg (by simp [here]), Tree.stat, if_neg hs, start_nil, start_nil,
    show here s = path dot s from rfl, comps_path _ hs]
  exact Tree.statAt_dot t [] (comps_ne_nil hs)

theorem place_here (t : Tree) (s : Str) : t.place [] (here s) = t.place [] s := by
  by_cases hs : s = []
  · subst hs
    rfl
  · rw [Tree.place, Tree.place, start_nil, start_nil, show here s = path dot s from rfl,
      comps_path _ hs]
    exact Tree.placeAt_dot t [] (comps_ne_nil hs)

theorem stat_rootDir (t : Tree) (cwd : Loc) : t.stat cwd ['/'] = some [] := rfl

theorem entryIn_slash (pkgname : Str) :
    entryIn ['/'] pkgname = path ['/'] (path pkgdb pkgname) := by
  simp [entryIn, pkgdbIn, path]

theorem entryFile_slash (pkgname file : Str) :
    path (entryIn ['/'] pkgname) file = path ['/'] (path (path pkgdb pkgname) file) := by
  simp [entryIn, pkgdbIn, path]

theorem path_ne_nil (a b : Str) : path a b ≠ [] := by simp [path]

theorem oneWord_path {a b : Str} (ha : OneWord a) (hb : OneWord b) : OneWord (path a b) := by
  refine ⟨path_ne_nil a b, fun c hc => ?_⟩
  simp only [path, List.mem_append, List.mem_cons] at hc
  rcases hc with hc | rfl | hc
  · exact ha.2 c hc
  · decide
  · exact hb.2 c hc

end Fidelix.Pkgtools
